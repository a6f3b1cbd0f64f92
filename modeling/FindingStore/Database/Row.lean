import FindingStore.Finding
import FindingStore.Order
import FindingStore.Database.Cell

namespace FindingStore

structure FileRow where
  id : Int
  path : Data
  mtime : Cell
  size : Cell
  deriving DecidableEq, Repr

structure ReportCells where
  line : Cell
  column : Cell
  tool : Data
  message : Data
  deriving DecidableEq, Repr

structure ReportRow extends ReportCells where
  file : Cell
  deriving DecidableEq, Repr

/-- Reports stand in the order in which they were inserted. -/
structure Tables where
  files : List FileRow := []
  reports : List ReportRow := []
  /-- Reports with these messages are refused. -/
  rejected : List String := []
  deriving DecidableEq, Repr

def ReportCells.remark? (r : ReportCells) : Except SqlError Remark := do
  let line ← r.line.coordinate? 0 "line"
  let column ← r.column.coordinate? 1 "column"
  let tool ← r.tool.text? 2 "tool"
  let message ← r.message.text? 3 "message"
  .ok { line, column, tool, message }

/-- A negative size reads as zero. -/
def FileRow.record? (r : FileRow) : Except SqlError FileRecord := do
  let path ← r.path.text? 1 "path"
  let mtime ← r.mtime.integer? 2 "mtime"
  let size ← r.size.integer? 3 "size"
  .ok ⟨r.id, path, mtime, size.toNat⟩

namespace Tables

def largest? (ids : List Int) : Option Int := ids.max?

def nextId (t : Tables) : Int := (largest? (t.files.map FileRow.id)).elim 1 (· + 1)

def hasFile (t : Tables) (id : Cell) : Bool := t.files.any fun f ↦ id == .integer f.id

def idsOf (t : Tables) (path : Data) : List Int :=
  (t.files.filter (·.path == path)).map FileRow.id

def latest? (t : Tables) (path : Data) : Option Int := largest? (t.idsOf path)

def matching? (t : Tables) (path : String) (mtime size : Int) : Option Int :=
  largest? ((t.files.filter fun r ↦
    r.path == .text path && r.mtime == .integer mtime && r.size == .integer size).map FileRow.id)

def reportedPaths (t : Tables) : List Data :=
  Order.sortBy Data.le <| Order.firstOccurrences <|
    (t.files.filter fun f ↦ t.reports.any (·.file == .integer f.id)).map FileRow.path

/-- The different reports on a file, in the order in which they first came. -/
def reportsOf (t : Tables) (id : Int) : List ReportCells :=
  Order.firstOccurrences ((t.reports.filter (·.file == .integer id)).map ReportRow.toReportCells)

def byId (rows : List FileRow) : List FileRow := Order.sortBy (fun a b ↦ decide (a.id ≤ b.id)) rows

def recordsOf (t : Tables) (path : String) : List FileRow :=
  byId (t.files.filter (·.path == .text path))

def deleteFiles (t : Tables) (doomed : FileRow → Bool) : Tables :=
  let kept := t.files.filter fun f ↦ !doomed f
  let gone := (t.files.filter doomed).map (Cell.integer ·.id)
  { t with files := kept, reports := t.reports.filter fun r ↦ !gone.contains r.file }

def isSuperseded (t : Tables) (f : FileRow) : Bool := t.latest? f.path != some f.id

def isConsistent (t : Tables) : Bool := t.reports.all fun r ↦ t.hasFile r.file

end Tables

end FindingStore
