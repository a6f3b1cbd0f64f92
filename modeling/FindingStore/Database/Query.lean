import FindingStore.Database.Row

namespace FindingStore

inductive Part
  | schema
  | files
  | reports
  deriving DecidableEq, Repr

def Part.name : Part → String
  | .schema => "schema"
  | .files => "files"
  | .reports => "reports"

inductive SqlValue
  | null
  | integer (n : Int)
  | text (s : String)
  deriving DecidableEq, Repr

inductive Query
  | insertFile (id path mtime size : SqlValue)
  | insertReport (file line column tool message : SqlValue)
  | deleteFile (id : SqlValue)
  | deleteAllFiles
  | deleteOlder (path : String) (id : Int)
  | deleteSuperseded
  | rejectReports (message : String)
  | latest (path : String)
  | matching (path : String) (mtime size : Int)
  | reportedPaths
  | reportsOf (id : Int)
  | recordsOf (path : String)
  | allFiles
  | allReports
  deriving DecidableEq, Repr

namespace Query

/-- An insertion of a file gives its id, a deletion the number of files removed. -/
abbrev Reply : Query → Type
  | .insertFile .. => Int
  | .insertReport .. | .rejectReports _ => Unit
  | .deleteFile _ | .deleteAllFiles | .deleteOlder .. | .deleteSuperseded => Nat
  | .latest _ | .matching .. => Option Int
  | .reportedPaths => List String
  | .reportsOf _ => List Remark
  | .recordsOf _ => List FileRecord
  | .allFiles => List FileRow
  | .allReports => List ReportRow

/-- What a statement changes. With a file its reports may go. -/
def changes : Query → List Part
  | .insertFile .. => [.files]
  | .insertReport .. => [.reports]
  | .deleteFile _ | .deleteAllFiles | .deleteOlder .. | .deleteSuperseded => [.files, .reports]
  | .rejectReports _ => [.schema]
  | _ => []

def writes (q : Query) : Bool := !q.changes.isEmpty

def hasEffect : (q : Query) → q.Reply → Bool
  | .insertFile .., _ | .insertReport .., _ | .rejectReports _, _ => true
  | .deleteFile _, n | .deleteAllFiles, n | .deleteOlder .., n | .deleteSuperseded, n =>
    decide ((n : Nat) ≠ 0)
  | _, _ => false

def reads : Query → List Part
  | .latest _ | .matching .. | .recordsOf _ | .allFiles => [.files]
  | .reportedPaths => [.files, .reports]
  | .reportsOf _ | .allReports => [.reports]
  | _ => []

def table : Query → String
  | .insertReport .. | .reportsOf _ | .allReports => "reports"
  | .rejectReports _ => "main.reports"
  | _ => "files"

end Query

/-- Whether a text consists of a sign, digits and surrounding blanks and fits 64 bits. -/
def integerText? (s : String) : Option Int :=
  let blank (c : Char) : Bool := c == ' ' || (decide ('\t' ≤ c) && decide (c ≤ '\x0d'))
  let cs := ((s.toList.dropWhile blank).reverse.dropWhile blank).reverse
  let (sign, digits) : Int × List Char := match cs with
    | '-' :: rest => (-1, rest)
    | '+' :: rest => (1, rest)
    | rest => (1, rest)
  let n := sign * (digits.foldl (fun n c ↦ n * 10 + (c.toNat - '0'.toNat)) 0 : Nat)
  if digits.isEmpty || !digits.all Char.isDigit then none
  else if -0x8000000000000000 ≤ n ∧ n < 0x8000000000000000 then some n
  else none

namespace SqlValue

def asNumber : SqlValue → Option Cell
  | .null => none
  | .integer n => some (.integer n)
  | .text s => some ((integerText? s).elim (.data (.text s)) .integer)

def asText : SqlValue → Option String
  | .null => none
  | .integer n => some (toString n)
  | .text s => some s

def required {α : Type} (column : String) : Option α → Except SqlError α
  | some a => .ok a
  | none => .error (.notNull column)

end SqlValue

namespace Tables

open SqlValue (required)

def newId (t : Tables) (id : SqlValue) : Except SqlError Int :=
  match id.asNumber with
  | none => .ok t.nextId
  | some (.integer n) => .ok n
  | some _ => .error .typeMismatch

def insertFile (t : Tables) (id path mtime size : SqlValue) : Except SqlError (Int × Tables) := do
  let id ← t.newId id
  let path ← required "files.path" path.asText
  let mtime ← required "files.mtime" mtime.asNumber
  let size ← required "files.size" size.asNumber
  if t.hasFile id then .error (.unique "files.id")
  else .ok (id, { t with files := t.files ++ [⟨id, path, mtime, size⟩] })

def refuses (t : Tables) (message : Option String) : Except SqlError Unit :=
  match message with
  | some m => if t.rejected.contains m then .error (.rejected m) else .ok ()
  | none => .ok ()

/-- A report refers to a file by its number; anything else refers to none. -/
def checkReference (t : Tables) (deferred : Bool) (file : Cell) : Except SqlError Unit :=
  if deferred || t.hasFile file then .ok () else .error .foreignKey

/-- A refused message comes before a missing value, and that before a missing file. -/
def insertReport (t : Tables) (deferred : Bool) (file line column tool message : SqlValue) :
    Except SqlError Tables := do
  t.refuses message.asText
  let file ← required "reports.file" file.asNumber
  let line ← required "reports.line" line.asNumber
  let column ← required "reports.column" column.asNumber
  let tool ← required "reports.tool" tool.asText
  let message ← required "reports.message" message.asText
  t.checkReference deferred file
  .ok { t with reports := t.reports ++ [{ file, line, column, tool, message }] }

def delete (t : Tables) (doomed : FileRow → Bool) : Nat × Tables :=
  ((t.files.filter doomed).length, t.deleteFiles doomed)

/-- Runs a statement on the tables. While foreign keys are deferred, a report may come before its
file. -/
def apply (t : Tables) (deferred : Bool) : (q : Query) → Except SqlError (q.Reply × Tables)
  | .insertFile id path mtime size => t.insertFile id path mtime size
  | .insertReport file line column tool message =>
    (t.insertReport deferred file line column tool message).map fun t ↦ ((), t)
  | .deleteFile id => .ok (t.delete fun f ↦ id.asNumber == some (.integer f.id))
  | .deleteAllFiles => .ok (t.delete fun _ ↦ true)
  | .deleteOlder path id => .ok (t.delete fun f ↦ f.path == .text path && decide (f.id < id))
  | .deleteSuperseded => .ok (t.delete t.isSuperseded)
  | .rejectReports message => .ok ((), { t with rejected := t.rejected ++ [message] })
  | .latest path => .ok (t.latest? path, t)
  | .matching path mtime size => .ok (t.matching? path mtime size, t)
  | .reportedPaths => (t.reportedPaths.mapM (Data.text? 0 "path")).map fun paths ↦ (paths, t)
  | .reportsOf id => ((t.reportsOf id).mapM ReportCells.remark?).map fun rows ↦ (rows, t)
  | .recordsOf path => ((t.recordsOf path).mapM FileRow.record?).map fun rows ↦ (rows, t)
  | .allFiles => .ok (byId t.files, t)
  | .allReports => .ok (t.reports, t)

end Tables

/-- What a file holds: something by which every statement fails, nothing yet, a database without
tables, or tables. -/
inductive Contents
  | unusable (e : SqlError)
  | blank
  | bare
  | tables (t : Tables)
  deriving DecidableEq, Repr

def Contents.apply (deferred : Bool) (q : Query) :
    Contents → Except SqlError (q.Reply × Contents)
  | .unusable e => .error e
  | .blank | .bare => .error (.noSuchTable q.table)
  | .tables t => (t.apply deferred q).map fun (reply, t) ↦ (reply, .tables t)

def Contents.isConsistent : Contents → Bool
  | .tables t => t.isConsistent
  | _ => true

end FindingStore
