import FindingStore.Json.Value

namespace FindingStore

/-- A statement of a tool about a line and a column; a line or column zero stands for none. -/
structure Remark where
  line : Nat
  column : Nat
  tool : String
  message : String
  deriving DecidableEq, Repr

structure Finding extends Remark where
  path : String
  deriving DecidableEq, Repr

def Finding.render (f : Finding) : String :=
  s!"{f.path}:{f.line}:{f.column}: ({f.tool}) {f.message}"

def Finding.json (f : Finding) : String :=
  Json.writeObject
    [("path", .string f.path), ("line", .integer f.line), ("column", .integer f.column),
      ("tool", .string f.tool), ("message", .string f.message)]

/-- One observed state of a file: the whole second of its last change, and its size. -/
structure FileRecord where
  id : Int
  path : String
  mtime : Int
  size : Nat
  deriving DecidableEq, Repr

def FileRecord.json (r : FileRecord) : String :=
  Json.writeObject
    [("id", .integer r.id), ("path", .string r.path), ("mtime", .integer r.mtime),
      ("size", .integer r.size)]

end FindingStore
