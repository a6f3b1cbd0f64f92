import FindingStore.FileSystem.Update

namespace FindingStore

inductive Companion
  /-- What is needed to undo the changes of a file. -/
  | journal
  /-- The changes that the file has not yet received. -/
  | log
  /-- Where to find something in the log. -/
  | index
  /-- A directory that stands for a lock. -/
  | lock
  deriving DecidableEq, Repr

def Companion.suffix : Companion → Bytes
  | .journal => Path.ofText "-journal"
  | .log => Path.ofText "-wal"
  | .index => Path.ofText "-shm"
  | .lock => Path.ofText ".lock"

def Location.companion (l : Location) (c : Companion) : Location :=
  l.dropLast ++ [l.getLast?.getD [] ++ c.suffix]

namespace FileSystem

/-- Whether something else than an empty file stands at a place; links are followed. -/
def isOccupied (fs : FileSystem) (l : Location) : Bool :=
  match fs.stat l.toPath with
  | .ok (.file f) => !f.content.isEmpty
  | .ok _ => true
  | .error _ => false

/-- Whether a file can be opened at a place, or created there; links are not followed. -/
def admitsFile (fs : FileSystem) (l : Location) : Bool :=
  fs.isDirectory l.dropLast && decide ((l.getLast?.getD []).length ≤ maxName) &&
    match fs.lookup l with
    | none | some (.file _) => true
    | _ => false

def provide (fs : FileSystem) (l : Location) (content : Bytes) (mode : Nat) : FileSystem :=
  if (fs.lookup l).isSome then fs
  else fs.addEntry l (.file { content, modified := fs.now, mode })

def discard (fs : FileSystem) (l : Location) : FileSystem :=
  if (fs.lookup l).isNone || fs.isDirectory l then fs else fs.dropEntry l

def logAt? (fs : FileSystem) (l : Location) : Option Nat :=
  (fs.fileAt? l).bind fun f ↦ if f.isRewritten then none else f.log

def keepLog (fs : FileSystem) (l : Location) (n : Nat) : FileSystem :=
  match fs.fileAt? l with
  | some f => fs.insert l (.file { f with content := [], log := some n, isRewritten := false })
  | none => fs

def fillLog (fs : FileSystem) (n : Nat) : FileSystem :=
  match fs.findFile? fun f ↦ f.log == some n with
  | some (l, f) => fs.insert l (.file { f with content := [0], isRewritten := false })
  | none => fs

def isLogRewritten (fs : FileSystem) (n : Nat) : Bool :=
  (fs.findFile? fun f ↦ f.log == some n && f.isRewritten).isSome

end FileSystem

end FindingStore
