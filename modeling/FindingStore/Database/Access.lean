import FindingStore.Database.Query
import FindingStore.FileSystem.Basic

namespace FindingStore

inductive FileLayer
  | standard
  /-- The same, with the index of the log in the memory of the process. -/
  | exclusive
  /-- A directory beside the file is its only lock. -/
  | lockDirectory
  | unlocked
  | memory
  deriving DecidableEq, Repr

namespace FileLayer

def takesLocks : FileLayer → Bool
  | .standard | .exclusive | .memory => true
  | .lockDirectory | .unlocked => false

/-- Whether a log can be kept beside a file, and whether it is noticed that the file has moved. -/
def tracksFile : FileLayer → Bool
  | .standard | .exclusive => true
  | .lockDirectory | .unlocked | .memory => false

end FileLayer

inductive Residence
  | file (l : Location)
  | memory (name : Option Path)
  deriving DecidableEq, Repr

def Residence.isFile : Residence → Bool
  | .file _ => true
  | .memory _ => false

structure Access where
  session : Nat := 0
  /-- Sessions with the same cache see each other's locks on single tables. -/
  cache : Nat := 0
  residence : Residence := .memory none
  layer : FileLayer := .standard
  ignoresLocks : Bool := false
  readOnly : Bool := false
  /-- Whether the file is taken to be unchanging, so that locks and a log do not count. -/
  isFrozen : Bool := false
  /-- What the session sees in place of the contents. -/
  sight : Option Contents := none
  journalError : Option SqlError := none
  deriving DecidableEq, Repr

def Access.takesLocks (a : Access) : Bool := a.layer.takesLocks && !a.ignoresLocks

def Access.usesDirectory (a : Access) : Bool := a.layer == .lockDirectory && !a.ignoresLocks

def Access.keepsLog (a : Access) : Bool :=
  a.layer.tracksFile && a.residence.isFile && !a.isFrozen && !a.ignoresLocks

/-- Whether the session takes the file for a blank one, which others use with a log. -/
def Access.isOutside (a : Access) : Bool := a.sight == some .blank

end FindingStore
