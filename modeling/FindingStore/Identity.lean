import FindingStore.FileSystem.Resolve

namespace FindingStore

structure Identity where
  path : String := ""
  mtime : Int := 0
  size : Nat := 0
  deriving DecidableEq, Repr

def directoryBase : Nat := 40

def bytesPerEntry : Nat := 20

def directorySize (fs : FileSystem) (l : Location) : Nat :=
  directoryBase + bytesPerEntry * (fs.children l).length

namespace Identity

/-- The canonical path as text; names that are no text are shown with replacement characters. -/
def ofEntry (fs : FileSystem) (l : Location) : Entry → Identity
  | .file f => ⟨Path.display l.toPath, f.modified.wholeSeconds, f.content.length⟩
  | .directory d => ⟨Path.display l.toPath, d.modified.wholeSeconds, directorySize fs l⟩
  | .link target => ⟨Path.display l.toPath, 0, target.length⟩

def resolve? (fs : FileSystem) (p : Path) : Except IoError Identity := do
  let l ← fs.canonicalize p
  .ok (ofEntry fs l (← fs.entryAt l))

/-- The identity of what a path leads to, the empty one if it leads nowhere. -/
def resolve (fs : FileSystem) (p : Path) : Identity := (resolve? fs p).toOption.getD {}

def isValid (i : Identity) : Bool := i.path != ""

def agrees (i j : Identity) : Bool := i.path == j.path && i.mtime == j.mtime && i.size == j.size

end Identity

end FindingStore
