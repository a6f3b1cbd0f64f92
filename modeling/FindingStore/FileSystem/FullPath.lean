import FindingStore.FileSystem.Resolve

/-!
The full path of the file of a database. It is put together name by name from the root: a name
going up takes the last name away again, whatever that name stands for, and a link is followed as
soon as its name has been added. Names that do not exist may be passed.
-/

namespace FindingStore.FileSystem.FullPath

def maxWidth : Nat := 512

def suffixWidth : Nat := 8

def maxLinks : Nat := 201

/-- The length in bytes of the path of a place; nothing is written for the root. -/
def width (l : Location) : Nat := (l.flatMap (Path.slash :: ·)).length

/-- Adds names to a place, up to the first link. -/
def extend (fs : FileSystem) : (here : Location) → List Bytes → Stop
  | here, [] => .entry here
  | here, n :: rest =>
    if n = [] ∨ n = [Path.dot] then extend fs here rest
    else if n = [Path.dot, Path.dot] then extend fs here.dropLast rest
    else if maxWidth < width here + n.length + 2 then .failed .nameTooLong
    else
      match fs.linkStat (Location.toPath (here ++ [n])) with
      | .ok (.link target) => .link here target rest
      | .ok _ | .error .notFound => extend fs (here ++ [n]) rest
      | .error e => .failed e

def walk (fs : FileSystem) : (links : Nat) → (here : Location) → List Bytes → Option Location
  | links, here, names =>
    match extend fs here names, links with
    | .entry l, _ => some l
    | .link directory target rest, links + 1 =>
      walk fs links (if Path.isAbsolute target then [] else directory) (Path.names target ++ rest)
    | _, _ => none

def resolve? (fs : FileSystem) (p : Path) : Option Location :=
  (walk fs maxLinks [] (fs.origin p ++ Path.names p)).filter fun l ↦
    !l.isEmpty && decide (width l + suffixWidth ≤ maxWidth)

end FindingStore.FileSystem.FullPath
