import FindingStore.Text.Utf8

namespace FindingStore

abbrev Path := Bytes

namespace Path

def slash : UInt8 := 0x2F

def dot : UInt8 := 0x2E

def ofText (s : String) : Path := Utf8.encode s

def isAbsolute (p : Path) : Bool := p.head? == some slash

def join (base p : Path) : Path :=
  if isAbsolute p then p
  else if base.isEmpty || base.getLast? == some slash then base ++ p
  else base ++ slash :: p

/-- The names between the slashes; a doubled or closing slash gives an empty name. -/
def names (p : Path) : List Bytes := p.splitOn slash

def display (p : Path) : String := Utf8.decodeLossy p

/-- The parts of a path by which two spellings count as the same path: repeated and closing
slashes and the name of the directory itself do not matter, unless the path begins with it. -/
structure Parts where
  rooted : Bool
  names : List Bytes
  deriving DecidableEq, Repr

def parts (p : Path) : Parts :=
  let kept := (names p).filter fun n ↦ !n.isEmpty && n != [dot]
  if isAbsolute p then ⟨true, kept⟩
  else if (names p).head? == some [dot] then ⟨false, [dot] :: kept⟩
  else ⟨false, kept⟩

def ofNames (rooted : Bool) (names : List Bytes) : Path :=
  (if rooted then [slash] else []) ++ List.intercalate [slash] names

/-- The last name, unless the path ends in the root, in the directory itself or goes up. -/
def fileName? (p : Path) : Option Bytes :=
  match (parts p).names.getLast? with
  | some n => if n = [dot, dot] ∨ n = [dot] then none else some n
  | none => none

/-- The path of the directory in which the last name stands, the working directory for a single
name. -/
def directory (p : Path) : Path :=
  let ⟨rooted, names⟩ := parts p
  match names with
  | [] => [dot]
  | _ => if !rooted && names.length = 1 then [dot] else ofNames rooted names.dropLast

end Path

end FindingStore
