import FindingStore.FileSystem.Basic

namespace FindingStore.FileSystem

def maxName : Nat := 255

/-- A path that is handed over as a whole must be shorter than this, in bytes. -/
def maxPath : Nat := 4096

def maxLinks : Nat := 40

/-- What a path is resolved for: the entry that it leads to, the entry that it names, which may be
a link, or a file that is created if it does not exist. -/
inductive Purpose
  | target
  | entry
  | creation
  deriving DecidableEq, Repr

inductive Stop
  | entry (l : Location)
  | vacancy (l : Location)
  | link (directory : Location) (target : Path) (rest : List Bytes)
  | failed (e : IoError)
  deriving DecidableEq, Repr

def notDirectory (fs : FileSystem) (l : Location) : IoError :=
  if (fs.lookup l).isSome then .notADirectory else .notFound

/-- Walks to the end of the names or to the first link that has to be followed. A name that a slash
follows is no name for a file. -/
def advance (fs : FileSystem) (purpose : Purpose) : (here : Location) → List Bytes → Stop
  | here, [] => .entry here
  | here, n :: rest =>
    if !fs.isDirectory here then .failed (fs.notDirectory here)
    else if n = [] ∨ n = [Path.dot] then advance fs purpose here rest
    else if n = [Path.dot, Path.dot] then advance fs purpose here.dropLast rest
    else if purpose = .creation ∧ !rest.isEmpty ∧ rest.all List.isEmpty then .failed .isADirectory
    else if maxName < n.length then .failed .nameTooLong
    else
      match fs.lookup (here ++ [n]) with
      | none => if rest.isEmpty then .vacancy (here ++ [n]) else .failed .notFound
      | some (.link target) =>
        if rest.isEmpty && purpose == .entry then .entry (here ++ [n]) else .link here target rest
      | some _ => advance fs purpose (here ++ [n]) rest

inductive Place
  | entry (l : Location)
  | vacancy (l : Location)
  deriving DecidableEq, Repr

def walk (fs : FileSystem) (purpose : Purpose) :
    (links : Nat) → (here : Location) → List Bytes → Except IoError Place
  | links, here, names =>
    match advance fs purpose here names, links with
    | .entry l, _ => .ok (.entry l)
    | .vacancy l, _ => .ok (.vacancy l)
    | .failed e, _ => .error e
    | .link _ _ _, 0 => .error .tooManyLinks
    | .link directory target rest, links + 1 =>
      walk fs purpose links (if Path.isAbsolute target then [] else directory)
        (Path.names target ++ rest)

/-- The path of the working directory, which may have been removed. -/
def currentDirectory (fs : FileSystem) : Except IoError Path :=
  if fs.isDirectory fs.workingDirectory then .ok fs.workingDirectory.toPath else .error .notFound

def origin (fs : FileSystem) (p : Path) : Location :=
  if Path.isAbsolute p then [] else fs.workingDirectory

/-- Resolves a path name by name. -/
def search (fs : FileSystem) (purpose : Purpose) (p : Path) : Except IoError Place :=
  if p.contains 0 then .error .nulInName
  else if p.isEmpty then .error .notFound
  else walk fs purpose maxLinks (fs.origin p) (Path.names p)

/-- Resolves a path that is handed over as a whole. -/
def place (fs : FileSystem) (purpose : Purpose) (p : Path) : Except IoError Place :=
  if !p.contains 0 && decide (maxPath ≤ p.length) then .error .nameTooLong
  else fs.search purpose p

def entryPlace : Place → Except IoError Location
  | .entry l => .ok l
  | .vacancy _ => .error .notFound

/-- The place of the entry that a path of any length leads to, through links. The path that is
written for the place must not be too long. -/
def canonicalize (fs : FileSystem) (p : Path) : Except IoError Location := do
  let l ← (fs.search .target p).bind entryPlace
  if maxPath ≤ l.toPath.length then .error .nameTooLong else .ok l

def follow (fs : FileSystem) (p : Path) : Except IoError Location :=
  (fs.place .target p).bind entryPlace

def locate (fs : FileSystem) (p : Path) : Except IoError Location :=
  (fs.place .entry p).bind entryPlace

def entryAt (fs : FileSystem) (l : Location) : Except IoError Entry :=
  match fs.lookup l with
  | some e => .ok e
  | none => .error .notFound

def stat (fs : FileSystem) (p : Path) : Except IoError Entry := do
  fs.entryAt (← fs.follow p)

def linkStat (fs : FileSystem) (p : Path) : Except IoError Entry := do
  fs.entryAt (← fs.locate p)

def isFile (fs : FileSystem) (p : Path) : Bool :=
  match fs.stat p with
  | .ok (.file _) => true
  | _ => false

def read (fs : FileSystem) (p : Path) : Except IoError Bytes := do
  match ← fs.stat p with
  | .file f => if f.isReadable then .ok f.content else .error .permissionDenied
  | .directory _ => .error .isADirectory
  | .link _ => .error .notFound

def readText (fs : FileSystem) (p : Path) : Except IoError String := do
  match Utf8.decode? (← fs.read p) with
  | some s => .ok s
  | none => .error .notText

/-- A name in a directory, as the operations on names see it. -/
structure Slot where
  parent : Location
  name : Option Bytes
  closed : Bool
  deriving DecidableEq, Repr

/-- The slot that a path names. The directory is reached through links, the name is not. -/
def slot (fs : FileSystem) (p : Path) : Except IoError Slot :=
  if p.contains 0 then .error .nulInName
  else if p.isEmpty then .error .notFound
  else if maxPath ≤ p.length then .error .nameTooLong
  else
    match (Path.names p).reverse.dropWhile List.isEmpty with
    | [] => .ok ⟨[], none, true⟩
    | name :: before => do
      let parent ← (walk fs .target maxLinks (fs.origin p) before.reverse).bind entryPlace
      if !fs.isDirectory parent then .error .notADirectory
      else if name = [Path.dot] ∨ name = [Path.dot, Path.dot] then
        .ok ⟨parent, none, p.getLast? == some Path.slash⟩
      else if maxName < name.length then .error .nameTooLong
      else .ok ⟨parent, some name, p.getLast? == some Path.slash⟩

end FindingStore.FileSystem
