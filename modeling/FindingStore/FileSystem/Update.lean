import FindingStore.FileSystem.Resolve

namespace FindingStore.FileSystem

def defaultMode : Nat := 0o644

def fileAt? (fs : FileSystem) (l : Location) : Option File :=
  match fs.lookup l with
  | some (.file f) => some f
  | _ => none

theorem fileAt?_eq_some {fs : FileSystem} {l : Location} {f : File} :
    fs.fileAt? l = some f ↔ fs.lookup l = some (.file f) := by
  unfold fileAt?
  split
  · next g hg => simp [hg]
  · next hnone => exact ⟨nofun, fun h ↦ absurd h (hnone f)⟩

def openOrCreate (fs : FileSystem) (p : Path) : Except IoError (Location × FileSystem) := do
  match ← fs.place .creation p with
  | .entry l =>
    match fs.fileAt? l with
    | some f => if f.isWritable then .ok (l, fs) else .error .permissionDenied
    | none => .error .isADirectory
  | .vacancy l => .ok (l, fs.addEntry l (.file { modified := fs.now, mode := defaultMode }))

def writeFile (fs : FileSystem) (p : Path) (content : Bytes) :
    Except IoError (Location × FileSystem) := do
  let (l, fs) ← fs.openOrCreate p
  let old := (fs.fileAt? l).getD { modified := fs.now, mode := defaultMode }
  .ok (l, fs.insert l (.file { old with content, modified := fs.now, isRewritten := true }))

def setMode (fs : FileSystem) (l : Location) (mode : Nat) : FileSystem :=
  match fs.fileAt? l with
  | some f => fs.insert l (.file { f with mode })
  | none => fs

def setModified (fs : FileSystem) (l : Location) (modified : Timestamp) : FileSystem :=
  match fs.lookup l with
  | some (.file f) => fs.insert l (.file { f with modified })
  | some (.directory d) => fs.insert l (.directory { d with modified })
  | _ => fs

def touch (fs : FileSystem) (p : Path) (modified : Timestamp) : Except IoError FileSystem := do
  let l ← fs.follow p
  if ((fs.fileAt? l).map File.isReadable).getD true then .ok (fs.setModified l modified)
  else .error .permissionDenied

def makeDirectory (fs : FileSystem) (p : Path) : Except IoError FileSystem := do
  let slot ← fs.slot p
  match slot.name with
  | none => .error .alreadyExists
  | some name =>
    let l := slot.parent ++ [name]
    if (fs.lookup l).isSome then .error .alreadyExists
    else .ok (fs.addEntry l (.directory fs.now))

/-- Makes a directory at a path, and before it what is missing above it. A directory that is there
already is enough. -/
def makeBelow (above : FileSystem → Except IoError Unit × FileSystem) (fs : FileSystem) (p : Path) :
    Except IoError Unit × FileSystem :=
  let existing (fs : FileSystem) (e : IoError) : Except IoError Unit × FileSystem :=
    match fs.stat p with
    | .ok (.directory _) => (.ok (), fs)
    | _ => (.error e, fs)
  match fs.makeDirectory p with
  | .ok fs => (.ok (), fs)
  | .error .notFound =>
    match above fs with
    | (.error e, fs) => (.error e, fs)
    | (.ok (), fs) =>
      match fs.makeDirectory p with
      | .ok fs => (.ok (), fs)
      | .error e => existing fs e
  | .error e => existing fs e

def makeNames (rooted : Bool) : List Bytes → FileSystem → Except IoError Unit × FileSystem
  | [], fs => (.ok (), fs)
  | name :: above, fs =>
    makeBelow (makeNames rooted above) fs (Path.ofNames rooted (name :: above).reverse)

/-- Makes a directory at a path as it is written, so that a closing name for the directory itself
needs a directory to stand in. -/
def makeDirectories (fs : FileSystem) (p : Path) : Except IoError Unit × FileSystem :=
  if maxPath ≤ p.length then (.error .nameTooLong, fs)
  else if p.isEmpty then (.ok (), fs)
  else
    let ⟨rooted, names⟩ := Path.parts p
    makeBelow (makeNames rooted names.dropLast.reverse) fs p

/-- Puts a file with all its attributes at a path, missing parents first. The date is set last, for
which the file must be readable. -/
def placeFile (fs : FileSystem) (p : Path) (content : Bytes) (mode : Nat) (modified : Timestamp) :
    Except IoError Unit × FileSystem :=
  match fs.makeDirectories (Path.directory p) with
  | (.error e, fs) => (.error e, fs)
  | (.ok (), fs) =>
    match fs.writeFile p content with
    | .error e => (.error e, fs)
    | .ok (l, fs) =>
      let fs := fs.setMode l mode
      if mode.testBit 8 then (.ok (), fs.setModified l modified)
      else (.error .permissionDenied, fs)

def makeLink (fs : FileSystem) (p target : Path) : Except IoError FileSystem := do
  if target.contains 0 then .error .nulInName
  else if target.isEmpty then .error .notFound
  else if maxPath ≤ target.length then .error .nameTooLong
  else
    let slot ← fs.slot p
    match slot.name with
    | none => .error .alreadyExists
    | some name =>
      let l := slot.parent ++ [name]
      if (fs.lookup l).isSome then .error .alreadyExists
      else if slot.closed then .error .notFound
      else .ok (fs.addEntry l (.link target))

def emptyDirectory (fs : FileSystem) (l : Location) : FileSystem :=
  if (fs.below l).isEmpty then fs
  else
    ({ fs with
        entries := fs.entries.filter fun e ↦ !l.isPrefixOf e.1 || e.1 == l } : FileSystem)
      |>.touchDirectory l

def removeDirectory (fs : FileSystem) (p : Path) : Except IoError FileSystem := do
  let slot ← fs.slot p
  match slot.name with
  | none =>
    match (Path.names p).reverse.dropWhile List.isEmpty with
    | [] => .error .busy
    | name :: _ => .error (if name = [Path.dot] then .invalidArgument else .notEmpty)
  | some name =>
    let l := slot.parent ++ [name]
    match fs.lookup l with
    | none => .error .notFound
    | some (.directory _) =>
      if (fs.below l).isEmpty then .ok (fs.dropEntry l) else .error .notEmpty
    | some _ => .error .notADirectory

/-- Removes a file, a link or a whole directory, which is emptied first. It does not matter if the
directory has gone with what was in it. -/
def remove (fs : FileSystem) (p : Path) : Except IoError Unit × FileSystem :=
  match fs.locate p with
  | .error e => (.error e, fs)
  | .ok l =>
    if !fs.isDirectory l then (.ok (), fs.dropEntry l)
    else
      let emptied := fs.emptyDirectory l
      match emptied.removeDirectory p with
      | .ok fs => (.ok (), fs)
      | .error .notFound => (.ok (), emptied)
      | .error e => (.error e, emptied)

def move (fs : FileSystem) (source target : Location) : FileSystem :=
  { fs with
    entries := (fs.eraseTree target).entries.map fun (l, e) ↦
      (if source.isPrefixOf l then target ++ l.drop source.length else l, e) }

def replaceError? (fs : FileSystem) (source target : Location) : Option IoError :=
  match fs.isDirectory source, fs.lookup target with
  | _, none => none
  | true, some (.directory _) => if (fs.below target).isEmpty then none else some .notEmpty
  | true, some _ => some .notADirectory
  | false, some (.directory _) => some .isADirectory
  | false, some _ => none

/-- Gives an entry another name. A link is renamed itself, and what stood at the new name is
replaced. -/
def rename (fs : FileSystem) (p q : Path) : Except IoError FileSystem := do
  let old ← fs.slot p
  let new ← fs.slot q
  match old.name, new.name with
  | some oldName, some newName =>
    let source := old.parent ++ [oldName]
    let target := new.parent ++ [newName]
    if (fs.lookup source).isNone then .error .notFound
    else if !fs.isDirectory source && (old.closed || new.closed) then .error .notADirectory
    else if source.isPrefixOf new.parent then .error .invalidArgument
    else if target.isPrefixOf old.parent then .error .notEmpty
    else if source = target then .ok fs
    else
      match fs.replaceError? source target with
      | some e => .error e
      | none =>
        .ok (((fs.move source target).touchDirectory old.parent).touchDirectory new.parent)
  | _, _ => .error .busy

def listed (l : Location) : Entry → Bytes
  | .directory _ => List.intercalate [Path.slash] l ++ [Path.slash]
  | .file _ => List.intercalate [Path.slash] l
  | .link target => List.intercalate [Path.slash] l ++ Utf8.encode " -> " ++ target

end FindingStore.FileSystem
