import FindingStore.FileSystem.Update

namespace FindingStore.FileSystem

inductive ReplaceStep
  | create
  | append (index : Nat)
  | sync
  | permit
  | rename
  deriving DecidableEq, Repr

/-- The steps that the device refuses, each with the error it gives. -/
abbrev Device := ReplaceStep → Option IoError

def Device.sound : Device := fun _ ↦ none

def privateMode : Nat := 0o600

def sixDigits (n : Nat) : List Char := List.leftpad 6 '0' (Nat.toDigits 10 n)

def temporaryName (name : Bytes) (n : Nat) : Bytes :=
  Utf8.ofChars (['.'] ++ Utf8.shownChars name ++ ['.'] ++ sixDigits n ++ ['.', 'n', 'e', 'w'])

def freeName? (fs : FileSystem) (directory : Location) (name : Bytes) : Option Bytes :=
  ((List.range (fs.entries.length + 1)).map (temporaryName name)).find? fun n ↦
    (fs.lookup (directory ++ [n])).isNone

/-- Creates the temporary file for a path, empty and private. Its full path must fit. -/
def createTemporary (fs : FileSystem) (p : Path) : Except IoError (Location × FileSystem) :=
  let name := (Path.fileName? p).getD []
  let full := Path.join (Path.join fs.workingDirectory.toPath (Path.directory p))
    (temporaryName name 0)
  if p.contains 0 then .error .nulInName
  else if maxPath ≤ full.length then .error .nameTooLong
  else do
    let directory ← fs.follow (Path.directory p)
    if !fs.isDirectory directory then .error .notADirectory
    else if maxName < (temporaryName name 0).length then .error .nameTooLong
    else
      match fs.freeName? directory name with
      | none => .error .alreadyExists
      | some n =>
        let l := directory ++ [n]
        .ok (l, fs.addEntry l (.file { modified := fs.now, mode := privateMode }))

def appendTo (fs : FileSystem) (l : Location) (chunk : Bytes) : FileSystem :=
  match fs.fileAt? l with
  | some f => fs.insert l (.file { f with content := f.content ++ chunk, modified := fs.now })
  | none => fs

def appendAll (device : Device) (l : Location) :
    (index : Nat) → FileSystem → List Bytes → Except IoError FileSystem
  | _, fs, [] => .ok fs
  | index, fs, chunk :: rest =>
    match device (.append index) with
    | some e => .error e
    | none => appendAll device l (index + 1) (fs.appendTo l chunk) rest

def copyMode (device : Device) (fs : FileSystem) (p : Path) (l : Location) :
    Except IoError FileSystem :=
  match fs.stat p with
  | .ok entry =>
    match device .permit with
    | some e => .error e
    | none => .ok (fs.setMode l entry.mode)
  | .error _ => .ok fs

def persist (device : Device) (fs : FileSystem) (l : Location) (p : Path) :
    Except IoError FileSystem :=
  match device .rename with
  | some e => .error e
  | none => fs.rename l.toPath p

def sync (device : Device) (fs : FileSystem) : Except IoError FileSystem :=
  match device .sync with
  | some e => .error e
  | none => .ok fs

def fillAndRename (device : Device) (fs : FileSystem) (l : Location) (p : Path)
    (chunks : List Bytes) : Except IoError FileSystem := do
  let fs ← appendAll device l 0 fs chunks
  let fs ← sync device fs
  let fs ← copyMode device fs p l
  persist device fs l p

def replaceFile (device : Device) (fs : FileSystem) (p : Path) (chunks : List Bytes) :
    Except IoError Unit × FileSystem :=
  match device .create with
  | some e => (.error e, fs)
  | none =>
    match fs.createTemporary p with
    | .error e => (.error e, fs)
    | .ok (l, created) =>
      match fillAndRename device created l p chunks with
      | .ok done => (.ok (), done)
      | .error e => (.error e, created.dropEntry l)

end FindingStore.FileSystem
