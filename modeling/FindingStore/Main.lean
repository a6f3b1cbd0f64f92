import FindingStore.Command.Run
import FindingStore.Database.Snapshot

namespace FindingStore.Main

def location (path : String) : Location :=
  (Path.names (Path.ofText path)).filter fun n ↦ !n.isEmpty

def systemPath (l : Location) : String := Path.display l.toPath

def settingNames : List String :=
  ["FINDSTORE_MAX_ATTEMPTS", "FINDSTORE_BACKOFF_BASE_MS", "FINDSTORE_BUSY_TIMEOUT_MS",
    "FINDSTORE_RETENTION"]

def mentions (directory : Location) (content : Bytes) : List Path :=
  match Snapshot.decode? content, Utf8.decode? content with
  | some t, _ => t.files.filterMap fun r ↦ ((r.path.text? 1 "path").toOption).map Path.ofText
  | none, some source =>
    match Sarif.parse source directory.toPath with
    | .ok results => results.map Sarif.Result.path
    | .error _ => []
  | none, none => []

def wayTo (l : Location) : List Location := (Store.ancestors l).reverse

def stampOf (t : IO.FS.SystemTime) : Timestamp := ⟨t.sec, t.nsec.toNat⟩

/-- Takes in the entry at a place; one that leads elsewhere becomes a link to where it leads. -/
def takeEntry (w : World) (l : Location) : IO World := do
  if l.isEmpty || (w.files.lookup l).isSome then return w
  try
    let path := systemPath l
    let target := (← IO.FS.realPath path).toString
    if target != path then
      return { w with files := w.files.insert l (.link (Path.ofText target)) }
    let info ← (← IO.FS.realPath path).metadata
    match info.type with
    | .dir => return { w with files := w.files.insert l (.directory (stampOf info.modified)) }
    | _ =>
      let content := (← IO.FS.readBinFile path).toList
      let f : File :=
        { content, modified := stampOf info.modified, mode := FileSystem.defaultMode }
      match Snapshot.decode? content with
      | none => return { w with files := w.files.insert l (.file f) }
      | some t =>
        let (n, w) := w.addDatabase { contents := .tables t, log := some { stored := .tables t } }
        return { w with files := w.files.insert l (.file { f with database := some n }) }
  catch _ => return w

def takePath (w : World) (p : Path) : IO World := do
  let l := location (Path.display (Path.join w.files.workingDirectory.toPath p))
  let w ← (wayTo l).foldlM takeEntry w
  try
    let target := (← IO.FS.realPath (systemPath l)).toString
    (wayTo (location target)).foldlM takeEntry w
  catch _ => return w

def argumentPaths (args : List Bytes) : List Path :=
  let values := args.flatMap fun a ↦ [a, (a.dropWhile (· != Arguments.equals)).drop 1]
  values ++ values.filterMap fun v ↦ ((Address.parse .create v).map Address.path).toOption

def contentsOf (fs : FileSystem) : List Bytes :=
  fs.entries.filterMap fun (_, e) ↦
    match e with
    | .file f => some f.content
    | _ => none

def takeIn (args : List Bytes) : IO World := do
  let directory := location (← IO.currentDir).toString
  let stores := (wayTo directory).map fun d ↦
    Path.join (Location.toPath d) (Path.ofText storeFileName)
  let w : World := { files := { workingDirectory := directory } }
  let w ← (stores ++ (argumentPaths args).filter (!·.isEmpty)).foldlM takePath w
  ((contentsOf w.files).flatMap (mentions directory)).foldlM takePath w

def finalContent (w : World) (f : File) : Bytes :=
  match f.database.map w.database with
  | some d => (Snapshot.ofContents d.contents).getD f.content
  | none => f.content

def carryOut (before after : World) : IO Unit := do
  for (l, e) in after.files.entries do
    if let .file f := e then
      let content := finalContent after f
      let old := (before.files.fileAt? l).map (finalContent before)
      if old != some content then
        IO.FS.writeBinFile (systemPath l) ⟨content.toArray⟩

def environment : IO Environment :=
  settingNames.filterMapM fun name ↦ do
    return (← IO.getEnv name).map fun value ↦ (name, Utf8.encode value)

end FindingStore.Main

def main (args : List String) : IO UInt32 := do
  let args := args.map FindingStore.Utf8.encode
  let before ← FindingStore.Main.takeIn args
  let result := FindingStore.Command.runLine before (← FindingStore.Main.environment) args
  IO.print result.output.stdout
  IO.eprint (result.errors fun reason ↦ s!"stopped: {reason}\n")
  FindingStore.Main.carryOut before result.world
  return UInt32.ofNat result.status.code
