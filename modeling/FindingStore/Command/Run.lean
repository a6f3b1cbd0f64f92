import FindingStore.LineBuffer
import FindingStore.Command.Arguments
import FindingStore.Ledger
import FindingStore.Rewrite
import FindingStore.Sarif

namespace FindingStore.Command

inductive Status
  | success
  | failure
  | usage
  /-- The run-time system stops the program and tells why. -/
  | crash (reason : String)
  deriving DecidableEq, Repr

def Status.code : Status → Nat
  | .success => 0
  | .failure => 1
  | .usage => 2
  | .crash _ => 101

structure Output where
  stdout : String := ""
  stderr : String := ""
  deriving DecidableEq, Repr

namespace Output

def print (o : Output) (line : String) : Output := { o with stdout := o.stdout ++ line ++ "\n" }

def warn (o : Output) (line : String) : Output := { o with stderr := o.stderr ++ line ++ "\n" }

def source (o : Output) (line : Bytes) (column width : Nat) : Output :=
  (o.print ("  " ++ Utf8.decodeLossy line)).print ("  " ++ carets line column width)

end Output

structure Result where
  output : Output
  status : Status
  world : World

/-- All that is written to the stream for errors, given the words in which the run-time system tells
why it stops a program. -/
def Result.errors (r : Result) (report : String → String) : String :=
  match r.status with
  | .crash reason => r.output.stderr ++ report reason
  | _ => r.output.stderr

inductive Fatal
  | store (e : StoreError)
  | rule (e : Rewrite.RuleError)
  | rewrite (e : Rewrite.RewriteError)
  | readLog (path : Path) (e : IoError)
  | currentDirectory (e : IoError)
  | parseLog (e : Json.ReadError)
  deriving DecidableEq, Repr

def Fatal.chain : Fatal → List String
  | .store e => e.chain
  | .rule e => [e.message]
  | .rewrite e => e.chain
  | .readLog path e => [s!"read {Path.display path}", e.message]
  | .currentDirectory e => ["resolve current directory", e.message]
  | .parseLog e => ["parse SARIF JSON", e.message]

def Fatal.message (f : Fatal) : String := "error: " ++ ": ".intercalate f.chain

/-- A timeout that the engine cannot take stops the program where it is. -/
def die (o : Output) (w : World) : Fatal → Result
  | .store .timeoutTooLong => ⟨o, .crash StoreError.timeoutTooLong.message, w⟩
  | f => ⟨o.warn f.message, .failure, w⟩

def finish (o : Output) (ok : Bool) (w : World) : Result :=
  ⟨o, if ok then .success else .failure, w⟩

def openStore (w : World) (config : Config) : Option Path → Except StoreError Store × World
  | some p => Store.openExisting w p config
  | none => Store.discover w [Path.dot] config

def withStore (w : World) (config : Config) (db : Option Path) (run : Store → World → Result) :
    Result :=
  match openStore w config db with
  | (.error e, w) => die {} w (.store e)
  | (.ok s, w) =>
    let result := run s w
    { result with world := s.close result.world }

def initStore (w : World) (config : Config) (db : Option Path) : Result :=
  let path := db.getD (Path.ofText storeFileName)
  match Store.create w path config with
  | (.error e, w) => die {} w (.store e)
  | (.ok s, w) =>
    finish (({} : Output).print s!"initialized {Path.display path}") true (s.close w)

inductive Format
  | plain
  | withSource
  | json
  deriving DecidableEq, Repr

def Format.of (source json : Bool) : Format :=
  if json then .json else if source then .withSource else .plain

/-- A report in progress. Each file is read once, when its first finding is shown. -/
structure Listing where
  output : Output := {}
  clean : Bool := true
  buffers : List (String × Option LineBuffer) := []
  fatal : Option StoreError := none

def Listing.buffer (l : Listing) (fs : FileSystem) (path : String) :
    Option LineBuffer × Listing :=
  match l.buffers.lookup path with
  | some e => (e, l)
  | none =>
    let e := (LineBuffer.read fs (Path.ofText path)).toOption
    (e, { l with buffers := (path, e) :: l.buffers })

def Listing.showSource (l : Listing) (fs : FileSystem) (f : Finding) : Listing :=
  let (buffer, l) := l.buffer fs f.path
  match buffer.bind (·.line? f.line) with
  | some line => { l with output := l.output.source line f.column 1 }
  | none => l

def Listing.showFinding (l : Listing) (fs : FileSystem) (format : Format) (f : Finding) :
    Listing :=
  match format with
  | .json => { l with output := l.output.print f.json }
  | .plain => { l with output := l.output.print f.render }
  | .withSource => ({ l with output := l.output.print f.render } : Listing).showSource fs f

def Listing.visit (fs : FileSystem) (format : Format) (l : Listing) :
    ReplayItem → Listing × Replay.Flow
  | .ok (.finding f) => (l.showFinding fs format f, .proceed)
  | .ok (.missing path) =>
    ({ l with
        output := l.output.warn s!"{path}: error: could not find file on disk"
        clean := false }, .proceed)
  | .ok (.unmatched path) =>
    ({ l with
        output := l.output.warn s!"{path}: error: could not find report for current file"
        clean := false }, .proceed)
  | .error e => ({ l with fatal := some e }, .proceed)

def reportFindings (format : Format) (s : Store) (w : World) : Result :=
  let w := s.look w
  match Replay.start s w with
  | .error e => die {} w (.store e)
  | .ok r =>
    let l := r.fold (s.reads w) (Listing.visit w.files format) {}
    match l.fatal with
    | some e => die l.output w (.store e)
    | none => finish l.output l.clean w

def showFailure (o : Output) (f : Rewrite.Failure) : Output :=
  let o := (o.print f.finding.render).print s!"  error: {f.reason.message}"
  match f.sourceLine with
  | some line => o.source line f.finding.column f.width
  | none => o

def showSummary (o : Output) (dryRun : Bool) (summary : Rewrite.Summary) : Output :=
  if dryRun then o.print s!"{summary.applied} patches checked, no files written"
  else o.print s!"{summary.applied} patches applied to {summary.written.length} files"

def patchFiles (tool : String) (rewrites : List String) (dryRun : Bool) (s : Store) (w : World) :
    Result :=
  match Rewrite.Rules.parse rewrites with
  | .error e => die {} w (.rule e)
  | .ok rules =>
    match Rewrite.apply s w tool rules dryRun with
    | (.error e, w) => die {} w (.rewrite e)
    | (.ok summary, w) =>
      let o := summary.failures.foldl showFailure {}
      if summary.succeeded then finish (showSummary o dryRun summary) true w
      else finish (o.warn "error: changes not applied because of previous errors") false w

def recordResult (fs : FileSystem) (state : Output × Ledger) (r : Sarif.Result) :
    Output × Ledger :=
  match state.2.record fs r.path r.toRemark with
  | (.ok (), l) => (state.1, l)
  | (.error e, l) => (state.1.warn s!"error: {e.message}", l)

def land (results : List Sarif.Result) (marks : List Path) (s : Store) (w : World) : Result :=
  let marked := marks.foldl Ledger.mark ({} : Ledger)
  let (o, ledger) := results.foldl (recordResult w.files) ({}, marked)
  let c := ledger.commit s {} w
  match c.result with
  | .error e => die o c.state (.store e)
  | .ok stats =>
    finish (o.print s!"imported {stats.findings} findings for {stats.files} files")
      c.ledger.error.isNone c.state

def ingestLog (log : Path) (marks : List Path) (s : Store) (w : World) : Result :=
  match w.files.readText log with
  | .error e => die {} w (.readLog log e)
  | .ok content =>
    match w.files.currentDirectory with
    | .error e => die {} w (.currentDirectory e)
    | .ok base =>
      match Sarif.parse content base with
      | .error e => die {} w (.parseLog e)
      | .ok results => land results marks s w

def prunedStore (s : Store) (w : World) : Result :=
  match s.prune w with
  | (.error e, _, w) => die {} w (.store e)
  | (.ok removed, _, w) =>
    finish (({} : Output).print s!"removed {removed} superseded file rows") true w

def run (w : World) (config : Config) : Command → Result
  | .init db => initStore w config db
  | .report db source json => withStore w config db (reportFindings (Format.of source json))
  | .patch db tool rewrites dryRun => withStore w config db (patchFiles tool rewrites dryRun)
  | .ingest db log marks => withStore w config db (ingestLog log marks)
  | .prune db => withStore w config db prunedStore

def version : String := "findstore 0.1.0"

def usage : String :=
  "usage: findstore [-v] init|report|patch|import|prune [--db PATH] [OPTIONS]"

/-- Runs a command in a process of its own, which shares no cache and no memory with the sessions
that are open. -/
def runApart (w : World) (config : Config) (command : Command) : Result :=
  let result := run { w with sessions := [] } config command
  { result with world := { result.world with sessions := w.sessions } }

def runLine (w : World) (env : Environment) (args : List Bytes) : Result :=
  match Arguments.parse? false args with
  | none => ⟨({} : Output).warn usage, .usage, w⟩
  | some .version => ⟨({} : Output).print version, .success, w⟩
  | some .help => ⟨({} : Output).print usage, .success, w⟩
  | some (.run _ command) => runApart w (.ofEnvironment env) command

end FindingStore.Command
