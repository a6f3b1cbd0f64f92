import FindingStore.Database.Script
import FindingStore.Store.Transaction
import FindingStore.World.Opening

namespace FindingStore

structure Store where
  path : Path
  policy : Retry.Policy
  retention : Retention
  lastError : Option String := none
  database : Nat
  access : Access
  deriving DecidableEq, Repr

namespace Store

def maxBusyTimeout : Nat := 0x7FFFFFFF

def connection (s : Store) : Connection World := fun statement w ↦
  w.execute s.database s.access statement

def ask (s : Store) (w : World) (q : Query) : Except SqlError q.Reply :=
  (s.connection (.query q) w).1

/-- The world after a store has looked at its file, as it does before it reads anything. -/
def look (s : Store) (w : World) : World :=
  let (a, w) := w.reach s.database s.access
  w.learn s.database a

def close (s : Store) (w : World) : World := w.leave s.database s.access

def connect (w : World) (p : Path) (config : Config) (mode : AccessMode) :
    Except StoreError Store × World :=
  match w.openDatabase p mode with
  | .error failure => (.error (.cannotOpen p failure), w)
  | .ok o =>
    let s : Store :=
      { path := p
        policy := .ofConfig config
        retention := config.retention
        database := o.database
        access := o.access }
    if maxBusyTimeout < config.busyTimeoutMs then (.error .timeoutTooLong, s.close o.world)
    else
      match (o.world.database s.database).schemaLock? s.access with
      | some e => (.error (.sql "prepare" e), s.close o.world)
      | none => (.ok s, o.world)

def openExisting (w : World) (p : Path) (config : Config) : Except StoreError Store × World :=
  connect w p config .readWrite

def journalStatement : String := "\n    PRAGMA journal_mode = WAL;"

def tableStatement : String :=
  "\n\n    CREATE TABLE IF NOT EXISTS files (\n        id INTEGER PRIMARY KEY,\n" ++
  "        path TEXT NOT NULL,\n        mtime INTEGER NOT NULL,\n" ++
  "        size INTEGER NOT NULL\n    );"

def schemaContext : World.ProvisionStep → String
  | .preparation => "prepare"
  | .journal => journalStatement
  | .tables => tableStatement

def create (w : World) (p : Path) (config : Config) : Except StoreError Store × World :=
  match connect w p config .create with
  | (.error e, w) => (.error e, w)
  | (.ok s, w) =>
    match w.provide s.database s.access with
    | (.ok (), w) => (.ok s, w)
    | (.error (step, e), w) => (.error (.sql (schemaContext step) e), s.close w)

def ancestors (l : Location) : List Location :=
  (List.range (l.length + 1)).map fun n ↦ l.take (l.length - n)

def locate (fs : FileSystem) (start : Path) : Except StoreError Path :=
  match fs.canonicalize start with
  | .error e => .error (.cannotResolve start e)
  | .ok l =>
    let candidates := (ancestors l).map fun d ↦
      Path.join (Location.toPath d) (Path.ofText storeFileName)
    match candidates.find? fs.isFile with
    | some p => .ok p
    | none => .error (.notFound l.toPath)

def discover (w : World) (start : Path) (config : Config) : Except StoreError Store × World :=
  match locate w.files start with
  | .error e => (.error e, w)
  | .ok p => openExisting w p config

def scriptError : Script.Failure → StoreError
  | .unprepared e => .sql "prepare" e
  | .openParameters text => .unboundParameters text
  | .failed text e => .sql text e

def runStatement (s : Store) (text : List Char) (w : World) :
    Except Script.Failure Unit × World :=
  let (a, w) := w.reach s.database s.access
  let before := w.database s.database
  let (result, d) := Script.runStatement a text before
  (result, ((w.setDatabase s.database d).settle s.database a before).learn s.database a)

def runStatements (s : Store) : List (List Char) → World → Except Script.Failure Unit × World
  | [], w => (.ok (), w)
  | text :: rest, w =>
    match s.runStatement text w with
    | (.ok (), w) => s.runStatements rest w
    | (.error e, w) => (.error e, w)

def runScript (s : Store) (w : World) (script : String) :
    Except StoreError Unit × Store × World :=
  match s.runStatements (Script.statements script) w with
  | (.ok (), w) => (.ok (), s, w)
  | (.error failure, w) =>
    let e := scriptError failure
    (.error e, { s with lastError := some e.message }, w)

variable {σ τ α : Type}

/-- Runs a unit of work in a transaction over a connection. The last error is that of the
transaction, none if it was settled. -/
def transactOver (s : Store) (conn : Connection σ) (source : Retry.Source) (work : τ → Work τ α)
    (memory : τ) (state : σ) : Transaction.Report τ α × Store × σ :=
  let (report, state) := (Transaction.program s.policy source work memory).run conn state
  match report.result with
  | .ok _ => (report, { s with lastError := none }, state)
  | .error e => (report, { s with lastError := some e.message }, state)

def transact (s : Store) (source : Retry.Source) (work : τ → Work τ α) (memory : τ) (w : World) :
    Transaction.Report τ α × Store × World :=
  s.transactOver s.connection source work memory w

def pruneWork : Work Unit Nat :=
  .ask () .deleteSuperseded fun removed ↦ .finish (.ok (.commit removed)) ()

def prune (s : Store) (w : World) : Except StoreError Nat × Store × World :=
  let (report, s, w) := s.transact {} (fun _ ↦ pruneWork) () w
  (report.result.map Settlement.value, s, w)

def fileRows (s : Store) (w : World) : Except SqlError (List FileRow) := s.ask w .allFiles

def reportRows (s : Store) (w : World) : Except SqlError (List ReportRow) := s.ask w .allReports

def records (s : Store) (w : World) (path : String) : Except StoreError (List FileRecord) :=
  (s.ask w (.recordsOf path)).mapError (.sql "file_records")

end Store

end FindingStore
