import FindingStore.Identity
import FindingStore.Store.Basic

/-!
The write path. A ledger buffers the findings of one analysis run and lands them in a single
transaction. A file with findings gets a new row; so does a file that was marked without findings,
if its path is known. As the newest matching row counts, the older findings are masked.
-/

namespace FindingStore

inductive LedgerError
  | fileNotFound (path : Path)
  deriving DecidableEq, Repr

def LedgerError.message : LedgerError → String
  | .fileNotFound path => s!"could not find file on disk: {Path.display path}"

structure RunFile where
  identity : Identity
  hasFindings : Bool := false
  marked : Bool := false
  deriving DecidableEq, Repr

structure RunFinding extends Remark where
  file : Nat
  deriving DecidableEq, Repr

structure CommitCounts where
  files : Nat := 0
  findings : Nat := 0
  pruned : Nat := 0
  deriving DecidableEq, Repr

/-- Two indices lead to pending files: canonical paths, and paths as they were written. -/
structure Ledger where
  files : List RunFile := []
  canonical : List (String × Nat) := []
  aliases : List (Path.Parts × Nat) := []
  staged : List RunFinding := []
  marks : List Path := []
  error : Option String := none
  deriving DecidableEq, Repr

namespace Ledger

def enter (l : Ledger) (identity : Identity) : Nat × Ledger :=
  match l.canonical.lookup identity.path with
  | some n => (n, l)
  | none =>
    (l.files.length,
      { l with
        files := l.files ++ [{ identity }]
        canonical := (identity.path, l.files.length) :: l.canonical })

/-- The position of the pending file at a path. A path is resolved when it is first seen. -/
def pending (fs : FileSystem) (l : Ledger) (path : Path) : Except LedgerError (Nat × Ledger) :=
  match l.aliases.lookup (Path.parts path) with
  | some n => .ok (n, l)
  | none =>
    let identity := Identity.resolve fs path
    if identity.isValid then
      let (n, l) := l.enter identity
      .ok (n, { l with aliases := (Path.parts path, n) :: l.aliases })
    else .error (.fileNotFound path)

def fail (l : Ledger) (e : LedgerError) : Ledger := { l with error := some e.message }

def setFile (l : Ledger) (n : Nat) (change : RunFile → RunFile) : Ledger :=
  { l with files := l.files.modify n change }

def record (fs : FileSystem) (l : Ledger) (path : Path) (remark : Remark) :
    Except LedgerError Unit × Ledger :=
  match l.pending fs path with
  | .error e => (.error e, l.fail e)
  | .ok (n, l) =>
    let l := l.setFile n fun f ↦ { f with hasFindings := true }
    (.ok (), { l with staged := l.staged ++ [{ remark with file := n }] })

/-- Declares a path to be in the scope of the run; it is resolved at the commit. -/
def mark (l : Ledger) (path : Path) : Ledger := { l with marks := l.marks ++ [path] }

def resolveMark (fs : FileSystem) (l : Ledger) (path : Path) : Ledger :=
  match l.pending fs path with
  | .error e => l.fail e
  | .ok (n, l) => l.setFile n fun f ↦ { f with marked := true }

def resolveMarks (fs : FileSystem) (l : Ledger) : Ledger :=
  l.marks.foldl (resolveMark fs) { l with marks := [] }

def landFile (retention : Retention) (f : RunFile) (stats : CommitCounts)
    (next : Int → CommitCounts → Work Unit CommitCounts) : Work Unit CommitCounts :=
  let i := f.identity
  .ask () (.insertFile .null (.text i.path) (.integer i.mtime) (.integer i.size)) fun id ↦
    let stats := { stats with files := stats.files + 1 }
    match retention with
    | .keepAll => next id stats
    | .pruneSuperseded =>
      .ask () (.deleteOlder i.path id) fun removed ↦
        next id { stats with pruned := stats.pruned + removed }

/-- Goes on with whether a pending file gets a row. Only a mark alone has to be looked up. -/
def needsRow (f : RunFile) (next : Bool → Work Unit CommitCounts) : Work Unit CommitCounts :=
  if f.hasFindings then next true
  else if f.marked then .ask () (.latest f.identity.path) fun id ↦ next id.isSome
  else next false

def landFiles (retention : Retention)
    (next : List (Option Int) → CommitCounts → Work Unit CommitCounts) :
    List RunFile → List (Option Int) → CommitCounts → Work Unit CommitCounts
  | [], ids, stats => next ids stats
  | f :: rest, ids, stats =>
    needsRow f fun
      | false => landFiles retention next rest (ids ++ [none]) stats
      | true =>
        landFile retention f stats fun id stats ↦
          landFiles retention next rest (ids ++ [some id]) stats

def pathAt (files : List RunFile) (n : Nat) : String :=
  (files[n]?.map fun f ↦ f.identity.path).getD ""

def landFindings (files : List RunFile) (ids : List (Option Int)) :
    List RunFinding → CommitCounts → Work Unit CommitCounts
  | [], stats => .finish (.ok (.commit stats)) ()
  | f :: rest, stats =>
    match ids[f.file]?.join with
    | none => .finish (.ok (.abort s!"no file row for {pathAt files f.file}")) ()
    | some id =>
      .ask () (.insertReport (.integer id) (.integer f.line) (.integer f.column) (.text f.tool)
        (.text f.message)) fun _ ↦
          landFindings files ids rest { stats with findings := stats.findings + 1 }

def work (retention : Retention) (files : List RunFile) (staged : List RunFinding) :
    Work Unit CommitCounts :=
  landFiles retention (fun ids stats ↦ landFindings files ids staged stats) files [] {}

def emptied (l : Ledger) : Ledger := { error := l.error }

structure Committed (σ : Type) where
  result : Except StoreError CommitCounts
  ledger : Ledger
  store : Store
  state : σ

/-- Lands everything since the last commit in one transaction over a connection. The buffers are
emptied whether it succeeds or not. -/
def commitOver {σ : Type} (l : Ledger) (fs : FileSystem) (s : Store) (conn : Connection σ)
    (source : Retry.Source) (state : σ) : Committed σ :=
  let l := l.resolveMarks fs
  let (report, s, state) :=
    s.transactOver conn source (fun _ ↦ work s.retention l.files l.staged) () state
  match report.result with
  | .ok r => ⟨.ok r.value, l.emptied, s, state⟩
  | .error e => ⟨.error e, { l.emptied with error := some e.message }, s, state⟩

def commit (l : Ledger) (s : Store) (source : Retry.Source) (w : World) : Committed World :=
  l.commitOver w.files s s.connection source w

end Ledger

end FindingStore
