import FindingStore.Identity
import FindingStore.Store.Basic

/-!
The read path. A replay visits the paths that have reports in the order of their bytes, and for
each it yields the reports of the newest row that carries the present fingerprint of the file, or
else why there are none.
-/

namespace FindingStore

inductive ReplayEvent
  | finding (f : Finding)
  /-- The stored path leads nowhere. -/
  | missing (path : String)
  /-- No row of the path carries its fingerprint. -/
  | unmatched (path : String)
  deriving DecidableEq, Repr

abbrev ReplayItem := Except StoreError ReplayEvent

structure PathReads where
  identity : Identity
  matching : Int → Nat → Except SqlError (Option Int)
  reports : Int → Except SqlError (List Remark)

def Store.reads (s : Store) (w : World) (path : String) : PathReads where
  identity := Identity.resolve w.files (Path.ofText path)
  matching mtime size := s.ask w (.matching path mtime size)
  reports id := s.ask w (.reportsOf id)

def findingsAt (path : String) (remarks : List Remark) : List Finding :=
  remarks.map fun r ↦ { r with path }

def PathReads.enter (reads : PathReads) (path : String) : Except ReplayItem (List Finding) :=
  if !reads.identity.isValid then .error (.ok (.missing path))
  else
    match reads.matching reads.identity.mtime reads.identity.size with
    | .error e => .error (.error (.sql "match file" e))
    | .ok none => .error (.ok (.unmatched path))
    | .ok (some id) =>
      match reads.reports id with
      | .error e => .error (.error (.sql "load reports" e))
      | .ok remarks => .ok (findingsAt path remarks)

structure Replay where
  paths : List String
  findings : List Finding := []
  deriving DecidableEq, Repr

namespace Replay

def start (s : Store) (w : World) : Except StoreError Replay :=
  match s.ask w .reportedPaths with
  | .ok paths => .ok { paths }
  | .error e => .error (.sql "list paths" e)

def skip (r : Replay) : Replay := { r with findings := [] }

/-- The first item of the given paths, and what remains. An error ends the replay. -/
def nextPath (reads : String → PathReads) : List String → Option ReplayItem × Replay
  | [] => (none, ⟨[], []⟩)
  | path :: rest =>
    match (reads path).enter path with
    | .error (.ok event) => (some (.ok event), ⟨rest, []⟩)
    | .error (.error e) => (some (.error e), ⟨[], []⟩)
    | .ok [] => nextPath reads rest
    | .ok (f :: more) => (some (.ok (.finding f)), ⟨rest, more⟩)

def next (reads : String → PathReads) (r : Replay) : Option ReplayItem × Replay :=
  match r.findings with
  | f :: more => (some (.ok (.finding f)), { r with findings := more })
  | [] => nextPath reads r.paths

inductive Flow
  | proceed
  | nextFile
  deriving DecidableEq, Repr

section Fold

variable {β : Type} (reads : String → PathReads) (visit : β → ReplayItem → β × Flow)

def feed : β → List Finding → β
  | b, [] => b
  | b, f :: more =>
    match visit b (.ok (.finding f)) with
    | (b, .proceed) => feed b more
    | (b, .nextFile) => b

def foldPaths : β → List String → β
  | b, [] => b
  | b, path :: rest =>
    match (reads path).enter path with
    | .error (.ok event) => foldPaths (visit b (.ok event)).1 rest
    | .error (.error e) => (visit b (.error e)).1
    | .ok findings => foldPaths (feed visit b findings) rest

def fold (b : β) (r : Replay) : β := foldPaths reads visit (feed visit b r.findings) r.paths

def Flow.apply : Flow → Replay → Replay
  | .proceed, r => r
  | .nextFile, r => r.skip

theorem fold_apply_paths (b : β) (flow : Flow) (paths : List String) :
    fold reads visit b (flow.apply ⟨paths, []⟩) = foldPaths reads visit b paths := by
  cases flow <;> rfl

theorem foldPaths_feed_cons (b : β) (f : Finding) (more : List Finding) (paths : List String) :
    foldPaths reads visit (feed visit b (f :: more)) paths =
      fold reads visit (visit b (.ok (.finding f))).1
        ((visit b (.ok (.finding f))).2.apply ⟨paths, more⟩) := by
  rcases h : visit b (.ok (.finding f)) with ⟨b', flow⟩
  cases flow <;> simp only [feed, h] <;> rfl

theorem foldPaths_eq_nextPath (b : β) (paths : List String) :
    foldPaths reads visit b paths =
      match nextPath reads paths with
      | (none, _) => b
      | (some item, r) => fold reads visit (visit b item).1 ((visit b item).2.apply r) := by
  induction paths with
  | nil => rfl
  | cons path rest ih =>
    unfold foldPaths nextPath
    rcases (reads path).enter path with (e | event) | (_ | ⟨f, more⟩)
    · exact (fold_apply_paths reads visit _ _ []).symm
    · exact (fold_apply_paths reads visit _ _ rest).symm
    · exact ih
    · exact foldPaths_feed_cons reads visit b f more rest

theorem fold_eq_next (b : β) (r : Replay) :
    fold reads visit b r =
      match r.next reads with
      | (none, _) => b
      | (some item, r) => fold reads visit (visit b item).1 ((visit b item).2.apply r) := by
  obtain ⟨paths, findings⟩ := r
  cases findings with
  | nil => exact foldPaths_eq_nextPath reads visit b paths
  | cons f more => exact foldPaths_feed_cons reads visit b f more paths

end Fold

variable {β : Type}

def items (reads : String → PathReads) (r : Replay) : List ReplayItem :=
  (r.fold reads (fun (seen : List ReplayItem) item ↦ (item :: seen, .proceed)) []).reverse

/-- The state of a consumer, whether every path was found and matched, and the error that ended
the replay. -/
structure Scan (β : Type) where
  state : β
  clean : Bool := true
  failure : Option StoreError := none

def Scan.visit (callback : β → Finding → β × Flow) (scan : Scan β) : ReplayItem → Scan β × Flow
  | .ok (.finding f) =>
    let (state, flow) := callback scan.state f
    ({ scan with state }, flow)
  | .ok (.missing _) | .ok (.unmatched _) => ({ scan with clean := false }, .proceed)
  | .error e => ({ scan with failure := some e }, .proceed)

def scan (s : Store) (w : World) (callback : β → Finding → β × Flow) (b : β) : Scan β :=
  match start s w with
  | .error e => { state := b, failure := some e }
  | .ok r => r.fold (s.reads w) (Scan.visit callback) { state := b }

end Replay

end FindingStore
