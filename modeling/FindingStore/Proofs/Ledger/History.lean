import FindingStore.Proofs.Ledger.Commit
import FindingStore.Proofs.Ledger.Trace
import FindingStore.Proofs.Replay.Recall

/-!
Histories of runs on one store. Several handles record, mark and commit in any order, statements
of their commits may fail, and the files may change as long as the recorded paths of the open runs
lead where they led. Main statement: a replay yields what the runs that have landed make of a map
from observed states of files to remarks.
-/

namespace FindingStore

structure Handle where
  store : Store
  ledger : Ledger := {}
  calls : List Ledger.Call := []

structure Store.Keeps (s : Store) (n : Nat) : Prop where
  database : s.database = n
  ordinary : s.access.IsOrdinary
  retention : s.retention = .keepAll

namespace Handle

def record (h : Handle) (fs : FileSystem) (path : Path) (remark : Remark) : Handle where
  store := h.store
  ledger := (h.ledger.record fs path remark).2
  calls := h.calls ++ [.record path remark]

def refuse (h : Handle) (fs : FileSystem) (path : Path) (remark : Remark) : Handle :=
  { h with ledger := (h.ledger.record fs path remark).2 }

def mark (h : Handle) (path : Path) : Handle where
  store := h.store
  ledger := h.ledger.mark path
  calls := h.calls ++ [.mark path]

def commit (h : Handle) (w : World) (source : Retry.Source) (faults : List (Option SqlError)) :
    Ledger.Committed (List (Option SqlError) × World) :=
  h.ledger.commitOver w.files h.store h.store.connection.failing source (faults, w)

def committed (r : Ledger.Committed (List (Option SqlError) × World)) : Handle where
  store := r.store
  ledger := r.ledger

end Handle

def Memory.commit (m : Memory) (run : Run) : Except StoreError CommitCounts → Memory
  | .ok _ => m.land run
  | .error _ => m

open Ledger (Unmoved)

variable {ι : Type} [DecidableEq ι]

/-- Histories of handles on the database of a number, with the map to which the runs that have
landed add up. -/
inductive History (n : Nat) : World → (ι → Handle) → Memory → Prop
  | start {w : World} {stores : ι → Store} : w.Holds n → (w.database n).Rests {} →
      (∀ i, (stores i).Keeps n) → History n w (fun i ↦ { store := stores i }) {}
  | record {w : World} {handles : ι → Handle} {m : Memory} (i : ι) {path : Path}
      {remark : Remark} : History n w handles m → w.files.IsTree → w.files.FindsText path →
      remark.InRange → ((handles i).ledger.record w.files path remark).1 = .ok () →
      History n w (Function.update handles i ((handles i).record w.files path remark)) m
  | refuse {w : World} {handles : ι → Handle} {m : Memory} (i : ι) {path : Path}
      {remark : Remark} {e : LedgerError} : History n w handles m →
      ((handles i).ledger.record w.files path remark).1 = .error e →
      History n w (Function.update handles i ((handles i).refuse w.files path remark)) m
  | mark {w : World} {handles : ι → Handle} {m : Memory} (i : ι) (path : Path) :
      History n w handles m →
      History n w (Function.update handles i ((handles i).mark path)) m
  | commit {w : World} {handles : ι → Handle} {m : Memory} (i : ι) (source : Retry.Source)
      (faults : List (Option SqlError)) : History n w handles m → w.files.IsTree →
      w.Receives n (handles i).store.access →
      (∀ p ∈ (handles i).ledger.marks, ∀ identity, w.files.resolved? p = some identity →
        w.files.FindsText p) →
      (∀ j, j ≠ i → Unmoved w.files ((handles i).commit w source faults).state.2.files
        (handles j).calls) →
      History n ((handles i).commit w source faults).state.2
        (Function.update handles i (Handle.committed ((handles i).commit w source faults)))
        (m.commit (Run.of w.files (handles i).calls) ((handles i).commit w source faults).result)
  | attach {w : World} {handles : ι → Handle} {m : Memory} (i : ι) {s : Store} :
      History n w handles m → s.Keeps n →
      History n w (Function.update handles i { store := s }) m
  /-- The world changes, but not what the database holds. -/
  | elsewhere {w w' : World} {handles : ι → Handle} {m : Memory} : History n w handles m →
      w'.Holds n → (∀ t, (w.database n).Rests t → (w'.database n).Rests t) →
      (∀ i, Unmoved w.files w'.files (handles i).calls) → History n w' handles m

structure Handle.Follows (h : Handle) (n : Nat) (fs : FileSystem) : Prop where
  keeps : h.store.Keeps n
  traces : h.ledger.Traces fs h.calls []
  marks : h.ledger.marks = h.calls.filterMap Ledger.Call.marked?
  inRange {f : RunFinding} : f ∈ h.ledger.staged → f.toRemark.InRange

namespace Handle.Follows

variable {h : Handle} {n : Nat} {fs : FileSystem} {path : Path} {remark : Remark}

theorem fresh {s : Store} (hs : s.Keeps n) (fs : FileSystem) (error : Option String) :
    Handle.Follows { store := s, ledger := { error } } n fs :=
  ⟨hs, .empty fs error, rfl, nofun⟩

theorem unmoved (hh : h.Follows n fs) {fs' : FileSystem} (hu : Unmoved fs fs' h.calls) :
    h.Follows n fs' :=
  ⟨hh.keeps, hh.traces.unmoved hu, hh.marks, hh.inRange⟩

theorem mark (hh : h.Follows n fs) (path : Path) : (h.mark path).Follows n fs := by
  refine ⟨hh.keeps, hh.traces.mark path, ?_, hh.inRange⟩
  simp [Handle.mark, Ledger.mark, hh.marks, Ledger.Call.marked?]

theorem record (hh : h.Follows n fs) (hfs : fs.IsTree) (hpath : fs.FindsText path)
    (hremark : remark.InRange) (hr : (h.ledger.record fs path remark).1 = .ok ()) :
    (h.record fs path remark).Follows n fs := by
  obtain ⟨k, hstaged, hmarks⟩ := Ledger.buffers_record hr
  refine ⟨hh.keeps, hh.traces.record hfs hpath hr, ?_, fun {f} hf ↦ ?_⟩
  · simp [Handle.record, hmarks, hh.marks, Ledger.Call.marked?]
  · rw [Handle.record, hstaged] at hf
    rcases List.mem_append.1 hf with hf | hf
    · exact hh.inRange hf
    · rw [List.mem_singleton.1 hf]
      exact hremark

theorem refuse (hh : h.Follows n fs) {e : LedgerError}
    (hr : (h.ledger.record fs path remark).1 = .error e) :
    (h.refuse fs path remark).Follows n fs := by
  have hledger := Ledger.record_error hr
  refine ⟨hh.keeps, ?_, ?_, ?_⟩ <;> dsimp only [Handle.refuse] <;> rw [hledger]
  · exact hh.traces.congr rfl rfl rfl rfl
  · exact hh.marks
  · exact hh.inRange

theorem committed (hh : h.Follows n fs) (w : World) (source : Retry.Source)
    (faults : List (Option SqlError)) (fs' : FileSystem) :
    (Handle.committed (h.commit w source faults)).Follows n fs' := by
  obtain ⟨error, hledger, -⟩ :=
    h.ledger.ledger_commitOver w.files h.store h.store.connection.failing source (faults, w)
  obtain ⟨last, hstore⟩ :=
    h.ledger.store_commitOver w.files h.store h.store.connection.failing source (faults, w)
  have hcommitted : Handle.committed (h.commit w source faults) =
      { store := { h.store with lastError := last }, ledger := { error } } := by
    rw [Handle.committed, Handle.commit, hledger, hstore]
  rw [hcommitted]
  exact fresh (s := { h.store with lastError := last })
    ⟨hh.keeps.database, hh.keeps.ordinary, hh.keeps.retention⟩ fs' error

end Handle.Follows

structure History.State (n : Nat) (w : World) (handles : ι → Handle) (m : Memory) (t : Tables) :
    Prop where
  holds : w.Holds n
  rests : (w.database n).Rests t
  represents : t.Represents m
  follows (i : ι) : (handles i).Follows n w.files

namespace History

variable {n : Nat} {w w' : World} {handles : ι → Handle} {m : Memory} {t : Tables}

omit [DecidableEq ι] in
theorem State.unmoved (h : State n w handles m t) (hw : w'.Holds n)
    (ht : (w'.database n).Rests t)
    (hu : ∀ i, Unmoved w.files w'.files (handles i).calls) : State n w' handles m t :=
  ⟨hw, ht, h.represents, fun i ↦ (h.follows i).unmoved (hu i)⟩

theorem State.update (h : State n w handles m t) {i : ι} {g : Handle}
    (hg : g.Follows n w.files) : State n w (Function.update handles i g) m t :=
  ⟨h.holds, h.rests, h.represents, fun j ↦ by
    by_cases hj : j = i
    · rwa [hj, Function.update_self]
    · rw [Function.update_of_ne hj]
      exact h.follows j⟩

omit [DecidableEq ι] in
/-- A commit of a handle changes the map as its calls say, or it changes nothing. The other handles
can get at the store as before. -/
theorem State.lands (h : State n w handles m t) (i : ι) (hfs : w.files.IsTree)
    (hw : w.Receives n (handles i).store.access)
    (hmarks : ∀ p ∈ (handles i).ledger.marks, ∀ identity, w.files.resolved? p = some identity →
      w.files.FindsText p) (source : Retry.Source) (faults : List (Option SqlError)) :
    let r := (handles i).commit w source faults
    w.Retains r.state.2 n ∧ ∃ u, (r.state.2.database n).Rests u ∧
      u.Represents (m.commit (Run.of w.files (handles i).calls) r.result) := by
  obtain ⟨hkeeps, htraces, hmarked, hrange⟩ := h.follows i
  intro r
  have hsays := htraces.resolveMarks hfs hmarked hmarks
  have hsound := htraces.indexes.sound
  have hawaits : w.Awaits (handles i).store.database (handles i).store.access t := by
    rw [hkeeps.database]
    exact ⟨hw, h.rests⟩
  obtain ⟨hretains, hlands, hstays⟩ :=
    Ledger.awaits_commitOver hsound hkeeps.ordinary hawaits w.files source faults
  rw [hkeeps.database] at hretains hlands hstays
  refine ⟨hretains, ?_⟩
  cases hr : r.result with
  | error e => exact ⟨t, (hstays e hr).rests, h.represents⟩
  | ok counts =>
    obtain ⟨-, hlanded⟩ := hlands counts hr
    rw [hkeeps.retention] at hlanded
    refine ⟨_, hlanded.rests, h.represents.land (hsound.resolveMarks _) hsays ?_⟩
    rw [Ledger.staged_resolveMarks]
    exact fun f hf ↦ hrange hf

/-- The map and the tables go together at every point of a history. -/
theorem state (h : History n w handles m) : ∃ t, State n w handles m t := by
  induction h with
  | start hw ht hkeeps => exact ⟨{}, hw, ht, .empty, fun i ↦ .fresh (hkeeps i) _ none⟩
  | record i _ hfs hpath hremark hr ih =>
    obtain ⟨t, ht⟩ := ih
    exact ⟨t, ht.update ((ht.follows i).record hfs hpath hremark hr)⟩
  | refuse i _ hr ih =>
    obtain ⟨t, ht⟩ := ih
    exact ⟨t, ht.update ((ht.follows i).refuse hr)⟩
  | mark i path _ ih =>
    obtain ⟨t, ht⟩ := ih
    exact ⟨t, ht.update ((ht.follows i).mark path)⟩
  | commit i source faults _ hfs hw hmarks hothers ih =>
    obtain ⟨t, ht⟩ := ih
    obtain ⟨hretains, u, hrests, hrepresents⟩ := ht.lands i hfs hw hmarks source faults
    refine ⟨u, hretains.holds ht.holds, hrests, hrepresents, fun j ↦ ?_⟩
    by_cases hj : j = i
    · rw [hj, Function.update_self]
      exact (ht.follows i).committed _ _ _ _
    · rw [Function.update_of_ne hj]
      exact (ht.follows j).unmoved (hothers j hj)
  | attach i _ hkeeps ih =>
    obtain ⟨t, ht⟩ := ih
    exact ⟨t, ht.update (.fresh hkeeps _ none)⟩
  | elsewhere _ hw hrests hunmoved ih =>
    obtain ⟨t, ht⟩ := ih
    exact ⟨t, ht.unmoved hw (hrests t ht.rests) hunmoved⟩

/-- A handle that opens the store takes nothing from the others, and can commit. -/
theorem open_existing (h : History n w handles m) (i : ι) {home : Location} {p : Path}
    {config : Config} {s : Store} (hserves : w.Serves n home) (hp : w.Finds p home)
    (hconfig : config.retention = .keepAll)
    (hopen : Store.openExisting w p config = (.ok s, w')) :
    History n w' (Function.update handles i { store := s }) m ∧ w'.Serves n home ∧
      w'.Receives n s.access := by
  obtain ⟨t, ht⟩ := h.state
  obtain ⟨hs, hretention, hcontinues, hawaits⟩ := hserves.awaits_openExisting hp ht.rests hopen
  have hfiles : w'.files = w.files := hserves.files_openExisting hp hopen
  refine ⟨?_, hcontinues.serves, hawaits.receives⟩
  refine (h.elsewhere hcontinues.serves.holds (fun _ ↦ hcontinues.agrees.rests) ?_).attach i
    ⟨hs.database, hs.ordinary, hretention.trans hconfig⟩
  exact fun j ↦ hfiles ▸ fun _ _ _ ↦ ⟨rfl, rfl⟩

/-- A handle that closes its store takes nothing from the others either. -/
theorem close (h : History n w handles m) {home : Location} {s : Store} (hserves : w.Serves n home)
    (hs : s.IsHandle n home)
    (hunmoved : ∀ i, Unmoved w.files (s.close w).files (handles i).calls) :
    History n (s.close w) handles m ∧ (s.close w).Serves n home := by
  obtain ⟨t, ht⟩ := h.state
  have hleaves := hserves.close hs ht.rests.contents
  have hrests := ht.rests.stands.rollback hs.ordinary.writes (Database.avoids_none _)
  rw [hrests] at hleaves
  exact ⟨h.elsewhere hleaves.serves.holds (fun _ ↦ hleaves.agrees.rests) hunmoved, hleaves.serves⟩

/-- Whatever has happened to the files since, a store with nothing between it and its file replays
for each stored path what the runs that have landed make of the map at the present state of the
file. Any other store replays nothing at all. -/
theorem replay_eq_memory (h : History n w handles m)
    (hrests : ∀ t, (w.database n).Rests t → (w'.database n).Rests t) {s : Store}
    (hs : s.database = n) (ha : s.access.IsOrdinary) (hw : w'.Receives n s.access) :
    (w'.IsClear n s.access → (Replay.start s w').map (Replay.items (s.reads w')) =
      .ok (m.paths.flatMap (m.replay w'.files))) ∧
      (¬w'.IsClear n s.access → ∃ e, Replay.start s w' = .error e) := by
  obtain ⟨t, ht⟩ := h.state
  subst hs
  have hawaits : w'.Awaits s.database s.access t := ⟨hw, hrests t ht.rests⟩
  refine ⟨fun hclear ↦ ?_, hawaits.start_of_not_isClear ha⟩
  have hsees := hawaits.sees ha hclear
  rw [ht.represents.start_eq hsees, Except.map, ht.represents.items_start hsees]

def single : Handle :=
  Handle.record { store := .single .keepAll } (World.fresh {} []).files (Path.ofText "/file")
    ⟨1, 1, "t", "m"⟩

def singleCommit : Ledger.Committed (List (Option SqlError) × World) :=
  single.commit (World.fresh {} []) {} []

def later : Store :=
  { Store.single .keepAll with
    access := { session := 1, cache := 1, residence := .file [Utf8.encode "store"] } }

theorem later_replays_finding :
    ∃ v, Store.openExisting singleCommit.state.2 (Path.ofText "/store") {} = (.ok later, v) ∧
      (Replay.start later v).map (Replay.items (later.reads v)) =
        .ok [.ok (.finding ⟨⟨1, 1, "t", "m"⟩, "/file"⟩)] := by
  have hstart : History 0 (World.fresh {} []) (fun _ : Unit ↦ { store := .single .keepAll }) {} :=
    .start (World.fresh_serves {} []).holds (World.fresh_rests {} [])
      fun _ ↦ ⟨rfl, Store.single_isOrdinary .keepAll, rfl⟩
  have hpath : (World.fresh {} []).files.FindsText (Path.ofText "/file") :=
    ⟨[Utf8.encode "file"], "/file", rfl, rfl⟩
  have hrange : (⟨1, 1, "t", "m"⟩ : Remark).InRange := ⟨by decide, by decide⟩
  have hreceives := (World.fresh_awaits {} [] .keepAll).receives
  have hrecord := hstart.record () (World.fresh_isTree {} []) hpath hrange rfl
  have hcommit := hrecord.commit () {} [] (World.fresh_isTree {} []) hreceives nofun nofun
  obtain ⟨_, hstate⟩ := hrecord.state
  have hretains := (hstate.lands () (World.fresh_isTree {} []) hreceives nofun {} []).1
  have hserves : singleCommit.state.2.Serves 0 [Utf8.encode "store"] :=
    hretains.serves (World.fresh_serves {} [])
  have hfinds : singleCommit.state.2.Finds (Path.ofText "/store") [Utf8.encode "store"] :=
    .of_path (by decide) (by decide) (by decide) rfl
  have hopen : Store.openExisting singleCommit.state.2 (Path.ofText "/store") {} =
    (.ok later, (Store.openExisting singleCommit.state.2 (Path.ofText "/store") {}).2) := rfl
  obtain ⟨hopened, -, hlater⟩ := hcommit.open_existing () hserves hfinds rfl hopen
  exact ⟨_, hopen, (hopened.replay_eq_memory (fun _ ↦ id) (s := later) rfl
    ⟨⟨_, rfl⟩, rfl, rfl, rfl, rfl⟩ hlater).1 (by decide +kernel)⟩

end History

end FindingStore
