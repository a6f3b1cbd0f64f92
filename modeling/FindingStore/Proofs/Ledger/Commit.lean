import FindingStore.Proofs.Ledger.Invariant
import FindingStore.Proofs.Ledger.Landing
import FindingStore.Proofs.Store.Protocol

namespace FindingStore.Ledger

variable {σ : Type} {conn : Connection σ} {idle : Tables → σ → Prop}
  {busy : Tables → Draft → σ → Prop} {t : Tables} {state : σ} {l : Ledger} {s : Store}
  {fs : FileSystem} {source : Retry.Source}

theorem Sound.file_of_staged (h : l.Sound) {f : RunFinding} (hf : f ∈ l.staged) :
    ∃ file, l.files[f.file]? = some file ∧ file.hasFindings = true := by
  have hget := List.getElem?_eq_getElem (h.staged hf)
  exact ⟨_, hget, (h.hasFindings hget).2 ⟨f, hf, rfl⟩⟩

theorem Sound.report_of_staged (h : l.Sound) (t : Tables) {f : RunFinding} (hf : f ∈ l.staged) :
    ∃ file, l.files[f.file]? = some file ∧
      file.row (t.rowId l.files f.file) ∈ t.newRows l.files ∧
      f.toRemark.report (t.rowId l.files f.file) ∈ t.newReports l.files l.staged := by
  obtain ⟨file, hfile, hfindings⟩ := h.file_of_staged hf
  have hdue : file.isDue t = true := by simp [RunFile.isDue, hfindings]
  exact ⟨file, hfile, Tables.row_mem_newRows hfile hdue, List.mem_map_of_mem hf⟩

/-- A commit over a connection with isolated transactions. -/
theorem commitOver_lands (h : conn.Isolates idle busy) (hl : l.Sound) (state : σ)
    (hs : idle t state) {run : Ledger} (hrun : l.resolveMarks fs = run) {r : Committed σ}
    (hr : l.commitOver fs s conn source state = r) :
    match r.result with
    | .ok counts => counts = t.landCounts s.retention run.files run.staged ∧
        idle (t.land s.retention run.files run.staged) r.state
    | .error _ => idle t r.state := by
  have hsound : run.Sound := hrun ▸ hl.resolveMarks fs
  simp only [commitOver, Store.transactOver, hrun] at hr
  rcases Nat.eq_zero_or_pos s.policy.maxAttempts with hzero | hpolicy
  · simp only [Transaction.program, hzero, Transaction.attempts, Program.run] at hr
    rw [← hr]
    exact hs
  obtain ⟨trials, -, hend⟩ := Transaction.run_program h
    (fun _ ↦ (isDirect_work s.retention run.files run.staged).staysInside) hpolicy source () hs
  rcases hprogram : (Transaction.program s.policy source
    (fun _ ↦ work s.retention run.files run.staged) ()).run conn state with
      ⟨⟨result, memory, source', delays⟩, state'⟩
  rw [hprogram] at hr hend
  have hworks {u : Draft} {v : Verdict CommitCounts}
      (hruns : (work s.retention run.files run.staged).Runs t (.ok v, memory) u) :=
    runs_work hsound.nodup (fun f hf ↦ hsound.file_of_staged hf) hruns
  rcases result with e | v | v
  · rw [← hr]
    exact hend.fails rfl
  · obtain ⟨_, u, -, hruns, hidle⟩ := hend.commits rfl
    obtain ⟨hv, hu⟩ := hworks hruns
    cases hv
    rw [← hr]
    exact ⟨rfl, hu ▸ hidle⟩
  · -- the unit of work of a commit never asks for a rollback
    obtain ⟨_, u, -, hruns, -⟩ := hend.rollsBack rfl
    cases (hworks hruns).1

/-- A commit of a handle that can get at its database, some of whose statements are refused. -/
theorem awaits_commitOver {w : World} (hl : l.Sound) (ha : s.access.IsOrdinary)
    (hw : w.Awaits s.database s.access t) (fs : FileSystem) (source : Retry.Source)
    (faults : List (Option SqlError)) :
    let run := l.resolveMarks fs
    let r := l.commitOver fs s s.connection.failing source (faults, w)
    w.Retains r.state.2 s.database ∧
      (∀ counts, r.result = .ok counts →
        counts = t.landCounts s.retention run.files run.staged ∧
          r.state.2.Awaits s.database s.access (t.land s.retention run.files run.staged)) ∧
      ∀ e, r.result = .error e → r.state.2.Awaits s.database s.access t := by
  intro run r
  have hlands := commitOver_lands (Store.isolates_of_awaits w ha).failing hl (faults, w)
    ⟨hw, .refl w s.database, id⟩ (show l.resolveMarks fs = run from rfl) (r := r) rfl
  cases hr : r.result with
  | error e =>
    rw [hr] at hlands
    exact ⟨hlands.2.1, nofun, fun _ _ ↦ hlands.1⟩
  | ok counts =>
    rw [hr] at hlands
    obtain ⟨hcounts, hawaits, hretains, -⟩ := hlands
    exact ⟨hretains, fun _ he ↦ ⟨Except.ok.inj he ▸ hcounts, hawaits⟩, nofun⟩

/-- A commit of a handle that can get at its database, where nothing happens to it. -/
theorem awaits_commit {w : World} (hl : l.Sound) (ha : s.access.IsOrdinary)
    (hw : w.Awaits s.database s.access t) (source : Retry.Source) :
    let run := l.resolveMarks w.files
    let r := l.commit s source w
    (∀ counts, r.result = .ok counts →
      counts = t.landCounts s.retention run.files run.staged ∧
        r.state.Awaits s.database s.access (t.land s.retention run.files run.staged) ∧
        (w.IsClear s.database s.access → r.state.IsClear s.database s.access)) ∧
      ∀ e, r.result = .error e → r.state.Awaits s.database s.access t := by
  intro run r
  have hlands := commitOver_lands (Store.isolates_of_awaits w ha) hl w
    ⟨hw, .refl w s.database, id⟩ (show l.resolveMarks w.files = run from rfl) (r := r) rfl
  cases hr : r.result with
  | error e =>
    rw [hr] at hlands
    exact ⟨nofun, fun _ _ ↦ hlands.1⟩
  | ok counts =>
    rw [hr] at hlands
    obtain ⟨hcounts, hawaits, -, hclear⟩ := hlands
    exact ⟨fun _ he ↦ ⟨Except.ok.inj he ▸ hcounts, hawaits, hclear⟩, nofun⟩

def single : Ledger := (({} : Ledger).record (.single []) (Path.ofText "/file") ⟨1, 1, "t", "m"⟩).2

def singleCommit : Committed (List (Option SqlError) × World) :=
  single.commitOver (.single []) (.single .keepAll) (Store.single .keepAll).connection.failing {}
    ([none, none, some .locked], World.fresh {} [])

end FindingStore.Ledger
