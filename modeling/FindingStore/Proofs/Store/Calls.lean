import FindingStore.Proofs.Ledger.Commit
import FindingStore.Proofs.Ledger.Memory
import FindingStore.Proofs.Store.Discipline
import FindingStore.Proofs.Store.Solo

namespace FindingStore

theorem Ledger.resolveMarks_of_nil {l : Ledger} (h : l.marks = []) (fs : FileSystem) :
    l.resolveMarks fs = l := by
  obtain ⟨files, canonical, aliases, staged, marks, error⟩ := l
  cases h
  rfl

namespace Tables

def prune (t : Tables) : Tables := t.deleteFiles t.isSuperseded

def prunedCount (t : Tables) : Nat := (t.files.filter t.isSuperseded).length

end Tables

namespace Store

inductive Call
  | commit (run : Ledger) (source : Retry.Source)
  | prune

inductive Answer
  | landed (counts : CommitCounts)
  | pruned (removed : Nat)
  deriving DecidableEq, Repr

namespace Call

def perform (s : Store) (w : World) : Call → Except StoreError Answer × World
  | .commit run source =>
    let r := run.commit s source w
    (r.result.map .landed, r.state)
  | .prune =>
    let r := s.prune w
    (r.1.map .pruned, r.2.2)

def program (s : Store) : Call → Program (Except StoreError Answer)
  | .commit run source =>
    (Transaction.program s.policy source
      (fun _ ↦ Ledger.work s.retention run.files run.staged) ()).map fun report ↦
        report.result.map fun r ↦ .landed r.value
  | .prune =>
    (Transaction.program s.policy {} (fun _ ↦ pruneWork) ()).map fun report ↦
      report.result.map fun r ↦ .pruned r.value

def ofLedger (l : Ledger) (fs : FileSystem) (source : Retry.Source) : Call :=
  .commit (l.resolveMarks fs) source

variable {s : Store} {w v : World} {t u : Tables} {call : Call} {answer : Answer}

theorem program_ofLedger (s : Store) (l : Ledger) (source : Retry.Source) (w : World) :
    ((ofLedger l w.files source).program s).run s.connection w =
      ((l.commit s source w).result.map .landed, (l.commit s source w).state) := by
  unfold ofLedger program Ledger.commit Ledger.commitOver
  rw [Program.run_map]
  dsimp only [Store.transactOver]
  rcases (Transaction.program s.policy source (fun _ ↦ Ledger.work s.retention
    (l.resolveMarks w.files).files (l.resolveMarks w.files).staged) ()).run s.connection w with
      ⟨⟨result, memory, source', delays⟩, v⟩
  cases result <;> rfl

/-- What can be committed: pending files and findings that fit each other, with numbers that can be
read again. -/
def IsSound : Call → Prop
  | .commit run _ => run.Sound ∧ run.marks = [] ∧ ∀ f ∈ run.staged, f.toRemark.InRange
  | .prune => True

theorem isSound_ofLedger {l : Ledger} (hl : l.Reachable) (hr : ∀ f ∈ l.staged, f.toRemark.InRange)
    (fs : FileSystem) (source : Retry.Source) : (ofLedger l fs source).IsSound :=
  ⟨hl.sound.resolveMarks fs, l.marks_resolveMarks fs, by rwa [Ledger.staged_resolveMarks]⟩

theorem perform_eq_run (h : call.IsSound) (s : Store) (w : World) :
    call.perform s w = (call.program s).run s.connection w := by
  cases call with
  | commit run source =>
    rw [perform, ← program_ofLedger, ofLedger, Ledger.resolveMarks_of_nil h.2.1]
  | prune =>
    unfold perform program Store.prune Store.transact Store.transactOver
    rw [Program.run_map]
    rcases (Transaction.program s.policy {} (fun _ ↦ pruneWork) ()).run s.connection w with
      ⟨⟨result, memory, source, delays⟩, v⟩
    cases result <;> rfl

def apply (retention : Retention) (t : Tables) : Call → Answer × Tables
  | .commit run _ =>
    (.landed (t.landCounts retention run.files run.staged), t.land retention run.files run.staged)
  | .prune => (.pruned t.prunedCount, t.prune)

/-- Some tables become others by a complete run of the unit of work of a call. -/
def Lands (s : Store) (t : Tables) (answer : Answer) (u : Tables) : Call → Prop
  | .commit run _ => ∃ counts d, (Ledger.work s.retention run.files run.staged).Runs t
      (.ok (.commit counts), ()) d ∧ answer = .landed counts ∧ u = d.tables
  | .prune => ∃ removed d, pruneWork.Runs t (.ok (.commit removed), ()) d ∧
      answer = .pruned removed ∧ u = d.tables

theorem runs_pruneWork {v : Verdict Nat} {d : Draft} (h : pruneWork.Runs t (.ok v, ()) d) :
    v = .commit t.prunedCount ∧ d.tables = t.prune := by
  obtain ⟨removed, u, happly, hr⟩ := Work.runs_ask.1 h
  cases happly
  cases hr
  exact ⟨rfl, rfl⟩

theorem runs_work_of_isSound {run : Ledger} {source : Retry.Source}
    (h : (Call.commit run source).IsSound) {retention : Retention} {v : Verdict CommitCounts}
    {d : Draft} (hr : (Ledger.work retention run.files run.staged).Runs t (.ok v, ()) d) :
    v = .commit (t.landCounts retention run.files run.staged) ∧
      d.tables = t.land retention run.files run.staged :=
  Ledger.runs_work h.1.nodup (fun _ hf ↦ h.1.file_of_staged hf) hr

theorem Lands.apply_eq (h : call.Lands s t answer u) (hc : call.IsSound) :
    call.apply s.retention t = (answer, u) := by
  cases call with
  | commit run source =>
    obtain ⟨counts, d, hr, rfl, rfl⟩ := h
    obtain ⟨hcounts, hd⟩ := runs_work_of_isSound hc hr
    cases hcounts
    rw [hd]
    rfl
  | prune =>
    obtain ⟨removed, d, hr, rfl, rfl⟩ := h
    obtain ⟨hremoved, hd⟩ := runs_pruneWork hr
    cases hremoved
    rw [hd]
    rfl

def Returns (call : Call) (s : Store) (t : Tables) (r : Except StoreError Answer) (u : Tables) :
    Prop :=
  ∃ answer, r = .ok answer ∧ call.Lands s t answer u

def Fails (r : Except StoreError Answer) : Prop := ∃ e, r = .error e

theorem obeys (hc : call.IsSound) (s : Store) :
    (call.program s).Obeys (call.Returns s) Fails none := by
  cases call with
  | commit run source =>
    refine Program.Obeys.map (Transaction.obeys_program s.policy
      (fun _ ↦ (Ledger.isDirect_work s.retention run.files run.staged).staysInside) ?_ ?_ source ())
    · intro memory memory' t v u hr
      obtain ⟨rfl, -⟩ := runs_work_of_isSound hc hr
      refine ⟨_, rfl, fun report hreport ↦ ?_⟩
      rw [hreport]
      exact ⟨_, rfl, _, u, hr, rfl, rfl⟩
    · intro report e he
      rw [he]
      exact ⟨e, rfl⟩
  | prune =>
    have hdirect : pruneWork.IsDirect := .ask _ _ fun _ ↦ .finish _ _
    refine Program.Obeys.map (Transaction.obeys_program s.policy (fun _ ↦ hdirect.staysInside)
      ?_ ?_ {} ())
    · intro memory memory' t v u hr
      obtain ⟨rfl, -⟩ := runs_pruneWork hr
      refine ⟨_, rfl, fun report hreport ↦ ?_⟩
      rw [hreport]
      exact ⟨_, rfl, _, u, hr, rfl, rfl⟩
    · intro report e he
      rw [he]
      exact ⟨e, rfl⟩

/-- A call that can land does so where nothing stands in its way. -/
theorem perform_of_lands (h : call.Lands s t answer u) (hc : call.IsSound)
    (hpolicy : 1 ≤ s.policy.maxAttempts) {idle : Tables → World → Prop}
    {busy : Tables → Draft → World → Prop} (hgrants : s.connection.Grants idle busy)
    (hw : idle t w) : (call.perform s w).1 = .ok answer ∧ idle u (call.perform s w).2 := by
  rw [perform_eq_run hc]
  cases call with
  | commit run source =>
    obtain ⟨counts, d, hr, rfl, rfl⟩ := h
    obtain ⟨hresult, hidle⟩ := Transaction.run_program_of_grants hgrants
      (fun _ ↦ Ledger.isDirect_work s.retention run.files run.staged) hpolicy source hr hw
    rw [program, Program.run_map]
    exact ⟨congrArg (Except.map fun r ↦ Answer.landed r.value) hresult, hidle⟩
  | prune =>
    obtain ⟨removed, d, hr, rfl, rfl⟩ := h
    have hdirect : pruneWork.IsDirect := .ask _ _ fun _ ↦ .finish _ _
    obtain ⟨hresult, hidle⟩ := Transaction.run_program_of_grants hgrants (fun _ ↦ hdirect) hpolicy
      {} hr hw
    rw [program, Program.run_map]
    exact ⟨congrArg (Except.map fun r ↦ Answer.pruned r.value) hresult, hidle⟩

end Call

end Store

end FindingStore
