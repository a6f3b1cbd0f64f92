import FindingStore.Proofs.Ledger.Spelling
import FindingStore.Proofs.World.Hosting

namespace FindingStore.Ledger

variable {σ : Type} {fs : FileSystem} {seen marked : List Path} {l : Ledger}
  {p : Path} {remark : Remark}

abbrev Finder := Ledger → Path → Except LedgerError (Nat × Ledger)

/-- The pending file at a path, which is resolved whether it has been seen or not. -/
def pendingAfresh (fs : FileSystem) : Finder := fun l path ↦
  match fs.resolved? path with
  | some i => .ok (l.enter i)
  | none => .error (.fileNotFound path)

section Finder

variable (find : Finder)

def recordBy (l : Ledger) (path : Path) (remark : Remark) : Except LedgerError Unit × Ledger :=
  match find l path with
  | .error e => (.error e, l.fail e)
  | .ok (n, l) =>
    let l := l.setFile n fun f ↦ { f with hasFindings := true }
    (.ok (), { l with staged := l.staged ++ [{ remark with file := n }] })

def resolveMarkBy (l : Ledger) (path : Path) : Ledger :=
  match find l path with
  | .error e => l.fail e
  | .ok (n, l) => l.setFile n fun f ↦ { f with marked := true }

def resolveMarksBy (l : Ledger) : Ledger :=
  l.marks.foldl (resolveMarkBy find) { l with marks := [] }

def commitBy (l : Ledger) (s : Store) (conn : Connection σ) (source : Retry.Source) (state : σ) :
    Committed σ :=
  let l := l.resolveMarksBy find
  let (report, s, state) :=
    s.transactOver conn source (fun _ ↦ work s.retention l.files l.staged) () state
  match report.result with
  | .ok r => ⟨.ok r.value, l.emptied, s, state⟩
  | .error e => ⟨.error e, { l.emptied with error := some e.message }, s, state⟩

end Finder

theorem recordBy_pending (fs : FileSystem) (l : Ledger) (path : Path) (remark : Remark) :
    l.recordBy (pending fs) path remark = l.record fs path remark := rfl

theorem commitBy_pending (fs : FileSystem) (l : Ledger) (s : Store) (conn : Connection σ)
    (source : Retry.Source) (state : σ) :
    l.commitBy (pending fs) s conn source state = l.commitOver fs s conn source state := rfl

inductive Step
  | record (path : Path) (remark : Remark)
  | mark (path : Path)
  | commit (source : Retry.Source)
  deriving DecidableEq, Repr

structure Answer where
  recorded : Except LedgerError Unit := .ok ()
  committed : Except StoreError CommitCounts := .ok {}
  error : Option String
  staged : Nat
  deriving DecidableEq

structure Keeping (σ : Type) where
  ledger : Ledger
  store : Store
  state : σ

namespace Keeping

variable (find : Finder) (conn : Connection σ)

def step (k : Keeping σ) : Step → Answer × Keeping σ
  | .record path remark =>
    let (recorded, l) := k.ledger.recordBy find path remark
    ({ recorded, error := l.error, staged := l.staged.length }, { k with ledger := l })
  | .mark path =>
    let l := k.ledger.mark path
    ({ error := l.error, staged := l.staged.length }, { k with ledger := l })
  | .commit source =>
    let c := k.ledger.commitBy find k.store conn source k.state
    ({ committed := c.result, error := c.ledger.error, staged := c.ledger.staged.length },
      ⟨c.ledger, c.store, c.state⟩)

def run : Keeping σ → List Step → List Answer × Keeping σ
  | k, [] => ([], k)
  | k, step :: rest =>
    let (answer, k) := k.step find conn step
    let (answers, k) := run k rest
    (answer :: answers, k)

end Keeping

/-- Whether no path strays in the runs of a ledger that has looked up and marked some paths in the
run that is under way. -/
def isSteady (fs : FileSystem) : (seen marked : List Path) → List Step → Bool
  | _, _, [] => true
  | seen, marked, .record p _ :: rest =>
    !strays fs seen p && isSteady fs (seen ++ [p]) marked rest
  | seen, marked, .mark p :: rest => isSteady fs seen (marked ++ [p]) rest
  | seen, marked, .commit _ :: rest => isStraight fs seen marked && isSteady fs [] [] rest

def forget (l : Ledger) : Ledger := { l with aliases := [] }

theorem enter_forget (l : Ledger) (i : Identity) :
    l.forget.enter i = ((l.enter i).1, (l.enter i).2.forget) := by
  unfold enter forget
  dsimp only
  split <;> rfl

theorem Spells.pendingAfresh_eq (h : l.Spells fs seen) (hp : strays fs seen p = false) :
    pendingAfresh fs l.forget p = (l.pending fs p).map fun (n, l) ↦ (n, l.forget) := by
  have hspelled := h.lookup_isSome (p := p)
  unfold pendingAfresh
  cases hn : l.aliases.lookup (Path.parts p) with
  | some n =>
    -- the path leads to the file of the spelling that is remembered
    obtain ⟨q, i, -, hparts, hi, hlookup⟩ := h.aliases hn
    have hr : resolves fs p = true := by
      rw [hn] at hspelled
      cases hr : resolves fs p with
      | true => rfl
      | false =>
        rw [strays, ← hspelled, hr] at hp
        cases hp
    have hsame := resolved?_eq_of_spelled hparts.symm hr (by rw [resolves, hi]; rfl)
    rw [hsame, hi, pending_of_some hn]
    dsimp only
    rw [enter_forget, enter_of_some hlookup]
    rfl
  | none =>
    rw [pending_of_none hn]
    cases fs.resolved? p with
    | none => rfl
    | some i =>
      dsimp only
      rw [enter_forget]
      rfl

theorem Spells.recordBy_afresh (h : l.Spells fs seen) (hp : strays fs seen p = false)
    (remark : Remark) : l.forget.recordBy (pendingAfresh fs) p remark =
      ((l.record fs p remark).1, (l.record fs p remark).2.forget) := by
  unfold recordBy Ledger.record
  rw [h.pendingAfresh_eq hp]
  cases l.pending fs p <;> rfl

theorem Spells.resolveMarkBy_afresh (h : l.Spells fs seen) (hp : strays fs seen p = false) :
    l.forget.resolveMarkBy (pendingAfresh fs) p = (l.resolveMark fs p).forget := by
  unfold resolveMarkBy Ledger.resolveMark
  rw [h.pendingAfresh_eq hp]
  cases l.pending fs p <;> rfl

theorem Spells.foldl_resolveMarkBy_afresh {marks : List Path} (h : l.Spells fs seen)
    (hmarks : isStraight fs seen marks = true) :
    marks.foldl (resolveMarkBy (pendingAfresh fs)) l.forget =
      (marks.foldl (Ledger.resolveMark fs) l).forget := by
  induction marks generalizing l seen with
  | nil => rfl
  | cons p rest ih =>
    rw [isStraight, Bool.and_eq_true, Bool.not_eq_true'] at hmarks
    rw [List.foldl_cons, List.foldl_cons, h.resolveMarkBy_afresh hmarks.1]
    exact ih (h.resolveMark p) hmarks.2

theorem Spells.resolveMarksBy_afresh (h : l.Spells fs seen)
    (hmarks : isStraight fs seen l.marks = true) :
    l.forget.resolveMarksBy (pendingAfresh fs) = (l.resolveMarks fs).forget := by
  have hstart : Spells fs seen { l with marks := [] } := h.congr rfl rfl
  exact hstart.foldl_resolveMarkBy_afresh hmarks

theorem Spells.commitBy_afresh (h : l.Spells fs seen) (hmarks : isStraight fs seen l.marks = true)
    (s : Store) (conn : Connection σ) (source : Retry.Source) (state : σ) :
    l.forget.commitBy (pendingAfresh fs) s conn source state =
      l.commitOver fs s conn source state := by
  unfold commitBy commitOver
  rw [h.resolveMarksBy_afresh hmarks]
  rfl

/-- One call gives the same with and without the memo, and the rest of the calls stays steady. -/
theorem Spells.step_afresh {step : Step} {rest : List Step} (h : l.Spells fs seen)
    (hsteady : isSteady fs seen l.marks (step :: rest) = true) (conn : Connection σ) (s : Store)
    (state : σ) :
    let memo := Keeping.step (Ledger.pending fs) conn ⟨l, s, state⟩ step
    Keeping.step (pendingAfresh fs) conn ⟨l.forget, s, state⟩ step =
        (memo.1, { memo.2 with ledger := memo.2.ledger.forget }) ∧
      ∃ seen, memo.2.ledger.Spells fs seen ∧
        isSteady fs seen memo.2.ledger.marks rest = true := by
  cases step with
  | record p remark =>
    rw [isSteady, Bool.and_eq_true, Bool.not_eq_true'] at hsteady
    have hrecord := h.recordBy_afresh hsteady.1 remark
    simp only [Keeping.step, hrecord, recordBy_pending]
    refine ⟨rfl, _, (h.record p remark).1, ?_⟩
    rw [marks_record]
    exact hsteady.2
  | mark p => exact ⟨rfl, seen, h.congr rfl rfl, hsteady⟩
  | commit source =>
    rw [isSteady, Bool.and_eq_true] at hsteady
    have hcommit := h.commitBy_afresh hsteady.1 s conn source state
    -- a commit leaves an empty ledger, which has looked up nothing
    obtain ⟨error, hledger, -⟩ := l.ledger_commitOver fs s conn source state
    simp only [Keeping.step, hcommit, commitBy_pending, hledger]
    exact ⟨rfl, [], .empty fs error, hsteady.2⟩

theorem Spells.run_afresh {steps : List Step} (h : l.Spells fs seen)
    (hsteady : isSteady fs seen l.marks steps = true) (conn : Connection σ) (s : Store)
    (state : σ) :
    let memo := Keeping.run (Ledger.pending fs) conn ⟨l, s, state⟩ steps
    let afresh := Keeping.run (pendingAfresh fs) conn ⟨l.forget, s, state⟩ steps
    afresh = (memo.1, { memo.2 with ledger := memo.2.ledger.forget }) := by
  induction steps generalizing l seen s state with
  | nil => rfl
  | cons step rest ih =>
    obtain ⟨hstep, seen', hspells, hrest⟩ := h.step_afresh hsteady conn s state
    simp only [Keeping.run, hstep]
    rw [ih hspells hrest]

/-- Over files that stay as they are, a ledger gives the same results and errors, and leaves the
same rows behind its connection, as one that resolves every path afresh at every call, unless a
path that leads nowhere is looked up after a spelling of it that leads somewhere. -/
theorem memo_is_transparent (fs : FileSystem) (conn : Connection σ) (s : Store) (state : σ)
    {steps : List Step} (h : isSteady fs [] [] steps = true) :
    let memo := Keeping.run (pending fs) conn ⟨{}, s, state⟩ steps
    let afresh := Keeping.run (pendingAfresh fs) conn ⟨{}, s, state⟩ steps
    memo.1 = afresh.1 ∧ memo.2.state = afresh.2.state ∧ memo.2.store = afresh.2.store := by
  have hrun := Spells.run_afresh (.empty fs none) h conn s state
  dsimp only at hrun ⊢
  have hforget : ({} : Ledger).forget = {} := rfl
  rw [hforget] at hrun
  rw [hrun]
  exact ⟨rfl, rfl, rfl⟩

def respelled : List Step :=
  [.record (Path.ofText "/file") ⟨1, 1, "t", "m"⟩,
    .record (Path.ofText "//./file") ⟨1, 1, "t", "n"⟩, .mark (Path.ofText "file"),
    .mark (Path.ofText "none"), .commit {}]

theorem respelled_transparent :
    let afresh := Keeping.run (pendingAfresh (.single [])) (Store.single .keepAll).connection
      ⟨{}, Store.single .keepAll, World.single {} (.single [])⟩ respelled
    isSteady (.single []) [] [] respelled = true ∧
      afresh.1.map Answer.committed = [.ok {}, .ok {}, .ok {}, .ok {},
        .ok { files := 1, findings := 2 }] ∧
      (afresh.1.map Answer.error).getLast? = some (some "could not find file on disk: none") := by
  have hsteady : isSteady (.single []) [] [] respelled = true := by decide
  obtain ⟨hanswers, -⟩ := memo_is_transparent (.single []) (Store.single .keepAll).connection
    (Store.single .keepAll) (World.single {} (.single [])) hsteady
  intro afresh
  refine ⟨hsteady, ?_⟩
  rw [show afresh.1 = _ from hanswers.symm]
  exact ⟨by decide, by decide⟩

/-- A file is found under its name with a slash behind it, which leads nowhere. -/
theorem closed_spelling_strays :
    let steps : List Step := [.record (Path.ofText "/file") ⟨1, 1, "t", "m"⟩,
      .record (Path.ofText "/file/") ⟨1, 1, "t", "n"⟩]
    let start : Keeping World := ⟨{}, Store.single .keepAll, World.single {} (.single [])⟩
    let memo := Keeping.run (pending (.single [])) (Store.single .keepAll).connection start steps
    let afresh :=
      Keeping.run (pendingAfresh (.single [])) (Store.single .keepAll).connection start steps
    memo.1.map Answer.recorded = [.ok (), .ok ()] ∧
      afresh.1.map Answer.recorded = [.ok (), .error (.fileNotFound (Path.ofText "/file/"))] ∧
      memo.1 ≠ afresh.1 := by
  decide

end FindingStore.Ledger
