import FindingStore.Proofs.Ledger.Invariant
import Mathlib.Data.List.Forall2

namespace FindingStore

variable {σ τ α β γ : Type}

inductive Program.Ends (post : β → Prop) : Program β → Prop
  | done {b : β} : post b → Ends post (.done b)
  | execute {s : Statement} {next : Except SqlError s.Reply → Program β} :
      (∀ reply, Ends post (next reply)) → Ends post (.execute s next)

namespace Program

variable {p : Program β} {post : β → Prop}

theorem Ends.run (h : p.Ends post) (conn : Connection σ) (s : σ) : post (p.run conn s).1 := by
  induction h generalizing s with
  | done hb => exact hb
  | execute _ ih => exact ih _ _

theorem Ends.bind {next : β → Program γ} {post' : γ → Prop} (h : p.Ends post)
    (hnext : ∀ b, post b → (next b).Ends post') : (p.bind next).Ends post' := by
  induction h with
  | done hb => exact hnext _ hb
  | execute _ ih => exact .execute ih

end Program

/-- Failures that nothing but the database engine is to blame for. -/
inductive StoreError.OfEngine : StoreError → Prop
  | sql (context : String) (cause : SqlError) : OfEngine (.sql context cause)
  | retriesExhausted (attempts : Nat) (last : String) : OfEngine (.retriesExhausted attempts last)

def FailsByEngine (result : Except StoreError α) : Prop := ∀ e, result = .error e → e.OfEngine

theorem failsByEngine_error {e : StoreError} (h : e.OfEngine) :
    FailsByEngine (.error e : Except StoreError α) := by
  rintro _ ⟨⟩
  exact h

theorem failsByEngine_ok (a : α) : FailsByEngine (.ok a) := nofun

def Verdict.Gives (post : Except StoreError α → Prop) : Verdict α → Prop
  | .commit value | .rollback value => post (.ok value)
  | .retry => True
  | .abort message => post (.error (.aborted message))

/-- Units of work of which a transaction makes something of a kind. -/
def Work.Gives (post : Except StoreError α → Prop) (work : Work τ α) : Prop :=
  Program.Ends (fun end_ ↦ ∀ v, end_.1 = .ok v → v.Gives post) work

namespace Work

variable {post : Except StoreError α → Prop} {memory : τ}

theorem gives_finish {v : Verdict α} (h : v.Gives post) : (finish (.ok v) memory).Gives post := by
  refine .done ?_
  rintro _ ⟨⟩
  exact h

theorem gives_ask {q : Query} {next : q.Reply → Work τ α} (h : ∀ reply, (next reply).Gives post) :
    (ask memory q next).Gives post := by
  refine .execute fun reply ↦ ?_
  cases reply with
  | ok reply => exact h reply
  | error e => exact .done fun v hv ↦ nomatch hv

end Work

namespace Transaction

variable {post : Except StoreError α → Prop}

def Attempt.Gives (post : Except StoreError α → Prop) : Attempt α → Prop
  | .settled r => post (.ok r.value)
  | .transient _ => True
  | .failed e => post (.error e)

section

variable (hpost : ∀ e : StoreError, e.OfEngine → post (.error e))

include hpost

theorem gives_classify (context : String) (e : SqlError) :
    (classify context e : Attempt α).Gives post := by
  unfold classify
  split
  · trivial
  · exact hpost _ (.sql context e)

theorem ends_conclude {verdict : Except SqlError (Verdict α)}
    (h : ∀ v, verdict = .ok v → v.Gives post) : (conclude verdict).Ends (·.Gives post) := by
  have hrolled {a : Attempt α} (ha : a.Gives post) : (rollbackThen a).Ends (·.Gives post) :=
    .execute fun _ ↦ .done ha
  rcases verdict with e | v | v | - | message
  · exact hrolled (gives_classify hpost _ e)
  · refine .execute fun reply ↦ ?_
    cases reply with
    | ok => exact .done (h _ rfl)
    | error e => exact hrolled (gives_classify hpost _ e)
  · refine .execute fun reply ↦ ?_
    cases reply with
    | ok => exact .done (h _ rfl)
    | error e => exact .done (hpost _ (.sql _ e))
  · exact hrolled trivial
  · exact hrolled (h _ rfl)

variable {work : τ → Work τ α} (hw : ∀ memory, (work memory).Gives post)

include hw

theorem ends_attempt (memory : τ) : (attempt work memory).Ends (·.1.Gives post) := by
  refine .execute fun reply ↦ ?_
  cases reply with
  | error e => exact .done (gives_classify hpost _ e)
  | ok =>
    refine (hw memory).bind ?_
    rintro ⟨verdict, memory'⟩ hverdict
    exact (ends_conclude hpost hverdict).bind fun a ha ↦ .done ha

theorem ends_attempts (policy : Retry.Policy) (left number : Nat) (waited : List Nat)
    (last : String) (source : Retry.Source) (memory : τ) :
    (attempts policy work left number waited last source memory).Ends
      fun report ↦ post (report.result.map Settlement.value) := by
  induction left generalizing number waited last source memory with
  | zero => exact .done (hpost _ (.retriesExhausted _ last))
  | succ left ih =>
    refine (ends_attempt hpost hw memory).bind ?_
    rintro ⟨r | message | e, memory'⟩ ha
    · exact .done ha
    · exact ih _ _ _ _ _
    · exact .done ha

theorem ends_program (policy : Retry.Policy) (source : Retry.Source) (memory : τ) :
    (program policy source work memory).Ends
      fun report ↦ post (report.result.map Settlement.value) :=
  ends_attempts hpost hw _ _ _ _ _ _ _

end

end Transaction

theorem Store.gives_transactOver {post : Except StoreError α → Prop}
    (hpost : ∀ e : StoreError, e.OfEngine → post (.error e)) {work : τ → Work τ α}
    (hw : ∀ memory, (work memory).Gives post) (s : Store) (conn : Connection σ)
    (source : Retry.Source) (memory : τ) (state : σ) :
    post ((s.transactOver conn source work memory state).1.result.map Settlement.value) := by
  have hreport := (Transaction.ends_program hpost hw s.policy source memory).run conn state
  unfold transactOver
  dsimp only
  split <;> exact hreport

namespace Ledger

def Landed : List RunFile → List (Option Int) → Prop :=
  List.Forall₂ fun f id ↦ f.hasFindings = true → id.isSome = true

theorem Landed.exists_id {files : List RunFile} {ids : List (Option Int)} (h : Landed files ids)
    {n : Nat} {f : RunFile} (hn : files[n]? = some f) (hf : f.hasFindings = true) :
    ∃ id, ids[n]? = some (some id) := by
  induction h generalizing n with
  | nil => simp at hn
  | @cons g id files ids hid _ ih =>
    cases n with
    | zero =>
      cases hn
      exact ⟨id.get (hid hf), by simp⟩
    | succ n => exact ih hn

variable {post : Except StoreError CommitCounts → Prop}

theorem gives_landFiles (retention : Retention)
    {next : List (Option Int) → CommitCounts → Work Unit CommitCounts} (files : List RunFile)
    {before : List RunFile} {ids : List (Option Int)} (hids : Landed before ids)
    {stats : CommitCounts}
    (h : ∀ ids' stats', Landed (before ++ files) ids' → stats'.findings = stats.findings →
      (next ids' stats').Gives post) :
    (landFiles retention next files ids stats).Gives post := by
  induction files generalizing before ids stats with
  | nil => exact h ids stats (by rwa [List.append_nil]) rfl
  | cons f rest ih =>
    have hrest {id : Option Int} {stats' : CommitCounts}
        (hid : f.hasFindings = true → id.isSome = true)
        (hstats : stats'.findings = stats.findings) :
        (landFiles retention next rest (ids ++ [id]) stats').Gives post := by
      refine ih (List.rel_append hids (.cons hid .nil)) fun ids'' stats'' hlanded hstats' ↦ ?_
      rw [List.append_assoc] at hlanded
      exact h ids'' stats'' hlanded (hstats'.trans hstats)
    have hland : (landFile retention f stats fun id stats ↦
        landFiles retention next rest (ids ++ [some id]) stats).Gives post := by
      refine Work.gives_ask fun id ↦ ?_
      cases retention with
      | keepAll => exact hrest (fun _ ↦ rfl) rfl
      | pruneSuperseded => exact Work.gives_ask fun removed ↦ hrest (fun _ ↦ rfl) rfl
    unfold landFiles needsRow
    split
    · exact hland
    · next hfindings =>
      have hnone : (landFiles retention next rest (ids ++ [none]) stats).Gives post :=
        hrest (fun hf ↦ absurd hf hfindings) rfl
      split
      · refine Work.gives_ask fun id ↦ ?_
        cases id.isSome with
        | true => exact hland
        | false => exact hnone
      · exact hnone

def Counts (n : Nat) (result : Except StoreError CommitCounts) : Prop :=
  ∀ counts, result = .ok counts → counts.findings = n

theorem counts_landFindings (files : List RunFile) (ids : List (Option Int))
    (staged : List RunFinding) (stats : CommitCounts) :
    (landFindings files ids staged stats).Gives (Counts (stats.findings + staged.length)) := by
  induction staged generalizing stats with
  | nil =>
    refine Work.gives_finish ?_
    rintro _ ⟨⟩
    rfl
  | cons f rest ih =>
    unfold landFindings
    split
    · exact Work.gives_finish fun counts hcounts ↦ nomatch hcounts
    · have hcount : stats.findings + (f :: rest).length = stats.findings + 1 + rest.length := by
        rw [List.length_cons]
        omega
      rw [hcount]
      exact Work.gives_ask fun _ ↦ ih { stats with findings := stats.findings + 1 }

theorem failsByEngine_landFindings (files : List RunFile) {ids : List (Option Int)}
    {staged : List RunFinding} (h : ∀ f ∈ staged, ∃ id, ids[f.file]? = some (some id))
    (stats : CommitCounts) :
    (landFindings files ids staged stats).Gives FailsByEngine := by
  induction staged generalizing stats with
  | nil => exact Work.gives_finish (failsByEngine_ok stats)
  | cons f rest ih =>
    obtain ⟨id, hid⟩ := h f List.mem_cons_self
    simp only [landFindings, hid, Option.join_some]
    exact Work.gives_ask fun _ ↦ ih (fun g hg ↦ h g (List.mem_cons_of_mem _ hg)) _

theorem gives_commitOver (hpost : ∀ e : StoreError, e.OfEngine → post (.error e)) {l : Ledger}
    {fs : FileSystem} {s : Store}
    (h : (work s.retention (l.resolveMarks fs).files (l.resolveMarks fs).staged).Gives post)
    (conn : Connection σ) (source : Retry.Source) (state : σ) :
    post (l.commitOver fs s conn source state).result := by
  have hreport := s.gives_transactOver hpost (fun _ ↦ h) conn source () state
  unfold commitOver
  dsimp only
  generalize s.transactOver conn source (fun _ ↦ work s.retention (l.resolveMarks fs).files
    (l.resolveMarks fs).staged) () state = end_ at hreport
  obtain ⟨⟨result, memory, source', delays⟩, s', state'⟩ := end_
  cases result <;> exact hreport

/-- Whatever a connection answers, a commit that succeeds has counted the staged findings. -/
theorem findings_commitOver (l : Ledger) (fs : FileSystem) (s : Store) (conn : Connection σ)
    (source : Retry.Source) (state : σ) {counts : CommitCounts}
    (h : (l.commitOver fs s conn source state).result = .ok counts) :
    counts.findings = l.staged.length := by
  have hcounts : Counts l.staged.length (l.commitOver fs s conn source state).result := by
    refine gives_commitOver (fun e _ counts hcounts ↦ nomatch hcounts) ?_ conn source state
    refine gives_landFiles s.retention _ List.Forall₂.nil fun ids stats _ hstats ↦ ?_
    rw [l.staged_resolveMarks fs]
    have hlanded := counts_landFindings (l.resolveMarks fs).files ids l.staged stats
    rwa [hstats, Nat.zero_add] at hlanded
  exact hcounts counts h

/-- Whatever a connection answers, every finding that calls have staged is on a file that gets a
row, so that a commit fails only if the engine fails it. -/
theorem failsByEngine_commitOver {l : Ledger} (hl : l.Reachable) (fs : FileSystem) (s : Store)
    (conn : Connection σ) (source : Retry.Source) (state : σ) :
    FailsByEngine (l.commitOver fs s conn source state).result := by
  have hsound := hl.sound.resolveMarks fs
  refine gives_commitOver (fun _ ↦ failsByEngine_error) ?_ conn source state
  refine gives_landFiles s.retention _ List.Forall₂.nil fun ids stats hids _ ↦ ?_
  refine failsByEngine_landFindings _ (fun f hf ↦ ?_) stats
  have hn := List.getElem?_eq_getElem (hsound.staged hf)
  exact hids.exists_id hn ((hsound.hasFindings hn).2 ⟨f, hf, rfl⟩)

end Ledger

end FindingStore
