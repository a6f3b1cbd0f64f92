import FindingStore.Proofs.Database.Isolation
import FindingStore.Store.Transaction

namespace FindingStore

theorem Work.runs_ask {τ α : Type} {memory last : τ} {q : Query} {next : q.Reply → Work τ α}
    {t : Tables} {w : Draft} {v : Verdict α} :
    (Work.ask memory q next).Runs t (.ok v, last) w ↔
      ∃ reply, ∃ u : Tables, t.apply false q = .ok (reply, u) ∧
        (next reply).Runs u (.ok v, last) w := by
  constructor
  · intro h
    cases h with
    | query ha hr => exact ⟨_, _, ha, hr⟩
    | refused e hr => cases hr
  · intro ⟨reply, u, ha, hr⟩
    exact .query ha hr

theorem Work.runs_ask_of_apply {τ α : Type} {memory last : τ} {q : Query} {reply : q.Reply}
    {next : q.Reply → Work τ α} {t u : Tables} {w : Draft} {v : Verdict α}
    (h : t.apply false q = .ok (reply, u)) :
    (Work.ask memory q next).Runs t (.ok v, last) w ↔ (next reply).Runs u (.ok v, last) w := by
  rw [runs_ask]
  constructor
  · intro ⟨reply', u', h', hr⟩
    rw [h] at h'
    cases h'
    exact hr
  · exact fun hr ↦ ⟨reply, u, h, hr⟩

inductive Work.IsDirect {τ α : Type} : Work τ α → Prop
  | finish (verdict : Except SqlError (Verdict α)) (memory : τ) : IsDirect (.finish verdict memory)
  | ask (memory : τ) (q : Query) {next : q.Reply → Work τ α} :
      (∀ reply, IsDirect (next reply)) → IsDirect (.ask memory q next)

theorem Work.staysInside_ask {τ α : Type} {memory : τ} {q : Query} {next : q.Reply → Work τ α}
    (h : ∀ reply, (next reply).StaysInside) : (Work.ask memory q next).StaysInside := by
  refine .query ?_
  intro reply
  cases reply with
  | error e => exact .done _
  | ok reply => exact h reply

theorem Work.IsDirect.staysInside {τ α : Type} {work : Work τ α} (h : work.IsDirect) :
    work.StaysInside := by
  induction h with
  | finish verdict memory => exact .done _
  | ask memory q _ ih => exact staysInside_ask ih

namespace Transaction

open Program

variable {σ τ α : Type} {conn : Connection σ} {idle : Tables → σ → Prop}
  {busy : Tables → Draft → σ → Prop} {t : Tables} {work : τ → Work τ α} {memory memory' : τ}
  {s s' : σ}

/-- How an attempt ends: the transaction is not begun, the unit of work breaks off, its commit
fails, or it gets what it asks for. -/
inductive Ending (α : Type)
  | unbegun (e : SqlError)
  | broken (e : SqlError)
  | uncommitted (e : SqlError)
  | granted (v : Verdict α)

namespace Ending

def isTransient : Ending α → Bool
  | .unbegun e | .broken e | .uncommitted e => e.isTransient
  | .granted .retry => true
  | .granted _ => false

def text : Ending α → String
  | .unbegun e => StoreError.sqlText "BEGIN" e
  | .broken e => StoreError.sqlText "unit of work" e
  | .uncommitted e => StoreError.sqlText "COMMIT" e
  | .granted _ => "unit of work requested a retry"

def result (maxAttempts : Nat) (ending : Ending α) : Except StoreError (Settlement α) :=
  if ending.isTransient then .error (.retriesExhausted maxAttempts ending.text)
  else
    match ending with
    | .unbegun e => .error (.sql "BEGIN" e)
    | .broken e => .error (.sql "unit of work" e)
    | .uncommitted e => .error (.sql "COMMIT" e)
    | .granted (.commit v) => .ok (.committed v)
    | .granted (.rollback v) => .ok (.rolledBack v)
    | .granted (.abort message) => .error (.aborted message)
    | .granted .retry => .error (.retriesExhausted maxAttempts ending.text)

def attempt : Ending α → Attempt α
  | .unbegun e => classify "BEGIN" e
  | .broken e => classify "unit of work" e
  | .uncommitted e => classify "COMMIT" e
  | .granted (.commit v) => .settled (.committed v)
  | .granted (.rollback v) => .settled (.rolledBack v)
  | .granted .retry => .transient "unit of work requested a retry"
  | .granted (.abort message) => .failed (.aborted message)

variable {ending : Ending α}

theorem attempt_of_isTransient (h : ending.isTransient = true) :
    ending.attempt = .transient ending.text := by
  cases ending with
  | unbegun e | broken e | uncommitted e => exact if_pos h
  | granted v =>
    cases v with
    | retry => rfl
    | commit | rollback | abort => cases h

theorem result_of_isTransient (h : ending.isTransient = true) (maxAttempts : Nat) :
    ending.result maxAttempts = .error (.retriesExhausted maxAttempts ending.text) := if_pos h

theorem attempt_of_not_isTransient (h : ending.isTransient = false) (maxAttempts : Nat) :
    match ending.result maxAttempts with
    | .ok r => ending.attempt = .settled r
    | .error e => ending.attempt = .failed e := by
  unfold result
  rw [h]
  cases ending with
  | unbegun e | broken e | uncommitted e => exact if_neg (Bool.eq_false_iff.1 h)
  | granted v =>
    cases v with
    | retry => cases h
    | commit | rollback | abort => rfl

theorem result_eq_retriesExhausted {maxAttempts n : Nat} {message : String}
    (h : ending.result maxAttempts = .error (.retriesExhausted n message)) :
    ending.isTransient = true := by
  unfold result at h
  split at h
  · next ht => exact ht
  · cases ending with
    | unbegun e | broken e | uncommitted e => cases h
    | granted v =>
      cases v with
      | retry => rfl
      | commit | rollback | abort => cases h

theorem eq_granted_of_result {maxAttempts : Nat} {r : Settlement α}
    (h : ending.result maxAttempts = .ok r) :
    ending = .granted (match r with
      | .committed v => .commit v
      | .rolledBack v => .rollback v) := by
  unfold result at h
  split at h
  · cases h
  · cases ending with
    | unbegun e | broken e | uncommitted e => cases h
    | granted v =>
      cases v with
      | retry | abort => cases h
      | commit | rollback =>
        cases h
        rfl

end Ending

/-- The course of an attempt over a connection, from the memory of its unit of work and the state
before it. Whatever has been begun and is not committed is rolled back. -/
inductive Tries (conn : Connection σ) (work : τ → Work τ α) (memory : τ) (s : σ) :
    Ending α → τ → σ → Prop
  | unbegun {e : SqlError} {s' : σ} :
      conn .begin s = (.error e, s') → Tries conn work memory s (.unbegun e) memory s'
  | broken {e : SqlError} {memory' : τ} {s₁ s₂ : σ} :
      conn .begin s = (.ok (), s₁) → (work memory).run conn s₁ = ((.error e, memory'), s₂) →
        Tries conn work memory s (.broken e) memory' (conn .rollback s₂).2
  | uncommitted {v : α} {e : SqlError} {memory' : τ} {s₁ s₂ s₃ : σ} :
      conn .begin s = (.ok (), s₁) → (work memory).run conn s₁ = ((.ok (.commit v), memory'), s₂) →
        conn .commit s₂ = (.error e, s₃) →
        Tries conn work memory s (.uncommitted e) memory' (conn .rollback s₃).2
  | committed {v : α} {memory' : τ} {s₁ s₂ s₃ : σ} :
      conn .begin s = (.ok (), s₁) → (work memory).run conn s₁ = ((.ok (.commit v), memory'), s₂) →
        conn .commit s₂ = (.ok (), s₃) →
        Tries conn work memory s (.granted (.commit v)) memory' s₃
  | undone {v : Verdict α} {memory' : τ} {s₁ s₂ : σ} :
      (∀ value, v ≠ .commit value) → conn .begin s = (.ok (), s₁) →
        (work memory).run conn s₁ = ((.ok v, memory'), s₂) →
        Tries conn work memory s (.granted v) memory' (conn .rollback s₂).2

/-- Every attempt takes such a course. -/
theorem run_attempt (h : conn.Isolates idle busy) (hw : ∀ memory, (work memory).StaysInside)
    (memory : τ) (hs : idle t s) :
    ∃ ending memory' s', Tries conn work memory s ending memory' s' ∧
      (attempt work memory).run conn s = ((ending.attempt, memory'), s') := by
  simp only [attempt, Program.run]
  rcases hb : conn .begin s with ⟨e | ⟨⟩, s₁⟩
  · exact ⟨_, _, _, .unbegun hb, rfl⟩
  · obtain ⟨u, -, hu⟩ := h.run (hw memory) (h.begin_ok hs hb)
    rcases hr : (work memory).run conn s₁ with ⟨⟨verdict, memory'⟩, s₂⟩
    rw [hr] at hu
    simp only [run_bind, run_map, hr]
    rcases verdict with e | v | v | - | message
    · exact ⟨_, _, _, .broken hb hr, rfl⟩
    · simp only [conclude, Program.run]
      rcases hc : conn .commit s₂ with ⟨e | ⟨⟩, s₃⟩
      · exact ⟨_, _, _, .uncommitted hb hr hc, rfl⟩
      · exact ⟨_, _, _, .committed hb hr hc, rfl⟩
    · obtain ⟨s₃, hrolled, -⟩ := h.rollback hu
      refine ⟨_, _, _, .undone (by simp) hb hr, ?_⟩
      simp only [conclude, Program.run, hrolled]
      rfl
    · exact ⟨_, _, _, .undone (by simp) hb hr, rfl⟩
    · exact ⟨_, _, _, .undone (by simp) hb hr, rfl⟩

namespace Tries

/-- The unit of work of an attempt that gets what it asks for has run on the tables as they
were. -/
theorem runs (h : conn.Isolates idle busy) (hw : ∀ memory, (work memory).StaysInside)
    {v : Verdict α} (ht : Tries conn work memory s (.granted v) memory' s') (hs : idle t s) :
    ∃ u, (work memory).Runs t (.ok v, memory') u ∧
      ∀ value, v = .commit value → idle u.tables s' := by
  cases ht with
  | committed hb hr hc =>
    obtain ⟨u, hruns, hu⟩ := h.run (hw memory) (h.begin_ok hs hb)
    rw [hr] at hruns hu
    exact ⟨u, hruns, fun _ _ ↦ h.commit_ok hu hc⟩
  | undone hv hb hr =>
    obtain ⟨u, hruns, -⟩ := h.run (hw memory) (h.begin_ok hs hb)
    rw [hr] at hruns
    exact ⟨u, hruns, fun value he ↦ absurd he (hv value)⟩

theorem keeps (h : conn.Isolates idle busy) (hw : ∀ memory, (work memory).StaysInside)
    {ending : Ending α} (ht : Tries conn work memory s ending memory' s')
    (hending : ∀ value, ending ≠ .granted (.commit value)) (hs : idle t s) : idle t s' := by
  have rolled {u : Draft} {s : σ} (hu : busy t u s) : idle t (conn .rollback s).2 := by
    obtain ⟨s', he, hs'⟩ := h.rollback hu
    rwa [he]
  have worked {s₁ : σ} (hb : conn .begin s = (.ok (), s₁)) :
      ∃ u, busy t u ((work memory).run conn s₁).2 := by
    obtain ⟨u, -, hu⟩ := h.run (hw memory) (h.begin_ok hs hb)
    exact ⟨u, hu⟩
  cases ht with
  | unbegun hb => exact h.begin_error hs hb
  | broken hb hr =>
    obtain ⟨u, hu⟩ := worked hb
    rw [hr] at hu
    exact rolled hu
  | uncommitted hb hr hc =>
    obtain ⟨u, hu⟩ := worked hb
    rw [hr] at hu
    exact rolled (h.commit_error hu hc)
  | committed => exact absurd rfl (hending _)
  | undone _ hb hr =>
    obtain ⟨u, hu⟩ := worked hb
    rw [hr] at hu
    exact rolled hu

end Tries

end Transaction

end FindingStore
