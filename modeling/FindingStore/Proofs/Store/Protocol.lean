import FindingStore.Proofs.Store.Attempts
import FindingStore.Proofs.World.Receiving

namespace FindingStore

namespace Transaction

variable {σ τ α : Type} {conn : Connection σ} {idle : Tables → σ → Prop}
  {busy : Tables → Draft → σ → Prop} {t : Tables} {policy : Retry.Policy} {work : τ → Work τ α}

structure Standing (σ τ : Type) where
  source : Retry.Source
  memory : τ
  state : σ

structure Trial (σ τ α : Type) where
  delay : Nat
  memory : τ
  state : σ
  ending : Ending α

/-- Attempts over a connection that follow each other, the first of them with a number. The delay
before each is drawn for its number, and another one follows only what is transient. -/
inductive Course (conn : Connection σ) (policy : Retry.Policy) (work : τ → Work τ α) :
    Nat → Standing σ τ → List (Trial σ τ α) → Standing σ τ → Prop
  | last {number delay : Nat} {source source' : Retry.Source} {memory memory' : τ} {s s' : σ}
      {ending : Ending α} :
      policy.delay number source = (delay, source') → Tries conn work memory s ending memory' s' →
        Course conn policy work number ⟨source, memory, s⟩ [⟨delay, memory, s, ending⟩]
          ⟨source', memory', s'⟩
  | again {number delay : Nat} {source source' : Retry.Source} {memory memory' : τ} {s s' : σ}
      {ending : Ending α} {rest : List (Trial σ τ α)} {after : Standing σ τ} :
      policy.delay number source = (delay, source') → Tries conn work memory s ending memory' s' →
        ending.isTransient = true →
        Course conn policy work (number + 1) ⟨source', memory', s'⟩ rest after →
        Course conn policy work number ⟨source, memory, s⟩ (⟨delay, memory, s, ending⟩ :: rest)
          after

namespace Course

variable {number : Nat} {before after : Standing σ τ} {trials : List (Trial σ τ α)}

theorem isTransient (h : Course conn policy work number before trials after) {k : Nat}
    {trial : Trial σ τ α} (hk : trials[k]? = some trial) (hlast : k + 1 < trials.length) :
    trial.ending.isTransient = true := by
  induction h generalizing k with
  | last => simp at hlast
  | again _ _ ht _ ih =>
    cases k with
    | zero =>
      cases hk
      exact ht
    | succ k => exact ih hk (Nat.lt_of_succ_lt_succ hlast)

theorem starts (h : Course conn policy work number before trials after)
    (hc : conn.Isolates idle busy) (hw : ∀ memory, (work memory).StaysInside)
    (hs : idle t before.state) {trial : Trial σ τ α} (ht : trial ∈ trials) :
    idle t trial.state := by
  induction h with
  | last =>
    rw [List.mem_singleton.1 ht]
    exact hs
  | again _ htries htransient _ ih =>
    rcases List.mem_cons.1 ht with rfl | ht
    · exact hs
    · refine ih (htries.keeps hc hw ?_ hs) ht
      rintro value rfl
      cases htransient

theorem ends (h : Course conn policy work number before trials after) :
    ∃ last, trials.getLast? = some last ∧
      Tries conn work last.memory last.state last.ending after.memory after.state := by
  induction h with
  | last _ htries => exact ⟨_, rfl, htries⟩
  | again _ _ _ _ ih =>
    obtain ⟨last, hlast, htries⟩ := ih
    exact ⟨last, by rw [List.getLast?_cons, hlast, Option.getD_some], htries⟩

theorem delay_head? (h : Course conn policy work number before trials after) :
    trials.head?.map Trial.delay = some (policy.delay number before.source).1 := by
  cases h with
  | last hd | again hd => simp [hd]

end Course

theorem reverse_waited (delay : Nat) (waited : List Nat) :
    (if delay = 0 then waited else delay :: waited).reverse =
      waited.reverse ++ [delay].filter (· ≠ 0) := by
  by_cases h : delay = 0
  · simp [h]
  · simp [h]

section

variable {number left delay : Nat} {source source' : Retry.Source} {memory memory' : τ} {s s' : σ}
  {ending : Ending α}

theorem run_attempts_of_isTransient (hd : policy.delay number source = (delay, source'))
    (hrun : (attempt work memory).run conn s = ((ending.attempt, memory'), s'))
    (ht : ending.isTransient = true) (left : Nat) (waited : List Nat) (text : String) :
    (attempts policy work (left + 1) number waited text source memory).run conn s =
      (attempts policy work left (number + 1) (if delay = 0 then waited else delay :: waited)
        ending.text source' memory').run conn s' := by
  simp only [attempts, hd, Program.run_bind, hrun, Ending.attempt_of_isTransient ht]

theorem run_attempts_of_not_isTransient (hd : policy.delay number source = (delay, source'))
    (hrun : (attempt work memory).run conn s = ((ending.attempt, memory'), s'))
    (ht : ending.isTransient = false) (left : Nat) (waited : List Nat) (text : String) :
    (attempts policy work (left + 1) number waited text source memory).run conn s =
      ({ result := ending.result policy.maxAttempts
         memory := memory'
         source := source'
         delays := waited.reverse ++ [delay].filter (· ≠ 0) }, s') := by
  have hend := Ending.attempt_of_not_isTransient ht policy.maxAttempts
  rw [← reverse_waited]
  simp only [attempts, hd, Program.run_bind, hrun]
  cases hr : ending.result policy.maxAttempts with
  | ok r =>
    rw [hr] at hend
    rw [hend]
    rfl
  | error e =>
    rw [hr] at hend
    rw [hend]
    rfl

end

theorem run_attempts (policy : Retry.Policy) (h : conn.Isolates idle busy)
    (hw : ∀ memory, (work memory).StaysInside) (left number : Nat) (waited : List Nat)
    (text : String) (source : Retry.Source) (memory : τ) {s : σ} (hs : idle t s) :
    ∃ trials last after, Course conn policy work number ⟨source, memory, s⟩ trials after ∧
      trials.getLast? = some last ∧ trials.length ≤ left + 1 ∧
      (last.ending.isTransient = true → trials.length = left + 1) ∧
      (attempts policy work (left + 1) number waited text source memory).run conn s =
        ({ result := last.ending.result policy.maxAttempts
           memory := after.memory
           source := after.source
           delays := waited.reverse ++ (trials.map Trial.delay).filter (· ≠ 0) }, after.state) := by
  induction left generalizing number waited text source memory s with
  | zero =>
    obtain ⟨ending, memory', s', htries, hrun⟩ := run_attempt h hw memory hs
    rcases hd : policy.delay number source with ⟨delay, source'⟩
    refine ⟨_, ⟨delay, memory, s, ending⟩, _, .last hd htries, rfl, Nat.le_refl _, fun _ ↦ rfl, ?_⟩
    cases ht : ending.isTransient with
    | false => exact run_attempts_of_not_isTransient hd hrun ht 0 waited text
    | true =>
      rw [run_attempts_of_isTransient hd hrun ht, attempts, reverse_waited,
        ← Ending.result_of_isTransient ht]
      rfl
  | succ left ih =>
    obtain ⟨ending, memory', s', htries, hrun⟩ := run_attempt h hw memory hs
    rcases hd : policy.delay number source with ⟨delay, source'⟩
    cases ht : ending.isTransient with
    | false =>
      refine ⟨_, ⟨delay, memory, s, ending⟩, _, .last hd htries, rfl, by simp, fun hlast ↦ ?_, ?_⟩
      · exact absurd hlast (Bool.eq_false_iff.1 ht)
      · exact run_attempts_of_not_isTransient hd hrun ht (left + 1) waited text
    | true =>
      have hkept : idle t s' := by
        refine htries.keeps h hw ?_ hs
        rintro value rfl
        cases ht
      obtain ⟨trials, last, after, hcourse, hlast, hlength, hbudget, hrest⟩ :=
        ih (number + 1) (if delay = 0 then waited else delay :: waited) ending.text source' memory'
          hkept
      refine ⟨_, last, after, .again hd htries ht hcourse, ?_, ?_, fun hl ↦ ?_, ?_⟩
      · rw [List.getLast?_cons, hlast, Option.getD_some]
      · exact Nat.succ_le_succ hlength
      · exact congrArg Nat.succ (hbudget hl)
      · rw [run_attempts_of_isTransient hd hrun ht, hrest, reverse_waited, List.append_assoc,
          ← List.filter_append]
        rfl

/-- The protocol of a transaction that makes certain attempts, and what it leaves behind. -/
structure Protocol (idle : Tables → σ → Prop) (policy : Retry.Policy) (work : τ → Work τ α)
    (t : Tables) (trials : List (Trial σ τ α)) (report : Report τ α) (s' : σ) : Prop where
  /-- An attempt is followed by another one if it is transient and the budget is not spent. -/
  repeats {k : Nat} {trial : Trial σ τ α} : trials[k]? = some trial →
    (k + 1 < trials.length ↔ trial.ending.isTransient = true ∧ k + 1 < policy.maxAttempts)
  starts {trial : Trial σ τ α} : trial ∈ trials → idle t trial.state
  result : ∃ last, trials.getLast? = some last ∧
    report.result = last.ending.result policy.maxAttempts
  exhausts : (∃ n text, report.result = .error (.retriesExhausted n text)) ↔
    trials.length = policy.maxAttempts ∧ ∀ trial ∈ trials, trial.ending.isTransient = true
  commits {v : α} : report.result = .ok (.committed v) →
    ∃ last u, trials.getLast? = some last ∧
      (work last.memory).Runs t (.ok (.commit v), report.memory) u ∧ idle u.tables s'
  rollsBack {v : α} : report.result = .ok (.rolledBack v) →
    ∃ last u, trials.getLast? = some last ∧
      (work last.memory).Runs t (.ok (.rollback v), report.memory) u ∧ idle t s'
  fails {e : StoreError} : report.result = .error e → idle t s'
  first : trials.head?.map Trial.delay = some 0
  waits : report.delays = (trials.map Trial.delay).filter (· ≠ 0)

theorem Protocol.imp {idle' : Tables → σ → Prop} {trials : List (Trial σ τ α)}
    {report : Report τ α} {s' : σ} (h : Protocol idle policy work t trials report s')
    (himp : ∀ {t s}, idle t s → idle' t s) : Protocol idle' policy work t trials report s' where
  repeats := h.repeats
  starts ht := himp (h.starts ht)
  result := h.result
  exhausts := h.exhausts
  commits hr :=
    have ⟨last, u, hlast, hruns, hu⟩ := h.commits hr
    ⟨last, u, hlast, hruns, himp hu⟩
  rollsBack hr :=
    have ⟨last, u, hlast, hruns, ht⟩ := h.rollsBack hr
    ⟨last, u, hlast, hruns, himp ht⟩
  fails hr := himp (h.fails hr)
  first := h.first
  waits := h.waits

/-- A transaction over a connection with isolated transactions. -/
theorem run_program (h : conn.Isolates idle busy) (hw : ∀ memory, (work memory).StaysInside)
    (hpolicy : 1 ≤ policy.maxAttempts) (source : Retry.Source) (memory : τ) {s : σ}
    (hs : idle t s) :
    let end' := (program policy source work memory).run conn s
    ∃ trials, Course conn policy work 1 ⟨source, memory, s⟩ trials
        ⟨end'.1.source, end'.1.memory, end'.2⟩ ∧
      Protocol idle policy work t trials end'.1 end'.2 := by
  have hleft : policy.maxAttempts - 1 + 1 = policy.maxAttempts := Nat.sub_add_cancel hpolicy
  obtain ⟨trials, last, after, hcourse, hlast, hlength, hbudget, hrun⟩ :=
    run_attempts policy h hw (policy.maxAttempts - 1) 1 [] "no attempt made" source memory hs
  rw [hleft] at hlength hbudget hrun
  obtain ⟨last', hlast', htries⟩ := hcourse.ends
  obtain rfl : last = last' := Option.some.inj (hlast.symm.trans hlast')
  have hstart : idle t last.state := hcourse.starts h hw hs (List.mem_of_getLast? hlast)
  have hposition {k : Nat} {trial : Trial σ τ α} (hk : trials[k]? = some trial) :
      k + 1 < trials.length ∨ k + 1 = trials.length ∧ trial = last := by
    have hlt := (List.getElem?_eq_some_iff.1 hk).1
    rcases Nat.lt_or_eq_of_le hlt with hlt | heq
    · exact .inl hlt
    · refine .inr ⟨heq, ?_⟩
      rw [List.getLast?_eq_getElem?, ← heq, Nat.succ_sub_one, hk] at hlast
      exact Option.some.inj hlast
  simp only [program, hrun]
  refine ⟨trials, hcourse, ⟨?_, hcourse.starts h hw hs, ⟨last, hlast, rfl⟩, ?_, ?_, ?_, ?_, ?_, ?_⟩⟩
  · intro k trial hk
    refine ⟨fun hlt ↦ ⟨hcourse.isTransient hk hlt, Nat.lt_of_lt_of_le hlt hlength⟩, ?_⟩
    rintro ⟨ht, hlt⟩
    rcases hposition hk with hk | ⟨heq, rfl⟩
    · exact hk
    · rw [heq, hbudget ht] at hlt
      exact absurd hlt (Nat.lt_irrefl _)
  · constructor
    · rintro ⟨n, text, he⟩
      have ht := Ending.result_eq_retriesExhausted he
      refine ⟨hbudget ht, fun trial hmem ↦ ?_⟩
      obtain ⟨k, hk⟩ := List.mem_iff_getElem?.1 hmem
      rcases hposition hk with hlt | ⟨-, rfl⟩
      · exact hcourse.isTransient hk hlt
      · exact ht
    · rintro ⟨-, hall⟩
      exact ⟨_, _, Ending.result_of_isTransient (hall last (List.mem_of_getLast? hlast)) _⟩
  · intro v he
    rw [Ending.eq_granted_of_result he] at htries
    obtain ⟨u, hruns, hu⟩ := htries.runs h hw hstart
    exact ⟨last, u, hlast, hruns, hu v rfl⟩
  · intro v he
    rw [Ending.eq_granted_of_result he] at htries
    obtain ⟨u, hruns, -⟩ := htries.runs h hw hstart
    exact ⟨last, u, hlast, hruns, htries.keeps h hw (by simp) hstart⟩
  · intro e he
    refine htries.keeps h hw (fun v hv ↦ ?_) hstart
    rw [hv] at he
    cases he
  · exact hcourse.delay_head?
  · rfl

end Transaction

open Transaction World in
/-- A transaction of a store keeps to the protocol, whichever statements of its attempts are
refused: the tables are those before the call, or what the last run of the unit of work made of
them, and the store remembers the error it returns. -/
theorem Store.transact_protocol {τ α : Type} {s : Store} {w : World} {t : Tables}
    {work : τ → Work τ α} (ha : s.access.IsOrdinary)
    (hw : w.Awaits s.database s.access t) (hpolicy : 1 ≤ s.policy.maxAttempts)
    (hwork : ∀ memory, (work memory).StaysInside) (source : Retry.Source) (memory : τ)
    (faults : List (Option SqlError)) :
    let r := s.transactOver s.connection.failing source work memory (faults, w)
    (∃ trials, Course s.connection.failing s.policy work 1 ⟨source, memory, faults, w⟩ trials
        ⟨r.1.source, r.1.memory, r.2.2⟩ ∧
      Protocol (fun t state ↦ state.2.Awaits s.database s.access t) s.policy work t trials
        r.1 r.2.2) ∧
      (∀ settlement, r.1.result = .ok settlement → r.2.1 = { s with lastError := none }) ∧
      ∀ e, r.1.result = .error e → r.2.1 = { s with lastError := some e.message } := by
  intro r
  obtain ⟨trials, hcourse, hprotocol⟩ := run_program (Store.isolates_of_awaits w ha).failing hwork
    hpolicy source memory (s := (faults, w)) ⟨hw, .refl w s.database, id⟩
  replace hprotocol : Protocol
      (fun t (state : List (Option SqlError) × World) ↦ state.2.Awaits s.database s.access t)
      s.policy work t trials _ _ := hprotocol.imp And.left
  rcases hrun : (program s.policy source work memory).run s.connection.failing (faults, w) with
    ⟨⟨result, memory', source', delays⟩, state⟩
  rw [hrun] at hcourse hprotocol
  cases result with
  | ok settlement =>
    have hr : r = (⟨.ok settlement, memory', source', delays⟩, { s with lastError := none },
        state) := by
      simp only [r, Store.transactOver, hrun]
    rw [hr]
    exact ⟨⟨trials, hcourse, hprotocol⟩, fun _ _ ↦ rfl, nofun⟩
  | error e =>
    have hr : r = (⟨.error e, memory', source', delays⟩, { s with lastError := some e.message },
        state) := by
      simp only [r, Store.transactOver, hrun]
    rw [hr]
    refine ⟨⟨trials, hcourse, hprotocol⟩, nofun, fun e' he ↦ ?_⟩
    cases he
    rfl

/-- A unit of work that counts its runs. Each adds a row, and the second one is to be kept. -/
def Store.onSecondRun (runs : Nat) : Work Nat Int :=
  .ask (runs + 1) (.insertFile .null (.text "/file") (.integer 0) (.integer runs)) fun id ↦
    .finish (.ok (if runs = 0 then .retry else .commit id)) (runs + 1)

open Transaction World in
theorem Store.onSecondRun_lands :
    let r := (Store.single .keepAll).transactOver (Store.single .keepAll).connection.failing {}
      onSecondRun 0 ([some .locked], .fresh {} [])
    r.1.result = .ok (.committed 1) ∧ r.1.delays = [66666, 133333] ∧
      r.2.1.lastError = none ∧
      ∃ (last : Trial (List (Option SqlError) × World) Nat Int) (u : Draft),
        (onSecondRun last.memory).Runs ({} : Tables) (.ok (.commit 1), 2) u ∧
          r.2.2.2.Awaits 0 (Store.single .keepAll).access u.tables := by
  intro r
  have hinside (runs : Nat) : (onSecondRun runs).StaysInside := Work.staysInside_ask fun _ ↦ .done _
  obtain ⟨⟨trials, -, hprotocol⟩, hok, -⟩ := Store.transact_protocol
    (Store.single_isOrdinary .keepAll) (World.fresh_awaits {} [] .keepAll)
    (by decide) hinside {} 0 [some .locked]
  have hresult : r.1.result = .ok (.committed 1) := rfl
  obtain ⟨last, u, -, hruns, hidle⟩ := hprotocol.commits hresult
  exact ⟨hresult, rfl, congrArg Store.lastError (hok _ hresult), last, u, hruns, hidle⟩

end FindingStore
