import FindingStore.Proofs.Retry.Band
import FindingStore.Proofs.Store.Protocol
import Mathlib.Data.List.Chain

namespace FindingStore.Retry

variable {p : Policy} {attempt : Nat} {source source' : Source}

theorem longest_eq_shortest (mean : Nat) : longest mean = shortest (capped (2 * mean)) := by
  unfold longest shortest capped largestWord wordSize
  omega

theorem Policy.mean_succ (hattempt : 2 ≤ attempt) (hlast : attempt < maxDoublings + 2)
    (p : Policy) : p.mean (attempt + 1) = capped (2 * p.mean attempt) := by
  have hdoublings : min (attempt - 2) maxDoublings = attempt - 2 := by omega
  have hnext : min (attempt + 1 - 2) maxDoublings = attempt - 2 + 1 := by omega
  rw [mean, mean, hdoublings, hnext, Nat.shiftLeft_eq, Nat.shiftLeft_eq, Nat.pow_succ,
    ← Nat.mul_assoc]
  generalize capped p.baseMicros * 2 ^ (attempt - 2) = n
  unfold capped
  omega

theorem Policy.mean_of_le (hattempt : maxDoublings + 2 ≤ attempt) (p : Policy) :
    p.mean attempt = p.mean (maxDoublings + 2) := by
  have hdoublings : min (attempt - 2) maxDoublings = maxDoublings := by omega
  rw [mean, mean, hdoublings, Nat.add_sub_cancel, Nat.min_self]

theorem Policy.mean_succ_of_le (hattempt : maxDoublings + 2 ≤ attempt) (p : Policy) :
    p.mean (attempt + 1) = p.mean attempt := by
  rw [p.mean_of_le hattempt, p.mean_of_le (Nat.le_succ_of_le hattempt)]

/-- A delay is not shorter than the one before it while the mean doubles, whatever is drawn. -/
theorem Policy.delay_le_delay_succ (hlast : attempt < maxDoublings + 2) (h : source.IsWords)
    (p : Policy) (source' : Source) :
    (p.delay attempt source).1 ≤ (p.delay (attempt + 1) source').1 := by
  by_cases hfirst : attempt ≤ 1
  · rw [p.delay_of_attempt_le hfirst]
    exact Nat.zero_le _
  · have hattempt : 2 ≤ attempt := by omega
    have hnext : 2 ≤ attempt + 1 := by omega
    have hmean := p.mean_succ hattempt hlast
    have hlower := p.shortest_le_delay hnext source'
    by_cases hbounds : longest (p.mean attempt) ≤ shortest (p.mean attempt)
    · -- nothing is drawn for the longer mean either
      rw [delay_of_longest_le hattempt hbounds]
      have hwhole := (longest_le_shortest_iff (p.mean_lt attempt)).1 hbounds
      have hwhole' : p.mean (attempt + 1) = 0 ∨ 2 ^ 63 ≤ p.mean (attempt + 1) := by
        rw [hmean]
        unfold capped largestWord wordSize
        omega
      have hbounds' := (longest_le_shortest_iff (p.mean_lt (attempt + 1))).2 hwhole'
      rw [delay_of_longest_le hnext hbounds', hmean]
      have hlt := p.mean_lt attempt
      unfold capped largestWord
      omega
    · calc (p.delay attempt source).1 ≤ longest (p.mean attempt) :=
            delay_le_longest h hattempt (Nat.lt_of_not_le hbounds)
        _ = shortest (p.mean (attempt + 1)) := by rw [hmean, longest_eq_shortest]
        _ ≤ (p.delay (attempt + 1) source').1 := hlower

def Policy.delaysFrom (p : Policy) : (attempt count : Nat) → Source → List Nat
  | _, 0, _ => []
  | attempt, count + 1, source =>
    (p.delay attempt source).1 ::
      p.delaysFrom (attempt + 1) count (p.delay attempt source).2

def Policy.sourceAfter (p : Policy) : (attempt count : Nat) → Source → Source
  | _, 0, source => source
  | attempt, count + 1, source =>
    p.sourceAfter (attempt + 1) count (p.delay attempt source).2

def Policy.delays (p : Policy) (source : Source) : List Nat :=
  p.delaysFrom 1 p.maxAttempts source

theorem Policy.delaysFrom_add (p : Policy) (attempt m n : Nat) (source : Source) :
    p.delaysFrom attempt (m + n) source = p.delaysFrom attempt m source ++
      p.delaysFrom (attempt + m) n (p.sourceAfter attempt m source) := by
  induction m generalizing attempt source with
  | zero => rw [Nat.zero_add]; rfl
  | succ m ih =>
    rw [Nat.succ_add, delaysFrom, delaysFrom, ih, sourceAfter, List.cons_append,
      Nat.add_right_comm, Nat.add_assoc attempt]

theorem Policy.pairwise_delaysFrom {count : Nat}
    (hstep : ∀ k, attempt ≤ k → k + 1 < attempt + count → ∀ source source' : Source,
      source.IsWords → source'.IsWords → (p.delay k source).1 ≤ (p.delay (k + 1) source').1)
    (h : source.IsWords) : (p.delaysFrom attempt count source).Pairwise (· ≤ ·) := by
  -- neighbours in order are enough, and the step is about neighbours
  suffices hchain : (p.delaysFrom attempt count source).IsChain (· ≤ ·) from
    List.isChain_iff_pairwise.1 hchain
  induction count generalizing attempt source with
  | zero => exact List.IsChain.nil
  | succ count ih =>
    have hrest := p.isWords_delay h attempt
    cases count with
    | zero => exact List.IsChain.singleton _
    | succ count =>
      have htail : (p.delaysFrom (attempt + 1) (count + 1) (p.delay attempt source).2).IsChain
          (· ≤ ·) := ih (fun k hk hlast ↦ hstep k (by omega) (by omega)) hrest
      rw [delaysFrom] at htail ⊢
      exact List.IsChain.cons_cons
        (hstep attempt (Nat.le_refl _) (by omega) source _ h hrest) htail

theorem Policy.longest_le_shortest_iff_base (p : Policy) :
    longest (p.mean (maxDoublings + 2)) ≤ shortest (p.mean (maxDoublings + 2)) ↔
      p.baseMicros = 0 ∨ 2 ^ 31 ≤ p.baseMicros := by
  rw [longest_le_shortest_iff (p.mean_lt _), mean, Nat.add_sub_cancel, Nat.min_self,
    Nat.shiftLeft_eq]
  unfold capped largestWord wordSize maxDoublings
  omega

theorem Policy.shortest_lt_longest (hpos : 0 < p.baseMicros) (hlt : p.baseMicros < 2 ^ 31)
    (attempt : Nat) : shortest (p.mean attempt) < longest (p.mean attempt) := by
  have hdoublings : min (attempt - 2) maxDoublings ≤ 32 := Nat.min_le_right _ _
  have hfactor : 2 ^ min (attempt - 2) maxDoublings ≤ 2 ^ 32 :=
    Nat.pow_le_pow_right Nat.two_pos hdoublings
  have hfactorPos : 0 < 2 ^ min (attempt - 2) maxDoublings := Nat.two_pow_pos _
  have hbase : capped p.baseMicros = p.baseMicros := by
    unfold capped largestWord wordSize
    omega
  have hmean : p.mean attempt = capped (p.baseMicros * 2 ^ min (attempt - 2) maxDoublings) := by
    rw [mean, hbase, Nat.shiftLeft_eq]
  have hlower : 0 < p.baseMicros * 2 ^ min (attempt - 2) maxDoublings :=
    Nat.mul_pos hpos hfactorPos
  have hupper : p.baseMicros * 2 ^ min (attempt - 2) maxDoublings < 2 ^ 31 * 2 ^ 32 :=
    Nat.mul_lt_mul_of_lt_of_le hlt hfactor (Nat.two_pow_pos _)
  apply Nat.lt_of_not_le
  rw [longest_le_shortest_iff (p.mean_lt attempt), hmean]
  unfold capped largestWord wordSize
  omega

theorem Policy.delay_of_zero (hattempt : 2 ≤ attempt)
    (hbounds : shortest (p.mean attempt) < longest (p.mean attempt)) (words : List Nat)
    (drawn : Nat) :
    p.delay attempt ⟨0 :: words, drawn⟩ = (shortest (p.mean attempt), ⟨words, drawn + 1⟩) := by
  rw [delay_of_shortest_lt hattempt hbounds, Source.between_of_accepts (accepts_zero _),
    Nat.zero_mul, Nat.zero_div, Nat.add_zero]

theorem Policy.sourceAfter_of_zeros {count : Nat} (hattempt : 2 ≤ attempt)
    (hbounds : ∀ k, shortest (p.mean k) < longest (p.mean k)) (words : List Nat) (drawn : Nat) :
    p.sourceAfter attempt count ⟨List.replicate count 0 ++ words, drawn⟩ =
      ⟨words, drawn + count⟩ := by
  induction count generalizing attempt drawn with
  | zero => rfl
  | succ count ih =>
    rw [List.replicate_succ, List.cons_append, sourceAfter,
      delay_of_zero hattempt (hbounds attempt), ih (by omega), Nat.add_right_comm]
    rfl

theorem Policy.delay_le_of_fixed (hbounds : longest (p.mean attempt) ≤ shortest (p.mean attempt))
    (hattempt : maxDoublings + 2 ≤ attempt) (source source' : Source) :
    (p.delay attempt source).1 ≤ (p.delay (attempt + 1) source').1 := by
  have hlater : 2 ≤ attempt := by omega
  have hsame := p.mean_succ_of_le hattempt
  rw [delay_of_longest_le hlater hbounds,
    delay_of_longest_le (Nat.le_succ_of_le hlater) (hsame ▸ hbounds), hsame]

theorem isWords_zeros_append {v : Nat} (hv : v < wordSize) (count drawn : Nat) :
    Source.IsWords ⟨List.replicate count 0 ++ [v], drawn⟩ := by
  intro u hu
  rcases List.mem_append.1 hu with hu | hu
  · rw [List.eq_of_mem_replicate hu]
    decide
  · rwa [List.mem_singleton.1 hu]

theorem Policy.delay_succ_lt_of_one (hattempt : maxDoublings + 2 ≤ attempt)
    (hbounds : shortest (p.mean attempt) < longest (p.mean attempt)) {v : Nat}
    (haccepted : Accepts (longest (p.mean attempt) - shortest (p.mean attempt) + 1) v)
    (hone : v * (longest (p.mean attempt) - shortest (p.mean attempt) + 1) / wordSize = 1)
    (drawn : Nat) :
    (p.delay (attempt + 1) (p.delay attempt ⟨[v], drawn⟩).2).1 <
      (p.delay attempt ⟨[v], drawn⟩).1 := by
  have hlater : 2 ≤ attempt := by omega
  have hsame := p.mean_succ_of_le hattempt
  have hfirst : p.delay attempt ⟨[v], drawn⟩ =
      (shortest (p.mean attempt) + 1, ⟨[], drawn + 1⟩) := by
    rw [delay_of_shortest_lt hlater hbounds, Source.between_of_accepts haccepted, hone]
  have hsecond : (p.delay (attempt + 1) ⟨[], drawn + 1⟩).1 = shortest (p.mean attempt) := by
    rw [delay_of_shortest_lt (Nat.le_succ_of_le hlater) (hsame ▸ hbounds), hsame]
    rfl
  rw [hfirst]
  exact Nat.lt_succ_of_le (Nat.le_of_eq hsecond)

/-- Zeros are drawn until the mean has reached its limit, and then a word that gives one. -/
theorem Policy.exists_delays_decrease (hpos : 0 < p.baseMicros) (hlt : p.baseMicros < 2 ^ 31)
    (hattempts : maxDoublings + 2 < p.maxAttempts) :
    ∃ source : Source, source.IsWords ∧ ¬(p.delays source).Pairwise (· ≤ ·) := by
  have hbounds := p.shortest_lt_longest hpos hlt
  have hlimit := hbounds (maxDoublings + 2)
  have hrange : 2 ≤
      longest (p.mean (maxDoublings + 2)) - shortest (p.mean (maxDoublings + 2)) + 1 := by omega
  obtain ⟨v, hv, haccepted, hone⟩ := exists_accepts_one hrange (width_lt hlimit)
  refine ⟨_, isWords_zeros_append hv maxDoublings 0, fun hsorted ↦ ?_⟩
  obtain ⟨rest, hrest⟩ : ∃ rest, p.maxAttempts = maxDoublings + 1 + (rest + 2) :=
    ⟨p.maxAttempts - (maxDoublings + 3), by omega⟩
  have hafter : p.sourceAfter 1 (maxDoublings + 1) ⟨List.replicate maxDoublings 0 ++ [v], 0⟩ =
      ⟨[v], 0 + maxDoublings⟩ := by
    rw [sourceAfter, p.delay_of_attempt_le (Nat.le_refl 1)]
    exact sourceAfter_of_zeros (Nat.le_refl 2) hbounds [v] 0
  have hattempt : 1 + (maxDoublings + 1) = maxDoublings + 2 := by omega
  rw [delays, hrest, delaysFrom_add, hafter, hattempt, delaysFrom, delaysFrom] at hsorted
  have htail := (List.pairwise_append.1 hsorted).2.1
  have hlast := (List.pairwise_cons.1 htail).1 _ List.mem_cons_self
  exact Nat.not_le_of_lt (delay_succ_lt_of_one (Nat.le_refl _) hlimit haccepted hone _) hlast

theorem Policy.pairwise_delays (hpolicy : p.maxAttempts ≤ maxDoublings + 2 ∨
      p.baseMicros = 0 ∨ 2 ^ 31 ≤ p.baseMicros) (hwords : source.IsWords) :
    (p.delays source).Pairwise (· ≤ ·) := by
  apply pairwise_delaysFrom _ hwords
  intro k _ hlast source source' hsource _
  by_cases hk : k < maxDoublings + 2
  · exact p.delay_le_delay_succ hk hsource source'
  · have hlimit : maxDoublings + 2 ≤ k := Nat.le_of_not_lt hk
    have hattempts : ¬p.maxAttempts ≤ maxDoublings + 2 := by omega
    have hbounds := p.longest_le_shortest_iff_base.2 (hpolicy.resolve_left hattempts)
    rw [← p.mean_of_le hlimit] at hbounds
    exact delay_le_of_fixed hbounds hlimit source source'

/-- The delays never decrease, whatever is drawn, exactly if the last attempt comes before the mean
stops doubling, or nothing is drawn from then on. -/
theorem Policy.delays_ascend_iff (p : Policy) :
    (∀ source : Source, source.IsWords → (p.delays source).Pairwise (· ≤ ·)) ↔
      p.maxAttempts ≤ maxDoublings + 2 ∨ p.baseMicros = 0 ∨ 2 ^ 31 ≤ p.baseMicros := by
  constructor
  · intro hall
    by_contra hnot
    obtain ⟨hattempts, hbase⟩ := not_or.1 hnot
    obtain ⟨source, hwords, hdecrease⟩ :=
      p.exists_delays_decrease (by omega) (by omega) (Nat.lt_of_not_le hattempts)
    exact hdecrease (hall source hwords)
  · exact fun hpolicy source hwords ↦ pairwise_delays hpolicy hwords

def levelling : Source := { words := List.replicate maxDoublings 0 ++ [2 ^ 63] }

/-- With a mean that has stopped doubling the next delay is shorter. -/
theorem levelling_decreases : levelling.IsWords ∧
    ¬((Policy.ofConfig { maxAttempts := 35, backoffBaseMs := 1 }).delays levelling).Pairwise
      (· ≤ ·) := by
  decide +kernel

end FindingStore.Retry

namespace FindingStore.Transaction

open Retry

variable {σ τ α : Type} (conn : Connection σ) (policy : Policy) (work : τ → Work τ α)

/-- What a transaction waits for are the first delays of its policy, as many as it makes
attempts. -/
theorem exists_delays_run_attempts (left number : Nat) (waited : List Nat) (text : String)
    (source : Source) (memory : τ) (s : σ) : ∃ count ≤ left,
      ((attempts policy work left number waited text source memory).run conn s).1.delays =
        waited.reverse ++ (policy.delaysFrom number count source).filter (· ≠ 0) := by
  induction left generalizing number waited text source memory s with
  | zero =>
    refine ⟨0, Nat.le_refl 0, ?_⟩
    rw [attempts, Policy.delaysFrom, List.filter_nil, List.append_nil]
    rfl
  | succ left ih =>
    -- a delay of zero is drawn but not waited for
    rcases hdelay : policy.delay number source with ⟨delay, source'⟩
    rcases hrun : (attempt work memory).run conn s with ⟨⟨ending, memory'⟩, s'⟩
    rw [attempts, hdelay]
    dsimp only
    rw [Program.run_bind, hrun]
    cases ending with
    | settled r | failed e =>
      refine ⟨1, Nat.succ_pos left, ?_⟩
      rw [Policy.delaysFrom, Policy.delaysFrom, hdelay, ← reverse_waited]
      rfl
    | transient message =>
      obtain ⟨count, hcount, hdelays⟩ := ih (number + 1)
        (if delay = 0 then waited else delay :: waited) message source' memory' s'
      refine ⟨count + 1, Nat.succ_le_succ hcount, ?_⟩
      rw [Policy.delaysFrom, hdelay]
      dsimp only
      rw [hdelays, reverse_waited, List.append_assoc, ← List.filter_append]
      rfl

/-- The waits of a transaction never decrease if the delays of its policy do not. -/
theorem pairwise_delays_run_program {policy : Policy}
    (hpolicy : policy.maxAttempts ≤ maxDoublings + 2 ∨ policy.baseMicros = 0 ∨
      2 ^ 31 ≤ policy.baseMicros)
    {source : Source} (hwords : source.IsWords) (memory : τ) (s : σ) :
    ((program policy source work memory).run conn s).1.delays.Pairwise (· ≤ ·) := by
  obtain ⟨count, hcount, hdelays⟩ := exists_delays_run_attempts conn policy work
    policy.maxAttempts 1 [] "no attempt made" source memory s
  have hsorted := Policy.pairwise_delays hpolicy hwords
  obtain ⟨rest, hrest⟩ := Nat.exists_eq_add_of_le hcount
  rw [Policy.delays, hrest, Policy.delaysFrom_add] at hsorted
  rw [program, hdelays]
  exact (List.pairwise_append.1 hsorted).1.filter _

end FindingStore.Transaction
