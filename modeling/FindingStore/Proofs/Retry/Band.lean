import FindingStore.Proofs.Retry.Drawing
import FindingStore.Retry

namespace FindingStore.Retry

open Checked

variable {p : Policy} {attempt mean : Nat} {source : Source}

theorem largestWord_lt : largestWord < wordSize := by decide

theorem capped_lt (n : Nat) : capped n < wordSize :=
  Nat.lt_of_le_of_lt (Nat.min_le_right _ _) largestWord_lt

theorem Policy.mean_lt (p : Policy) (attempt : Nat) : p.mean attempt < wordSize := capped_lt _

theorem longest_lt (mean : Nat) : longest mean < wordSize :=
  Nat.lt_of_le_of_lt (Nat.div_le_self _ _) (capped_lt _)

theorem shortest_le (mean : Nat) : shortest mean ≤ mean := by
  unfold shortest capped
  omega

theorem longest_le (mean : Nat) : longest mean ≤ 4 * mean / 3 := by
  unfold longest capped
  omega

theorem longest_le_shortest_iff (hmean : mean < wordSize) :
    longest mean ≤ shortest mean ↔ mean = 0 ∨ 2 ^ 63 ≤ mean := by
  constructor
  · intro hle
    by_cases hone : mean = 1
    · subst hone
      exact absurd hle (by decide)
    · unfold longest shortest capped largestWord wordSize at hle
      omega
  · intro hbounds
    unfold longest shortest capped largestWord
    unfold wordSize at hmean ⊢
    omega

theorem le_shortest (hmean : mean < 2 ^ 63) : 2 * mean / 3 ≤ shortest mean := by
  unfold shortest capped largestWord wordSize
  omega

theorem width_lt (hbounds : shortest mean < longest mean) :
    longest mean - shortest mean + 1 < wordSize := by
  unfold longest capped largestWord wordSize at hbounds ⊢
  omega

theorem Policy.delay_of_attempt_le (hattempt : attempt ≤ 1) (p : Policy) (source : Source) :
    p.delay attempt source = (0, source) := if_pos hattempt

theorem Policy.delay_of_longest_le (hattempt : 2 ≤ attempt)
    (hbounds : longest (p.mean attempt) ≤ shortest (p.mean attempt)) (source : Source) :
    p.delay attempt source = (p.mean attempt, source) := by
  have hlater : ¬attempt ≤ 1 := by omega
  unfold delay
  rw [if_neg hlater]
  exact if_pos hbounds

theorem Policy.delay_of_shortest_lt (hattempt : 2 ≤ attempt)
    (hbounds : shortest (p.mean attempt) < longest (p.mean attempt)) (source : Source) :
    p.delay attempt source =
      source.between (shortest (p.mean attempt)) (longest (p.mean attempt)) := by
  have hlater : ¬attempt ≤ 1 := by omega
  unfold delay
  rw [if_neg hlater]
  exact if_neg (Nat.not_le_of_lt hbounds)

theorem Policy.isWords_delay (h : source.IsWords) (p : Policy) (attempt : Nat) :
    (p.delay attempt source).2.IsWords := by
  unfold delay
  split
  · exact h
  · dsimp only
    split
    · exact h
    · exact Source.isWords_between h _ _

theorem Policy.shortest_le_delay (hattempt : 2 ≤ attempt) (p : Policy) (source : Source) :
    shortest (p.mean attempt) ≤ (p.delay attempt source).1 := by
  by_cases hbounds : longest (p.mean attempt) ≤ shortest (p.mean attempt)
  · rw [delay_of_longest_le hattempt hbounds]
    exact shortest_le _
  · rw [delay_of_shortest_lt hattempt (Nat.lt_of_not_le hbounds)]
    exact Source.le_between _ _ _

theorem Policy.delay_le_longest (h : source.IsWords) (hattempt : 2 ≤ attempt)
    (hbounds : shortest (p.mean attempt) < longest (p.mean attempt)) :
    (p.delay attempt source).1 ≤ longest (p.mean attempt) := by
  rw [delay_of_shortest_lt hattempt hbounds]
  exact Source.between_le h (Nat.le_of_lt hbounds)

def Policy.delayInWord? (p : Policy) (attempt : Nat) (source : Source) :
    Option (Nat × Source) :=
  if attempt ≤ 1 then some (0, source)
  else do
    let doublings ← minus? attempt 2
    let factor ← shiftWhole? 1 (min doublings maxDoublings)
    let mean := capped (capped p.baseMicros * factor)
    if longest mean ≤ shortest mean then some (mean, source)
    else source.betweenInWord? (shortest mean) (longest mean)

theorem Policy.delayInWord?_eq (h : source.IsWords) (p : Policy) (attempt : Nat) :
    p.delayInWord? attempt source = some (p.delay attempt source) := by
  unfold delayInWord?
  by_cases hattempt : attempt ≤ 1
  · rw [if_pos hattempt, p.delay_of_attempt_le hattempt]
  · have hlater : 2 ≤ attempt := by omega
    have hdoublings : min (attempt - 2) maxDoublings ≤ maxDoublings := Nat.min_le_right _ _
    have hfactor : 1 <<< min (attempt - 2) maxDoublings < wordSize := by
      rw [Nat.one_shiftLeft]
      exact Nat.lt_of_le_of_lt (Nat.pow_le_pow_right Nat.two_pos hdoublings) (by decide)
    have hshift : shiftWhole? 1 (min (attempt - 2) maxDoublings) =
        some (1 <<< min (attempt - 2) maxDoublings) :=
      shiftWhole?_of_lt (Nat.lt_of_le_of_lt hdoublings (by decide)) hfactor
    rw [if_neg hattempt, minus?_of_le hlater]
    simp only [Option.bind_eq_bind, Option.bind_some, hshift, p.capped_mul_factor attempt]
    by_cases hbounds : longest (p.mean attempt) ≤ shortest (p.mean attempt)
    · rw [if_pos hbounds, delay_of_longest_le hlater hbounds]
    · have hlt := Nat.lt_of_not_le hbounds
      rw [if_neg hbounds, delay_of_shortest_lt hlater hlt]
      exact Source.betweenInWord?_eq h (Nat.le_of_lt hlt) (longest_lt _) (width_lt hlt)

/-- How the delay before an attempt after the first comes about. -/
structure Policy.Draws (p : Policy) (attempt : Nat) (source : Source) : Prop where
  mean : p.mean attempt =
    min (min p.baseMicros (2 ^ 64 - 1) * 2 ^ min (attempt - 2) 32) (2 ^ 64 - 1)
  lower : 2 * p.mean attempt / 3 ≤ (p.delay attempt source).1
  upper : (p.delay attempt source).1 ≤ 4 * p.mean attempt / 3
  bounds : longest (p.mean attempt) ≤ shortest (p.mean attempt) ↔
    p.mean attempt = 0 ∨ 2 ^ 63 ≤ p.mean attempt
  fixed : longest (p.mean attempt) ≤ shortest (p.mean attempt) →
    p.delay attempt source = (p.mean attempt, source)
  drawn : shortest (p.mean attempt) < longest (p.mean attempt) →
    let range := longest (p.mean attempt) - shortest (p.mean attempt) + 1
    ∃ n ≤ source.words.length, (∀ k < n, ¬Accepts range (source.word k)) ∧
      Accepts range (source.word n) ∧ p.delay attempt source =
        (shortest (p.mean attempt) + source.word n * range / wordSize, source.skip (n + 1))

theorem Policy.draws_of_isWords (h : source.IsWords) (hattempt : 2 ≤ attempt) (p : Policy) :
    p.Draws attempt source := by
  have hbounds := longest_le_shortest_iff (p.mean_lt attempt)
  refine ⟨?_, ?_, ?_, hbounds, fun hle ↦ delay_of_longest_le hattempt hle source, ?_⟩
  · rw [Policy.mean, Nat.shiftLeft_eq]
    rfl
  · by_cases hmean : p.mean attempt < 2 ^ 63
    · exact Nat.le_trans (le_shortest hmean) (p.shortest_le_delay hattempt source)
    · rw [delay_of_longest_le hattempt (hbounds.2 (.inr (Nat.le_of_not_lt hmean)))]
      omega
  · by_cases hle : longest (p.mean attempt) ≤ shortest (p.mean attempt)
    · rw [delay_of_longest_le hattempt hle]
      omega
    · exact Nat.le_trans (delay_le_longest h hattempt (Nat.lt_of_not_le hle)) (longest_le _)
  · intro hlt range
    obtain ⟨n, hn, hrefused, haccepted, hbelow⟩ := below_eq range source
    refine ⟨n, hn, hrefused, haccepted, ?_⟩
    rw [delay_of_shortest_lt hattempt hlt, Source.between, hbelow]

/-- Each delay lies within its bounds, is found after finitely many words, and is what the same
steps give within words. Before the first attempt, and where the bounds leave no choice, no word
is drawn. -/
theorem Policy.delay_keeps_bounds (h : source.IsWords) (p : Policy) (attempt : Nat) :
    p.delayInWord? attempt source = some (p.delay attempt source) ∧
      (attempt ≤ 1 → p.delay attempt source = (0, source)) ∧
        (2 ≤ attempt → p.Draws attempt source) :=
  ⟨p.delayInWord?_eq h attempt, fun hattempt ↦ p.delay_of_attempt_le hattempt source,
    fun hattempt ↦ p.draws_of_isWords h hattempt⟩

def refusing : Source := { words := [2 ^ 62, 2 ^ 63] }

theorem refusing_passed_over :
    refusing.IsWords ∧ (⟨6, 1⟩ : Policy).delay 2 refusing = (1, ⟨[], 2⟩) ∧
      (⟨6, 1⟩ : Policy).delayInWord? 2 refusing = some (1, ⟨[], 2⟩) ∧
        (⟨6, 1⟩ : Policy).Draws 2 refusing := by
  have hwords : refusing.IsWords := by decide
  have hdelay : (⟨6, 1⟩ : Policy).delay 2 refusing = (1, ⟨[], 2⟩) := by decide
  obtain ⟨hchecked, -, hdraws⟩ := Policy.delay_keeps_bounds hwords ⟨6, 1⟩ 2
  exact ⟨hwords, hdelay, hdelay ▸ hchecked, hdraws (Nat.le_refl 2)⟩

end FindingStore.Retry
