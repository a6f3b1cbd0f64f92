import FindingStore.Proofs.Checked
import Mathlib.Algebra.Group.Nat.Defs

namespace FindingStore

namespace Checked

def shiftWhole? (a n : Nat) : Option Nat :=
  if n < wordBits ∧ a <<< n < Retry.wordSize then some (a <<< n) else none

theorem plus?_of_lt {a b : Nat} (h : a + b < Retry.wordSize) : plus? a b = some (a + b) := if_pos h

theorem shiftWhole?_of_lt {a n : Nat} (hn : n < wordBits) (h : a <<< n < Retry.wordSize) :
    shiftWhole? a n = some (a <<< n) := if_pos ⟨hn, h⟩

end Checked

namespace Retry

open Checked

namespace Source

def IsWords (source : Source) : Prop := ∀ v ∈ source.words, v < wordSize

instance (source : Source) : Decidable source.IsWords :=
  inferInstanceAs (Decidable (∀ v ∈ source.words, v < wordSize))

def word (source : Source) (n : Nat) : Nat := source.words[n]?.getD 0

def skip (source : Source) (n : Nat) : Source := ⟨source.words.drop n, source.drawn + n⟩

variable {source : Source}

theorem IsWords.word_lt (h : source.IsWords) (n : Nat) : source.word n < wordSize := by
  rw [word]
  cases hn : source.words[n]? with
  | none => decide
  | some v => exact h v (List.mem_of_getElem? hn)

theorem IsWords.skip (h : source.IsWords) (n : Nat) : (source.skip n).IsWords :=
  fun v hv ↦ h v (List.mem_of_mem_drop hv)

end Source

def Accepts (range v : Nat) : Prop := v * range % wordSize ≤ zone range

variable {range low high : Nat} {source : Source}

theorem accepts_zero (range : Nat) : Accepts range 0 := by
  rw [Accepts, Nat.zero_mul, Nat.zero_mod]
  exact Nat.zero_le _

/-- The words of the stream are tried in order; the first that is accepted gives the number. -/
theorem below_eq (range : Nat) (source : Source) : ∃ n ≤ source.words.length,
    (∀ k < n, ¬Accepts range (source.word k)) ∧ Accepts range (source.word n) ∧
      below range source.words source.drawn =
        (source.word n * range / wordSize, source.skip (n + 1)) := by
  obtain ⟨words, drawn⟩ := source
  induction words generalizing drawn with
  | nil =>
    refine ⟨0, Nat.le_refl _, fun k hk ↦ absurd hk (Nat.not_lt_zero k), accepts_zero range, ?_⟩
    simp [below, Source.word, Source.skip]
  | cons v rest ih =>
    dsimp only
    by_cases hv : Accepts range v
    · have hzone : v * range % wordSize ≤ zone range := hv
      refine ⟨0, Nat.zero_le _, fun k hk ↦ absurd hk (Nat.not_lt_zero k), hv, ?_⟩
      rw [below, if_pos hzone]
      rfl
    · have hzone : ¬v * range % wordSize ≤ zone range := hv
      obtain ⟨n, hn, hrefused, haccepted, hbelow⟩ := ih (drawn + 1)
      refine ⟨n + 1, Nat.succ_le_succ hn, fun k hk ↦ ?_, haccepted, ?_⟩
      · cases k with
        | zero => exact hv
        | succ k => exact hrefused k (Nat.lt_of_succ_lt_succ hk)
      · dsimp only at hbelow
        rw [below, if_neg hzone, hbelow, Source.skip, Source.skip, List.drop_succ_cons,
          Nat.add_assoc drawn, Nat.add_comm 1 (n + 1)]
        rfl

theorem mul_div_wordSize_lt {v : Nat} (hv : v < wordSize) (hrange : 0 < range) :
    v * range / wordSize < range :=
  Nat.div_lt_of_lt_mul (Nat.mul_lt_mul_of_pos_right hv hrange)

theorem below_lt (h : source.IsWords) (hrange : 0 < range) :
    (below range source.words source.drawn).1 < range := by
  obtain ⟨n, -, -, -, hbelow⟩ := below_eq range source
  rw [hbelow]
  exact mul_div_wordSize_lt (h.word_lt n) hrange

theorem isWords_below (h : source.IsWords) (range : Nat) :
    (below range source.words source.drawn).2.IsWords := by
  obtain ⟨n, -, -, -, hbelow⟩ := below_eq range source
  rw [hbelow]
  exact h.skip (n + 1)

theorem shiftLeft_top (hpos : 0 < range) (hrange : range < wordSize) :
    2 ^ 63 ≤ range <<< (63 - range.log2) ∧ range <<< (63 - range.log2) < wordSize := by
  have hne : range ≠ 0 := Nat.ne_of_gt hpos
  have hlog : range.log2 < 64 := (Nat.log2_lt hne).2 hrange
  have hlow : 2 ^ range.log2 ≤ range := Nat.log2_self_le hne
  have hhigh : range < 2 ^ (range.log2 + 1) := Nat.lt_log2_self
  rw [Nat.shiftLeft_eq]
  constructor
  · calc 2 ^ 63 = 2 ^ range.log2 * 2 ^ (63 - range.log2) := by
          rw [← Nat.pow_add]
          congr 1
          omega
      _ ≤ range * 2 ^ (63 - range.log2) := Nat.mul_le_mul_right _ hlow
  · calc range * 2 ^ (63 - range.log2) < 2 ^ (range.log2 + 1) * 2 ^ (63 - range.log2) :=
          Nat.mul_lt_mul_of_pos_right hhigh (Nat.two_pow_pos _)
      _ = wordSize := by
          rw [← Nat.pow_add]
          have hbits : range.log2 + 1 + (63 - range.log2) = 64 := by omega
          rw [hbits]
          rfl

theorem exists_accepts_one (hrange : 2 ≤ range) (hlt : range < wordSize) :
    ∃ v, v < wordSize ∧ Accepts range v ∧ v * range / wordSize = 1 := by
  have hpos : 0 < range := by omega
  let v := (wordSize + range - 1) / range
  have hupper : v * range ≤ wordSize + range - 1 := Nat.div_mul_le_self _ _
  have hlower : wordSize + range - 1 < (v + 1) * range := by
    rw [Nat.mul_comm]
    exact Nat.lt_mul_div_succ _ hpos
  rw [Nat.succ_mul] at hlower
  have hdouble : v * 2 ≤ v * range := Nat.mul_le_mul_left v hrange
  have htop : range ≤ range <<< (63 - range.log2) := by
    rw [Nat.shiftLeft_eq]
    exact Nat.le_mul_of_pos_right _ (Nat.two_pow_pos _)
  have hone : v * range / wordSize = 1 :=
    Nat.div_eq_of_lt_le (by omega) (by omega)
  refine ⟨v, by omega, ?_, hone⟩
  have hrest : v * range % wordSize = v * range - wordSize := by
    have hsplit := Nat.div_add_mod (v * range) wordSize
    rw [hone] at hsplit
    omega
  rw [Accepts, hrest, zone]
  omega

/-- Draws with a zone that has been computed before. A zero that is refused would be refused for
ever. -/
def below? (range limit : Nat) : (words : List Nat) → (drawn : Nat) → Option (Nat × Source)
  | [], drawn =>
    if 0 * range % wordSize ≤ limit then some (0 * range / wordSize, ⟨[], drawn + 1⟩) else none
  | v :: rest, drawn =>
    if v * range % wordSize ≤ limit then some (v * range / wordSize, ⟨rest, drawn + 1⟩)
    else below? range limit rest (drawn + 1)

theorem below?_eq (range : Nat) (words : List Nat) (drawn : Nat) :
    below? range (zone range) words drawn = some (below range words drawn) := by
  induction words generalizing drawn with
  | nil => simp [below?, below]
  | cons v rest ih =>
    rw [below?, below]
    split
    · rfl
    · exact ih (drawn + 1)

def Source.betweenInWord? (source : Source) (low high : Nat) : Option (Nat × Source) := do
  let width ← minus? high low
  let range ← plus? width 1
  let top ← shiftWhole? range (63 - range.log2)
  let limit ← minus? top 1
  let (n, source) ← below? range limit source.words source.drawn
  let number ← plus? low n
  some (number, source)

theorem Source.betweenInWord?_eq (h : source.IsWords) (hle : low ≤ high) (hhigh : high < wordSize)
    (hwidth : high - low + 1 < wordSize) :
    source.betweenInWord? low high = some (source.between low high) := by
  have hpos : 0 < high - low + 1 := Nat.succ_pos _
  obtain ⟨htop, hshift⟩ := shiftLeft_top hpos hwidth
  have hone : 1 ≤ (high - low + 1) <<< (63 - (high - low + 1).log2) :=
    Nat.le_trans (by decide) htop
  have hbits : 63 - (high - low + 1).log2 < wordBits :=
    Nat.lt_of_le_of_lt (Nat.sub_le _ _) (by decide)
  have hn := below_lt h hpos
  have hsum : low + (below (high - low + 1) source.words source.drawn).1 < wordSize := by omega
  unfold betweenInWord?
  simp only [minus?_of_le hle, plus?_of_lt hwidth, shiftWhole?_of_lt hbits hshift,
    minus?_of_le hone, Option.bind_eq_bind, Option.bind_some]
  rw [← zone, below?_eq]
  simp only [Option.bind_some, plus?_of_lt hsum]
  rfl

/-- A word that is accepted at once is the only one that is drawn. -/
theorem Source.between_of_accepts {v : Nat} (hv : Accepts (high - low + 1) v) (words : List Nat)
    (drawn : Nat) : Source.between ⟨v :: words, drawn⟩ low high =
      (low + v * (high - low + 1) / wordSize, ⟨words, drawn + 1⟩) := by
  have hzone : v * (high - low + 1) % wordSize ≤ zone (high - low + 1) := hv
  rw [between, below, if_pos hzone]

theorem Source.le_between (source : Source) (low high : Nat) :
    low ≤ (source.between low high).1 := Nat.le_add_right _ _

theorem Source.between_le (h : source.IsWords) (hle : low ≤ high) :
    (source.between low high).1 ≤ high := by
  have hpos : 0 < high - low + 1 := Nat.succ_pos _
  have hn := below_lt h hpos
  have hnumber : (source.between low high).1 =
    low + (below (high - low + 1) source.words source.drawn).1 := rfl
  omega

theorem Source.isWords_between (h : source.IsWords) (low high : Nat) :
    (source.between low high).2.IsWords := isWords_below h _

end Retry

end FindingStore
