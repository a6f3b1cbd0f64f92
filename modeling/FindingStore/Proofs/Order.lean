import FindingStore.Database.Row
import FindingStore.Proofs.Text.Utf8

namespace FindingStore

structure Order.IsTotal {α : Type} (le : α → α → Bool) : Prop where
  total (a b : α) : le a b = true ∨ le b a = true
  trans {a b c : α} : le a b = true → le b c = true → le a c = true

structure Order.IsLinear {α : Type} (le : α → α → Bool) : Prop extends IsTotal le where
  antisymm {a b : α} : le a b = true → le b a = true → a = b

theorem isLinear_textLe : Order.IsLinear textLe where
  total a b := by simpa [textLe] using List.le_total (Utf8.encode a) (Utf8.encode b)
  trans hab hbc := by
    simp only [textLe, decide_eq_true_eq] at *
    exact List.le_trans hab hbc
  antisymm hab hba := by
    simp only [textLe, decide_eq_true_eq] at *
    exact Utf8.encode_injective (List.le_antisymm hab hba)

namespace Data

variable {a b : Data}

theorem le_iff : a.le b = true ↔
    a.isBlob = false ∧ b.isBlob = true ∨ a.isBlob = b.isBlob ∧ a.bytes ≤ b.bytes := by
  simp [le]

theorem text_le (s t : String) : (text s).le t = textLe s t := by
  rw [Bool.eq_iff_iff, le_iff, textLe, decide_eq_true_iff]
  simp [isBlob, bytes]

theorem eq_of_bytes (hclass : a.isBlob = b.isBlob) (hbytes : a.bytes = b.bytes) : a = b := by
  -- what is no text is not encoded as one
  have hgarbled (s : String) (g : { bytes : Bytes // Utf8.decode? bytes = none }) :
      Utf8.encode s ≠ g := by
    intro he
    have hdecode := g.2
    rw [← he, Utf8.decode?_encode] at hdecode
    cases hdecode
  cases a with
  | text s =>
    cases b with
    | text t => rw [Utf8.encode_injective hbytes]
    | garbled g => exact absurd hbytes (hgarbled s g)
    | blob => cases hclass
  | garbled g =>
    cases b with
    | text t => exact absurd hbytes.symm (hgarbled t g)
    | garbled g' => rw [Subtype.ext hbytes]
    | blob => cases hclass
  | blob =>
    cases b with
    | blob => exact congrArg blob hbytes
    | _ => cases hclass

theorem isLinear_le : Order.IsLinear le where
  total a b := by
    rw [le_iff, le_iff]
    have hbytes := List.le_total a.bytes b.bytes
    cases a.isBlob <;> cases b.isBlob <;> simp [hbytes]
  trans hab hbc := by
    rw [le_iff] at *
    rcases hab with ⟨ha, hb⟩ | ⟨hab, hbytes⟩ <;> rcases hbc with ⟨hb', hc⟩ | ⟨hbc, hbytes'⟩
    · exact .inl ⟨ha, hc⟩
    · exact .inl ⟨ha, hbc ▸ hb⟩
    · exact .inl ⟨hab.trans hb', hc⟩
    · exact .inr ⟨hab.trans hbc, List.le_trans hbytes hbytes'⟩
  antisymm hab hba := by
    rw [le_iff] at *
    rcases hab with ⟨ha, hb⟩ | ⟨hclass, hbytes⟩
    · simp [ha, hb] at hba
    · rcases hba with ⟨hb, ha⟩ | ⟨-, hbytes'⟩
      · simp [ha, hb] at hclass
      · exact eq_of_bytes hclass (List.le_antisymm hbytes hbytes')

end Data

namespace Order

variable {α β : Type} {le : α → α → Bool} {le' : β → β → Bool}

theorem pairwise_insertBy (h : IsTotal le) (x : α) {ys : List α}
    (hys : ys.Pairwise (le · · = true)) : (insertBy le x ys).Pairwise (le · · = true) := by
  induction ys with
  | nil => exact List.pairwise_singleton _ x
  | cons y ys ih =>
    obtain ⟨hy, hys⟩ := List.pairwise_cons.1 hys
    unfold insertBy
    split
    · next hxy =>
      refine List.pairwise_cons.2 ⟨fun z hz ↦ ?_, List.pairwise_cons.2 ⟨hy, hys⟩⟩
      rcases List.mem_cons.1 hz with rfl | hz
      · exact hxy
      · exact h.trans hxy (hy z hz)
    · next hxy =>
      refine List.pairwise_cons.2 ⟨fun z hz ↦ ?_, ih hys⟩
      rcases List.mem_cons.1 ((insertBy_perm le x ys).mem_iff.1 hz) with rfl | hz
      · exact (h.total z y).resolve_left hxy
      · exact hy z hz

theorem pairwise_sortBy (h : IsTotal le) (xs : List α) :
    (sortBy le xs).Pairwise (le · · = true) := by
  induction xs with
  | nil => exact .nil
  | cons x xs ih => exact pairwise_insertBy h x ih

theorem sortBy_eq_of_perm (h : IsLinear le) {xs ys : List α} (hperm : xs.Perm ys) :
    sortBy le xs = sortBy le ys :=
  List.Perm.eq_of_pairwise (fun _ _ _ _ ↦ h.antisymm) (pairwise_sortBy h.toIsTotal xs)
    (pairwise_sortBy h.toIsTotal ys)
    ((sortBy_perm le xs).trans (hperm.trans (sortBy_perm le ys).symm))

theorem sortBy_map {f : α → β} (hf : ∀ a b, le' (f a) (f b) = le a b) (xs : List α) :
    sortBy le' (xs.map f) = (sortBy le xs).map f := by
  have hinsert (x : α) (ys : List α) :
      insertBy le' (f x) (ys.map f) = (insertBy le x ys).map f := by
    induction ys with
    | nil => rfl
    | cons y ys ih =>
      rw [List.map_cons, insertBy, insertBy, hf, ih]
      split <;> rfl
  induction xs with
  | nil => rfl
  | cons x xs ih =>
    have hstep : sortBy le' ((x :: xs).map f) = insertBy le' (f x) (sortBy le' (xs.map f)) := rfl
    rw [hstep, ih, hinsert]
    rfl

variable [BEq α] [LawfulBEq α] [BEq β] [LawfulBEq β]

theorem firstOccurrences_map {f : α → β} (hf : ∀ a b, f a = f b → a = b) (xs : List α) :
    firstOccurrences (xs.map f) = (firstOccurrences xs).map f := by
  induction xs with
  | nil => rfl
  | cons x xs ih =>
    rw [List.map_cons, firstOccurrences, firstOccurrences, ih, List.map_cons, List.filter_map]
    congr 2
    apply List.filter_congr
    intro y _
    rw [Function.comp_apply, Bool.eq_iff_iff, bne_iff_ne, bne_iff_ne]
    exact ⟨fun h he ↦ h (he ▸ rfl), fun h he ↦ h (hf _ _ he)⟩

theorem sortBy_firstOccurrences_congr (h : IsLinear le) {xs ys : List α}
    (hmem : ∀ x, x ∈ xs ↔ x ∈ ys) :
    sortBy le (firstOccurrences xs) = sortBy le (firstOccurrences ys) := by
  refine sortBy_eq_of_perm h ?_
  refine (List.perm_ext_iff_of_nodup (firstOccurrences_nodup xs) (firstOccurrences_nodup ys)).2 ?_
  exact fun x ↦ by rw [mem_firstOccurrences, mem_firstOccurrences, hmem]

/-- A list without repetitions of what another one holds, in the order in which it first came. -/
structure Folds (inserted out : List α) : Prop where
  mem (a : α) : a ∈ out ↔ a ∈ inserted
  ordered : out.Pairwise fun a b ↦ inserted.idxOf a < inserted.idxOf b

theorem folds_firstOccurrences (xs : List α) : Folds xs (firstOccurrences xs) := by
  refine ⟨fun a ↦ mem_firstOccurrences, ?_⟩
  induction xs with
  | nil => exact .nil
  | cons x xs ih =>
    refine List.pairwise_cons.2 ⟨?_, ?_⟩
    · intro y hy
      have hne : y ≠ x := bne_iff_ne.1 (List.mem_filter.1 hy).2
      simp only [List.idxOf_cons, beq_self_eq_true, cond_true, beq_false_of_ne hne.symm, cond_false]
      exact Nat.succ_pos _
    · refine (ih.filter _).imp_of_mem ?_
      intro a b ha hb hab
      have hane : a ≠ x := bne_iff_ne.1 (List.mem_filter.1 ha).2
      have hbne : b ≠ x := bne_iff_ne.1 (List.mem_filter.1 hb).2
      simp only [List.idxOf_cons, beq_false_of_ne hane.symm, beq_false_of_ne hbne.symm, cond_false]
      exact Nat.succ_lt_succ hab

theorem pairwise_sortBy_firstOccurrences (xs : List String) :
    (sortBy textLe (firstOccurrences xs)).Pairwise fun a b ↦ Utf8.encode a < Utf8.encode b := by
  have hle := pairwise_sortBy isLinear_textLe.toIsTotal (firstOccurrences xs)
  have hne := (sortBy_perm textLe (firstOccurrences xs)).nodup_iff.2 (firstOccurrences_nodup xs)
  refine (hle.and hne).imp ?_
  rintro a b ⟨hab, hne⟩
  have hab : Utf8.encode a ≤ Utf8.encode b := of_decide_eq_true hab
  exact (List.le_iff_lt_or_eq.1 hab).resolve_right fun he ↦ hne (Utf8.encode_injective he)

end Order

end FindingStore
