import Mathlib.Data.List.Basic

namespace FindingStore

variable {α : Type} {sep : α} {part text : List α} {parts : List (List α)}

section Splitting

variable [BEq α]

theorem mem_of_mem_splitOn {b : α} (h : part ∈ text.splitOn sep) (hb : b ∈ part) : b ∈ text := by
  induction text generalizing part with
  | nil =>
    rw [List.splitOn_nil, List.mem_singleton] at h
    exact h ▸ hb
  | cons c text ih =>
    rw [List.splitOn_cons_eq_if_modifyHead] at h
    split at h
    · rcases List.mem_cons.1 h with rfl | h
      · cases hb
      · exact List.mem_cons_of_mem c (ih h hb)
    · obtain ⟨first, rest, hsplit⟩ := List.exists_cons_of_ne_nil (List.splitOn_ne_nil sep text)
      rw [hsplit, List.modifyHead_cons] at h
      rcases List.mem_cons.1 h with rfl | h
      · rcases List.mem_cons.1 hb with rfl | hb
        · exact List.mem_cons_self
        · exact List.mem_cons_of_mem c (ih (by simp [hsplit]) hb)
      · exact List.mem_cons_of_mem c (ih (by simp [hsplit, h]) hb)

variable [LawfulBEq α]

theorem not_mem_of_mem_splitOn (h : part ∈ text.splitOn sep) : sep ∉ part := by
  induction text generalizing part with
  | nil =>
    rw [List.splitOn_nil, List.mem_singleton] at h
    simp [h]
  | cons b text ih =>
    rw [List.splitOn_cons_eq_if_modifyHead] at h
    split at h
    · rcases List.mem_cons.1 h with rfl | h
      · simp
      · exact ih h
    · next hb =>
      obtain ⟨first, rest, hsplit⟩ := List.exists_cons_of_ne_nil (List.splitOn_ne_nil sep text)
      rw [hsplit, List.modifyHead_cons] at h
      rcases List.mem_cons.1 h with rfl | h
      · have hfirst : sep ∉ first := ih (by simp [hsplit])
        simpa [hfirst] using fun he ↦ hb (by simp [he])
      · exact ih (by simp [hsplit, h])

end Splitting

theorem flatMap_cons_eq_intercalate (sep : α) (parts : List (List α)) :
    parts.flatMap (sep :: ·) = [sep].intercalate ([] :: parts) := by
  induction parts with
  | nil => rfl
  | cons part parts ih =>
    rw [List.flatMap_cons, ih]
    cases parts with
    | nil => simp
    | cons next parts => simp [List.intercalate_cons_cons]

theorem flatMap_append_eq_intercalate (h : parts ≠ []) :
    parts.flatMap (· ++ [sep]) = [sep].intercalate parts ++ [sep] := by
  induction parts with
  | nil => exact absurd rfl h
  | cons part parts ih =>
    cases parts with
    | nil => simp
    | cons next parts =>
      rw [List.flatMap_cons, ih (by simp), List.intercalate_cons_cons, List.append_assoc,
        List.append_assoc, List.append_assoc]

end FindingStore
