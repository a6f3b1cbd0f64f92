import Mathlib.Data.List.Basic
import FindingStore.Proofs.LineBuffer.Edits
import FindingStore.Proofs.Text.Split

namespace FindingStore.LineBuffer

def closed (content : Bytes) : Bytes :=
  if content = [] ∨ content.getLast? = some newline then content else content ++ [newline]

variable {content : Bytes} {lines : List Bytes} {σ : Substitution}

theorem newline_not_mem {text : Bytes} (h : text ∈ (ofBytes content).lines) : newline ∉ text := by
  unfold ofBytes at h
  dsimp only at h
  split at h
  · exact not_mem_of_mem_splitOn (List.dropLast_subset _ h)
  · exact not_mem_of_mem_splitOn h

theorem toBytes_ofBytes (content : Bytes) : (ofBytes content).toBytes = closed content := by
  have hne := List.splitOn_ne_nil newline content
  have hall : (content.splitOn newline).flatMap (· ++ [newline]) = content ++ [newline] := by
    rw [flatMap_append_eq_intercalate hne, List.intercalate_splitOn]
  obtain ⟨init, last, hparts⟩ := (List.eq_nil_or_concat' (content.splitOn newline)).resolve_left hne
  rw [hparts, List.flatMap_append, List.flatMap_singleton] at hall
  unfold ofBytes toBytes
  dsimp only
  rw [hparts, List.getLast?_concat, List.dropLast_concat]
  by_cases hlast : last = []
  · -- the file is empty, or a newline ends it
    rw [hlast, List.nil_append] at hall
    have hcontent := List.append_cancel_right hall
    have hclosed : content = [] ∨ content.getLast? = some newline := by
      rcases List.eq_nil_or_concat' init with rfl | ⟨before, text, rfl⟩
      · exact .inl hcontent.symm
      · refine .inr ?_
        rw [← hcontent, List.flatMap_append, List.flatMap_singleton, ← List.append_assoc,
          List.getLast?_concat]
    rw [hlast, if_pos rfl, closed, if_pos hclosed, hcontent]
  · have hcontent : init.flatMap (· ++ [newline]) ++ last = content := by
      rw [← List.append_assoc] at hall
      exact List.append_cancel_right hall
    have hopen : ¬(content = [] ∨ content.getLast? = some newline) := by
      have hmem : last ∈ content.splitOn newline :=
        hparts ▸ List.mem_append_right _ (List.mem_singleton_self _)
      have hnot := not_mem_of_mem_splitOn hmem
      rintro (rfl | hnewline)
      · exact hlast (List.append_eq_nil_iff.1 hcontent).2
      · rw [← hcontent, List.getLast?_append_of_ne_nil _ hlast] at hnewline
        exact hnot (List.mem_of_getLast? hnewline)
    rw [if_neg (by simpa using hlast), closed, if_neg hopen, List.flatMap_append,
      List.flatMap_singleton, hall]

theorem apply_flatMap_newline (number : Nat)
    (h : ∀ k text, lines[k]? = some text →
      newline ∉ text ∧ σ.Fits (number + k) text.length) :
    σ.applyFrom number 1 0 (lines.flatMap (· ++ [newline])) =
      (lines.mapIdx fun k text ↦ σ.applyFrom (number + k) 1 0 text).flatMap (· ++ [newline]) := by
  induction lines generalizing number with
  | nil => rfl
  | cons text rest ih =>
    obtain ⟨htext, hfits⟩ := h 0 text rfl
    have hrest := ih (number + 1) fun k text hk ↦ by
      rw [Nat.add_right_comm, Nat.add_assoc]
      exact h (k + 1) text hk
    have hfirst : σ.applyFrom number (0 + 1) 0
        (text ++ newline :: rest.flatMap (· ++ [newline])) = σ.applyFrom number (0 + 1) 0 text ++
          newline :: σ.applyFrom (number + 1) 1 0 (rest.flatMap (· ++ [newline])) :=
      Substitution.applyFrom_append_newline htext _ (by rwa [Nat.zero_add]) (Nat.zero_le _)
    have hshift (k : Nat) : number + 1 + k = number + (k + 1) := by omega
    simp only [List.flatMap_cons, List.append_assoc, List.mapIdx_cons, Nat.add_zero,
      List.cons_append, List.nil_append]
    rw [Nat.zero_add] at hfirst
    rw [hfirst, hrest]
    simp only [hshift]

/-- Substituted lines are written as the substituted file. -/
theorem toBytes_eq_apply {b : LineBuffer} (hcount : b.count = (ofBytes content).count)
    (h : ∀ k text, (ofBytes content).lines[k]? = some text →
      b.lines[k]? = some (σ.applyFrom (k + 1) 1 0 text) ∧ σ.Fits (k + 1) text.length) :
    b.toBytes = σ.apply (closed content) := by
  have hlines : b.lines = (ofBytes content).lines.mapIdx fun k text ↦
      σ.applyFrom (1 + k) 1 0 text := by
    refine List.ext_getElem? fun k ↦ ?_
    rw [List.getElem?_mapIdx]
    cases hk : (ofBytes content).lines[k]? with
    | none =>
      have hlength := List.getElem?_eq_none_iff.1 hk
      exact List.getElem?_eq_none_iff.2 (Nat.le_trans (Nat.le_of_eq hcount) hlength)
    | some text => rw [(h k text hk).1, Option.map_some, Nat.add_comm]
  have hfits : ∀ k text, (ofBytes content).lines[k]? = some text →
      newline ∉ text ∧ σ.Fits (1 + k) text.length := by
    intro k text hk
    rw [Nat.add_comm]
    exact ⟨newline_not_mem (List.mem_of_getElem? hk), (h k text hk).2⟩
  have happly := apply_flatMap_newline 1 hfits
  rw [toBytes, hlines, ← happly, Substitution.apply, ← toBytes_ofBytes, toBytes]

end FindingStore.LineBuffer
