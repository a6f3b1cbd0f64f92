import FindingStore.Proofs.Checked
import FindingStore.Proofs.LineBuffer.Edits

namespace FindingStore

structure Patch where
  line : Nat
  column : Nat
  old : String
  new : String
  deriving DecidableEq, Repr

namespace LineBuffer

open Checked

variable {b b' : LineBuffer} {line column : Nat} {old new : String} {text : Bytes}

theorem line?_pos {n : Nat} (h : b.line? n = some text) : 0 < n := by
  cases n with
  | zero => cases h
  | succ n => exact Nat.succ_pos n

theorem isSome_line? {n : Nat} : (b.line? n).isSome ↔ 0 < n ∧ n ≤ b.count := by
  cases n with
  | zero => simp [line?]
  | succ n =>
    have hline : (b.line? (n + 1)).isSome ↔ n < b.lines.length := by simp [line?]
    rw [hline, count]
    omega

theorem line?_eq_none {n : Nat} : b.line? n = none ↔ ¬(1 ≤ n ∧ n ≤ b.count) := by
  rw [← Option.not_isSome_iff_eq_none, isSome_line?]
  exact Iff.rfl

theorem eq_of_line? (hcount : b'.count = b.count)
    (h : ∀ n text, b.line? n = some text → b'.line? n = some text) : b' = b := by
  obtain ⟨lines⟩ := b
  obtain ⟨lines'⟩ := b'
  refine congrArg LineBuffer.mk (List.ext_getElem? fun n ↦ ?_)
  cases hn : lines[n]? with
  | none =>
    have hle := List.getElem?_eq_none_iff.1 hn
    exact List.getElem?_eq_none_iff.2 (Nat.le_trans (Nat.le_of_eq hcount) hle)
  | some text => exact h (n + 1) text hn

theorem set_line {n : Nat} (text : Bytes) (hn : 0 < n) (hb : (b.line? n).isSome)
    (h : b' = ⟨b.lines.set (n - 1) text⟩) :
    b'.count = b.count ∧ ∀ m, b'.line? m = if m = n then some text else b.line? m := by
  obtain ⟨k, rfl⟩ : ∃ k, n = k + 1 := ⟨n - 1, by omega⟩
  subst h
  refine ⟨List.length_set, fun m ↦ ?_⟩
  cases m with
  | zero => simp [line?]
  | succ m =>
    have hk : k < b.lines.length := by simpa [line?] using hb
    simp only [line?, Nat.add_sub_cancel, List.getElem?_set, Nat.add_right_cancel_iff,
      eq_comm (a := m), if_pos hk]

theorem eq_set_of_line? {n : Nat} (hb : b.line? n = some text) {text' : Bytes}
    (hcount : b'.count = b.count)
    (h : ∀ m, b'.line? m = if m = n then some text' else b.line? m) :
    b' = ⟨b.lines.set (n - 1) text'⟩ := by
  obtain ⟨hcount', hset⟩ := set_line text' (line?_pos hb)
    (Option.isSome_iff_exists.2 ⟨text, hb⟩) rfl
  refine eq_of_line? (hcount.trans hcount'.symm) fun m line hm ↦ ?_
  rw [hset] at hm
  rw [h, hm]

theorem replaceSpan?_eq_some {start : Nat} {old new patched : Bytes}
    (hstart : start ≤ text.length) :
    replaceSpan? text start old new = some patched ↔
      ∃ before behind, text = before ++ old ++ behind ∧ before.length = start ∧
        patched = before ++ new ++ behind := by
  have hrun : replaceSpan? text start old new = (Edit.mk start old new).run? text := rfl
  rw [hrun, Edit.run?_eq_some]
  simp only [Edit.Matches, Edit.stop]
  constructor
  · intro h
    obtain ⟨⟨behind, hbehind⟩, hpatched⟩ := h
    have htext : text = text.take start ++ old ++ behind := by
      rw [List.append_assoc, hbehind, List.take_append_drop]
    have hlength : (text.take start).length = start := List.length_take_of_le hstart
    refine ⟨text.take start, behind, htext, hlength, ?_⟩
    have hdrop : text.drop (start + old.length) = behind := by
      rw [← List.drop_drop, ← hbehind, List.drop_left]
    rw [hpatched, hdrop]
  · intro h
    obtain ⟨before, behind, htext, hlength, hpatched⟩ := h
    subst htext hlength
    refine ⟨⟨behind, ?_⟩, ?_⟩
    · rw [List.append_assoc, List.drop_left]
    · rw [hpatched, List.append_assoc before old, List.take_left, ← List.drop_drop,
        List.drop_left, List.drop_left]

theorem replaceSpan?_eq_none {start : Nat} {old new : Bytes} (hstart : start ≤ text.length) :
    replaceSpan? text start old new = none ↔
      ∀ before behind, text = before ++ old ++ behind → before.length ≠ start := by
  constructor
  · intro h before behind htext hlength
    have hsome : replaceSpan? text start old new = some (before ++ new ++ behind) :=
      (replaceSpan?_eq_some hstart).2 ⟨before, behind, htext, hlength, rfl⟩
    cases h.symm.trans hsome
  · intro h
    apply Option.eq_none_iff_forall_ne_some.2
    intro patched hpatched
    obtain ⟨before, behind, htext, hlength, -⟩ := (replaceSpan?_eq_some hstart).1 hpatched
    exact h before behind htext hlength

theorem patch_eq_ok_iff_set : b.patch line column old new = .ok b' ↔ ∃ text patched,
    b.line? line = some text ∧ (1 ≤ column ∧ column ≤ text.length) ∧
      replaceSpan? text (column - 1) (Utf8.encode old) (Utf8.encode new) = some patched ∧
        b' = ⟨b.lines.set (line - 1) patched⟩ := by
  unfold patch
  cases b.line? line with
  | none => simp
  | some text =>
    dsimp only
    split
    · next hcolumn =>
      refine iff_of_false (fun h ↦ by cases h) ?_
      intro h
      obtain ⟨_, _, htext, hcolumn', -⟩ := h
      cases htext
      omega
    · next hcolumn =>
      have hcolumn' : 1 ≤ column ∧ column ≤ text.length := by omega
      cases hspan : replaceSpan? text (column - 1) (Utf8.encode old) (Utf8.encode new) with
      | none =>
        refine iff_of_false (fun h ↦ by cases h) ?_
        intro h
        obtain ⟨_, _, htext, -, hpatched, -⟩ := h
        cases htext
        cases hspan.symm.trans hpatched
      | some patched =>
        constructor
        · intro h
          cases h
          exact ⟨text, patched, rfl, hcolumn', hspan, rfl⟩
        · intro h
          obtain ⟨_, _, htext, -, hpatched, hset⟩ := h
          cases htext
          rw [hset, Option.some.inj (hspan.symm.trans hpatched)]

/-- The old text stands in a line at a column within the line, between what is before and behind
it. -/
structure Stands (b : LineBuffer) (line column : Nat) (old before behind : Bytes) : Prop where
  text : b.line? line = some (before ++ old ++ behind)
  place : before.length + 1 = column
  inside : column ≤ (before ++ old ++ behind).length

def Replaces (b : LineBuffer) (line column : Nat) (old new : Bytes) (b' : LineBuffer) : Prop :=
  ∃ before behind, b.Stands line column old before behind ∧ b'.count = b.count ∧
    ∀ n, b'.line? n = if n = line then some (before ++ new ++ behind) else b.line? n

inductive Refuses (b : LineBuffer) (line column : Nat) (old : String) : PatchError → Prop
  | line (h : ¬(1 ≤ line ∧ line ≤ b.count)) :
      Refuses b line column old (.lineOutOfRange line b.count)
  | column {text : Bytes} (hline : b.line? line = some text)
      (h : ¬(1 ≤ column ∧ column ≤ text.length)) :
      Refuses b line column old (.columnOutOfRange line column text.length)
  | mismatch {text : Bytes} (hline : b.line? line = some text)
      (hcolumn : 1 ≤ column ∧ column ≤ text.length)
      (h : ∀ before behind, text = before ++ Utf8.encode old ++ behind →
        before.length + 1 ≠ column) :
      Refuses b line column old (.mismatch line column old)

theorem Stands.patch {before behind : Bytes}
    (h : b.Stands line column (Utf8.encode old) before behind) (new : String) :
    b.patch line column old new =
      .ok ⟨b.lines.set (line - 1) (before ++ Utf8.encode new ++ behind)⟩ := by
  have hplace := h.place
  have hinside := h.inside
  have hspan : replaceSpan? (before ++ Utf8.encode old ++ behind) (column - 1)
      (Utf8.encode old) (Utf8.encode new) = some (before ++ Utf8.encode new ++ behind) :=
    (replaceSpan?_eq_some (by omega)).2 ⟨before, behind, rfl, by omega, rfl⟩
  exact patch_eq_ok_iff_set.2 ⟨_, _, h.text, ⟨by omega, hinside⟩, hspan, rfl⟩

theorem patch_eq_ok_iff :
    b.patch line column old new = .ok b' ↔
      b.Replaces line column (Utf8.encode old) (Utf8.encode new) b' := by
  constructor
  · intro h
    obtain ⟨text, patched, hline, hcolumn, hspan, hset⟩ := patch_eq_ok_iff_set.1 h
    obtain ⟨before, behind, htext, hlength, hpatched⟩ :=
      (replaceSpan?_eq_some (by omega)).1 hspan
    obtain ⟨hcount, hlines⟩ := set_line patched (line?_pos hline)
      (Option.isSome_iff_exists.2 ⟨text, hline⟩) hset
    subst htext hpatched
    exact ⟨before, behind, ⟨hline, by omega, hcolumn.2⟩, hcount, hlines⟩
  · intro h
    obtain ⟨before, behind, hstands, hcount, hlines⟩ := h
    rw [hstands.patch new, eq_set_of_line? hstands.text hcount hlines]

theorem exists_patch_iff :
    (∃ b', b.patch line column old new = .ok b') ↔
      ∃ before behind, b.Stands line column (Utf8.encode old) before behind := by
  constructor
  · intro h
    obtain ⟨b', h⟩ := h
    obtain ⟨before, behind, hstands, -⟩ := patch_eq_ok_iff.1 h
    exact ⟨before, behind, hstands⟩
  · intro h
    obtain ⟨before, behind, hstands⟩ := h
    exact ⟨_, hstands.patch new⟩

theorem patch_eq_error_iff {e : PatchError} :
    b.patch line column old new = .error e ↔ b.Refuses line column old e := by
  constructor
  · intro h
    unfold patch at h
    cases hline : b.line? line with
    | none =>
      rw [hline] at h
      cases h
      exact .line (line?_eq_none.1 hline)
    | some text =>
      rw [hline] at h
      dsimp only at h
      split at h
      · next hcolumn =>
        cases h
        exact .column hline (by omega)
      · next hcolumn =>
        cases hspan : replaceSpan? text (column - 1) (Utf8.encode old) (Utf8.encode new) with
        | some patched =>
          rw [hspan] at h
          cases h
        | none =>
          rw [hspan] at h
          cases h
          refine .mismatch hline (by omega) fun before behind htext hlength ↦ ?_
          exact (replaceSpan?_eq_none (by omega)).1 hspan before behind htext (by omega)
  · intro h
    unfold patch
    cases h with
    | line h => rw [line?_eq_none.2 h]
    | @column text hline h =>
      have hcolumn : column = 0 ∨ text.length < column := by omega
      rw [hline]
      exact if_pos hcolumn
    | @mismatch text hline hcolumn h =>
      have hinside : ¬(column = 0 ∨ text.length < column) := by omega
      have hspan : replaceSpan? text (column - 1) (Utf8.encode old) (Utf8.encode new) = none := by
        apply (replaceSpan?_eq_none (by omega)).2
        intro before behind htext hlength
        exact h before behind htext (by omega)
      rw [hline]
      dsimp only
      rw [if_neg hinside, hspan]

def make (b : LineBuffer) (p : Patch) : Except PatchError LineBuffer :=
  b.patch p.line p.column p.old p.new

def after (b : LineBuffer) : List Patch → LineBuffer
  | [] => b
  | p :: rest =>
    match b.make p with
    | .ok b' => b'.after rest
    | .error _ => b.after rest

def made (b : LineBuffer) : List Patch → List Patch
  | [] => []
  | p :: rest =>
    match b.make p with
    | .ok b' => p :: b'.made rest
    | .error _ => b.made rest

theorem count_make {p : Patch} (h : b.make p = .ok b') : b'.count = b.count := by
  obtain ⟨_, _, -, hcount, -⟩ := patch_eq_ok_iff.1 h
  exact hcount

theorem count_after (b : LineBuffer) (patches : List Patch) :
    (b.after patches).count = b.count := by
  induction patches generalizing b with
  | nil => rfl
  | cons p rest ih =>
    rw [after]
    cases hmake : b.make p with
    | error e => exact ih b
    | ok b' => exact (ih b').trans (count_make hmake)

theorem sublist_made (b : LineBuffer) (patches : List Patch) :
    (b.made patches).Sublist patches := by
  induction patches generalizing b with
  | nil => exact List.Sublist.refl []
  | cons p rest ih =>
    rw [made]
    cases b.make p with
    | error e => exact (ih b).cons p
    | ok b' => exact (ih b').cons_cons p

/-- The patches that are made lead to the same buffer without the others. -/
theorem foldlM_made (b : LineBuffer) (patches : List Patch) :
    (b.made patches).foldlM make b = .ok (b.after patches) := by
  induction patches generalizing b with
  | nil => rfl
  | cons p rest ih =>
    rw [made, after]
    cases hmake : b.make p with
    | error e => exact ih b
    | ok b' =>
      dsimp only
      rw [List.foldlM_cons, hmake]
      exact ih b'

/-- A patch replaces the span that it names or is refused. Sums and differences on the way stay
within words if the texts fit into memory. -/
theorem patch_replaces_or_refuses (b : LineBuffer) (line column : Nat) (old new : String) :
    ((∃ b', b.patch line column old new = .ok b') ↔
        ∃ before behind, b.Stands line column (Utf8.encode old) before behind) ∧
      (∀ b', b.patch line column old new = .ok b' ↔
        b.Replaces line column (Utf8.encode old) (Utf8.encode new) b') ∧
      (∀ e, b.patch line column old new = .error e ↔ b.Refuses line column old e) ∧
      ((∀ text ∈ b.lines, text.length ≤ maxSigned) → (Utf8.encode old).length ≤ maxSigned →
        b.patch? line column old new = some (b.patch line column old new)) ∧
      ∀ patches : List Patch, (b.after patches).count = b.count ∧
        (b.made patches).Sublist patches ∧
          (b.made patches).foldlM make b = .ok (b.after patches) :=
  ⟨exists_patch_iff, fun _ ↦ patch_eq_ok_iff, fun _ ↦ patch_eq_error_iff,
    fun hb hold ↦ patch?_eq hb hold line column new,
    fun patches ↦ ⟨b.count_after patches, b.sublist_made patches, b.foldlM_made patches⟩⟩

end LineBuffer

end FindingStore
