import Mathlib.Data.List.Basic
import FindingStore.Proofs.LineBuffer.Patches
import FindingStore.Proofs.Text.Utf8

namespace FindingStore

namespace Patch

def inverse (p : Patch) : Patch := { p with old := p.new, new := p.old }

def moved (p : Patch) (column : Nat) : Nat :=
  column + (Utf8.encode p.new).length - (Utf8.encode p.old).length

/-- The patch as it is to be made on a line that another one has changed before it. -/
def behind (q p : Patch) : Patch := { q with column := p.moved q.column }

def movedError (p : Patch) : PatchError → PatchError
  | .lineOutOfRange line count => .lineOutOfRange line count
  | .columnOutOfRange line column length => .columnOutOfRange line (p.moved column) (p.moved length)
  | .mismatch line column expected => .mismatch line (p.moved column) expected

end Patch

namespace LineBuffer

variable {b b' : LineBuffer} {p q : Patch} {line column : Nat} {old new text : Bytes}

def makes (b : LineBuffer) (p : Patch) : Prop := ∃ b', b.make p = .ok b'

def reply (b : LineBuffer) (p : Patch) : Except PatchError Unit := (b.make p).map fun _ ↦ ()

theorem makes_iff : b.makes p ↔
    ∃ before behind, b.Stands p.line p.column (Utf8.encode p.old) before behind :=
  exists_patch_iff

theorem makes_iff_reply : b.makes p ↔ b.reply p = .ok () := by
  unfold makes reply
  cases b.make p <;> simp [Except.map]

theorem reply_of_refuses {e : PatchError} (h : b.Refuses p.line p.column p.old e) :
    b.reply p = .error e := by
  have hmake : b.make p = .error e := patch_eq_error_iff.2 h
  rw [reply, hmake]
  rfl

theorem after_of_make (h : b.make p = .ok b') : b.after [p] = b' := by
  rw [after, h]
  rfl

theorem after_of_not_makes (h : ¬b.makes p) : b.after [p] = b := by
  cases hmake : b.make p with
  | ok b' => exact absurd ⟨b', hmake⟩ h
  | error e =>
    rw [after, hmake]
    rfl

theorem after_cons (b : LineBuffer) (p : Patch) (rest : List Patch) :
    b.after (p :: rest) = (b.after [p]).after rest := by
  simp only [after]
  cases b.make p <;> rfl

theorem ext_line? (hcount : b'.count = b.count) (h : ∀ n, b'.line? n = b.line? n) : b' = b := by
  apply eq_of_line? hcount
  intro n text hn
  rw [h, hn]

theorem reply_congr (hcount : b'.count = b.count) (hline : b'.line? p.line = b.line? p.line) :
    b'.reply p = b.reply p := by
  unfold reply make patch
  rw [hline, hcount]
  cases b.line? p.line with
  | none => rfl
  | some text =>
    dsimp only
    split
    · rfl
    · split <;> rfl

theorem line?_after_of_ne {n : Nat} (hn : n ≠ p.line) : (b.after [p]).line? n = b.line? n := by
  cases hmake : b.make p with
  | error e => rw [after_of_not_makes fun ⟨b', h⟩ ↦ nomatch hmake.symm.trans h]
  | ok b' =>
    obtain ⟨before, behind, -, -, hlines⟩ := patch_eq_ok_iff.1 hmake
    rw [after_of_make hmake, hlines, if_neg hn]

theorem Stands.line?_after {before behind : Bytes}
    (h : b.Stands p.line p.column (Utf8.encode p.old) before behind) (n : Nat) :
    (b.after [p]).line? n =
      if n = p.line then some (before ++ Utf8.encode p.new ++ behind) else b.line? n := by
  have hmake : b.make p = _ := h.patch p.new
  rw [after_of_make hmake]
  exact (set_line _ (line?_pos h.text) (by simp [h.text]) rfl).2 n

theorem Stands.congr {before behind : Bytes} (h : b.Stands line column old before behind)
    (hline : b'.line? line = b.line? line) : b'.Stands line column old before behind :=
  ⟨hline.trans h.text, h.place, h.inside⟩

/-- What a patch leaves of its line depends on nothing but that line. -/
theorem line?_after_congr (hline : b'.line? p.line = b.line? p.line) :
    (b'.after [p]).line? p.line = (b.after [p]).line? p.line := by
  by_cases h : b.makes p
  · obtain ⟨before, behind, hstands⟩ := makes_iff.1 h
    rw [hstands.line?_after, (hstands.congr hline).line?_after, if_pos rfl, if_pos rfl]
  · have h' : ¬b'.makes p := by
      intro hmakes
      obtain ⟨before, behind, hstands⟩ := makes_iff.1 hmakes
      exact h (makes_iff.2 ⟨before, behind, hstands.congr hline.symm⟩)
    rw [after_of_not_makes h, after_of_not_makes h', hline]

theorem after_swap (h : p.line ≠ q.line) : b.after [p, q] = b.after [q, p] := by
  rw [b.after_cons p [q], b.after_cons q [p]]
  apply ext_line?
  · simp only [count_after]
  · intro n
    by_cases hp : n = p.line
    · rw [line?_after_of_ne (hp ▸ h), hp]
      exact (line?_after_congr (line?_after_of_ne h)).symm
    · rw [line?_after_of_ne (p := p) hp]
      by_cases hq : n = q.line
      · rw [hq]
        exact line?_after_congr (line?_after_of_ne h.symm)
      · rw [line?_after_of_ne hq, line?_after_of_ne hp, line?_after_of_ne hq]

theorem makes_inverse_iff (h : b.make p = .ok b') : ∃ text, b'.line? p.line = some text ∧
    (p.new ≠ "" → p.column ≤ text.length) ∧
      (b'.make p.inverse = .ok b ↔ p.column ≤ text.length) := by
  obtain ⟨before, behind, hstands, hcount, hlines⟩ := patch_eq_ok_iff.1 h
  have hplace := hstands.place
  have hnew : b'.line? p.line = some (before ++ Utf8.encode p.new ++ behind) := by
    rw [hlines, if_pos rfl]
  refine ⟨_, hnew, ?_, ?_, ?_⟩
  · intro hne
    have hnonempty : Utf8.encode p.new ≠ [] := fun he ↦ hne (Utf8.encode_injective he)
    have hpos := List.length_pos_iff.2 hnonempty
    simp only [List.length_append]
    omega
  · intro hmake
    obtain ⟨_, _, hstands', -⟩ := patch_eq_ok_iff.1 hmake
    have hinside := hstands'.inside
    rwa [← Option.some.inj (hnew.symm.trans hstands'.text)] at hinside
  · intro hinside
    refine patch_eq_ok_iff.2 ⟨before, behind, ⟨hnew, hplace, hinside⟩, hcount.symm, ?_⟩
    intro n
    change b.line? n = if n = p.line then some (before ++ Utf8.encode p.old ++ behind)
      else b'.line? n
    by_cases hn : n = p.line
    · rw [if_pos hn, hn, hstands.text]
    · rw [if_neg hn, hlines, if_neg hn]

section OneLine

variable {before behind head tail tail' head' : Bytes}

theorem Stands.of_head (h : b.Stands line column old before behind)
    (hb : b.line? line = some (head ++ tail)) (hb' : b'.line? line = some (head ++ tail'))
    (hle : column + old.length ≤ head.length + 1) (hold : old ≠ []) :
    ∃ between, head = before ++ old ++ between ∧ behind = between ++ tail ∧
      b'.Stands line column old before (between ++ tail') := by
  have hplace := h.place
  have hpos := List.length_pos_iff.2 hold
  have hlength : (before ++ old).length ≤ head.length := by
    rw [List.length_append]
    omega
  have htext : before ++ old ++ behind = head ++ tail :=
    Option.some.inj (h.text.symm.trans hb)
  have hprefix : before ++ old <+: head :=
    List.prefix_of_prefix_length_le (htext ▸ List.prefix_append _ _) (List.prefix_append _ _)
      hlength
  obtain ⟨between, rfl⟩ := hprefix
  rw [List.append_assoc (before ++ old)] at htext hb'
  refine ⟨between, rfl, List.append_cancel_left htext, hb', hplace, ?_⟩
  simp only [List.length_append]
  omega

theorem Stands.of_tail (h : b.Stands line column old before behind)
    (hb : b.line? line = some (head ++ tail)) (hb' : b'.line? line = some (head' ++ tail))
    (hle : head.length + 1 ≤ column) :
    ∃ between, before = head ++ between ∧ tail = between ++ old ++ behind ∧
      b'.Stands line (column + head'.length - head.length) old (head' ++ between) behind := by
  have hplace := h.place
  have hinside := h.inside
  have htext : before ++ (old ++ behind) = head ++ tail := by
    rw [← List.append_assoc]
    exact Option.some.inj (h.text.symm.trans hb)
  have hprefix : head <+: before :=
    List.prefix_of_prefix_length_le (htext.symm ▸ List.prefix_append _ _)
      (List.prefix_append _ _) (by omega)
  obtain ⟨between, rfl⟩ := hprefix
  rw [List.append_assoc] at htext
  have htail : tail = between ++ old ++ behind := by
    rw [List.append_assoc]
    exact (List.append_cancel_left htext).symm
  simp only [List.length_append] at hplace hinside
  refine ⟨between, rfl, htail, ?_, ?_, ?_⟩
  · rw [hb', htail]
    simp only [List.append_assoc]
  · rw [List.length_append]
    omega
  · simp only [List.length_append]
    omega

theorem makes_of_made_behind (hq : b.Stands q.line q.column (Utf8.encode q.old) before behind)
    (hline : p.line = q.line) (hapart : p.column + (Utf8.encode p.old).length ≤ q.column)
    (hold : Utf8.encode p.old ≠ []) : (b.after [q]).makes p ↔ b.makes p := by
  have hplace := hq.place
  have hb : b.line? p.line = some (before ++ (Utf8.encode q.old ++ behind)) := by
    rw [hline, hq.text, List.append_assoc]
  have hb' : (b.after [q]).line? p.line = some (before ++ (Utf8.encode q.new ++ behind)) := by
    rw [hline, hq.line?_after, if_pos rfl, List.append_assoc]
  have hle : p.column + (Utf8.encode p.old).length ≤ before.length + 1 := by omega
  rw [makes_iff, makes_iff]
  constructor
  · intro h
    obtain ⟨_, _, hstands⟩ := h
    obtain ⟨_, -, -, hstands⟩ := hstands.of_head hb' hb hle hold
    exact ⟨_, _, hstands⟩
  · intro h
    obtain ⟨_, _, hstands⟩ := h
    obtain ⟨_, -, -, hstands⟩ := hstands.of_head hb hb' hle hold
    exact ⟨_, _, hstands⟩

end OneLine

/-- Two patches of one line, the second of which begins where the first has ended or behind
that. -/
structure Precedes (p q : Patch) : Prop where
  line : p.line = q.line
  apart : p.column + (Utf8.encode p.old).length ≤ q.column
  old : p.old ≠ ""

theorem Precedes.encode_ne_nil (h : Precedes p q) : Utf8.encode p.old ≠ [] :=
  fun he ↦ h.old (Utf8.encode_injective he)

/-- A patch succeeds or not whether the one behind it has been tried or not. -/
theorem Precedes.makes_iff (h : Precedes p q) : (b.after [q]).makes p ↔ b.makes p := by
  by_cases hq : b.makes q
  · obtain ⟨before, behind, hstands⟩ := LineBuffer.makes_iff.1 hq
    exact makes_of_made_behind hstands h.line h.apart h.encode_ne_nil
  · rw [after_of_not_makes hq]

theorem reply_of_inside (hline : b.line? p.line = some text)
    (hcolumn : 1 ≤ p.column ∧ p.column ≤ text.length) (h : ¬b.makes p) :
    b.reply p = .error (.mismatch p.line p.column p.old) := by
  apply reply_of_refuses
  refine .mismatch hline hcolumn fun before behind htext hplace ↦ h ?_
  exact makes_iff.2 ⟨before, behind, hline.trans (congrArg some htext), hplace, htext ▸ hcolumn.2⟩

theorem Precedes.reply_eq (h : Precedes p q) (hcolumn : 0 < p.column) :
    (b.after [q]).reply p = b.reply p := by
  by_cases hq : b.makes q
  · by_cases hp : b.makes p
    · rw [makes_iff_reply.1 hp, makes_iff_reply.1 (h.makes_iff.2 hp)]
    · obtain ⟨before, behind, hstands⟩ := LineBuffer.makes_iff.1 hq
      have hplace := hstands.place
      have hapart := h.apart
      have hpos := List.length_pos_iff.2 h.encode_ne_nil
      have hafter := hstands.line?_after p.line
      rw [if_pos h.line] at hafter
      have hb : b.line? p.line = _ := h.line ▸ hstands.text
      have hb' : 1 ≤ p.column ∧ p.column ≤ (before ++ Utf8.encode q.new ++ behind).length := by
        simp only [List.length_append]
        omega
      have hinside : 1 ≤ p.column ∧ p.column ≤ (before ++ Utf8.encode q.old ++ behind).length := by
        simp only [List.length_append]
        omega
      rw [reply_of_inside hb hinside hp, reply_of_inside hafter hb' (mt h.makes_iff.1 hp)]
  · rw [after_of_not_makes hq]

section Made

variable {before behind before' behind' : Bytes}

theorem moved_eq (p : Patch) (before : Bytes) (column : Nat) :
    column + (before ++ Utf8.encode p.new).length - (before ++ Utf8.encode p.old).length =
      p.moved column := by
  simp only [Patch.moved, List.length_append]
  omega

theorem Precedes.line?_eq (h : Precedes p q)
    (hp : b.Stands p.line p.column (Utf8.encode p.old) before behind) :
    b.line? q.line = some (before ++ Utf8.encode p.old ++ behind) ∧
      (b.after [p]).line? q.line = some (before ++ Utf8.encode p.new ++ behind) := by
  rw [← h.line, hp.line?_after, if_pos rfl]
  exact ⟨hp.text, rfl⟩

/-- What the second patch replaces has moved when the first one has been made. -/
theorem Precedes.stands_behind (h : Precedes p q)
    (hp : b.Stands p.line p.column (Utf8.encode p.old) before behind)
    (hq : b.Stands q.line q.column (Utf8.encode q.old) before' behind') :
    ∃ between, before' = before ++ Utf8.encode p.old ++ between ∧
      behind = between ++ Utf8.encode q.old ++ behind' ∧
      (b.after [p]).Stands q.line (p.moved q.column) (Utf8.encode q.old)
        (before ++ Utf8.encode p.new ++ between) behind' := by
  obtain ⟨hb, hb'⟩ := h.line?_eq hp
  have hplace := hp.place
  have hapart := h.apart
  have hle : (before ++ Utf8.encode p.old).length + 1 ≤ q.column := by
    rw [List.length_append]
    omega
  rw [← moved_eq p before q.column]
  exact hq.of_tail hb hb' hle

theorem Precedes.makes_behind_iff (h : Precedes p q)
    (hp : b.Stands p.line p.column (Utf8.encode p.old) before behind) :
    (b.after [p]).makes (q.behind p) ↔ b.makes q := by
  rw [LineBuffer.makes_iff, LineBuffer.makes_iff]
  constructor
  · intro hmakes
    obtain ⟨hb, hb'⟩ := h.line?_eq hp
    have hplace := hp.place
    have hapart := h.apart
    have hle : (before ++ Utf8.encode p.new).length + 1 ≤ (q.behind p).column := by
      simp only [Patch.behind, Patch.moved, List.length_append]
      omega
    have hcolumn : (q.behind p).column + (before ++ Utf8.encode p.old).length -
        (before ++ Utf8.encode p.new).length = q.column := by
      simp only [Patch.behind, Patch.moved, List.length_append]
      omega
    obtain ⟨_, _, hstands⟩ := hmakes
    obtain ⟨_, -, -, hstands⟩ := hstands.of_tail hb' hb hle
    rw [hcolumn] at hstands
    exact ⟨_, _, hstands⟩
  · intro hmakes
    obtain ⟨_, _, hstands⟩ := hmakes
    obtain ⟨_, -, -, hstands⟩ := h.stands_behind hp hstands
    exact ⟨_, _, hstands⟩

/-- The patch behind is refused for the same reason as before, at the column that has moved. -/
theorem Precedes.reply_behind (h : Precedes p q)
    (hp : b.Stands p.line p.column (Utf8.encode p.old) before behind) :
    (b.after [p]).reply (q.behind p) = (b.reply q).mapError p.movedError := by
  by_cases hq : b.makes q
  · rw [makes_iff_reply.1 hq, makes_iff_reply.1 ((h.makes_behind_iff hp).2 hq)]
    rfl
  · have hq' := mt (h.makes_behind_iff hp).1 hq
    have hplace := hp.place
    have hapart := h.apart
    obtain ⟨hb, hafter⟩ := h.line?_eq hp
    have hb' : (b.after [p]).line? (q.behind p).line = _ := hafter
    have hmoved : p.moved (before ++ Utf8.encode p.old ++ behind).length =
        (before ++ Utf8.encode p.new ++ behind).length := by
      simp only [Patch.moved, List.length_append]
      omega
    have hinside : (q.behind p).column ≤ (before ++ Utf8.encode p.new ++ behind).length ↔
        q.column ≤ (before ++ Utf8.encode p.old ++ behind).length := by
      rw [← hmoved]
      simp only [Patch.behind, Patch.moved, List.length_append]
      omega
    have hpos : 1 ≤ (q.behind p).column := by
      simp only [Patch.behind, Patch.moved]
      omega
    by_cases hcolumn : q.column ≤ (before ++ Utf8.encode p.old ++ behind).length
    · rw [reply_of_inside hb ⟨by omega, hcolumn⟩ hq,
        reply_of_inside hb' ⟨hpos, hinside.2 hcolumn⟩ hq']
      rfl
    · rw [reply_of_refuses (.column hb fun hle ↦ hcolumn hle.2),
        reply_of_refuses (.column hb' fun hle ↦ hcolumn (hinside.1 hle.2)), ← hmoved]
      rfl

theorem Precedes.after_behind (h : Precedes p q)
    (hp : b.Stands p.line p.column (Utf8.encode p.old) before behind) :
    b.after [q, p] = b.after [p, q.behind p] := by
  rw [b.after_cons q [p], b.after_cons p [q.behind p]]
  by_cases hq : b.makes q
  · obtain ⟨before', behind', hq⟩ := LineBuffer.makes_iff.1 hq
    obtain ⟨between, rfl, rfl, hbehind⟩ := h.stands_behind hp hq
    have hplace := hp.place
    have hpos := List.length_pos_iff.2 h.encode_ne_nil
    have hstands : (b.after [q]).Stands p.line p.column (Utf8.encode p.old) before
        (between ++ Utf8.encode q.new ++ behind') := by
      refine ⟨?_, hplace, ?_⟩
      · rw [h.line, hq.line?_after, if_pos rfl]
        simp only [List.append_assoc]
      · simp only [List.length_append]
        omega
    apply ext_line?
    · simp only [count_after]
    · intro n
      by_cases hn : n = p.line
      · have hn' : n = (q.behind p).line := hn.trans h.line
        rw [hstands.line?_after, if_pos hn, Stands.line?_after (p := q.behind p) hbehind,
          if_pos hn']
        simp only [Patch.behind, List.append_assoc]
      · have hn' : n ≠ (q.behind p).line := fun he ↦ hn (he.trans h.line.symm)
        rw [line?_after_of_ne hn, line?_after_of_ne hn', line?_after_of_ne hn,
          line?_after_of_ne (p := q) hn']
  · rw [after_of_not_makes hq, after_of_not_makes (mt (h.makes_behind_iff hp).1 hq)]

end Made

/-- Putting the old text back undoes a patch, unless the column has come to lie behind the end of
the line. Patches of different lines do the same in either order. Of two patches of a line whose
spans lie apart, the one in front is made or not whether the other has been tried or not; if it is
made, the other does the same before it and, at the moved column, after it. -/
theorem patches_undone_and_reordered (b : LineBuffer) :
    (∀ p b', b.make p = .ok b' → ∃ text, b'.line? p.line = some text ∧
      (p.new ≠ "" → p.column ≤ text.length) ∧
        (b'.make p.inverse = .ok b ↔ p.column ≤ text.length)) ∧
    (∀ p q, p.line ≠ q.line → (b.after [q]).reply p = b.reply p ∧
      (b.after [p]).reply q = b.reply q ∧ b.after [p, q] = b.after [q, p]) ∧
    ∀ p q, Precedes p q →
      ((b.after [q]).makes p ↔ b.makes p) ∧ (0 < p.column → (b.after [q]).reply p = b.reply p) ∧
        (b.makes p → (b.after [p]).reply (q.behind p) = (b.reply q).mapError p.movedError ∧
          b.after [q, p] = b.after [p, q.behind p]) ∧
        (¬b.makes p → (b.after [p]).reply q = b.reply q ∧ b.after [q, p] = b.after [p, q]) := by
  refine ⟨fun p b' ↦ makes_inverse_iff, ?_, ?_⟩
  · intro p q h
    exact ⟨reply_congr (b.count_after [q]) (line?_after_of_ne h),
      reply_congr (b.count_after [p]) (line?_after_of_ne h.symm), after_swap h⟩
  · intro p q h
    refine ⟨h.makes_iff, h.reply_eq, ?_, ?_⟩
    · intro hp
      obtain ⟨before, behind, hstands⟩ := makes_iff.1 hp
      exact ⟨h.reply_behind hstands, h.after_behind hstands⟩
    · intro hp
      rw [b.after_cons q [p], b.after_cons p [q], after_of_not_makes hp,
        after_of_not_makes (mt h.makes_iff.1 hp)]
      exact ⟨rfl, rfl⟩

def called : LineBuffer := ⟨[Utf8.encode "foo(bar)", Utf8.encode "bar"]⟩

theorem called_reordered :
    let p : Patch := ⟨1, 1, "foo", "print"⟩
    let q : Patch := ⟨1, 5, "bar)", ""⟩
    let r : Patch := ⟨2, 1, "bar", ""⟩
    (called.after [p]).make p.inverse = .ok called ∧
      called.after [p, r] = called.after [r, p] ∧
      called.after [q, p] = called.after [p, q.behind p] ∧
      called.after [q, p] = ⟨[Utf8.encode "print(", Utf8.encode "bar"]⟩ ∧
      (called.after [r]).reply r.inverse = .error (.columnOutOfRange 2 1 0) := by
  intro p q r
  obtain ⟨hundone, hlines, hspans⟩ := patches_undone_and_reordered called
  have hp : called.make p = .ok (called.after [p]) := by decide
  have hinside : p.column ≤ (Utf8.encode "print(bar)").length := by decide
  obtain ⟨text, htext, -, hinverse⟩ := hundone p _ hp
  obtain rfl : Utf8.encode "print(bar)" = text :=
    Option.some.inj ((by decide : _ = (called.after [p]).line? p.line).trans htext)
  have hpq : Precedes p q := ⟨rfl, by decide, by decide⟩
  obtain ⟨-, -, hmade, -⟩ := hspans p q hpq
  exact ⟨hinverse.2 hinside, (hlines p r (by decide)).2.2, (hmade ⟨_, hp⟩).2, by decide, by decide⟩

/-- Where the patch in front is refused, the one behind it is made in one order only if it is not
left out in the other. -/
theorem refused_in_front_differs :
    let b : LineBuffer := ⟨[Utf8.encode "ab"]⟩
    let p : Patch := ⟨1, 1, "z", "y"⟩
    let q : Patch := ⟨1, 2, "b", "X"⟩
    (p.line = q.line ∧ p.column + (Utf8.encode p.old).length ≤ q.column ∧ p.old ≠ "") ∧
      b.reply p = .error (.mismatch 1 1 "z") ∧ b.after [p] = b ∧
      b.after [q, p] = ⟨[Utf8.encode "aX"]⟩ ∧ b.after [q, p] ≠ b.after [p] := by
  decide

end LineBuffer

end FindingStore
