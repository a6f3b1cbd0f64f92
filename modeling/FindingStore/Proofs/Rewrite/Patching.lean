import FindingStore.Proofs.LineBuffer.Lines
import FindingStore.Proofs.LineBuffer.Patches
import FindingStore.Proofs.Outcome
import FindingStore.Proofs.Text.Utf8
import FindingStore.Rewrite

namespace FindingStore.Rewrite

open LineBuffer

def Rules.IsProper (rules : Rules) : Prop := ∀ name new, rules.get? name = some new → name ≠ ""

theorem ne_empty_of_parseRule {pair : String} {rule : String × String}
    (h : parseRule pair = .ok rule) : rule.1 ≠ "" := by
  unfold parseRule at h
  dsimp only at h
  split at h
  · cases h
  · split at h
    · cases h
    · next hne =>
      cases h
      intro hempty
      have hold := congrArg String.toList hempty
      rw [String.toList_ofList] at hold
      simp [hold] at hne

theorem Rules.isProper_of_parse {pairs : List String} {rules : Rules}
    (h : Rules.parse pairs = .ok rules) : rules.IsProper := by
  intro name new hget
  obtain ⟨parsed, hparsed, rfl⟩ := map_eq_ok.1 h
  obtain ⟨rule, hfind, rfl⟩ := Option.map_eq_some_iff.1 hget
  have hmem := List.mem_reverse.1 (List.mem_of_find?_eq_some hfind)
  have hname : rule.1 = name := by simpa using List.find?_some hfind
  obtain ⟨pair, -, hpair⟩ := exists_of_mapM_eq_ok hparsed hmem
  exact hname ▸ ne_empty_of_parseRule hpair

@[irreducible]
def spelling (f : Finding) : Bytes := Utf8.encode (nameOf f)

def edit (rules : Rules) (f : Finding) : Edit where
  start := f.column - 1
  old := spelling f
  new := Utf8.encode ((rules.get? (nameOf f)).getD "")

structure Ready (rules : Rules) (b : LineBuffer) (f : Finding) : Prop where
  rule : (rules.get? (nameOf f)).isSome
  line : (b.line? f.line).isSome
  column : 0 < f.column

variable {rules : Rules} {b b' : LineBuffer} {f : Finding} {findings : List Finding}

theorem spelling_ne_nil (hrules : rules.IsProper) (h : (rules.get? (nameOf f)).isSome) :
    spelling f ≠ [] := by
  obtain ⟨new, hnew⟩ := Option.isSome_iff_exists.1 h
  intro hempty
  rw [spelling] at hempty
  exact hrules _ _ hnew (Utf8.encode_injective hempty)

theorem patch_eq_ok {line column : Nat} {old new : String} (hold : old ≠ "") :
    b.patch line column old new = .ok b' ↔ 0 < column ∧ ∃ text patched,
      b.line? line = some text ∧
        (Edit.mk (column - 1) (Utf8.encode old) (Utf8.encode new)).run? text = some patched ∧
        b' = ⟨b.lines.set (line - 1) patched⟩ := by
  have hne : Utf8.encode old ≠ [] := fun h ↦ hold (Utf8.encode_injective h)
  rw [patch_eq_ok_iff_set]
  constructor
  · intro h
    obtain ⟨text, patched, hline, hcolumn, hspan, hset⟩ := h
    exact ⟨hcolumn.1, text, patched, hline, hspan, hset⟩
  · intro h
    obtain ⟨hpos, text, patched, hline, hrun, hset⟩ := h
    have hstop := (Edit.run?_eq_some.1 hrun).1.stop_le hne
    have hwidth := List.length_pos_iff.2 hne
    simp only [Edit.stop] at hstop
    exact ⟨text, patched, hline, ⟨hpos, by omega⟩, hrun, hset⟩

theorem patchFinding_eq_ok (hrules : rules.IsProper) :
    patchFinding rules b f = .ok b' ↔ Ready rules b f ∧ ∃ text patched,
      b.line? f.line = some text ∧ (edit rules f).run? text = some patched ∧
        b' = ⟨b.lines.set (f.line - 1) patched⟩ := by
  unfold patchFinding
  cases hrule : rules.get? (nameOf f) with
  | none =>
    refine iff_of_false (fun h ↦ by cases h) ?_
    rintro ⟨⟨h, -, -⟩, -⟩
    simp [hrule] at h
  | some new =>
    have hedit : edit rules f = ⟨f.column - 1, spelling f, Utf8.encode new⟩ := by
      simp [edit, hrule]
    dsimp only
    rw [mapError_eq_ok, patch_eq_ok (hrules _ _ hrule), hedit, spelling]
    constructor
    · rintro ⟨hcolumn, text, patched, htext, hpatched⟩
      exact ⟨⟨by simp [hrule], by simp [htext], hcolumn⟩, text, patched, htext, hpatched⟩
    · exact fun ⟨hready, hpatched⟩ ↦ ⟨hready.column, hpatched⟩

def editsOn (rules : Rules) (findings : List Finding) (line : Nat) : List Edit :=
  (findings.filter (·.line == line)).map (edit rules)

theorem editsOn_cons (rules : Rules) (f : Finding) (rest : List Finding) (line : Nat) :
    editsOn rules (f :: rest) line =
      if f.line = line then edit rules f :: editsOn rules rest line
      else editsOn rules rest line := by
  unfold editsOn
  split
  · next h => rw [List.filter_cons_of_pos (by simpa using h), List.map_cons]
  · next h => rw [List.filter_cons_of_neg (by simpa using h)]

theorem Ready.congr (h : Ready rules b f) (hcount : b'.count = b.count) : Ready rules b' f := by
  refine ⟨h.rule, ?_, h.column⟩
  rw [isSome_line?, hcount, ← isSome_line?]
  exact h.line

/-- Findings can be patched one after the other if the edits of each line can be made one after
the other. -/
theorem foldlM_patchFinding_eq_ok (hrules : rules.IsProper) :
    findings.foldlM (patchFinding rules) b = .ok b' ↔
      (∀ f ∈ findings, Ready rules b f) ∧ b'.count = b.count ∧
        ∀ n text, b.line? n = some text → ∃ text', b'.line? n = some text' ∧
          (editsOn rules findings n).foldlM Edit.run? text = some text' := by
  induction findings generalizing b with
  | nil =>
    constructor
    · rintro ⟨⟩
      exact ⟨fun _ h ↦ (nomatch h), rfl, fun n text h ↦ ⟨text, h, rfl⟩⟩
    · rintro ⟨-, hcount, hlines⟩
      refine congrArg Except.ok (eq_of_line? hcount fun n text h ↦ ?_).symm
      obtain ⟨text', htext', hrun⟩ := hlines n text h
      rw [htext', ← hrun]
      rfl
  | cons f rest ih =>
    rw [List.foldlM_cons]
    constructor
    · intro h
      obtain ⟨next, hp, h⟩ := bind_eq_ok.1 h
      obtain ⟨hrest, hcount, hlines⟩ := ih.1 h
      obtain ⟨hready, text, patched, htext, hpatched, hnext⟩ := (patchFinding_eq_ok hrules).1 hp
      obtain ⟨hsame, hnext⟩ := set_line _ (line?_pos htext) hready.line hnext
      refine ⟨List.forall_mem_cons.2 ⟨hready, fun g hg ↦ (hrest g hg).congr hsame.symm⟩,
        hcount.trans hsame, ?_⟩
      intro n line hn
      rw [editsOn_cons]
      by_cases hline : f.line = n
      · subst hline
        cases htext.symm.trans hn
        obtain ⟨text', htext', hrun⟩ := hlines f.line patched (by rw [hnext, if_pos rfl])
        refine ⟨text', htext', ?_⟩
        rw [if_pos rfl, List.foldlM_cons, hpatched]
        exact hrun
      · rw [if_neg hline]
        exact hlines n line (by rw [hnext, if_neg (Ne.symm hline), hn])
    · rintro ⟨hall, hcount, hlines⟩
      obtain ⟨hready, hrest⟩ := List.forall_mem_cons.1 hall
      obtain ⟨text, htext⟩ := Option.isSome_iff_exists.1 hready.line
      obtain ⟨text', htext', hrun⟩ := hlines f.line text htext
      rw [editsOn_cons, if_pos rfl, List.foldlM_cons, Option.bind_eq_bind] at hrun
      obtain ⟨patched, hpatched, hrun⟩ := Option.bind_eq_some_iff.1 hrun
      have hp := (patchFinding_eq_ok hrules).2 ⟨hready, text, patched, htext, hpatched, rfl⟩
      obtain ⟨hsame, hnext⟩ := set_line patched (line?_pos htext) hready.line rfl
      rw [hp]
      refine ih.2 ⟨fun g hg ↦ (hrest g hg).congr hsame, hcount.trans hsame.symm, ?_⟩
      intro n line hn
      rw [hnext] at hn
      split at hn
      · next hline =>
        cases hn
        exact ⟨text', hline ▸ htext', hline ▸ hrun⟩
      · next hline =>
        obtain ⟨line', hline', hedits⟩ := hlines n line hn
        rw [editsOn_cons, if_neg (Ne.symm hline)] at hedits
        exact ⟨line', hline', hedits⟩

end FindingStore.Rewrite
