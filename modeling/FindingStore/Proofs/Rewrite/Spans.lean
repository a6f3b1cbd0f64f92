import Mathlib.Data.List.Pairwise
import FindingStore.Proofs.Order
import FindingStore.Proofs.Rewrite.Patching

namespace FindingStore.Rewrite

def Names (content : Bytes) (f : Finding) : Prop :=
  0 < f.column ∧ ∃ text, (LineBuffer.ofBytes content).line? f.line = some text ∧
    spelling f <+: text.drop (f.column - 1)

def Apart (f g : Finding) : Prop :=
  f.path = g.path → f.line = g.line →
    f.column + (spelling f).length ≤ g.column ∨ g.column + (spelling g).length ≤ f.column

def substitution (rules : Rules) (findings : List Finding) : Substitution := fun line column ↦
  (findings.find? fun f ↦ f.line == line && f.column == column).map fun f ↦
    ⟨(spelling f).length, (edit rules f).new⟩

variable {rules : Rules} {b : LineBuffer} {f g : Finding} {findings : List Finding}
  {content text : Bytes} {path : String} {line column : Nat}

theorem Apart.symm (h : Apart f g) : Apart g f :=
  fun hpath hline ↦ (h hpath.symm hline.symm).symm

instance : Std.Symm Apart := ⟨fun _ _ h ↦ h.symm⟩

theorem Apart.edit (h : Apart f g) (hpath : f.path = g.path) (hline : f.line = g.line)
    (hf : 0 < f.column) (hg : 0 < g.column) : (edit rules f).Apart (edit rules g) := by
  have := h hpath hline
  simp only [Edit.Apart, Edit.stop, Rewrite.edit]
  omega

theorem isTotal_laterFirst : Order.IsTotal laterFirst where
  total f g := by
    simp only [laterFirst, Bool.or_eq_true, Bool.and_eq_true, decide_eq_true_eq, beq_iff_eq]
    omega
  trans hfg hgh := by
    simp only [laterFirst, Bool.or_eq_true, Bool.and_eq_true, decide_eq_true_eq, beq_iff_eq] at *
    omega

theorem start_le_of_laterFirst (h : laterFirst f g = true) (hline : f.line = g.line) :
    (edit rules g).start ≤ (edit rules f).start := by
  simp only [laterFirst, Bool.or_eq_true, Bool.and_eq_true, decide_eq_true_eq] at h
  simp only [edit]
  omega

theorem pairwise_editsOn {R : Edit → Edit → Prop} {S : Finding → Finding → Prop}
    (h : findings.Pairwise S) (hpath : ∀ f ∈ findings, f.path = path)
    (hR : ∀ f ∈ findings, ∀ g ∈ findings, S f g → f.path = g.path → f.line = g.line →
      R (edit rules f) (edit rules g)) (line : Nat) :
    (editsOn rules findings line).Pairwise R := by
  rw [editsOn, List.pairwise_map]
  refine (h.filter _).imp_of_mem fun {f g} hf hg hfg ↦ ?_
  obtain ⟨hf, hfline⟩ := List.mem_filter.1 hf
  obtain ⟨hg, hgline⟩ := List.mem_filter.1 hg
  exact hR f hf g hg hfg ((hpath f hf).trans (hpath g hg).symm)
    ((beq_iff_eq.1 hfline).trans (beq_iff_eq.1 hgline).symm)

theorem mem_editsOn {e : Edit} :
    e ∈ editsOn rules findings line ↔ ∃ f ∈ findings, f.line = line ∧ edit rules f = e := by
  simp [editsOn, and_assoc]

section Substitute

variable (hpath : ∀ f ∈ findings, f.path = path) (hapart : findings.Pairwise Apart)
  (hspelling : ∀ f ∈ findings, spelling f ≠ [])

include hpath hapart hspelling

theorem eq_of_place_eq (hf : f ∈ findings) (hg : g ∈ findings) (hline : f.line = g.line)
    (hcolumn : f.column = g.column) : f = g := by
  apply Classical.byContradiction
  intro hne
  have := hapart.forall hf hg hne ((hpath f hf).trans (hpath g hg).symm) hline
  have := List.length_pos_iff.2 (hspelling f hf)
  have := List.length_pos_iff.2 (hspelling g hg)
  omega

theorem substitution_eq (hf : f ∈ findings) :
    substitution rules findings f.line f.column =
      some ⟨(spelling f).length, (edit rules f).new⟩ := by
  unfold substitution
  cases hfind : findings.find? fun g ↦ g.line == f.line && g.column == f.column with
  | none => simpa using List.find?_eq_none.1 hfind f hf
  | some g =>
    obtain ⟨hline, hcolumn⟩ : g.line = f.line ∧ g.column = f.column := by
      simpa using List.find?_some hfind
    rw [eq_of_place_eq hpath hapart hspelling (List.mem_of_find?_eq_some hfind) hf hline hcolumn]
    rfl

end Substitute

theorem exists_of_substitution_eq {r : Replacement}
    (h : substitution rules findings line column = some r) :
    ∃ f ∈ findings, f.line = line ∧ f.column = column ∧ r.width = (spelling f).length := by
  obtain ⟨f, hfind, rfl⟩ := Option.map_eq_some_iff.1 h
  obtain ⟨hline, hcolumn⟩ : f.line = line ∧ f.column = column := by
    simpa using List.find?_some hfind
  exact ⟨f, List.mem_of_find?_eq_some hfind, hline, hcolumn, rfl⟩

theorem Names.matches (h : Names content f)
    (hline : (LineBuffer.ofBytes content).line? f.line = some text) :
    (edit rules f).Matches text := by
  obtain ⟨-, text', hline', hprefix⟩ := h
  rw [Option.some.inj (hline.symm.trans hline')]
  exact hprefix

section AtOnce

variable (hrules : rules.IsProper) (hpath : ∀ f ∈ findings, f.path = path)
  (hapart : findings.Pairwise Apart)
  (hnames : ∀ f ∈ findings, (rules.get? (nameOf f)).isSome ∧ Names content f)

include hrules hnames

theorem fits_substitution {n : Nat} (htext : (LineBuffer.ofBytes content).line? n = some text) :
    (substitution rules findings).Fits n text.length := by
  intro c r hr
  obtain ⟨f, hf, rfl, rfl, hwidth⟩ := exists_of_substitution_eq hr
  have hspelling := spelling_ne_nil hrules (hnames f hf).1
  have hmatches : (edit rules f).Matches text := (hnames f hf).2.matches htext
  have hstop := hmatches.stop_le hspelling
  have hpos := List.length_pos_iff.2 hspelling
  simp only [Edit.stop, edit] at hstop
  omega

include hpath hapart

theorem foldlM_editsOn_sortBy {n : Nat}
    (htext : (LineBuffer.ofBytes content).line? n = some text)
    (hline : LineBuffer.newline ∉ text) :
    (editsOn rules (Order.sortBy laterFirst findings) n).foldlM Edit.run? text =
      some ((substitution rules findings).applyFrom n 1 0 text) := by
  let sorted := Order.sortBy laterFirst findings
  have hmem {f : Finding} : f ∈ sorted ↔ f ∈ findings := Order.mem_sortBy laterFirst
  have hspelling : ∀ f ∈ findings, spelling f ≠ [] :=
    fun f hf ↦ spelling_ne_nil hrules (hnames f hf).1
  have hsorted : sorted.Pairwise (laterFirst · · = true) :=
    Order.pairwise_sortBy isTotal_laterFirst findings
  have hsortedpath : ∀ f ∈ sorted, f.path = path := fun f hf ↦ hpath f (hmem.1 hf)
  have hsortedapart : sorted.Pairwise Apart :=
    (Order.sortBy_perm laterFirst findings).symm.pairwise hapart fun h ↦ h.symm
  apply Edit.foldlM_run?_eq hline
  · intro e he
    obtain ⟨f, hf, rfl, rfl⟩ := mem_editsOn.1 he
    exact ⟨(hnames f (hmem.1 hf)).2.matches htext, hspelling f (hmem.1 hf)⟩
  · exact pairwise_editsOn hsorted hsortedpath
      (fun f _ g _ hfg _ hline ↦ start_le_of_laterFirst hfg hline) n
  · exact pairwise_editsOn hsortedapart hsortedpath (fun f hf g hg hfg hp hline ↦
      hfg.edit hp hline (hnames f (hmem.1 hf)).2.1 (hnames g (hmem.1 hg)).2.1) n
  · intro e he
    obtain ⟨f, hf, rfl, rfl⟩ := mem_editsOn.1 he
    have hcolumn : f.column - 1 + 1 = f.column := by
      have := (hnames f (hmem.1 hf)).2.1
      omega
    rw [edit, hcolumn]
    exact substitution_eq hpath hapart hspelling (hmem.1 hf)
  · intro c r hr
    obtain ⟨f, hf, rfl, rfl, -⟩ := exists_of_substitution_eq hr
    have := (hnames f hf).2.1
    exact ⟨edit rules f, mem_editsOn.2 ⟨f, hmem.2 hf, rfl, rfl⟩, by simp only [edit]; omega⟩

/-- Findings that name what they point at and lie apart are patched as if at once. -/
theorem patches_at_once :
    ∃ b, (Order.sortBy laterFirst findings).foldlM (patchFinding rules)
        (LineBuffer.ofBytes content) = .ok b ∧
      b.toBytes = (substitution rules findings).apply (LineBuffer.closed content) := by
  let old := LineBuffer.ofBytes content
  let lines := old.lines.mapIdx fun k text ↦
    (substitution rules findings).applyFrom (k + 1) 1 0 text
  have hlines {k : Nat} {text : Bytes} (htext : old.lines[k]? = some text) :
      lines[k]? = some ((substitution rules findings).applyFrom (k + 1) 1 0 text) := by
    rw [List.getElem?_mapIdx, htext, Option.map_some]
  have hcount : (LineBuffer.mk lines).count = old.count := List.length_mapIdx
  refine ⟨⟨lines⟩, (foldlM_patchFinding_eq_ok hrules).2 ⟨?_, hcount, ?_⟩,
    LineBuffer.toBytes_eq_apply hcount fun k text htext ↦
      ⟨hlines htext, fits_substitution (n := k + 1) hrules hnames htext⟩⟩
  · intro f hf
    obtain ⟨hrule, hcolumn, text, htext, -⟩ := hnames f ((Order.mem_sortBy laterFirst).1 hf)
    exact ⟨hrule, by simp [htext], hcolumn⟩
  · intro n text htext
    cases n with
    | zero => cases htext
    | succ k =>
      have hline := LineBuffer.newline_not_mem (List.mem_of_getElem? htext)
      exact ⟨_, hlines htext, foldlM_editsOn_sortBy hrules hpath hapart hnames htext hline⟩

end AtOnce

/-- A patched finding that lies apart from the others names what it has pointed at. -/
theorem names_of_patched (hrules : rules.IsProper) (hpath : ∀ f ∈ findings, f.path = path)
    (h : (Order.sortBy laterFirst findings).foldlM (patchFinding rules)
      (LineBuffer.ofBytes content) = .ok b)
    (hf : f ∈ findings) (hapart : ∀ g ∈ findings.erase f, Apart g f) : Names content f := by
  obtain ⟨hready, -, hlines⟩ := (foldlM_patchFinding_eq_ok hrules).1 h
  have hmem := (Order.mem_sortBy laterFirst).2 hf
  obtain ⟨before, after, hsplit⟩ := List.append_of_mem hmem
  obtain ⟨text, htext⟩ := Option.isSome_iff_exists.1 (hready f hmem).line
  obtain ⟨_, -, hrun⟩ := hlines f.line text htext
  have hsorted := Order.pairwise_sortBy isTotal_laterFirst findings
  rw [hsplit] at hrun hready hsorted
  have hedits : editsOn rules (before ++ f :: after) f.line =
      editsOn rules before f.line ++ edit rules f :: editsOn rules after f.line := by
    simp [editsOn]
  have hother {g : Finding} (hg : g ∈ before) : g ∈ findings.erase f := by
    have hperm := (Order.sortBy_perm laterFirst findings).trans (List.perm_cons_erase hf)
    rw [hsplit] at hperm
    exact (List.perm_middle.symm.trans hperm).cons_inv.mem_iff.1 (List.mem_append_left _ hg)
  have hlater {g : Finding} (hg : g ∈ before) : laterFirst g f = true :=
    (List.pairwise_append.1 hsorted).2.2 g hg f List.mem_cons_self
  have hprevious {g : Finding} (hg : g ∈ before) : Ready rules (LineBuffer.ofBytes content) g :=
    hready g (List.mem_append_left _ hg)
  rw [hedits] at hrun
  refine ⟨(hready f (by simp)).column, text, htext, Edit.matches_of_foldlM_run? hrun ?_ ?_ ?_⟩
  · intro e he
    obtain ⟨g, hg, hline, rfl⟩ := mem_editsOn.1 he
    exact start_le_of_laterFirst (hlater hg) hline
  · intro e he
    obtain ⟨g, hg, hline, rfl⟩ := mem_editsOn.1 he
    exact spelling_ne_nil hrules (hprevious hg).rule
  · intro e he
    obtain ⟨g, hg, hline, rfl⟩ := mem_editsOn.1 he
    have hgf := (hpath g (List.mem_of_mem_erase (hother hg))).trans (hpath f hf).symm
    exact (hapart g (hother hg)).edit hgf hline (hprevious hg).column (hready f (by simp)).column

end FindingStore.Rewrite
