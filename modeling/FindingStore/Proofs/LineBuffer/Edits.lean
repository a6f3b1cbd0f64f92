import FindingStore.LineBuffer

namespace FindingStore

structure Replacement where
  width : Nat
  new : Bytes
  deriving DecidableEq, Repr

abbrev Substitution := (line column : Nat) → Option Replacement

namespace Substitution

/-- The bytes from a line and a column on, all spans being replaced at once. The bytes that are
skipped belong to a span that has been replaced. -/
def applyFrom (σ : Substitution) : (line column skip : Nat) → Bytes → Bytes
  | _, _, _, [] => []
  | line, column, skip + 1, _ :: rest => σ.applyFrom line (column + 1) skip rest
  | line, column, 0, b :: rest =>
    if b = LineBuffer.newline then b :: σ.applyFrom (line + 1) 1 0 rest
    else
      match σ line column with
      | some r => r.new ++ σ.applyFrom line (column + 1) (r.width - 1) rest
      | none => b :: σ.applyFrom line (column + 1) 0 rest

def apply (σ : Substitution) (content : Bytes) : Bytes := σ.applyFrom 1 1 0 content

variable {σ : Substitution} {line column : Nat} {text : Bytes}

theorem applyFrom_skip (σ : Substitution) (line column n : Nat) (text : Bytes) :
    σ.applyFrom line column n text = σ.applyFrom line (column + n) 0 (text.drop n) := by
  induction text generalizing column n with
  | nil => cases n <;> rfl
  | cons b rest ih =>
    cases n with
    | zero => rfl
    | succ n =>
      rw [applyFrom, ih, List.drop_succ_cons]
      congr 1
      omega

theorem applyFrom_copy {n : Nat} (hn : n ≤ text.length) (htext : LineBuffer.newline ∉ text)
    (hσ : ∀ c, column ≤ c → c < column + n → σ line c = none) :
    σ.applyFrom line column 0 text =
      text.take n ++ σ.applyFrom line (column + n) 0 (text.drop n) := by
  induction n generalizing column text with
  | zero => rfl
  | succ n ih =>
    cases text with
    | nil => simp at hn
    | cons b rest =>
      have hb : b ≠ LineBuffer.newline := fun h ↦ htext (by simp [h])
      have hrest : LineBuffer.newline ∉ rest := fun h ↦ htext (List.mem_cons_of_mem _ h)
      rw [applyFrom, if_neg hb, hσ column (Nat.le_refl _) (by omega), List.take_succ_cons,
        List.drop_succ_cons, List.cons_append]
      have hcopy : σ.applyFrom line (column + 1) 0 rest =
          rest.take n ++ σ.applyFrom line (column + 1 + n) 0 (rest.drop n) :=
        ih (Nat.le_of_succ_le_succ hn) hrest fun c hc hlt ↦ hσ c (by omega) (by omega)
      rw [Nat.add_right_comm, Nat.add_assoc] at hcopy
      exact congrArg _ hcopy

theorem applyFrom_span {r : Replacement} (hσ : σ line column = some r) (hwidth : 0 < r.width)
    (hr : r.width ≤ text.length) (htext : LineBuffer.newline ∉ text) :
    σ.applyFrom line column 0 text =
      r.new ++ σ.applyFrom line (column + r.width) 0 (text.drop r.width) := by
  cases text with
  | nil =>
    simp only [List.length_nil] at hr
    omega
  | cons b rest =>
    have hb : b ≠ LineBuffer.newline := fun h ↦ htext (by simp [h])
    obtain ⟨n, hn⟩ : ∃ n, r.width = n + 1 := ⟨r.width - 1, by omega⟩
    rw [applyFrom, if_neg hb, hσ, hn]
    dsimp only
    rw [applyFrom_skip, List.drop_succ_cons, hn, Nat.add_sub_cancel, Nat.add_assoc,
      Nat.add_comm 1 n]

def Fits (σ : Substitution) (line width : Nat) : Prop :=
  ∀ c r, σ line c = some r → 0 < r.width ∧ c + r.width ≤ width + 1

theorem applyFrom_append_newline (htext : LineBuffer.newline ∉ text) (rest : Bytes)
    (hfits : σ.Fits line (column + text.length)) {skip : Nat} (hskip : skip ≤ text.length) :
    σ.applyFrom line (column + 1) skip (text ++ LineBuffer.newline :: rest) =
      σ.applyFrom line (column + 1) skip text ++
        LineBuffer.newline :: σ.applyFrom (line + 1) 1 0 rest := by
  induction text generalizing column skip with
  | nil =>
    obtain rfl : skip = 0 := by simpa using hskip
    simp [applyFrom]
  | cons b text ih =>
    have hb : b ≠ LineBuffer.newline := fun h ↦ htext (by simp [h])
    have hfits' : σ.Fits line (column + 1 + text.length) := by
      rwa [List.length_cons, ← Nat.add_assoc, Nat.add_right_comm] at hfits
    have ih {n : Nat} (hn : n ≤ text.length) :=
      ih (fun h ↦ htext (List.mem_cons_of_mem _ h)) hfits' hn
    cases skip with
    | succ skip => exact ih (Nat.le_of_succ_le_succ hskip)
    | zero =>
      rw [List.cons_append, applyFrom, applyFrom, if_neg hb, if_neg hb]
      cases hr : σ line (column + 1) with
      | none =>
        dsimp only
        rw [ih (Nat.zero_le _), List.cons_append]
      | some r =>
        have := hfits _ _ hr
        dsimp only
        rw [ih (by rw [List.length_cons] at this; omega), List.append_assoc]

end Substitution

structure Edit where
  start : Nat
  old : Bytes
  new : Bytes
  deriving DecidableEq, Repr

namespace Edit

def stop (e : Edit) : Nat := e.start + e.old.length

def run? (text : Bytes) (e : Edit) : Option Bytes :=
  LineBuffer.replaceSpan? text e.start e.old e.new

def Matches (text : Bytes) (e : Edit) : Prop := e.old <+: text.drop e.start

def Apart (d e : Edit) : Prop := d.stop ≤ e.start ∨ e.stop ≤ d.start

variable {d e : Edit} {es : List Edit} {text text' : Bytes}

theorem run?_eq_some : e.run? text = some text' ↔
    e.Matches text ∧ text' = text.take e.start ++ e.new ++ text.drop e.stop := by
  simp only [run?, LineBuffer.replaceSpan?, Matches, stop, List.isPrefixOf_iff_prefix,
    Option.ite_none_right_eq_some, Option.some.injEq, List.drop_drop]
  exact and_congr_right fun _ ↦ eq_comm

theorem Matches.stop_le (h : e.Matches text) (he : e.old ≠ []) : e.stop ≤ text.length := by
  have hlength := h.length_le
  have hpos := List.length_pos_iff.2 he
  rw [List.length_drop] at hlength
  rw [stop]
  omega

theorem matches_take {n : Nat} (hn : e.stop ≤ n) : e.Matches (text.take n) ↔ e.Matches text := by
  rw [stop] at hn
  rw [Matches, List.drop_take, List.prefix_take_iff, Matches]
  exact and_iff_left (by omega)

theorem Matches.congr {n : Nat} (h : e.Matches text) (hn : e.stop ≤ n)
    (ht : text'.take n = text.take n) : e.Matches text' :=
  (matches_take hn).1 (ht ▸ (matches_take hn).2 h)

theorem take_run? (h : e.run? text = some text') (he : e.old ≠ []) {n : Nat} (hn : n ≤ e.start) :
    text'.take n = text.take n := by
  obtain ⟨hmatches, rfl⟩ := run?_eq_some.1 h
  have hstop := hmatches.stop_le he
  have hlength : (text.take e.start).length = e.start := by
    rw [List.length_take]
    rw [stop] at hstop
    omega
  rw [List.append_assoc, List.take_append_of_le_length (by omega), List.take_take,
    Nat.min_eq_left hn]

theorem take_foldlM_run? (h : es.foldlM run? text = some text') {n : Nat}
    (hes : ∀ e ∈ es, e.old ≠ [] ∧ n ≤ e.start) : text'.take n = text.take n := by
  induction es generalizing text with
  | nil => rw [Option.some.inj h]
  | cons e rest ih =>
    obtain ⟨next, hnext, hrest⟩ := Option.bind_eq_some_iff.1 h
    obtain ⟨he, hn⟩ := hes e List.mem_cons_self
    rw [ih hrest fun d hd ↦ hes d (List.mem_cons_of_mem _ hd), take_run? hnext he hn]

theorem Apart.stop_le (h : d.Apart e) (hd : d.old ≠ []) (hstart : e.start ≤ d.start) :
    e.stop ≤ d.start := by
  have hpos := List.length_pos_iff.2 hd
  apply h.resolve_left
  intro hstop
  rw [stop] at hstop
  omega

/-- An edit that lies apart from those before it has found its text in the line as it was at
first. -/
theorem matches_of_foldlM_run? {before after : List Edit}
    (h : (before ++ e :: after).foldlM run? text = some text')
    (hstart : ∀ d ∈ before, e.start ≤ d.start) (hold : ∀ d ∈ before, d.old ≠ [])
    (hapart : ∀ d ∈ before, d.Apart e) : e.Matches text := by
  rw [List.foldlM_append] at h
  obtain ⟨middle, hmiddle, hrest⟩ := Option.bind_eq_some_iff.1 h
  obtain ⟨next, hnext, -⟩ := Option.bind_eq_some_iff.1 hrest
  have htake := take_foldlM_run? hmiddle
    fun d hd ↦ ⟨hold d hd, (hapart d hd).stop_le (hold d hd) (hstart d hd)⟩
  exact (run?_eq_some.1 hnext).1.congr (Nat.le_refl _) htake.symm

section Substitute

variable {σ : Substitution} {line : Nat}

def progress (σ : Substitution) (line : Nat) (text : Bytes) (n : Nat) : Bytes :=
  text.take n ++ σ.applyFrom line (n + 1) 0 (text.drop n)

theorem progress_zero (σ : Substitution) (line : Nat) (text : Bytes) :
    progress σ line text 0 = σ.applyFrom line 1 0 text := rfl

theorem progress_eq {m n : Nat} (hmn : m ≤ n) (hn : n ≤ text.length)
    (htext : LineBuffer.newline ∉ text)
    (hσ : ∀ c, m < c → c ≤ n → σ line c = none) :
    progress σ line text m = progress σ line text n := by
  have hdrop : LineBuffer.newline ∉ text.drop m := fun h ↦ htext (List.mem_of_mem_drop h)
  have hcopy : σ.applyFrom line (m + 1) 0 (text.drop m) = (text.drop m).take (n - m) ++
      σ.applyFrom line (m + 1 + (n - m)) 0 ((text.drop m).drop (n - m)) :=
    Substitution.applyFrom_copy (by rw [List.length_drop]; omega) hdrop
      fun c hc hlt ↦ hσ c hc (by omega)
  have hcolumn : m + 1 + (n - m) = n + 1 := by omega
  have hwidth : m + (n - m) = n := by omega
  rw [hcolumn, List.drop_drop, hwidth] at hcopy
  rw [progress, progress, hcopy, ← List.append_assoc, ← List.take_add, hwidth]

theorem run?_progress (he : e.Matches text) (hold : e.old ≠ []) (htext : LineBuffer.newline ∉ text)
    (hσ : σ line (e.start + 1) = some ⟨e.old.length, e.new⟩) :
    e.run? (progress σ line text e.stop) = some (progress σ line text e.start) := by
  have hstop := he.stop_le hold
  have hdrop : LineBuffer.newline ∉ text.drop e.start := fun h ↦ htext (List.mem_of_mem_drop h)
  have hlength : (text.take e.stop).length = e.stop := List.length_take_of_le hstop
  have hspan := Substitution.applyFrom_span hσ (List.length_pos_iff.2 hold)
    he.length_le hdrop
  rw [List.drop_drop, Nat.add_right_comm] at hspan
  have hle : e.start ≤ e.stop := Nat.le_add_right _ _
  refine run?_eq_some.2 ⟨?_, ?_⟩
  · refine he.congr (n := e.stop) (Nat.le_refl _) ?_
    rw [progress, List.take_append_of_le_length (Nat.le_of_eq hlength.symm), List.take_take,
      Nat.min_self]
  · rw [progress, progress, hspan, List.take_append_of_le_length (by omega), List.take_take,
      Nat.min_eq_left hle, List.append_assoc, List.drop_left' hlength]
    rfl

/-- Edits that match the line and lie apart, the last one first, replace all their spans as if at
once. -/
theorem foldlM_run?_eq (htext : LineBuffer.newline ∉ text)
    (hmatches : ∀ e ∈ es, e.Matches text ∧ e.old ≠ [])
    (hsorted : es.Pairwise fun d e ↦ e.start ≤ d.start) (hapart : es.Pairwise Apart)
    (hσ : ∀ e ∈ es, σ line (e.start + 1) = some ⟨e.old.length, e.new⟩)
    (honly : ∀ c r, σ line c = some r → ∃ e ∈ es, e.start + 1 = c) :
    es.foldlM run? text = some (σ.applyFrom line 1 0 text) := by
  have hwhole : progress σ line text text.length = text := by
    rw [progress, List.take_length, List.drop_length, Substitution.applyFrom, List.append_nil]
  -- the spans before some bytes are still to be replaced
  have hall : ∀ n ≤ text.length, (∀ e ∈ es, e.stop ≤ n) →
      (∀ c r, c ≤ n → σ line c = some r → ∃ e ∈ es, e.start + 1 = c) →
      es.foldlM run? (progress σ line text n) = some (progress σ line text 0) := by
    clear honly
    induction es with
    | nil =>
      intro n hn _ honly
      have hnone : ∀ c, 0 < c → c ≤ n → σ line c = none := fun c _ hc ↦
        Option.eq_none_iff_forall_ne_some.2 fun r hr ↦ by
          obtain ⟨_, hmem, -⟩ := honly c r hc hr
          cases hmem
      rw [progress_eq (Nat.zero_le n) hn htext hnone]
      rfl
    | cons e rest ih =>
      intro n hn hstop honly
      obtain ⟨he, hold⟩ := hmatches e List.mem_cons_self
      obtain ⟨hfirst, hsorted⟩ := List.pairwise_cons.1 hsorted
      obtain ⟨hfar, hapart⟩ := List.pairwise_cons.1 hapart
      have hpos := List.length_pos_iff.2 hold
      have hle : e.start < e.stop := Nat.lt_add_of_pos_right hpos
      have hnone : ∀ c, e.stop < c → c ≤ n → σ line c = none := fun c hlt hc ↦
        Option.eq_none_iff_forall_ne_some.2 fun r hr ↦ by
          obtain ⟨d, hd, rfl⟩ := honly c r hc hr
          rcases List.mem_cons.1 hd with rfl | hd
          · omega
          · have := hfirst d hd
            omega
      have hen := hstop e List.mem_cons_self
      rw [← progress_eq hen hn htext hnone, List.foldlM_cons,
        run?_progress he hold htext (hσ e List.mem_cons_self), Option.bind_eq_bind,
        Option.bind_some]
      refine ih (fun d hd ↦ hmatches d (List.mem_cons_of_mem _ hd)) hsorted hapart
        (fun d hd ↦ hσ d (List.mem_cons_of_mem _ hd)) _ (by omega)
        (fun d hd ↦ (hfar d hd).stop_le hold (hfirst d hd)) fun c r hc hr ↦ ?_
      obtain ⟨d, hd, rfl⟩ := honly c r (by omega) hr
      rcases List.mem_cons.1 hd with rfl | hd
      · omega
      · exact ⟨d, hd, rfl⟩
  have := hall text.length (Nat.le_refl _)
    (fun e he ↦ (hmatches e he).1.stop_le (hmatches e he).2) fun c r _ ↦ honly c r
  rwa [hwhole, progress_zero] at this

end Substitute

end Edit

end FindingStore
