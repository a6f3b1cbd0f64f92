import FindingStore.Database.Query

namespace FindingStore.Tables

variable {t : Tables} {p q : FileRow → Bool}

theorem largest?_eq_some {ids : List Int} {n : Int} :
    largest? ids = some n ↔ n ∈ ids ∧ ∀ k ∈ ids, k ≤ n := List.max?_eq_some_iff

theorem largest?_eq_none {ids : List Int} : largest? ids = none ↔ ids = [] :=
  List.max?_eq_none_iff

theorem isSome_largest? {ids : List Int} : (largest? ids).isSome ↔ ids ≠ [] := by
  rw [Option.isSome_iff_ne_none, Ne, largest?_eq_none]

theorem lt_nextId {r : FileRow} (h : r ∈ t.files) : r.id < t.nextId := by
  have hmem : r.id ∈ t.files.map FileRow.id := List.mem_map_of_mem h
  unfold nextId
  cases hmax : largest? (t.files.map FileRow.id) with
  | none =>
    rw [largest?_eq_none.1 hmax] at hmem
    exact absurd hmem List.not_mem_nil
  | some n =>
    have := (largest?_eq_some.1 hmax).2 r.id hmem
    simp only [Option.elim_some]
    omega

theorem nextId_eq_of_newest {r : FileRow} (h : r ∈ t.files) (hr : ∀ f ∈ t.files, f.id ≤ r.id) :
    t.nextId = r.id + 1 := by
  have hmax : largest? (t.files.map FileRow.id) = some r.id := by
    refine largest?_eq_some.2 ⟨List.mem_map_of_mem h, fun k hk ↦ ?_⟩
    obtain ⟨f, hf, rfl⟩ := List.mem_map.1 hk
    exact hr f hf
  simp [nextId, hmax]

theorem hasFile_nextId : t.hasFile t.nextId = false := by
  simp only [hasFile, List.any_eq_false, beq_iff_eq, Cell.integer.injEq]
  intro r hr he
  have := lt_nextId hr
  omega

theorem hasFile_eq_true {id : Cell} : t.hasFile id = true ↔ ∃ r ∈ t.files, id = .integer r.id := by
  simp [hasFile]

theorem deleteFiles_congr (h : ∀ f ∈ t.files, p f = q f) : t.deleteFiles p = t.deleteFiles q := by
  have hkept : t.files.filter (fun f ↦ !p f) = t.files.filter fun f ↦ !q f :=
    List.filter_congr fun f hf ↦ by rw [h f hf]
  simp only [deleteFiles, hkept, List.filter_congr h]

theorem deleteFiles_eq_self (h : ∀ f ∈ t.files, p f = false) : t.deleteFiles p = t := by
  have hnone : t.files.filter p = [] := List.filter_eq_nil_iff.2 fun f hf ↦ by simp [h f hf]
  have hkept : t.files.filter (fun f ↦ !p f) = t.files :=
    List.filter_eq_self.2 fun f hf ↦ by simp [h f hf]
  have hreports : t.reports.filter (fun _ ↦ true) = t.reports := List.filter_eq_self.2 fun _ _ ↦ rfl
  simp only [deleteFiles, hnone, hkept, List.map_nil, List.contains_nil, Bool.not_false, hreports]

theorem deleteFiles_deleteFiles (t : Tables) (p q : FileRow → Bool) :
    (t.deleteFiles p).deleteFiles q = t.deleteFiles fun f ↦ p f || q f := by
  have hfiles : (t.files.filter fun f ↦ !p f).filter (fun f ↦ !q f) =
      t.files.filter fun f ↦ !(p f || q f) := by
    rw [List.filter_filter]
    exact List.filter_congr fun f _ ↦ by rw [Bool.not_or, Bool.and_comm]
  simp only [deleteFiles, hfiles, List.filter_filter, mk.injEq, true_and, and_true]
  apply List.filter_congr
  intro r _
  -- a report goes with the first or with the second removal
  rw [Bool.eq_iff_iff]
  simp only [Bool.and_eq_true, Bool.not_eq_true', List.contains_eq_mem, decide_eq_false_iff_not,
    List.mem_map, List.mem_filter, Bool.or_eq_true, not_exists, not_and]
  constructor
  · rintro ⟨hq, hp⟩ f ⟨hf, hpq⟩
    cases hpf : p f with
    | true => exact hp f ⟨hf, hpf⟩
    | false => exact hq f ⟨hf, by simpa [hpf] using hpq, hpf⟩
  · intro h
    exact ⟨fun f ⟨hf, hqf, _⟩ ↦ h f ⟨hf, .inr hqf⟩, fun f ⟨hf, hpf⟩ ↦ h f ⟨hf, .inl hpf⟩⟩

theorem isConsistent_deleteFiles (h : t.isConsistent = true) (doomed : FileRow → Bool) :
    (t.deleteFiles doomed).isConsistent = true := by
  simp only [isConsistent, List.all_eq_true] at h ⊢
  intro report hreport
  obtain ⟨hold, hkept⟩ := List.mem_filter.1 hreport
  obtain ⟨row, hrow, hid⟩ := hasFile_eq_true.1 (h report hold)
  refine hasFile_eq_true.2 ⟨row, List.mem_filter.2 ⟨hrow, ?_⟩, hid⟩
  cases hdoomed : doomed row with
  | false => rfl
  | true =>
    have hgone : report.file ∈ (t.files.filter doomed).map (Cell.integer ·.id) :=
      List.mem_map.2 ⟨row, List.mem_filter.2 ⟨hrow, hdoomed⟩, hid.symm⟩
    simp [hgone] at hkept

def withFiles (t : Tables) (rows : List FileRow) : Tables := { t with files := t.files ++ rows }

@[simp] theorem files_withFiles (t : Tables) (rows : List FileRow) :
    (t.withFiles rows).files = t.files ++ rows := rfl

@[simp] theorem withFiles_nil (t : Tables) : t.withFiles [] = t := by simp [withFiles]

theorem withFiles_withFiles (t : Tables) (rows more : List FileRow) :
    (t.withFiles rows).withFiles more = t.withFiles (rows ++ more) := by
  simp [withFiles]

theorem deleteFiles_withFiles {rows : List FileRow} (h : ∀ r ∈ rows, p r = false) :
    (t.withFiles rows).deleteFiles p = (t.deleteFiles p).withFiles rows := by
  have hkept : rows.filter (fun f ↦ !p f) = rows :=
    List.filter_eq_self.2 fun r hr ↦ by rw [h r hr]; rfl
  have hnone : rows.filter p = [] := List.filter_eq_nil_iff.2 fun r hr ↦ by rw [h r hr]; decide
  simp [deleteFiles, withFiles, hkept, hnone]

theorem length_filter_or (files : List FileRow) (p q : FileRow → Bool) :
    (files.filter fun f ↦ p f || q f).length =
      (files.filter p).length + ((files.filter fun f ↦ !p f).filter q).length := by
  induction files with
  | nil => rfl
  | cons f rest ih =>
    cases hp : p f <;> cases hq : q f <;> simp [hp, hq, ih] <;> omega

theorem insertFile_eq (t : Tables) (path : String) (mtime size : Int) :
    t.insertFile .null (.text path) (.integer mtime) (.integer size) =
      .ok (t.nextId, t.withFiles [⟨t.nextId, path, .integer mtime, .integer size⟩]) := by
  have hfresh : t.hasFile t.nextId = false := hasFile_nextId
  simp [insertFile, newId, SqlValue.asNumber, SqlValue.asText, SqlValue.required, hfresh, withFiles,
    bind, Except.bind]

theorem insertReport_eq_ok {u : Tables} {file line column : Int} {tool message : String} :
    t.insertReport false (.integer file) (.integer line) (.integer column) (.text tool)
        (.text message) = .ok u ↔
      message ∉ t.rejected ∧ t.hasFile file = true ∧ u = { t with reports := t.reports ++
        [{ file, line := .integer line, column := .integer column, tool, message }] } := by
  simp only [insertReport, refuses, SqlValue.asNumber, SqlValue.asText, SqlValue.required, bind,
    Except.bind, checkReference, Bool.false_or]
  by_cases hmessage : message ∈ t.rejected
  · simp [hmessage]
  · cases hfile : t.hasFile file with
    | false => simp [hmessage]
    | true => simp [hmessage, eq_comm]

end FindingStore.Tables
