import Mathlib.Data.List.Nodup
import FindingStore.Proofs.Ledger.Masking
import FindingStore.Proofs.Store.Calls

namespace FindingStore

namespace Tables

variable {t u : Tables} {rows history : List FileRow}

/-- Some rows are added after all others, and others go, but the newest of a path only if a new one
of the path is added. -/
structure Advances (t u : Tables) (rows : List FileRow) : Prop where
  consistent : t.isConsistent = true → u.isConsistent = true
  files : ∃ kept ⊆ t.files, u.files = kept ++ rows
  fresh : ∀ r ∈ rows, t.nextId ≤ r.id
  ascending : rows.Pairwise (·.id < ·.id)
  newest : ∀ r ∈ t.files, t.latest? r.path = some r.id →
    r ∈ u.files ∨ ∃ q ∈ rows, q.path = r.path

/-- The rows of a store, given those that have ever been committed, in the order of the commits. -/
structure Numbered (t : Tables) (history : List FileRow) : Prop where
  consistent : t.isConsistent = true
  ascending : history.Pairwise (·.id < ·.id)
  known : t.files ⊆ history
  below : ∀ r ∈ history, r.id < t.nextId
  /-- The newest row of a path is the one that has been committed last. -/
  latest (path : Data) :
    t.latest? path = ((history.filter (·.path == path)).getLast?).map FileRow.id

theorem numbered_nil : Numbered {} [] := ⟨rfl, .nil, nofun, nofun, fun _ ↦ rfl⟩

theorem eq_of_ascending (h : history.Pairwise (·.id < ·.id)) {r q : FileRow} (hr : r ∈ history)
    (hq : q ∈ history) (he : r.id = q.id) : r = q :=
  List.inj_on_of_nodup_map (List.pairwise_map.2 (h.imp Int.ne_of_lt)) hr hq he

theorem Numbered.eq_of_id_eq (h : t.Numbered history) {r q : FileRow} (hr : r ∈ t.files)
    (hq : q ∈ t.files) (he : r.id = q.id) : r = q :=
  eq_of_ascending h.ascending (h.known hr) (h.known hq) he

theorem latest?_eq_some {path : Data} {id : Int} :
    t.latest? path = some id ↔ (∃ r ∈ t.files, r.path = path ∧ r.id = id) ∧
      ∀ r ∈ t.files, r.path = path → r.id ≤ id := by
  simp only [latest?, largest?_eq_some, idsOf, List.mem_map, List.mem_filter, beq_iff_eq,
    forall_exists_index, and_imp, and_assoc]
  exact and_congr_right fun _ ↦
    ⟨fun h r hr hpath ↦ h r.id r hr hpath rfl, fun h k r hr hpath he ↦ he ▸ h r hr hpath⟩

theorem latest?_eq_none {path : Data} :
    t.latest? path = none ↔ ∀ r ∈ t.files, r.path ≠ path := by
  simp only [latest?, largest?_eq_none, idsOf, List.map_eq_nil_iff, List.filter_eq_nil_iff,
    beq_iff_eq]

theorem exists_newest (h : t.files ≠ []) :
    ∃ r ∈ t.files, t.latest? r.path = some r.id ∧ t.nextId = r.id + 1 := by
  obtain ⟨id, hid⟩ := Option.isSome_iff_exists.1
    (isSome_largest?.2 (mt List.map_eq_nil_iff.1 h) : (largest? (t.files.map FileRow.id)).isSome)
  obtain ⟨hmem, hmax⟩ := largest?_eq_some.1 hid
  obtain ⟨r, hr, rfl⟩ := List.mem_map.1 hmem
  have hlargest : ∀ q ∈ t.files, q.id ≤ r.id := fun q hq ↦ hmax q.id (List.mem_map_of_mem hq)
  exact ⟨r, hr, latest?_eq_some.2 ⟨⟨r, hr, rfl, rfl⟩, fun q hq _ ↦ hlargest q hq⟩,
    nextId_eq_of_newest hr hlargest⟩

theorem Advances.mem_files (h : t.Advances u rows) {r : FileRow} (hr : r ∈ u.files) :
    r ∈ t.files ∨ r ∈ rows := by
  obtain ⟨kept, hkept, hfiles⟩ := h.files
  rw [hfiles] at hr
  exact (List.mem_append.1 hr).imp_left fun hold ↦ hkept hold

theorem Advances.mem_of_mem_rows (h : t.Advances u rows) {r : FileRow} (hr : r ∈ rows) :
    r ∈ u.files := by
  obtain ⟨kept, -, hfiles⟩ := h.files
  exact hfiles ▸ List.mem_append_right _ hr

/-- The next number never falls, because the row with the largest one stays. -/
theorem Advances.nextId_le (h : t.Advances u rows) : t.nextId ≤ u.nextId := by
  have hadded {r : FileRow} (hr : r ∈ rows) : t.nextId ≤ u.nextId := by
    have := lt_nextId (h.mem_of_mem_rows hr)
    have := h.fresh r hr
    omega
  by_cases hempty : t.files = []
  · cases rows with
    | cons r rest => exact hadded List.mem_cons_self
    | nil =>
      have hnone : u.files = [] := List.eq_nil_iff_forall_not_mem.2 fun r hr ↦ by
        simpa [hempty] using h.mem_files hr
      simp [nextId, hempty, hnone]
  · obtain ⟨r, hr, hlatest, hnext⟩ := exists_newest hempty
    rcases h.newest r hr hlatest with hr | ⟨q, hq, -⟩
    · have := lt_nextId hr
      omega
    · exact hadded hq

theorem Advances.filter_files (h : t.Advances u rows) :
    u.files.filter (fun r ↦ !t.files.contains r) = rows := by
  obtain ⟨kept, hkept, hfiles⟩ := h.files
  have hold : kept.filter (fun r ↦ !t.files.contains r) = [] :=
    List.filter_eq_nil_iff.2 fun r hr ↦ by simpa using hkept hr
  have hnew : rows.filter (fun r ↦ !t.files.contains r) = rows := by
    refine List.filter_eq_self.2 fun r hr ↦ ?_
    have hnot : r ∉ t.files := fun hmem ↦ by
      have := lt_nextId hmem
      have := h.fresh r hr
      omega
    simpa using hnot
  rw [hfiles, List.filter_append, hold, hnew, List.nil_append]

theorem Advances.latest?_of_mem (h : t.Advances u rows) {q : FileRow} (hq : q ∈ rows)
    (hlast : ∀ r ∈ rows, r.path = q.path → r.id ≤ q.id) : u.latest? q.path = some q.id := by
  refine latest?_eq_some.2 ⟨⟨q, h.mem_of_mem_rows hq, rfl, rfl⟩, fun r hr hpath ↦ ?_⟩
  rcases h.mem_files hr with hr | hr
  · have := lt_nextId hr
    have := h.fresh q hq
    omega
  · exact hlast r hr hpath

theorem Advances.latest?_of_not_mem (h : t.Advances u rows) {path : Data}
    (hnone : ∀ r ∈ rows, r.path ≠ path) : u.latest? path = t.latest? path := by
  have hold {r : FileRow} (hr : r ∈ u.files) (hpath : r.path = path) : r ∈ t.files :=
    (h.mem_files hr).resolve_right fun hnew ↦ hnone r hnew hpath
  cases hlatest : t.latest? path with
  | none =>
    exact latest?_eq_none.2 fun r hr hpath ↦ latest?_eq_none.1 hlatest r (hold hr hpath) hpath
  | some id =>
    obtain ⟨⟨r, hr, rfl, rfl⟩, hmax⟩ := latest?_eq_some.1 hlatest
    have hkept := (h.newest r hr hlatest).resolve_right fun ⟨q, hq, hpath⟩ ↦ hnone q hq hpath
    exact latest?_eq_some.2 ⟨⟨r, hkept, rfl, rfl⟩, fun q hq hpath ↦ hmax q (hold hq hpath) hpath⟩

theorem Numbered.advances (h : t.Numbered history) (ha : t.Advances u rows) :
    u.Numbered (history ++ rows) where
  consistent := ha.consistent h.consistent
  ascending := List.pairwise_append.2 ⟨h.ascending, ha.ascending, fun r hr q hq ↦
    Int.lt_of_lt_of_le (h.below r hr) (ha.fresh q hq)⟩
  known r hr := List.mem_append.2 ((ha.mem_files hr).imp_left fun hold ↦ h.known hold)
  below r hr := by
    rcases List.mem_append.1 hr with hold | hnew
    · exact Int.lt_of_lt_of_le (h.below r hold) ha.nextId_le
    · exact lt_nextId (ha.mem_of_mem_rows hnew)
  latest path := by
    rw [List.filter_append]
    rcases List.eq_nil_or_concat (rows.filter (·.path == path)) with hnil | ⟨before, q, hrows⟩
    · rw [hnil, List.append_nil, ← h.latest]
      exact ha.latest?_of_not_mem fun r hr hpath ↦
        List.filter_eq_nil_iff.1 hnil r hr (beq_iff_eq.2 hpath)
    · rw [List.concat_eq_append] at hrows
      obtain ⟨hq, hpath⟩ : q ∈ rows ∧ (q.path == path) = true :=
        List.mem_filter.1 (hrows ▸ List.mem_append_right _ (List.mem_singleton_self q))
      obtain rfl := beq_iff_eq.1 hpath
      rw [hrows, ← List.append_assoc, List.getLast?_concat, Option.map_some]
      refine ha.latest?_of_mem hq fun r hr hpath ↦ ?_
      have hr : r ∈ before ++ [q] := hrows ▸ List.mem_filter.2 ⟨hr, beq_iff_eq.2 hpath⟩
      have hordered := (List.pairwise_append.1 (hrows ▸ ha.ascending.filter _)).2.2
      rcases List.mem_append.1 hr with hr | hr
      · exact Int.le_of_lt (hordered r hr q (List.mem_singleton_self q))
      · exact Int.le_of_eq (congrArg FileRow.id (List.mem_singleton.1 hr))

theorem advances_prune (t : Tables) : t.Advances t.prune [] where
  consistent h := isConsistent_deleteFiles h _
  files := ⟨_, fun _ hr ↦ (List.mem_filter.1 hr).1, (List.append_nil _).symm⟩
  fresh := nofun
  ascending := .nil
  newest r hr hlatest := .inl (List.mem_filter.2 ⟨hr, by simp [isSuperseded, hlatest]⟩)

theorem pairwise_newRows (t : Tables) (files : List RunFile) :
    (t.newRows files).Pairwise (·.id < ·.id) := by
  rw [List.pairwise_iff_getElem]
  intro i j hi hj hij
  simp only [newRows, List.getElem_map, List.getElem_zipIdx, RunFile.row]
  omega

theorem advances_land {l : Ledger} (hl : l.Sound) (t : Tables) (retention : Retention) :
    t.Advances (t.land retention l.files l.staged) (t.newRows l.files) where
  consistent h := isConsistent_land hl h retention
  files := ⟨_, fun _ hr ↦ (List.mem_filter.1 hr).1, rfl⟩
  fresh r hr := by
    obtain ⟨n, f, -, -, rfl⟩ := exists_of_mem_newRows hr
    exact nextId_le_rowId _ _
  ascending := t.pairwise_newRows l.files
  newest r hr _ := by
    cases hreplaced : t.isReplaced retention l.files r with
    | false => exact .inl (List.mem_append_left _ (List.mem_filter.2 ⟨hr, by simp [hreplaced]⟩))
    | true =>
      -- a row goes only with a newer one of its path
      simp only [isReplaced, Bool.and_eq_true, List.any_eq_true, beq_iff_eq] at hreplaced
      obtain ⟨-, f, hf, hpath⟩ := hreplaced
      obtain ⟨hf, hdue⟩ := List.mem_filter.1 hf
      obtain ⟨n, hn⟩ := List.getElem?_of_mem hf
      exact .inr ⟨_, row_mem_newRows hn hdue, hpath.symm⟩

end Tables

/-- A call that lands adds rows after all others, and keeps the newest row of every other path. -/
theorem Store.Call.Lands.advances {call : Call} {s : Store} {t u : Tables} {answer : Answer}
    (h : call.Lands s t answer u) (hc : call.IsSound) : ∃ rows, t.Advances u rows := by
  have happly := h.apply_eq hc
  cases call with
  | commit run source =>
    cases happly
    exact ⟨_, t.advances_land hc.1 s.retention⟩
  | prune =>
    cases happly
    exact ⟨_, t.advances_prune⟩

end FindingStore
