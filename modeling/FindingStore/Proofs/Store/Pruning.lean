import FindingStore.Proofs.Store.Numbering

namespace FindingStore

namespace Tables

variable {t : Tables} {r : FileRow}

structure IsKeyed (t : Tables) : Prop where
  unique : (t.files.map FileRow.id).Nodup
  consistent : t.isConsistent = true

theorem IsKeyed.eq_of_id_eq (h : t.IsKeyed) {q : FileRow} (hr : r ∈ t.files) (hq : q ∈ t.files)
    (he : r.id = q.id) : r = q :=
  List.inj_on_of_nodup_map h.unique hr hq he

theorem IsKeyed.filter_id (h : t.IsKeyed) (hr : r ∈ t.files) :
    t.files.filter (·.id == r.id) = [r] := by
  have hnodup : t.files.Nodup := h.unique.of_map _
  refine List.perm_singleton.1 ((List.perm_ext_iff_of_nodup (hnodup.filter _)
    (List.nodup_singleton r)).2 fun q ↦ ?_)
  rw [List.mem_filter, List.mem_singleton, beq_iff_eq]
  constructor
  · intro hmem
    obtain ⟨hq, he⟩ := hmem
    exact h.eq_of_id_eq hq hr he
  · intro he
    exact ⟨he ▸ hr, congrArg FileRow.id he⟩

theorem mem_prune : r ∈ t.prune.files ↔ r ∈ t.files ∧ t.latest? r.path = some r.id := by
  simp [prune, deleteFiles, isSuperseded]

theorem latest?_prune (t : Tables) (path : Data) : t.prune.latest? path = t.latest? path := by
  cases hlatest : t.latest? path with
  | none => exact latest?_eq_none.2 fun r hr ↦ latest?_eq_none.1 hlatest r (mem_prune.1 hr).1
  | some id =>
    obtain ⟨⟨r, hr, rfl, rfl⟩, hmax⟩ := latest?_eq_some.1 hlatest
    refine latest?_eq_some.2 ⟨⟨r, mem_prune.2 ⟨hr, hlatest⟩, rfl, rfl⟩, fun q hq ↦ ?_⟩
    exact hmax q (mem_prune.1 hq).1

theorem isSuperseded_of_mem_prune (hr : r ∈ t.prune.files) : t.prune.isSuperseded r = false := by
  rw [isSuperseded, latest?_prune, (mem_prune.1 hr).2, bne_self_eq_false]

theorem prunedCount_prune (t : Tables) : t.prune.prunedCount = 0 := by
  have hnone : t.prune.files.filter t.prune.isSuperseded = [] :=
    List.filter_eq_nil_iff.2 fun r hr ↦ Bool.eq_false_iff.1 (isSuperseded_of_mem_prune hr)
  rw [prunedCount, hnone, List.length_nil]

theorem length_prune (t : Tables) : t.files.length = t.prune.files.length + t.prunedCount := by
  rw [prunedCount, Nat.add_comm]
  exact List.length_eq_length_filter_add t.isSuperseded

theorem idsOf_prune (h : t.IsKeyed) (path : Data) :
    t.prune.idsOf path = (t.latest? path).toList := by
  cases hlatest : t.latest? path with
  | none =>
    have hnone : t.prune.files.filter (·.path == path) = [] :=
      List.filter_eq_nil_iff.2 fun r hr he ↦
        latest?_eq_none.1 hlatest r (mem_prune.1 hr).1 (beq_iff_eq.1 he)
    rw [idsOf, hnone]
    rfl
  | some id =>
    obtain ⟨⟨r, hr, rfl, rfl⟩, -⟩ := latest?_eq_some.1 hlatest
    have hrows : t.prune.files.filter (·.path == r.path) = t.files.filter (·.id == r.id) := by
      rw [prune, deleteFiles, List.filter_filter]
      refine List.filter_congr fun q hq ↦ ?_
      rw [Bool.eq_iff_iff]
      simp only [isSuperseded, Bool.and_eq_true, beq_iff_eq, Bool.not_eq_true', bne_eq_false_iff_eq]
      constructor
      · intro hrow
        obtain ⟨hpath, hnewest⟩ := hrow
        rw [hpath, hlatest] at hnewest
        exact (Option.some.inj hnewest).symm
      · intro he
        obtain rfl := h.eq_of_id_eq hq hr he
        exact ⟨rfl, hlatest⟩
    rw [idsOf, hrows, h.filter_id hr]
    rfl

theorem reports_prune (h : t.IsKeyed) :
    t.prune.reports = t.reports.filter fun r ↦ t.prune.hasFile r.file := by
  refine List.filter_congr fun report hreport ↦ ?_
  obtain ⟨r, hr, hid⟩ := hasFile_eq_true.1 (List.all_eq_true.1 h.consistent report hreport)
  rw [Bool.eq_iff_iff, hasFile_eq_true]
  simp only [Bool.not_eq_true', List.contains_eq_mem, decide_eq_false_iff_not, List.mem_map,
    List.mem_filter, not_exists, not_and, and_imp]
  constructor
  · intro hkept
    have hnewest : t.isSuperseded r = false := by
      cases hsuperseded : t.isSuperseded r with
      | false => rfl
      | true => exact absurd hid.symm (hkept r hr hsuperseded)
    exact ⟨r, List.mem_filter.2 ⟨hr, by rw [hnewest]; rfl⟩, hid⟩
  · intro hfile p hp hsuperseded hpid
    obtain ⟨q, hq, hqid⟩ := hfile
    obtain ⟨hq, hkept⟩ := List.mem_filter.1 hq
    obtain rfl := h.eq_of_id_eq hp hq (Cell.integer.inj (hpid.trans hqid))
    rw [hsuperseded] at hkept
    cases hkept

theorem cellsOf_prune (h : t.IsKeyed) (hr : r ∈ t.prune.files) :
    t.prune.cellsOf r.id = t.cellsOf r.id := by
  refine cellsOf_deleteFiles fun q hq hsuperseded he ↦ ?_
  rw [h.eq_of_id_eq hq (mem_prune.1 hr).1 he, isSuperseded, (mem_prune.1 hr).2,
    bne_self_eq_false] at hsuperseded
  cases hsuperseded

end Tables

namespace Store

variable {s : Store} {w : World} {t : Tables}

theorem lands_prune (s : Store) (t : Tables) :
    Call.prune.Lands s t (.pruned t.prunedCount) t.prune :=
  ⟨t.prunedCount, t.prune, .query rfl (.done _ _), rfl, rfl⟩

open World in
/-- Superseded rows are removed where nothing stands in the way. -/
theorem prune_of_clear (ha : s.access.IsOrdinary) (hpolicy : 1 ≤ s.policy.maxAttempts)
    (hw : w.Awaits s.database s.access t) (hclear : w.IsClear s.database s.access) :
    (s.prune w).1 = .ok t.prunedCount ∧ (s.prune w).2.2.Awaits s.database s.access t.prune ∧
      (s.prune w).2.2.IsClear s.database s.access := by
  obtain ⟨hanswer, hafter⟩ := Call.perform_of_lands (lands_prune s t) trivial hpolicy
    (Store.grants_of_clear ha) ⟨hw, hclear⟩
  refine ⟨?_, hafter⟩
  rw [Call.perform] at hanswer
  obtain ⟨removed, hremoved, he⟩ := map_eq_ok.1 hanswer
  cases he
  exact hremoved

theorem maxAttempts_of_prune_ok {removed : Nat} (h : (s.prune w).1 = .ok removed) :
    1 ≤ s.policy.maxAttempts := by
  refine Nat.one_le_iff_ne_zero.2 fun hzero ↦ ?_
  simp only [prune, transact, transactOver, Transaction.program, hzero, Transaction.attempts,
    Program.run] at h
  cases h

open World in
theorem isClear_of_prune_ok (ha : s.access.IsOrdinary) (hw : w.Awaits s.database s.access t)
    {removed : Nat} (h : (s.prune w).1 = .ok removed) : w.IsClear s.database s.access := by
  by_contra hblocked
  obtain ⟨e, he⟩ := result_of_not_isClear ha hw hblocked {} (fun _ ↦ pruneWork) ()
  have hremoved : ((s.transact {} (fun _ ↦ pruneWork) () w).1.result.map Settlement.value) =
    .ok removed := h
  rw [he] at hremoved
  cases hremoved

theorem store_prune (s : Store) (w : World) :
    ∃ lastError, (s.prune w).2.1 = { s with lastError } := by
  unfold prune transact transactOver
  dsimp only
  split <;> exact ⟨_, rfl⟩

end Store

end FindingStore
