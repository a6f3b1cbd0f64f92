import Mathlib.Data.Set.List
import FindingStore.Proofs.Replay.Reconciliation

namespace FindingStore

def findingOn? (path : String) : ReplayItem → Option Finding
  | .ok (.finding f) => if f.path = path then some f else none
  | _ => none

namespace Tables

structure IsReadable (t : Tables) : Prop where
  paths {f : FileRow} : f ∈ t.files → ∃ path : String, f.path = path
  reports {r : ReportRow} :
    r ∈ t.reports → ∃ remark : Remark, remark.InRange ∧ remark.cells = r.toReportCells

def shown (t : Tables) (fs : FileSystem) (path : String) : List Finding :=
  match fs.resolved? (Path.ofText path) with
  | none => []
  | some i =>
    match t.matching? path i.mtime i.size with
    | none => []
    | some id => findingsAt path (((t.reportsOf id).mapM ReportCells.remark?).toOption.getD [])

theorem IsReadable.mapM_remark? {t : Tables} (h : t.IsReadable) (id : Int) :
    ∃ remarks, (t.reportsOf id).mapM ReportCells.remark? = .ok remarks := by
  rcases ReportCells.mapM_remark? (t.reportsOf id) with
    ⟨remarks, hread, -⟩ | ⟨e, before, cells, rest, -, hrows, -, he⟩
  · exact ⟨remarks, hread⟩
  · have hcells : cells ∈ t.reportsOf id := by
      rw [hrows]
      exact List.mem_append_right _ List.mem_cons_self
    obtain ⟨r, hr, rfl⟩ := List.mem_map.1 (Order.mem_firstOccurrences.1 hcells)
    obtain ⟨remark, hrange, hremark⟩ := h.reports (List.mem_filter.1 hr).1
    rw [ReportCells.remark?_eq_ok.2 ⟨hrange, hremark⟩] at he
    cases he

theorem IsReadable.exists_paths {t : Tables} (h : t.IsReadable) :
    ∃ paths : List String, paths.map Data.text = t.reportedPaths := by
  rw [← Set.mem_range, Set.range_list_map]
  intro d hd
  obtain ⟨f, hf, rfl, -⟩ := mem_reportedPaths.1 hd
  obtain ⟨path, hpath⟩ := h.paths hf
  exact ⟨path, hpath.symm⟩

end Tables

namespace Store

variable {s : Store} {w : World} {t : Tables}

def replayed (s : Store) (w : World) (path : String) : List Finding :=
  match Replay.start s w with
  | .ok r => (Replay.items (s.reads w) r).filterMap (findingOn? path)
  | .error _ => []

theorem findings_of_path (path : String) (remarks : List Remark) :
    ((findingsAt path remarks).map findingItem).filterMap (findingOn? path) =
      findingsAt path remarks := by
  rw [List.filterMap_map]
  refine (List.filterMap_congr fun f hf ↦ ?_).trans List.filterMap_some
  obtain ⟨r, -, rfl⟩ := List.mem_map.1 hf
  exact if_pos rfl

theorem findings_of_other {path other : String} (hne : other ≠ path) (findings : List Finding)
    (hpath : ∀ f ∈ findings, f.path = other) :
    (findings.map findingItem).filterMap (findingOn? path) = [] := by
  rw [List.filterMap_map, List.filterMap_eq_nil_iff]
  intro f hf
  exact if_neg fun he ↦ hne ((hpath f hf).symm.trans he)

namespace Sees

variable (h : s.Sees w t) (ht : t.IsReadable)

include h ht

theorem enter_ne_error (path : String) (e : StoreError) :
    (s.reads w path).enter path ≠ .error (.error e) := by
  rw [h.enter_eq]
  dsimp only
  split
  · exact nofun
  · split
    · exact nofun
    · next id _ =>
      obtain ⟨remarks, hread⟩ := ht.mapM_remark? id
      simp only [hread]
      exact nofun

theorem itemsOf_eq (paths : List String) :
    Replay.itemsOf (s.reads w) paths = paths.flatMap fun path ↦ (s.reads w path).items path :=
  Replay.itemsOf_eq_flatMap fun path _ e ↦ h.enter_ne_error ht path e

theorem items_of_path (path : String) :
    ((s.reads w path).items path).filterMap (findingOn? path) = t.shown w.files path := by
  unfold PathReads.items Tables.shown FileSystem.resolved?
  rw [h.enter_eq]
  dsimp only
  cases hvalid : (Identity.resolve w.files (Path.ofText path)).isValid with
  | false => rfl
  | true =>
    simp only [Bool.not_true, Bool.false_eq_true, if_false, if_true]
    cases t.matching? path (Identity.resolve w.files (Path.ofText path)).mtime
      (Identity.resolve w.files (Path.ofText path)).size with
    | none => rfl
    | some id =>
      obtain ⟨remarks, hread⟩ := ht.mapM_remark? id
      simp only [hread]
      exact findings_of_path path remarks

omit h ht in
theorem items_of_other (reads : PathReads) {path other : String} (hne : other ≠ path) :
    (reads.items other).filterMap (findingOn? path) = [] := by
  unfold PathReads.items
  cases henter : reads.enter other with
  | error item =>
    rcases item with e | event
    · rfl
    · cases event with
      | finding f => exact absurd henter (PathReads.enter_ne_finding _ _ f)
      | missing => rfl
      | unmatched => rfl
  | ok findings => exact findings_of_other hne findings fun f ↦ PathReads.path_of_enter henter

omit h ht in
theorem shown_of_not_reported {path : String} (hpath : ¬t.IsReported path) (fs : FileSystem) :
    t.shown fs path = [] := by
  unfold Tables.shown
  split
  · rfl
  · next i _ =>
    split
    · rfl
    · next id hid =>
      obtain ⟨row, hrow, rfl⟩ := Tables.exists_isNewest (i := { i with path }) hid
      have hnone : t.reports.filter (·.file == .integer row.id) = [] := by
        refine List.filter_eq_nil_iff.2 fun r hr he ↦ hpath ?_
        have hcarries := hrow.carries
        simp only [FileRow.carries, Bool.and_eq_true, beq_iff_eq] at hcarries
        exact ⟨row, hrow.mem, hcarries.1.1, r, hr, beq_iff_eq.1 he⟩
      have hreports : t.reportsOf row.id = [] := by
        rw [Tables.reportsOf, hnone]
        rfl
      rw [hreports]
      rfl

theorem replayed_eq (path : String) : s.replayed w path = t.shown w.files path := by
  obtain ⟨paths, hpaths⟩ := ht.exists_paths
  have hstart : Replay.start s w = .ok ⟨paths, []⟩ := h.start_eq_ok.2 ⟨hpaths.symm, rfl⟩
  have hnodup : paths.Nodup := by
    refine (h.pairwise_paths hstart).imp ?_
    rintro p _ hlt rfl
    exact List.lt_irrefl _ hlt
  have hsplit (paths : List String) (hnodup : paths.Nodup) :
      (Replay.itemsOf (s.reads w) paths).filterMap (findingOn? path) =
        if path ∈ paths then t.shown w.files path else [] := by
    rw [h.itemsOf_eq ht]
    induction paths with
    | nil => rfl
    | cons other rest ih =>
      obtain ⟨hnot, hrest⟩ := List.nodup_cons.1 hnodup
      rw [List.flatMap_cons, List.filterMap_append, ih hrest]
      by_cases he : other = path
      · subst he
        rw [h.items_of_path ht, if_neg hnot, List.append_nil, if_pos List.mem_cons_self]
      · rw [items_of_other _ he, List.nil_append]
        simp only [List.mem_cons, Ne.symm he, false_or]
  rw [Store.replayed, hstart]
  dsimp only
  rw [Replay.items_eq_itemsOf, hsplit _ hnodup]
  split
  · rfl
  · next hnot =>
    refine (shown_of_not_reported (fun hpath ↦ hnot ?_) _).symm
    rw [← Tables.mem_reportedPaths, ← hpaths] at hpath
    obtain ⟨q, hq, he⟩ := List.mem_map.1 hpath
    exact Data.text.inj he ▸ hq

end Sees

end Store

end FindingStore
