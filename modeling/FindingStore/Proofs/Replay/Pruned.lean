import FindingStore.Proofs.Ledger.Outdating
import FindingStore.Proofs.Store.Pruning

namespace FindingStore

namespace Replay

def eventsOn (p : String → Bool) (items : List ReplayItem) : List ReplayEvent :=
  items.filterMap fun
    | .ok event => if p event.path then some event else none
    | .error _ => none

def failures (items : List ReplayItem) : List StoreError :=
  items.filterMap fun
    | .ok _ => none
    | .error e => some e

def precedes (p q : String) : Bool := decide (Utf8.encode p < Utf8.encode q)

section Lists

variable {p q : String → Bool} {path : String} {paths : List String} {items more : List ReplayItem}
  {reads reads' : String → PathReads}

theorem eventsOn_append (p : String → Bool) (items more : List ReplayItem) :
    eventsOn p (items ++ more) = eventsOn p items ++ eventsOn p more := List.filterMap_append

theorem failures_append (items more : List ReplayItem) :
    failures (items ++ more) = failures items ++ failures more := List.filterMap_append

def AllOn (path : String) (items : List ReplayItem) : Prop :=
  ∀ item ∈ items, ∃ event : ReplayEvent, item = .ok event ∧ event.path = path

theorem AllOn.failures (h : AllOn path items) : failures items = [] := by
  refine List.filterMap_eq_nil_iff.2 fun item hitem ↦ ?_
  obtain ⟨event, rfl, -⟩ := h item hitem
  rfl

theorem AllOn.eventsOn_congr (h : AllOn path items) (he : p path = q path) :
    eventsOn p items = eventsOn q items := by
  refine List.filterMap_congr fun item hitem ↦ ?_
  obtain ⟨event, rfl, rfl⟩ := h item hitem
  simp only [he]

theorem AllOn.eventsOn_eq_nil (h : AllOn path items) (hp : p path = false) :
    eventsOn p items = [] := by
  refine List.filterMap_eq_nil_iff.2 fun item hitem ↦ ?_
  obtain ⟨event, rfl, rfl⟩ := h item hitem
  simp only [hp, Bool.false_eq_true, if_false]

theorem allOn_items (h : ∀ e, (reads path).enter path ≠ .error (.error e)) :
    AllOn path ((reads path).items path) := by
  intro item hitem
  unfold PathReads.items at hitem
  cases henter : (reads path).enter path with
  | error first =>
    rw [henter] at hitem
    obtain rfl := List.mem_singleton.1 hitem
    cases item with
    | error e => exact absurd henter (h e)
    | ok event => exact ⟨event, rfl, PathReads.path_of_event henter⟩
  | ok findings =>
    rw [henter] at hitem
    obtain ⟨f, hf, rfl⟩ := List.mem_map.1 hitem
    exact ⟨.finding f, rfl, PathReads.path_of_enter henter hf⟩

theorem itemsOf_cons (h : ∀ e, (reads path).enter path ≠ .error (.error e)) :
    itemsOf reads (path :: paths) = (reads path).items path ++ itemsOf reads paths := by
  rw [itemsOf, PathReads.items]
  cases henter : (reads path).enter path with
  | error item =>
    cases item with
    | error e => exact absurd henter (h e)
    | ok event => rfl
  | ok findings => rfl

/-- Two replays agree on the paths of a kind, up to the first path of another kind at which the
first one breaks off. -/
def Agree (reads : String → PathReads) (kept : String → Bool) (paths : List String)
    (before after : List ReplayItem) : Prop :=
  eventsOn kept before = eventsOn kept after ∧ failures before = failures after ∨
    ∃ path ∈ paths, kept path = false ∧ ∃ e, (reads path).enter path = .error (.error e) ∧
      failures before = [e] ∧
      eventsOn kept before = eventsOn (fun p ↦ kept p && precedes p path) after

theorem Agree.cons {kept : String → Bool} {before after : List ReplayItem}
    (h : Agree reads kept paths before after) (hitems : AllOn path items) (hmore : AllOn path more)
    (he : eventsOn kept items = eventsOn kept more)
    (hfirst : ∀ q ∈ paths, Utf8.encode path < Utf8.encode q) :
    Agree reads kept (path :: paths) (items ++ before) (more ++ after) := by
  have hfailures : failures (items ++ before) = failures before := by
    rw [failures_append, hitems.failures, List.nil_append]
  rcases h with ⟨hevents, hsame⟩ | ⟨q, hq, hother, e, hbreak, hend, hevents⟩
  · refine .inl ⟨?_, ?_⟩
    · rw [eventsOn_append, eventsOn_append, he, hevents]
    · rw [hfailures, hsame, failures_append, hmore.failures, List.nil_append]
  · have hearlier : kept path = (kept path && precedes path q) := by
      rw [precedes, decide_eq_true (hfirst q hq), Bool.and_true]
    refine .inr ⟨q, List.mem_cons_of_mem _ hq, hother, e, hbreak, hfailures.trans hend, ?_⟩
    rw [eventsOn_append, eventsOn_append, he, hevents,
      hmore.eventsOn_congr (q := fun p ↦ kept p && precedes p q) hearlier]

/-- The first replay breaks off at once, at a path of another kind. -/
theorem agree_of_break {kept : String → Bool} {e : StoreError} {after : List ReplayItem}
    (hother : kept path = false) (he : (reads path).enter path = .error (.error e))
    (hafter : ∀ event, .ok event ∈ after → event.path ∈ path :: paths)
    (hfirst : ∀ q ∈ paths, Utf8.encode path < Utf8.encode q) :
    Agree reads kept (path :: paths) [.error e] after := by
  refine .inr ⟨path, List.mem_cons_self, hother, e, he, rfl, ?_⟩
  refine (List.filterMap_eq_nil_iff.2 fun item hitem ↦ ?_).symm
  cases item with
  | error e => rfl
  | ok event =>
    have hlate : precedes event.path path = false := by
      rw [precedes, decide_eq_false_iff_not]
      rcases List.mem_cons.1 (hafter event hitem) with hpath | hpath
      · rw [hpath]
        exact List.lt_irrefl _
      · exact List.lt_asymm (hfirst _ hpath)
    simp only [hlate, Bool.and_false, Bool.false_eq_true, if_false]

/-- Two replays of paths in order, the second of which may leave out paths without findings. They
agree if they read the same about the paths of a kind, and the second one nothing about others. -/
theorem agree_itemsOf {kept listed : String → Bool}
    (hsame : ∀ path ∈ paths, kept path = true → listed path = true →
      (reads' path).enter path = (reads path).enter path)
    (hempty : ∀ path ∈ paths, kept path = true → listed path = false →
      (reads path).enter path = .ok [])
    (hother : ∀ path ∈ paths, kept path = false →
      ∃ event, (reads' path).enter path = .error (.ok event))
    (hordered : paths.Pairwise fun p q ↦ Utf8.encode p < Utf8.encode q) :
    Agree reads kept paths (itemsOf reads paths) (itemsOf reads' (paths.filter listed)) := by
  induction paths with
  | nil => exact .inl ⟨rfl, rfl⟩
  | cons path rest ih =>
    obtain ⟨hfirst, hordered⟩ := List.pairwise_cons.1 hordered
    have hrest := ih (fun p hp ↦ hsame p (List.mem_cons_of_mem _ hp))
      (fun p hp ↦ hempty p (List.mem_cons_of_mem _ hp))
      (fun p hp ↦ hother p (List.mem_cons_of_mem _ hp)) hordered
    replace hsame := hsame path List.mem_cons_self
    replace hempty := hempty path List.mem_cons_self
    replace hother := hother path List.mem_cons_self
    by_cases hbreak : ∃ e, (reads path).enter path = .error (.error e)
    · obtain ⟨e, he⟩ := hbreak
      have hbefore : itemsOf reads (path :: rest) = [.error e] := by simp only [itemsOf, he]
      rw [hbefore]
      cases hkept : kept path with
      | true =>
        have hlisted : listed path = true := by
          by_contra hnot
          rw [hempty hkept (Bool.eq_false_iff.2 hnot)] at he
          cases he
        have hafter : itemsOf reads' ((path :: rest).filter listed) = [.error e] := by
          rw [List.filter_cons_of_pos hlisted]
          simp only [itemsOf, hsame hkept hlisted, he]
        exact .inl ⟨by rw [hafter], by rw [hafter]⟩
      | false =>
        refine agree_of_break hkept he (fun event hevent ↦ ?_) hfirst
        exact (List.mem_filter.1 (path_mem_of_event hevent)).1
    · replace hbreak : ∀ e, (reads path).enter path ≠ .error (.error e) := not_exists.1 hbreak
      have hitems := allOn_items hbreak
      rw [itemsOf_cons hbreak]
      cases hlisted : listed path with
      | false =>
        rw [List.filter_cons_of_neg (by rw [hlisted]; exact Bool.false_ne_true)]
        have hnothing : AllOn path [] := List.forall_mem_nil _
        refine hrest.cons hitems hnothing ?_ hfirst
        cases hkept : kept path with
        | true =>
          have hnone : (reads path).items path = [] := by
            rw [PathReads.items, hempty hkept hlisted]
            rfl
          rw [hnone]
        | false => rw [hitems.eventsOn_eq_nil hkept]; rfl
      | true =>
        have hbreak' : ∀ e, (reads' path).enter path ≠ .error (.error e) := by
          intro e he
          cases hkept : kept path with
          | true => exact hbreak e (hsame hkept hlisted ▸ he)
          | false =>
            obtain ⟨event, hevent⟩ := hother hkept
            rw [hevent] at he
            cases he
        rw [List.filter_cons_of_pos hlisted, itemsOf_cons hbreak']
        refine hrest.cons hitems (allOn_items hbreak') ?_ hfirst
        cases hkept : kept path with
        | true => rw [PathReads.items, PathReads.items, hsame hkept hlisted]
        | false =>
          rw [hitems.eventsOn_eq_nil hkept, (allOn_items hbreak').eventsOn_eq_nil hkept]

end Lists

end Replay

namespace Tables

variable {t : Tables} {fs : FileSystem} {path : String} {i : Identity} {row : FileRow}

def isCurrent (t : Tables) (fs : FileSystem) (path : String) : Bool :=
  (fs.resolved? (Path.ofText path)).any fun i ↦
    t.files.any fun r ↦ t.latest? path == some r.id && r.carries { i with path }

theorem isCurrent_iff (hi : fs.resolved? (Path.ofText path) = some i) :
    t.isCurrent fs path = true ↔
      ∃ row ∈ t.files, t.latest? path = some row.id ∧ row.carries { i with path } = true := by
  simp only [isCurrent, hi, Option.any_some, List.any_eq_true, Bool.and_eq_true, beq_iff_eq]

theorem exists_of_isCurrent (h : t.isCurrent fs path = true) :
    ∃ i, fs.resolved? (Path.ofText path) = some i ∧
      ∃ row ∈ t.files, t.latest? path = some row.id ∧ row.carries { i with path } = true := by
  obtain ⟨i, hi, -⟩ := (Option.any_eq_true _ _).1 h
  exact ⟨i, hi, (isCurrent_iff hi).1 h⟩

theorem matching?_of_latest (hrow : row ∈ t.files) (hlatest : t.latest? path = some row.id)
    (hcarries : row.carries { i with path } = true) :
    t.matching? path i.mtime i.size = some row.id := by
  refine largest?_eq_some.2 ⟨?_, fun id hid ↦ ?_⟩
  · exact List.mem_map_of_mem (List.mem_filter.2 ⟨hrow, hcarries⟩)
  · obtain ⟨r, hr, rfl⟩ := List.mem_map.1 hid
    obtain ⟨hr, hcarries⟩ := List.mem_filter.1 hr
    exact (latest?_eq_some.1 hlatest).2 r hr (path_of_carries (i := { i with path }) hcarries)

theorem mem_prune_of_latest (hrow : row ∈ t.files) (hlatest : t.latest? path = some row.id)
    (hcarries : row.carries { i with path } = true) : row ∈ t.prune.files := by
  refine mem_prune.2 ⟨hrow, ?_⟩
  rwa [path_of_carries hcarries]

theorem matching?_prune_of_not_current (hi : fs.resolved? (Path.ofText path) = some i)
    (h : t.isCurrent fs path = false) : t.prune.matching? path i.mtime i.size = none := by
  refine (matching?_eq_none (i := { i with path })).2 fun row hrow ↦ ?_
  obtain ⟨hrow, hlatest⟩ := mem_prune.1 hrow
  by_contra hcarries
  rw [Bool.not_eq_false] at hcarries
  rw [path_of_carries hcarries] at hlatest
  rw [(isCurrent_iff hi).2 ⟨row, hrow, hlatest, hcarries⟩] at h
  cases h

theorem reportedPaths_prune (t : Tables) :
    t.prune.reportedPaths = t.reportedPaths.filter (t.prune.reportedPaths.contains ·) := by
  have hordered (u : Tables) : u.reportedPaths.Pairwise (Data.le · · = true) :=
    Order.pairwise_sortBy Data.isLinear_le.toIsTotal _
  have hnodup (u : Tables) : u.reportedPaths.Nodup :=
    (Order.sortBy_perm _ _).nodup_iff.2 (Order.firstOccurrences_nodup _)
  refine List.Perm.eq_of_pairwise (fun _ _ _ _ ↦ Data.isLinear_le.antisymm)
    (hordered _) ((hordered _).filter _) ?_
  refine (List.perm_ext_iff_of_nodup (hnodup _) ((hnodup _).filter _)).2 fun path ↦ ?_
  rw [List.mem_filter, List.contains_iff_mem]
  refine (and_iff_right_of_imp fun hpath ↦ ?_).symm
  obtain ⟨row, hrow, hpath, report, hreport, hfile⟩ := mem_reportedPaths.1 hpath
  exact mem_reportedPaths.2
    ⟨row, (mem_prune.1 hrow).1, hpath, report, (List.mem_filter.1 hreport).1, hfile⟩

structure KeepsNewest (t u : Tables) : Prop where
  rows (path : Data) : u.idsOf path = (t.latest? path).toList
  unchanged : u.files.Sublist t.files
  reports : u.reports = t.reports.filter fun r ↦ u.hasFile r.file
  rejected : u.rejected = t.rejected

theorem keepsNewest_prune (h : t.IsKeyed) : t.KeepsNewest t.prune :=
  ⟨idsOf_prune h, List.filter_sublist, reports_prune h, rfl⟩

end Tables

namespace Store

variable {s s' : Store} {w x : World} {t : Tables} {path : String}

section Pruned

variable (hkeyed : t.IsKeyed) (hw : s.Sees w t) (hx : s'.Sees x t.prune)
  (hdisk : x.files.resolved? (Path.ofText path) = w.files.resolved? (Path.ofText path))

include hkeyed hw hx hdisk in
/-- The row that counts has not gone, and neither have its reports. -/
theorem enter_prune_of_current (h : t.isCurrent w.files path = true) :
    (s'.reads x path).enter path = (s.reads w path).enter path := by
  obtain ⟨i, hi, row, hrow, hlatest, hcarries⟩ := Tables.exists_of_isCurrent h
  have hkept := Tables.mem_prune_of_latest hrow hlatest hcarries
  have hreports : t.prune.reportsOf row.id = t.reportsOf row.id :=
    congrArg Order.firstOccurrences (Tables.cellsOf_prune hkeyed hkept)
  rw [hx.enter_of_some (hdisk.trans hi), hw.enter_of_some hi,
    Tables.matching?_of_latest hrow hlatest hcarries,
    Tables.matching?_of_latest hkept ((t.latest?_prune path).trans hlatest) hcarries]
  simp only [hreports]

include hkeyed hw in
theorem enter_of_unlisted (h : t.isCurrent w.files path = true)
    (hunlisted : ¬t.prune.IsReported path) : (s.reads w path).enter path = .ok [] := by
  obtain ⟨i, hi, row, hrow, hlatest, hcarries⟩ := Tables.exists_of_isCurrent h
  have hkept := Tables.mem_prune_of_latest hrow hlatest hcarries
  have hnone : t.prune.reports.filter (·.file == .integer row.id) = [] := by
    refine List.filter_eq_nil_iff.2 fun report hreport hfile ↦ hunlisted ?_
    exact ⟨row, hkept, Tables.path_of_carries hcarries, report, hreport, beq_iff_eq.1 hfile⟩
  have hreports : t.reportsOf row.id = [] := by
    change Order.firstOccurrences (t.cellsOf row.id) = []
    rw [← Tables.cellsOf_prune hkeyed hkept, Tables.cellsOf, hnone]
    rfl
  rw [hw.enter_of_some hi, Tables.matching?_of_latest hrow hlatest hcarries]
  simp only [hreports]
  rfl

include hx hdisk in
theorem enter_prune_of_not_current (h : t.isCurrent w.files path = false) :
    ∃ event : ReplayEvent, (s'.reads x path).enter path = .error (.ok event) ∧
      ∀ f, event ≠ .finding f := by
  cases hi : w.files.resolved? (Path.ofText path) with
  | none => exact ⟨_, hx.enter_of_none (hdisk.trans hi), nofun⟩
  | some i =>
    refine ⟨.unmatched path, ?_, nofun⟩
    rw [hx.enter_of_some (hdisk.trans hi), Tables.matching?_prune_of_not_current hi h]

end Pruned

theorem Sees.start_prune (hw : s.Sees w t) (hx : s'.Sees x t.prune) {r : Replay}
    (hr : Replay.start s w = .ok r) :
    Replay.start s' x =
      .ok ⟨r.paths.filter fun path ↦ t.prune.reportedPaths.contains (.text path), []⟩ := by
  refine hx.start_eq_ok.2 ⟨?_, rfl⟩
  have hpaths := t.reportedPaths_prune
  rw [(hw.start_eq_ok.1 hr).1, List.filter_map] at hpaths
  exact hpaths

open World in
/-- After a removal of the superseded rows each path has its newest row left with its reports, and a
second removal finds nothing. Whoever sees the tables then finds nothing on files but those whose
newest rows carry their present fingerprints. If a replay before starts, so does one after it, and
they agree on these files as far as the one before gets. -/
theorem prune_keeps_newest (ha : s.access.IsOrdinary) (hkeyed : t.IsKeyed)
    (hw : w.Awaits s.database s.access t) {removed : Nat} (h : (s.prune w).1 = .ok removed) :
    ∃ u, (s.prune w).2.2.Awaits s.database s.access u ∧ t.KeepsNewest u ∧
      t.files.length = u.files.length + removed ∧
      ((s.prune w).2.1.prune (s.prune w).2.2).1 = .ok 0 ∧
      ∀ {before after : Store} {y x : World}, before.Sees y t → after.Sees x u →
        (∀ f ∈ t.files, ∀ path : String, f.path = path →
          x.files.resolved? (Path.ofText path) = y.files.resolved? (Path.ofText path)) →
        (∀ r' f, Replay.start after x = .ok r' →
          findingItem f ∈ Replay.items (after.reads x) r' → t.isCurrent y.files f.path = true) ∧
        ∀ r, Replay.start before y = .ok r → ∃ r', Replay.start after x = .ok r' ∧
          Replay.Agree (before.reads y) (t.isCurrent y.files) r.paths
            (Replay.items (before.reads y) r) (Replay.items (after.reads x) r') := by
  have hpolicy := maxAttempts_of_prune_ok h
  obtain ⟨hremoved, hawaits, hclear⟩ :=
    prune_of_clear ha hpolicy hw (isClear_of_prune_ok ha hw h)
  obtain rfl : removed = t.prunedCount := by
    rw [h] at hremoved
    cases hremoved
    rfl
  refine ⟨t.prune, hawaits, Tables.keepsNewest_prune hkeyed, t.length_prune, ?_, ?_⟩
  · obtain ⟨lastError, hstore⟩ := s.store_prune w
    obtain ⟨hagain, -⟩ := prune_of_clear (s := { s with lastError }) ha hpolicy hawaits hclear
    rw [hstore, hagain, Tables.prunedCount_prune]
  · intro before after y x hy hx hdisk
    replace hdisk {path : String} (hpath : t.IsReported path) :
        x.files.resolved? (Path.ofText path) = y.files.resolved? (Path.ofText path) := by
      obtain ⟨f, hf, hpath, -⟩ := hpath
      exact hdisk f hf path hpath
    have hlisted {path : String} (hpath : t.prune.IsReported path) : t.IsReported path := by
      rw [← Tables.mem_reportedPaths, t.reportedPaths_prune] at hpath
      exact Tables.mem_reportedPaths.1 (List.mem_filter.1 hpath).1
    refine ⟨fun r' f hr' hf ↦ ?_, fun r hr ↦ ?_⟩
    · rw [Replay.start_eq_ok hr', Replay.items_eq_itemsOf] at hf
      have hpath : t.prune.IsReported f.path := by
        rw [← Tables.mem_reportedPaths, (hx.start_eq_ok.1 hr').1]
        exact List.mem_map_of_mem (Replay.path_mem_of_event hf)
      by_contra hnot
      obtain ⟨event, henter, -⟩ := enter_prune_of_not_current hx
        (hdisk (hlisted hpath)) (Bool.eq_false_iff.2 hnot)
      obtain ⟨findings, hfindings, -⟩ := Replay.enter_of_mem_itemsOf hf
      rw [henter] at hfindings
      cases hfindings
    · refine ⟨_, hy.start_prune hx hr, ?_⟩
      have hreported {path : String} (hpath : path ∈ r.paths) : t.IsReported path := by
        rw [← Tables.mem_reportedPaths, (hy.start_eq_ok.1 hr).1]
        exact List.mem_map_of_mem hpath
      have hordered := hy.pairwise_paths hr
      rw [Replay.start_eq_ok hr, Replay.items_eq_itemsOf, Replay.items_eq_itemsOf]
      refine Replay.agree_itemsOf (fun path hpath hcurrent _ ↦ ?_)
        (fun path _ hcurrent hgone ↦ ?_) (fun path hpath hcurrent ↦ ?_) hordered
      · exact enter_prune_of_current hkeyed hy hx (hdisk (hreported hpath)) hcurrent
      · refine enter_of_unlisted hkeyed hy hcurrent fun hpath ↦ ?_
        rw [← Tables.mem_reportedPaths] at hpath
        simp [hpath] at hgone
      · obtain ⟨event, henter, -⟩ :=
          enter_prune_of_not_current hx (hdisk (hreported hpath)) hcurrent
        exact ⟨event, henter⟩

def twoFiles : FileSystem where
  entries := ["a", "b"].map fun name ↦
    ([Utf8.encode name], .file { content := Utf8.encode "x\n", modified := {}, mode := 0o644 })

def shadowing : Tables where
  files :=
    [⟨1, "/a", .integer 0, .integer 2⟩, ⟨2, "/a", .integer 0, .integer 1⟩,
      ⟨3, "/b", .integer 0, .integer 2⟩]
  reports :=
    [⟨⟨.integer (-1), .integer 1, "t", "lost"⟩, .integer 1⟩,
      ⟨(⟨1, 1, "t", "found"⟩ : Remark).cells, .integer 3⟩]

def shadowed : World := .single shadowing twoFiles

def uncovered : World := ((Store.single .keepAll).prune shadowed).2.2

theorem shadowing_isKeyed : shadowing.IsKeyed := ⟨by decide, rfl⟩

theorem shadowed_idle : shadowed.Idle 0 (· = 0) shadowing := by
  refine World.single_idle fun l f hmem hdatabase ↦ ?_
  obtain ⟨name, -, he⟩ := List.mem_map.1 hmem
  cases he
  cases hdatabase

theorem uncovered_files : uncovered.files = shadowed.files := rfl

theorem shadowing_removed : ((Store.single .keepAll).prune shadowed).1 = .ok 1 := by
  decide +kernel

/-- The replay before the removal breaks off at the first file and does not come to the second one,
whose only row carries its present fingerprint. -/
theorem shadowed_replays_less :
    let replayed := fun w : World ↦ (Replay.start (.single .keepAll) w).map fun r ↦
      Replay.eventsOn (· == "/b") (Replay.items ((Store.single .keepAll).reads w) r)
    shadowing.isConsistent = true ∧ ((Store.single .keepAll).prune shadowed).1 = .ok 1 ∧
      uncovered.files = shadowed.files ∧
      shadowing.isCurrent shadowed.files "/b" = true ∧ replayed shadowed = .ok [] ∧
      replayed uncovered = .ok [.finding ⟨⟨1, 1, "t", "found"⟩, "/b"⟩] :=
  ⟨rfl, shadowing_removed, uncovered_files, by decide +kernel, by decide +kernel,
    by decide +kernel⟩

theorem shadowing_keeps_newest :
    ∃ u, uncovered.Awaits 0 (single .keepAll).access u ∧ u.idsOf "/a" = [2] ∧ u.idsOf "/b" = [3] ∧
      ∃ r r', Replay.start (.single .keepAll) shadowed = .ok r ∧
        Replay.start (.single .keepAll) uncovered = .ok r' ∧
        Replay.Agree ((Store.single .keepAll).reads shadowed) (shadowing.isCurrent shadowed.files)
          r.paths (Replay.items ((Store.single .keepAll).reads shadowed) r)
          (Replay.items ((Store.single .keepAll).reads uncovered) r') := by
  have ha := single_isOrdinary .keepAll
  have hawaits : shadowed.Awaits 0 (single .keepAll).access shadowing := shadowed_idle.awaits rfl
  obtain ⟨u, hpruned, hkeeps, -, -, hreplays⟩ := prune_keeps_newest ha shadowing_isKeyed hawaits
    shadowing_removed
  have hbefore := hawaits.sees ha (shadowed_idle.isClear rfl ha)
  have hafter : (single .keepAll).Sees uncovered u := hpruned.sees ha (by decide +kernel)
  obtain ⟨-, hagree⟩ := hreplays hbefore hafter fun _ _ _ _ ↦ by rw [uncovered_files]
  have hstart : Replay.start (.single .keepAll) shadowed = .ok ⟨["/a", "/b"], []⟩ := by
    decide +kernel
  obtain ⟨r', hstart', hagree⟩ := hagree _ hstart
  have hfirst : u.idsOf "/a" = [2] := hkeeps.rows "/a"
  have hsecond : u.idsOf "/b" = [3] := hkeeps.rows "/b"
  exact ⟨u, hpruned, hfirst, hsecond, _, r', hstart, hstart', hagree⟩

end Store

end FindingStore
