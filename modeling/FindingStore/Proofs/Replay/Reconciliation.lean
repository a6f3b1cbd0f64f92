import Mathlib.Data.List.Forall2
import FindingStore.Proofs.Replay.Recall

namespace FindingStore

namespace Identity

theorem isValid_ofEntry (fs : FileSystem) (l : Location) (e : Entry) :
    (ofEntry fs l e).isValid = true := by
  have hnonempty (bytes : Bytes) : Path.display (Path.slash :: bytes) ≠ "" := by
    intro h
    have hchars : Utf8.shownChars (Path.slash :: bytes) = [] := String.ofList_eq_empty_iff.1 h
    cases hchars
  rw [isValid, bne_iff_ne, FileSystem.path_ofEntry, Location.toPath]
  cases l with
  | nil => exact hnonempty []
  | cons name rest => exact hnonempty _

theorem isValid_of_resolve? {fs : FileSystem} {p : Path} {i : Identity}
    (h : resolve? fs p = .ok i) : i.isValid = true := by
  obtain ⟨l, -, h⟩ := bind_eq_ok.1 h
  obtain ⟨e, -, he⟩ := bind_eq_ok.1 h
  cases he
  exact isValid_ofEntry fs l e

end Identity

theorem ReportCells.mapM_remark? (rows : List ReportCells) :
    (∃ remarks, rows.mapM ReportCells.remark? = .ok remarks ∧ rows = remarks.map Remark.cells ∧
        ∀ r ∈ remarks, r.InRange) ∨
      ∃ (e : SqlError) (before : List Remark) (cells : ReportCells) (rest : List ReportCells),
        rows.mapM ReportCells.remark? = .error e ∧
        rows = before.map Remark.cells ++ cells :: rest ∧ (∀ r ∈ before, r.InRange) ∧
        cells.remark? = .error e := by
  have hread {rows : List ReportCells} {remarks : List Remark} :
      rows.mapM ReportCells.remark? = .ok remarks ↔
        (∀ r ∈ remarks, r.InRange) ∧ rows = remarks.map Remark.cells :=
    mapM_eq_ok_iff fun _ _ ↦ ReportCells.remark?_eq_ok
  cases h : rows.mapM ReportCells.remark? with
  | ok remarks =>
    obtain ⟨hrange, hrows⟩ := hread.1 h
    exact .inl ⟨remarks, rfl, hrows, hrange⟩
  | error e =>
    obtain ⟨rows', cells, rest, before, rfl, hbefore, he⟩ := mapM_eq_error.1 h
    obtain ⟨hrange, rfl⟩ := hread.1 hbefore
    exact .inr ⟨e, before, cells, rest, rfl, rfl, hrange, he⟩

namespace Tables

def IsReported (t : Tables) (d : Data) : Prop :=
  ∃ f ∈ t.files, f.path = d ∧ ∃ report ∈ t.reports, report.file = .integer f.id

theorem mem_reportedPaths {t : Tables} {d : Data} : d ∈ t.reportedPaths ↔ t.IsReported d := by
  rw [reportedPaths, Order.mem_sortBy, Order.mem_firstOccurrences, IsReported]
  simp only [List.mem_map, List.mem_filter, List.any_eq_true, beq_iff_eq]
  constructor
  · rintro ⟨f, ⟨hf, hreport⟩, rfl⟩
    exact ⟨f, hf, rfl, hreport⟩
  · rintro ⟨f, hf, rfl, hreport⟩
    exact ⟨f, ⟨hf, hreport⟩, rfl⟩

/-- The first path with a report that is no text, and the error with which it is read. -/
structure Spoils (t : Tables) (d : Data) (e : SqlError) : Prop where
  reported : t.IsReported d
  error : d.text? 0 "path" = .error e
  first : ∀ d', t.IsReported d' → d'.le d = true → d' = d ∨ ∃ path : String, d' = path

theorem spoils_of_mapM {t : Tables} {e : SqlError}
    (h : t.reportedPaths.mapM (Data.text? 0 "path") = .error e) : ∃ d, t.Spoils d e := by
  obtain ⟨before, d, rest, texts, hpaths, hbefore, he⟩ := mapM_eq_error.1 h
  obtain rfl := (Data.mapM_text?_eq_ok 0 "path").1 hbefore
  refine ⟨d, mem_reportedPaths.1 (by simp [hpaths]), he, fun d' hd' hle ↦ ?_⟩
  have hsorted : t.reportedPaths.Pairwise (Data.le · · = true) :=
    Order.pairwise_sortBy Data.isLinear_le.toIsTotal _
  rw [hpaths] at hsorted
  rw [← mem_reportedPaths, hpaths, List.mem_append, List.mem_cons] at hd'
  rcases hd' with hd' | rfl | hd'
  · obtain ⟨path, -, rfl⟩ := List.mem_map.1 hd'
    exact .inr ⟨path, rfl⟩
  · exact .inl rfl
  · have hafter := (List.pairwise_cons.1 (List.pairwise_append.1 hsorted).2.1).1 d' hd'
    exact .inl (Data.isLinear_le.antisymm hle hafter)

structure IsNewest (t : Tables) (i : Identity) (row : FileRow) : Prop where
  mem : row ∈ t.files
  carries : row.carries i = true
  newest : ∀ r ∈ t.files, r.carries i = true → r.id ≤ row.id

theorem matching?_eq_none {t : Tables} {i : Identity} :
    t.matching? i.path i.mtime i.size = none ↔ ∀ row ∈ t.files, row.carries i = false := by
  rw [matching?_eq_largest?, largest?_eq_none, List.map_eq_nil_iff, List.filter_eq_nil_iff]
  exact forall₂_congr fun row _ ↦ by rw [Bool.not_eq_true]

theorem exists_isNewest {t : Tables} {i : Identity} {id : Int}
    (h : t.matching? i.path i.mtime i.size = some id) : ∃ row, t.IsNewest i row ∧ row.id = id := by
  rw [matching?_eq_largest?] at h
  obtain ⟨hmem, hmax⟩ := largest?_eq_some.1 h
  obtain ⟨row, hrow, rfl⟩ := List.mem_map.1 hmem
  obtain ⟨hrow, hcarries⟩ := List.mem_filter.1 hrow
  refine ⟨row, ⟨hrow, hcarries, ?_⟩, rfl⟩
  intro r hr hc
  exact hmax r.id (List.mem_map_of_mem (List.mem_filter.2 ⟨hr, hc⟩))

/-- What rows and files say together about a path: it leads nowhere, no row carries its
fingerprint, or else the reports of the newest such row count, each once and where it first came.
One that cannot be read takes the place of all. -/
inductive Reconciles (t : Tables) (fs : FileSystem) (path : String) :
    Except StoreError (List ReplayEvent) → Prop
  | missing {e : IoError} :
      Identity.resolve? fs (Path.ofText path) = .error e →
        Reconciles t fs path (.ok [.missing path])
  | unmatched {i : Identity} :
      Identity.resolve? fs (Path.ofText path) = .ok i →
        (∀ row ∈ t.files, row.carries { i with path } = false) →
        Reconciles t fs path (.ok [.unmatched path])
  | findings {i : Identity} {row : FileRow} {remarks : List Remark} :
      Identity.resolve? fs (Path.ofText path) = .ok i → t.IsNewest { i with path } row →
        Order.Folds (t.cellsOf row.id) (remarks.map Remark.cells) → (∀ r ∈ remarks, r.InRange) →
        Reconciles t fs path (.ok ((findingsAt path remarks).map .finding))
  | failure {i : Identity} {row : FileRow} {before : List Remark} {cells : ReportCells}
      {rest : List ReportCells} {e : SqlError} :
      Identity.resolve? fs (Path.ofText path) = .ok i → t.IsNewest { i with path } row →
        Order.Folds (t.cellsOf row.id) (before.map Remark.cells ++ cells :: rest) →
        (∀ r ∈ before, r.InRange) → cells.remark? = .error e →
        Reconciles t fs path (.error (.sql "load reports" e))

end Tables

def answerOf : Except ReplayItem (List Finding) → Except StoreError (List ReplayEvent)
  | .error (.ok event) => .ok [event]
  | .error (.error e) => .error e
  | .ok findings => .ok (findings.map .finding)

namespace Replay

def listing : List (Except StoreError (List ReplayEvent)) → List ReplayItem
  | [] => []
  | .error e :: _ => [.error e]
  | .ok events :: rest => events.map .ok ++ listing rest

theorem itemsOf_eq_listing (reads : String → PathReads) (paths : List String) :
    itemsOf reads paths = listing (paths.map fun path ↦ answerOf ((reads path).enter path)) := by
  induction paths with
  | nil => rfl
  | cons path rest ih =>
    rw [itemsOf, List.map_cons]
    rcases (reads path).enter path with (e | event) | findings
    · rfl
    · exact congrArg _ ih
    · simp only [answerOf, listing, List.map_map, ih]
      rfl

def nth (reads : String → PathReads) : Nat → Replay → Option ReplayItem
  | 0, r => (r.next reads).1
  | k + 1, r => nth reads k (r.next reads).2

def remaining (reads : String → PathReads) (r : Replay) : List ReplayItem :=
  r.findings.map findingItem ++ itemsOf reads r.paths

variable {reads : String → PathReads}

theorem itemsOf_eq_nextPath (paths : List String) :
    itemsOf reads paths =
        (nextPath reads paths).1.toList ++ remaining reads (nextPath reads paths).2 ∧
      ((nextPath reads paths).1 = none → remaining reads (nextPath reads paths).2 = []) := by
  induction paths with
  | nil => exact ⟨rfl, fun _ ↦ rfl⟩
  | cons path rest ih =>
    unfold itemsOf nextPath
    have hsome {i : ReplayItem} {r : Replay} (h : some i = none) : remaining reads r = [] := by
      cases h
    rcases (reads path).enter path with (e | event) | (_ | ⟨f, more⟩)
    · exact ⟨rfl, hsome⟩
    · exact ⟨rfl, hsome⟩
    · exact ih
    · exact ⟨rfl, hsome⟩

variable (reads) in
/-- A call takes the first of the items that are left; without one, none is left. -/
theorem remaining_eq_next (r : Replay) :
    remaining reads r = (r.next reads).1.toList ++ remaining reads (r.next reads).2 ∧
      ((r.next reads).1 = none → remaining reads (r.next reads).2 = []) := by
  obtain ⟨paths, findings⟩ := r
  cases findings with
  | nil => exact itemsOf_eq_nextPath paths
  | cons f more => exact ⟨rfl, nofun⟩

theorem nth_eq_remaining (k : Nat) (r : Replay) : nth reads k r = (remaining reads r)[k]? := by
  induction k generalizing r with
  | zero =>
    obtain ⟨hnext, hend⟩ := remaining_eq_next reads r
    rw [nth, hnext]
    cases h : (r.next reads).1 with
    | none => rw [hend h]; rfl
    | some item => rfl
  | succ k ih =>
    obtain ⟨hnext, hend⟩ := remaining_eq_next reads r
    rw [nth, ih, hnext]
    cases h : (r.next reads).1 with
    | none => rw [hend h]; rfl
    | some item => rfl

end Replay

namespace Store

variable {s : Store} {w : World} {t : Tables}

theorem Sees.reconciles_enter (h : s.Sees w t) (path : String) :
    t.Reconciles w.files path (answerOf ((s.reads w path).enter path)) := by
  rw [h.enter_eq, Identity.resolve]
  cases hi : Identity.resolve? w.files (Path.ofText path) with
  | error e => exact .missing hi
  | ok i =>
    simp only [Except.toOption, Option.getD_some, Identity.isValid_of_resolve? hi, Bool.not_true,
      Bool.false_eq_true, if_false]
    cases hmatch : t.matching? path i.mtime i.size with
    | none => exact .unmatched hi (Tables.matching?_eq_none (i := { i with path }).1 hmatch)
    | some id =>
      obtain ⟨row, hrow, rfl⟩ := Tables.exists_isNewest (i := { i with path }) hmatch
      have hfolds := Order.folds_firstOccurrences (t.cellsOf row.id)
      change Order.Folds _ (t.reportsOf row.id) at hfolds
      rcases ReportCells.mapM_remark? (t.reportsOf row.id) with
        ⟨remarks, hread, hrows, hrange⟩ | ⟨e, before, cells, rest, hread, hrows, hrange, he⟩
      · rw [hrows] at hfolds
        simp only [hread]
        exact .findings hi hrow hfolds hrange
      · rw [hrows] at hfolds
        simp only [hread]
        exact .failure hi hrow hfolds hrange he

theorem Sees.pairwise_paths (h : s.Sees w t) {r : Replay} (hr : Replay.start s w = .ok r) :
    r.paths.Pairwise fun p q ↦ Utf8.encode p < Utf8.encode q := by
  have hnodup : t.reportedPaths.Nodup :=
    (Order.sortBy_perm _ _).nodup_iff.2 (Order.firstOccurrences_nodup _)
  have hsorted : t.reportedPaths.Pairwise (Data.le · · = true) :=
    Order.pairwise_sortBy Data.isLinear_le.toIsTotal _
  rw [(h.start_eq_ok.1 hr).1] at hnodup hsorted
  refine ((List.pairwise_map.1 hsorted).and (List.pairwise_map.1 hnodup)).imp ?_
  rintro p q ⟨hle, hne⟩
  rw [Data.text_le] at hle
  exact (List.le_iff_lt_or_eq.1 (of_decide_eq_true hle)).resolve_right
    fun he ↦ hne (congrArg Data.text (Utf8.encode_injective he))

open World in
/-- Whatever rows there are, a replay visits the paths with a report once and in the order of their
bytes. Its calls yield what rows and files say together about them, up to the first error, and then
nothing more. It does not start only if something stands between the store and its file, or one of
the paths is no text; then it fails with the first of these. -/
theorem replay_reconciles (ha : s.access.IsOrdinary) (hw : w.Awaits s.database s.access t) :
    (∀ e, Replay.start s w = .error e → ¬w.IsClear s.database s.access ∨
      ∃ d e', t.Spoils d e' ∧ e = .sql "list paths" e') ∧
      ∀ r, Replay.start s w = .ok r →
        r.paths.Pairwise (fun p q ↦ Utf8.encode p < Utf8.encode q) ∧
        (∀ d, t.IsReported d ↔ ∃ path ∈ r.paths, Data.text path = d) ∧
        ∃ answers, List.Forall₂ (t.Reconciles w.files) r.paths answers ∧
          ∀ k, Replay.nth (s.reads w) k r = (Replay.listing answers)[k]? := by
  constructor
  · intro e he
    by_cases hclear : w.IsClear s.database s.access
    · obtain ⟨e', he', rfl⟩ := (hw.sees ha hclear).start_eq_error.1 he
      obtain ⟨d, hd⟩ := Tables.spoils_of_mapM he'
      exact .inr ⟨d, e', hd, rfl⟩
    · exact .inl hclear
  · intro r hr
    have hsees := hw.sees ha (hw.isClear_of_start ha hr)
    obtain ⟨hpaths, hfindings⟩ := hsees.start_eq_ok.1 hr
    refine ⟨hsees.pairwise_paths hr, fun d ↦ ?_,
      r.paths.map fun path ↦ answerOf ((s.reads w path).enter path), ?_, fun k ↦ ?_⟩
    · rw [← Tables.mem_reportedPaths, hpaths, List.mem_map]
    · exact List.forall₂_map_right_iff.2
        (List.forall₂_same.2 fun path _ ↦ hsees.reconciles_enter path)
    · rw [Replay.nth_eq_remaining, ← Replay.itemsOf_eq_listing, Replay.remaining, hfindings]
      rfl

def scattered : Tables where
  files :=
    [⟨1, "/file", .integer 0, .integer 0⟩, ⟨2, "/", .integer 0, .integer 120⟩,
      ⟨3, "/gone", .integer 0, .real 0⟩, ⟨4, .blob [0x2F], .integer 0, .integer 0⟩]
  reports :=
    [⟨(⟨1, 1, "t", "twice"⟩ : Remark).cells, .integer 2⟩,
      ⟨(⟨0, 0, "t", "once"⟩ : Remark).cells, .integer 2⟩,
      ⟨(⟨1, 1, "t", "twice"⟩ : Remark).cells, .integer 2⟩,
      ⟨(⟨1, 1, "t", "lost"⟩ : Remark).cells, .integer 3⟩,
      ⟨(⟨1, 1, "t", "read"⟩ : Remark).cells, .integer 1⟩,
      ⟨⟨.integer 1, .integer 1, .blob [], "odd"⟩, .integer 1⟩]

theorem fresh_replays_scattered :
    let w := (Store.single .keepAll).look (.fresh scattered [])
    let reads := (Store.single .keepAll).reads w
    ∃ r, Replay.start (.single .keepAll) w = .ok r ∧
      (∃ answers, List.Forall₂ (scattered.Reconciles w.files) r.paths answers ∧
        ∀ k, Replay.nth reads k r = (Replay.listing answers)[k]?) ∧
      Replay.nth reads 0 r = some (findingItem ⟨⟨1, 1, "t", "twice"⟩, "/"⟩) ∧
      Replay.nth reads 1 r = some (findingItem ⟨⟨0, 0, "t", "once"⟩, "/"⟩) ∧
      Replay.nth reads 2 r = some (.error (.sql "load reports" (.wrongClass .blob 2 "tool"))) ∧
      Replay.nth reads 3 r = none := by
  intro w reads
  have hawaits : w.Awaits 0 (Store.single .keepAll).access scattered :=
    ((World.fresh_awaits scattered [] .keepAll).look (Store.single_isOrdinary .keepAll)).1
  have hstart : Replay.start (.single .keepAll) w = .ok ⟨["/", "/file", "/gone"], []⟩ := by
    decide +kernel
  obtain ⟨-, -, hanswers⟩ :=
    (replay_reconciles (Store.single_isOrdinary .keepAll) hawaits).2 _ hstart
  refine ⟨_, hstart, hanswers, ?_, ?_, ?_, ?_⟩ <;> decide +kernel

/-- One of the paths is no text, and nothing is replayed. -/
example : Replay.start (.single .keepAll) (.fresh
      { files := [⟨1, "/file", .integer 0, .integer 0⟩, ⟨2, .blob [0x2F], .integer 0, .integer 0⟩]
        reports := [⟨(⟨1, 1, "t", "m"⟩ : Remark).cells, .integer 1⟩,
          ⟨(⟨1, 1, "t", "m"⟩ : Remark).cells, .integer 2⟩] } []) =
    .error (.sql "list paths" (.wrongClass .blob 0 "path")) := by
  decide +kernel

end Store

end FindingStore
