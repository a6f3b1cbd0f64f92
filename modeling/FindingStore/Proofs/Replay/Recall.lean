import FindingStore.Proofs.FileSystem.Identity
import FindingStore.Proofs.Ledger.Memory
import FindingStore.Proofs.Order
import FindingStore.Proofs.Replay.Items
import FindingStore.Proofs.World.Receiving

namespace FindingStore

namespace Memory

def paths (m : Memory) : List String := Order.sortBy textLe (Order.firstOccurrences m.stored)

def replay (m : Memory) (fs : FileSystem) (path : String) : List ReplayItem :=
  let i := Identity.resolve fs (Path.ofText path)
  if !i.isValid then [.ok (.missing path)]
  else
    match m.remembers { i with path } with
    | none => [.ok (.unmatched path)]
    | some remarks => (findingsAt path (Order.firstOccurrences remarks)).map findingItem

end Memory

theorem Data.text?_eq_ok {d : Data} {index : Nat} {column s : String} :
    d.text? index column = .ok s ↔ Data.text s = d := by
  cases d <;> simp [text?, eq_comm]

theorem Data.mapM_text?_eq_ok (index : Nat) (column : String) {ds : List Data}
    {texts : List String} :
    ds.mapM (Data.text? index column) = .ok texts ↔ ds = texts.map Data.text := by
  rw [mapM_eq_ok_iff (p := fun _ ↦ True) (g := Data.text) fun d s ↦ by
    rw [Data.text?_eq_ok, true_and]]
  exact and_iff_right fun _ _ ↦ trivial

theorem Cell.coordinate?_eq_ok {cell : Cell} {k index : Nat} {column : String} :
    cell.coordinate? index column = .ok k ↔ (k : Int) ≤ maxCoordinate ∧ cell = .integer k := by
  cases cell with
  | integer n =>
    simp only [coordinate?, integer?, bind, Except.bind, integer.injEq]
    split
    · rw [Except.ok.injEq]
      omega
    · simp only [false_iff, reduceCtorEq]
      omega
  | _ => simp [coordinate?, integer?, bind, Except.bind]

theorem Remark.cells_injective {a b : Remark} (h : a.cells = b.cells) : a = b := by
  obtain ⟨line, column, tool, message⟩ := a
  obtain ⟨line', column', tool', message'⟩ := b
  simpa [Remark.cells, Int.natCast_inj] using h

theorem ReportCells.remark?_eq_ok {cells : ReportCells} {r : Remark} :
    cells.remark? = .ok r ↔ r.InRange ∧ r.cells = cells := by
  obtain ⟨line, column, tool, message⟩ := cells
  obtain ⟨line', column', tool', message'⟩ := r
  simp only [ReportCells.remark?, Remark.InRange, Remark.cells, ReportCells.mk.injEq]
  constructor
  · intro h
    obtain ⟨k, hk, h⟩ := bind_eq_ok.1 h
    obtain ⟨n, hn, h⟩ := bind_eq_ok.1 h
    obtain ⟨t, ht, h⟩ := bind_eq_ok.1 h
    obtain ⟨m, hm, h⟩ := bind_eq_ok.1 h
    cases h
    exact ⟨⟨(Cell.coordinate?_eq_ok.1 hk).1, (Cell.coordinate?_eq_ok.1 hn).1⟩,
      (Cell.coordinate?_eq_ok.1 hk).2.symm, (Cell.coordinate?_eq_ok.1 hn).2.symm,
      Data.text?_eq_ok.1 ht, Data.text?_eq_ok.1 hm⟩
  · rintro ⟨⟨hl, hc⟩, rfl, rfl, rfl, rfl⟩
    exact bind_eq_ok.2 ⟨_, Cell.coordinate?_eq_ok.2 ⟨hl, rfl⟩,
      bind_eq_ok.2 ⟨_, Cell.coordinate?_eq_ok.2 ⟨hc, rfl⟩, rfl⟩⟩

theorem Remark.eq_of_remark?_cells {r r' : Remark} (h : r.cells.remark? = .ok r') : r' = r :=
  Remark.cells_injective (ReportCells.remark?_eq_ok.1 h).2

theorem Remark.mapM_remark? {remarks : List Remark} (h : ∀ r ∈ remarks, r.InRange) :
    (remarks.map Remark.cells).mapM ReportCells.remark? = .ok remarks :=
  (mapM_eq_ok_iff fun _ _ ↦ ReportCells.remark?_eq_ok).2 ⟨h, rfl⟩

namespace Store

variable {s : Store} {w : World} {t : Tables}

/-- What a store reads are certain tables. -/
def Sees (s : Store) (w : World) (t : Tables) : Prop :=
  ∀ q : Query, q.writes = false → s.ask w q = (t.apply false q).map Prod.fst

theorem Sees.ask_reportsOf (h : s.Sees w t) (id : Int) :
    s.ask w (.reportsOf id) = (t.reportsOf id).mapM ReportCells.remark? := by
  refine (h _ rfl).trans ?_
  simp only [Tables.apply]
  cases (t.reportsOf id).mapM ReportCells.remark? <;> rfl

/-- What a replay finds at a path is what the tables hold about the file in its present state. -/
theorem Sees.enter_eq (h : s.Sees w t) (path : String) :
    (s.reads w path).enter path =
      let i := Identity.resolve w.files (Path.ofText path)
      if !i.isValid then .error (.ok (.missing path))
      else
        match t.matching? path i.mtime i.size with
        | none => .error (.ok (.unmatched path))
        | some id =>
          match (t.reportsOf id).mapM ReportCells.remark? with
          | .error e => .error (.error (.sql "load reports" e))
          | .ok remarks => .ok (findingsAt path remarks) := by
  have hidentity : (s.reads w path).identity = Identity.resolve w.files (Path.ofText path) := rfl
  have hmatching (mtime : Int) (size : Nat) :
      (s.reads w path).matching mtime size = .ok (t.matching? path mtime size) := h _ rfl
  have hreports (id : Int) :
      (s.reads w path).reports id = (t.reportsOf id).mapM ReportCells.remark? := h.ask_reportsOf id
  unfold PathReads.enter
  simp only [hidentity, hmatching, hreports]
  split
  · rfl
  · cases t.matching? path (Identity.resolve w.files (Path.ofText path)).mtime
      (Identity.resolve w.files (Path.ofText path)).size with
    | none => rfl
    | some id => cases (t.reportsOf id).mapM ReportCells.remark? <;> rfl

theorem Sees.enter_of_some (h : s.Sees w t) {path : String} {i : Identity}
    (hi : w.files.resolved? (Path.ofText path) = some i) :
    (s.reads w path).enter path =
      match t.matching? path i.mtime i.size with
      | none => .error (.ok (.unmatched path))
      | some id =>
        match (t.reportsOf id).mapM ReportCells.remark? with
        | .error e => .error (.error (.sql "load reports" e))
        | .ok remarks => .ok (findingsAt path remarks) := by
  obtain ⟨hresolve, hvalid⟩ := FileSystem.resolved?_eq_some.1 hi
  rw [h.enter_eq, hresolve]
  simp only [hvalid, Bool.not_true, Bool.false_eq_true, if_false]

theorem Sees.enter_of_none (h : s.Sees w t) {path : String}
    (hi : w.files.resolved? (Path.ofText path) = none) :
    (s.reads w path).enter path = .error (.ok (.missing path)) := by
  rw [h.enter_eq]
  unfold FileSystem.resolved? at hi
  split at hi
  · cases hi
  · next hvalid => simp only [Bool.eq_false_iff.2 hvalid, Bool.not_false, if_true]

theorem Sees.ask_reportedPaths (h : s.Sees w t) :
    s.ask w .reportedPaths = t.reportedPaths.mapM (Data.text? 0 "path") := by
  refine (h _ rfl).trans ?_
  simp only [Tables.apply]
  cases t.reportedPaths.mapM (Data.text? 0 "path") <;> rfl

theorem Sees.start_eq_ok (h : s.Sees w t) {r : Replay} :
    Replay.start s w = .ok r ↔ t.reportedPaths = r.paths.map Data.text ∧ r.findings = [] := by
  obtain ⟨paths, findings⟩ := r
  rw [Replay.start, h.ask_reportedPaths, ← Data.mapM_text?_eq_ok 0 "path"]
  cases t.reportedPaths.mapM (Data.text? 0 "path") <;> simp [eq_comm]

theorem Sees.start_eq_error (h : s.Sees w t) {e : StoreError} :
    Replay.start s w = .error e ↔
      ∃ e', t.reportedPaths.mapM (Data.text? 0 "path") = .error e' ∧ e = .sql "list paths" e' := by
  rw [Replay.start, h.ask_reportedPaths]
  cases t.reportedPaths.mapM (Data.text? 0 "path") <;> simp [eq_comm]

/-- A replayed finding on a file is one of those that the tables hold about it in its present
state. -/
theorem Sees.cells_of_replayed (h : s.Sees w t) {r : Replay} {f : Finding} {i : Identity}
    (hr : Replay.start s w = .ok r) (hf : findingItem f ∈ Replay.items (s.reads w) r)
    (hi : w.files.resolved? (Path.ofText f.path) = some i) :
    ∃ id cells, t.matching? f.path i.mtime i.size = some id ∧ cells ∈ t.cellsOf id ∧
      cells.remark? = .ok f.toRemark := by
  rw [Replay.start_eq_ok hr, Replay.items_eq_itemsOf] at hf
  obtain ⟨findings, henter, hf⟩ := Replay.enter_of_mem_itemsOf hf
  rw [h.enter_of_some hi] at henter
  split at henter
  · cases henter
  · next id hid =>
    split at henter
    · cases henter
    · next remarks hremarks =>
      cases henter
      obtain ⟨remark, hremark, he⟩ := List.mem_map.1 hf
      obtain ⟨cells, hcells, hread⟩ := exists_of_mapM_eq_ok hremarks hremark
      rw [← congrArg Finding.toRemark he]
      exact ⟨id, cells, hid, Order.mem_firstOccurrences.1 hcells, hread⟩

theorem ask_of_reach {a : Access} {v : World} (h : w.reach s.database s.access = (a, v))
    (q : Query) : s.ask w q = ((v.database s.database).execute a (.query q)).1 := by
  simp only [Store.ask, Store.connection, World.execute, World.needsFile, if_true, h]

end Store

namespace World.Awaits

variable {s : Store} {w : World} {t : Tables}

theorem sees (h : w.Awaits s.database s.access t) (ha : s.access.IsOrdinary)
    (hclear : w.IsClear s.database s.access) : s.Sees w t := by
  obtain ⟨sight, j, v, hreach, -, hv, -⟩ := h.reach ha
  have hnone : sight = none := by
    rw [IsClear, hreach] at hclear
    exact hclear
  intro q hq
  rw [Store.ask_of_reach hreach]
  exact congrArg Prod.fst (hv.rests.read (a := { s.access with sight, journalError := j })
    ha.isFrozen hnone hq)

theorem blind (h : w.Awaits s.database s.access t) (ha : s.access.IsOrdinary)
    (hclear : ¬w.IsClear s.database s.access) (q : Query) : ∃ e, s.ask w q = .error e := by
  obtain ⟨sight, j, v, hreach, -, hv, ⟨rfl, -⟩ | ⟨⟨e, rfl⟩, -⟩⟩ := h.reach ha
  · exact absurd (by rw [IsClear, hreach]) hclear
  · rw [Store.ask_of_reach hreach]
    exact hv.rests.stands.blind
      (a := { s.access with sight := some (.unusable e), journalError := j })
      ⟨ha.writes.1, ha.writes.2, ha.writes.3⟩ (Database.avoids_none _) rfl q

theorem start_of_not_isClear (h : w.Awaits s.database s.access t) (ha : s.access.IsOrdinary)
    (hclear : ¬w.IsClear s.database s.access) : ∃ e, Replay.start s w = .error e := by
  obtain ⟨e, he⟩ := h.blind ha hclear .reportedPaths
  exact ⟨_, by rw [Replay.start, he]⟩

theorem isClear_of_start (h : w.Awaits s.database s.access t) (ha : s.access.IsOrdinary)
    {r : Replay} (hr : Replay.start s w = .ok r) : w.IsClear s.database s.access := by
  by_contra hclear
  obtain ⟨e, he⟩ := h.start_of_not_isClear ha hclear
  cases hr.symm.trans he

theorem look (h : w.Awaits s.database s.access t) (ha : s.access.IsOrdinary) :
    (s.look w).Awaits s.database s.access t ∧ w.Retains (s.look w) s.database ∧
      ((s.look w).IsClear s.database s.access ↔ w.IsClear s.database s.access) := by
  obtain ⟨sight, j, v, hreach, hretains, hv, hsight⟩ := h.reach ha
  have hlook : s.look w = v.learn s.database { s.access with sight, journalError := j } := by
    rw [Store.look, hreach]
  have hlearned := hv.receives.holds.retains_learn { s.access with sight, journalError := j }
  have hagrees := (hv.receives.holds.learn { s.access with sight, journalError := j }).agrees
  rw [hlook]
  have hawaits : (v.learn s.database { s.access with sight, journalError := j }).Awaits
      s.database s.access t := ⟨hlearned.receives hv.receives, hagrees.rests hv.rests⟩
  refine ⟨hawaits, hretains.trans hlearned, ?_⟩
  have hclear : w.IsClear s.database s.access ↔ sight = none := by rw [IsClear, hreach]
  rw [hclear]
  rcases hsight with ⟨rfl, hu⟩ | ⟨⟨e, rfl⟩, hagain⟩
  · refine iff_of_true ?_ rfl
    have hidle : (v.learn s.database { s.access with sight := none, journalError := j }).Idle
        s.database (· = s.access.cache) t :=
      ⟨⟨hawaits.receives.holds, fun _ hc ↦ hc ▸ hlearned.usesLog hu⟩, hawaits.rests⟩
    exact hidle.isClear rfl ha
  · -- nothing has been learned, so that the session finds the world as it has left it
    refine iff_of_false (fun hclear ↦ hagain ?_) (Option.some_ne_none _)
    obtain ⟨e', hview⟩ := hv.rests.stands.view_of_blind
      (a := { s.access with sight := some (.unusable e), journalError := j })
      ⟨ha.writes.1, ha.writes.2, ha.writes.3⟩ (Database.avoids_none _) rfl
    rwa [learn_of_unusable hv.receives.holds.opened hview] at hclear

end World.Awaits

namespace Tables.Represents

variable {t : Tables} {m : Memory}

theorem reportedPaths_eq (h : t.Represents m) : t.reportedPaths = m.paths.map Data.text := by
  have hsorted : m.paths.map Data.text =
      Order.sortBy Data.le (Order.firstOccurrences (m.stored.map Data.text)) := by
    rw [Order.firstOccurrences_map fun _ _ ↦ Data.text.inj, Order.sortBy_map Data.text_le]
    rfl
  rw [hsorted]
  refine Order.sortBy_firstOccurrences_congr Data.isLinear_le fun d ↦ ?_
  simp only [List.mem_map, List.mem_filter, List.any_eq_true, beq_iff_eq, ← h.reported]
  constructor
  · rintro ⟨f, ⟨hf, hreports⟩, rfl⟩
    obtain ⟨path, hpath⟩ := h.named hf
    exact ⟨path, ⟨f, hf, hpath, hreports⟩, hpath.symm⟩
  · rintro ⟨path, ⟨f, hf, hpath, hreports⟩, rfl⟩
    exact ⟨f, ⟨hf, hreports⟩, hpath⟩

theorem remarks_eq (h : t.Represents m) {i : Identity} {remarks : List Remark}
    (hm : m.remembers i = some remarks) {id : Int}
    (hid : t.matching? i.path i.mtime i.size = some id) :
    (t.reportsOf id).mapM ReportCells.remark? = .ok (Order.firstOccurrences remarks) := by
  have hcells : t.cellsOf id = remarks.map Remark.cells := by
    have := h.remembers i
    rw [hid, hm] at this
    exact Option.some.inj this
  have hreports : t.reportsOf id = (Order.firstOccurrences remarks).map Remark.cells := by
    rw [← Order.firstOccurrences_map fun _ _ ↦ Remark.cells_injective, ← hcells]
    rfl
  rw [hreports]
  exact Remark.mapM_remark? fun r hr ↦ h.inRange hm r (Order.mem_firstOccurrences.1 hr)

variable {s : Store} {w : World} (h : t.Represents m) (hs : s.Sees w t)

include h hs

theorem enter_eq (path : String) :
    (s.reads w path).enter path =
      let i := Identity.resolve w.files (Path.ofText path)
      if !i.isValid then .error (.ok (.missing path))
      else
        match m.remembers { i with path } with
        | none => .error (.ok (.unmatched path))
        | some remarks => .ok (findingsAt path (Order.firstOccurrences remarks)) := by
  have hremembers := h.remembers { Identity.resolve w.files (Path.ofText path) with path }
  rw [hs.enter_eq]
  dsimp only at hremembers ⊢
  split
  · rfl
  · cases hmatch : t.matching? path (Identity.resolve w.files (Path.ofText path)).mtime
        (Identity.resolve w.files (Path.ofText path)).size with
    | none =>
      rw [hmatch, Option.map_none] at hremembers
      rw [Option.map_eq_none_iff.1 hremembers.symm]
    | some id =>
      rw [hmatch, Option.map_some] at hremembers
      obtain ⟨remarks, hm, -⟩ := Option.map_eq_some_iff.1 hremembers.symm
      simp only [hm, h.remarks_eq hm hmatch]

theorem items_eq (path : String) : (s.reads w path).items path = m.replay w.files path := by
  rw [PathReads.items, h.enter_eq hs, Memory.replay]
  dsimp only
  by_cases hvalid : (!(Identity.resolve w.files (Path.ofText path)).isValid) = true
  · simp only [if_pos hvalid]
  · simp only [if_neg hvalid]
    cases m.remembers { Identity.resolve w.files (Path.ofText path) with path } <;> rfl

theorem start_eq : Replay.start s w = .ok ⟨m.paths, []⟩ :=
  hs.start_eq_ok.2 ⟨h.reportedPaths_eq, rfl⟩

/-- A replay yields what the map says about the stored paths, in the order of their bytes. -/
theorem items_start :
    Replay.items (s.reads w) ⟨m.paths, []⟩ = m.paths.flatMap (m.replay w.files) := by
  rw [Replay.items_eq_itemsOf, Replay.itemsOf_eq_flatMap]
  · exact congrArg (List.flatMap · m.paths) (funext (h.items_eq hs))
  · intro path _ e
    rw [h.enter_eq hs]
    dsimp only
    split
    · exact nofun
    · split <;> exact nofun

end Tables.Represents

end FindingStore
