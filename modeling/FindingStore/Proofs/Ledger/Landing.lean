import FindingStore.Ledger
import FindingStore.Proofs.Database.Rows
import FindingStore.Proofs.Outcome
import FindingStore.Proofs.Store.Attempts

namespace FindingStore

/-- Whether a pending file gets a row: it has findings, or it is marked and known. -/
def RunFile.isDue (t : Tables) (f : RunFile) : Bool :=
  f.hasFindings || f.marked && (t.latest? f.identity.path).isSome

def RunFile.row (f : RunFile) (id : Int) : FileRow :=
  ⟨id, f.identity.path, .integer f.identity.mtime, .integer f.identity.size⟩

def Remark.cells (r : Remark) : ReportCells where
  line := .integer r.line
  column := .integer r.column
  tool := r.tool
  message := r.message

def Remark.report (r : Remark) (file : Int) : ReportRow := { r.cells with file }

namespace Tables

variable (t : Tables)

def due (files : List RunFile) : List RunFile := files.filter (RunFile.isDue t)

def rowId (files : List RunFile) (n : Nat) : Int := t.nextId + (t.due (files.take n)).length

def newRows (files : List RunFile) : List FileRow :=
  (t.due files).zipIdx.map fun (f, k) ↦ f.row (t.nextId + k)

/-- Whether an old row goes: only the newest row of each path of the run is kept if superseded
rows are pruned. -/
def isReplaced (retention : Retention) (files : List RunFile) (r : FileRow) : Bool :=
  retention == .pruneSuperseded && (t.due files).any fun f ↦ r.path == .text f.identity.path

def landFiles (retention : Retention) (files : List RunFile) : Tables :=
  (t.deleteFiles (t.isReplaced retention files)).withFiles (t.newRows files)

def newReports (files : List RunFile) (staged : List RunFinding) : List ReportRow :=
  staged.map fun f ↦ f.toRemark.report (t.rowId files f.file)

def land (retention : Retention) (files : List RunFile) (staged : List RunFinding) : Tables :=
  let landed := t.landFiles retention files
  { landed with reports := landed.reports ++ t.newReports files staged }

def landCounts (retention : Retention) (files : List RunFile) (staged : List RunFinding) :
    CommitCounts where
  files := (t.newRows files).length
  findings := (t.newReports files staged).length
  pruned := (t.files.filter (t.isReplaced retention files)).length

variable {t} {retention : Retention} {files : List RunFile} {f : RunFile}

theorem due_append (files more : List RunFile) :
    t.due (files ++ more) = t.due files ++ t.due more :=
  List.filter_append ..

theorem due_singleton (h : f.isDue t = true) : t.due [f] = [f] := by simp [due, h]

theorem due_append_of_not (files : List RunFile) (h : f.isDue t = false) :
    t.due (files ++ [f]) = t.due files := by
  simp [due, h]

@[simp] theorem length_newRows : (t.newRows files).length = (t.due files).length := by
  simp [newRows]

theorem newRows_append (files more : List RunFile) : t.newRows (files ++ more) =
    t.newRows files ++ (t.due more).zipIdx.map fun (f, k) ↦
      f.row (t.nextId + ((t.due files).length + k : Nat)) := by
  simp only [newRows, due_append, List.zipIdx_append, List.map_append, List.append_cancel_left_eq,
    Nat.zero_add]
  rw [List.zipIdx_eq_map_add, List.map_map]
  rfl

theorem mem_newRows {r : FileRow} : r ∈ t.newRows files ↔
    ∃ (k : Nat) (f : RunFile), (t.due files)[k]? = some f ∧ r = f.row (t.nextId + k) := by
  simp only [newRows, List.mem_map, Prod.exists, List.mk_mem_zipIdx_iff_getElem?]
  constructor
  · rintro ⟨f, k, hk, rfl⟩
    exact ⟨k, f, hk, rfl⟩
  · rintro ⟨k, f, hk, rfl⟩
    exact ⟨f, k, hk, rfl⟩

theorem path_of_mem_newRows {r : FileRow} (h : r ∈ t.newRows files) :
    ∃ f ∈ t.due files, r.path = f.identity.path := by
  obtain ⟨k, f, hf, rfl⟩ := mem_newRows.1 h
  exact ⟨f, List.mem_of_getElem? hf, rfl⟩

theorem exists_getElem?_of_filter {p : RunFile → Bool} {k : Nat}
    (h : (files.filter p)[k]? = some f) :
    ∃ n, files[n]? = some f ∧ p f = true ∧ ((files.take n).filter p).length = k := by
  induction files generalizing k with
  | nil => cases h
  | cons g rest ih =>
    cases hp : p g with
    | false =>
      rw [List.filter_cons_of_neg (by simp [hp])] at h
      obtain ⟨n, hn, hpf, hk⟩ := ih h
      exact ⟨n + 1, hn, hpf, by simp [hp, hk]⟩
    | true =>
      rw [List.filter_cons_of_pos hp] at h
      cases k with
      | zero =>
        cases h
        exact ⟨0, rfl, hp, rfl⟩
      | succ k =>
        obtain ⟨n, hn, hpf, hk⟩ := ih h
        exact ⟨n + 1, hn, hpf, by simp [hp, hk]⟩

theorem row_mem_newRows {n : Nat} (hf : files[n]? = some f) (hdue : f.isDue t = true) :
    f.row (t.rowId files n) ∈ t.newRows files := by
  obtain ⟨hn, hget⟩ := List.getElem?_eq_some_iff.1 hf
  have hsplit : files = files.take n ++ (f :: files.drop (n + 1)) := by
    rw [← hget, ← List.drop_eq_getElem_cons hn, List.take_append_drop]
  refine mem_newRows.2 ⟨(t.due (files.take n)).length, f, ?_, rfl⟩
  rw [hsplit, due_append, ← hsplit, List.getElem?_append_right (Nat.le_refl _)]
  simp [due, hdue]

theorem exists_of_mem_newRows {r : FileRow} (h : r ∈ t.newRows files) :
    ∃ (n : Nat) (f : RunFile), files[n]? = some f ∧ f.isDue t = true ∧
      r = f.row (t.rowId files n) := by
  obtain ⟨k, f, hk, rfl⟩ := mem_newRows.1 h
  obtain ⟨n, hn, hdue, hlength⟩ := exists_getElem?_of_filter hk
  exact ⟨n, f, hn, hdue, by rw [rowId, due, hlength]⟩

theorem nextId_le_rowId (files : List RunFile) (n : Nat) : t.nextId ≤ t.rowId files n := by
  unfold rowId
  omega

theorem rowId_lt {m n : Nat} (hmn : m < n) (hf : files[m]? = some f) (hdue : f.isDue t = true) :
    t.rowId files m < t.rowId files n := by
  have hsplit : files.take n = files.take m ++ f :: (files.take n).drop (m + 1) := by
    have hm : m < (files.take n).length := by
      have := (List.getElem?_eq_some_iff.1 hf).1
      simp only [List.length_take]
      omega
    have hget : (files.take n)[m] = f := by
      rw [List.getElem_take]
      exact (List.getElem?_eq_some_iff.1 hf).2
    have htake : (files.take n).take m = files.take m := by
      rw [List.take_take, Nat.min_eq_left (Nat.le_of_lt hmn)]
    rw [← hget, ← htake, ← List.drop_eq_getElem_cons hm, List.take_append_drop]
  have hlength : (t.due (files.take m)).length < (t.due (files.take n)).length := by
    rw [hsplit, due_append]
    simp only [due, List.filter_cons_of_pos hdue, List.length_append, List.length_cons]
    omega
  unfold rowId
  omega

theorem rowId_injective {m n : Nat} {g : RunFile} (hf : files[m]? = some f)
    (hfdue : f.isDue t = true) (hg : files[n]? = some g) (hgdue : g.isDue t = true)
    (h : t.rowId files m = t.rowId files n) : m = n := by
  rcases Nat.lt_trichotomy m n with hlt | rfl | hlt
  · have := rowId_lt (t := t) hlt hf hfdue
    omega
  · rfl
  · have := rowId_lt (t := t) hlt hg hgdue
    omega

theorem isReplaced_append (files more : List RunFile) (r : FileRow) :
    t.isReplaced retention (files ++ more) r =
      (t.isReplaced retention files r || t.isReplaced retention more r) := by
  simp only [isReplaced, due_append, List.any_append, Bool.and_or_distrib_left]

theorem isReplaced_keepAll (files : List RunFile) : t.isReplaced .keepAll files = fun _ ↦ false :=
  rfl

theorem isReplaced_nil : t.isReplaced retention [] = fun _ ↦ false := by
  funext r
  simp [isReplaced, due]

@[simp] theorem landFiles_nil : t.landFiles retention [] = t := by
  simp [landFiles, isReplaced_nil, deleteFiles_eq_self, newRows, due]

theorem isReplaced_congr {more : List RunFile} (h : t.due files = t.due more) :
    t.isReplaced retention files = t.isReplaced retention more := by
  funext r
  simp only [isReplaced, h]

theorem landFiles_append_of_not_due (h : f.isDue t = false) :
    t.landFiles retention (files ++ [f]) = t.landFiles retention files := by
  have hdue := due_append_of_not files h
  simp only [landFiles, newRows, isReplaced_congr hdue, hdue]

/-- Ids grow by one with each new row, whatever has been removed. -/
theorem nextId_landFiles (retention : Retention) (files : List RunFile) :
    (t.landFiles retention files).nextId = t.nextId + (t.due files).length := by
  rcases List.eq_nil_or_concat (t.due files) with hnil | ⟨before, f, hdue⟩
  · have hnone : ∀ r ∈ t.files, t.isReplaced retention files r = false := fun r _ ↦ by
      simp [isReplaced, hnil]
    simp [landFiles, newRows, hnil, deleteFiles_eq_self hnone]
  · rw [List.concat_eq_append] at hdue
    have hlast : (t.due files)[before.length]? = some f := by simp [hdue]
    have hmem : f.row (t.nextId + before.length) ∈ (t.landFiles retention files).files :=
      List.mem_append_right _ (mem_newRows.2 ⟨_, f, hlast, rfl⟩)
    rw [nextId_eq_of_newest hmem]
    · simp [hdue, RunFile.row, Int.add_assoc]
    · intro r hr
      rcases List.mem_append.1 hr with hold | hnew
      · have := lt_nextId (t := t) ((List.mem_filter.1 hold).1)
        simp only [RunFile.row]
        omega
      · obtain ⟨k, g, hk, rfl⟩ := mem_newRows.1 hnew
        have := (List.getElem?_eq_some_iff.1 hk).1
        simp only [hdue, List.length_append, List.length_singleton] at this
        simp only [RunFile.row]
        omega

theorem latest?_landFiles (h : ∀ g ∈ files, g.identity.path ≠ f.identity.path) :
    (t.landFiles retention files).latest? f.identity.path = t.latest? f.identity.path := by
  have hother : ∀ g ∈ t.due files, g.identity.path ≠ f.identity.path :=
    fun g hg ↦ h g ((List.mem_filter.1 hg).1)
  have hnew : (t.newRows files).filter (·.path == .text f.identity.path) = [] := by
    apply List.filter_eq_nil_iff.2
    intro r hr
    obtain ⟨g, hg, hpath⟩ := path_of_mem_newRows hr
    simpa [hpath] using hother g hg
  have hkept : (t.deleteFiles (t.isReplaced retention files)).files.filter
      (·.path == .text f.identity.path) = t.files.filter (·.path == .text f.identity.path) := by
    simp only [deleteFiles, List.filter_filter]
    apply List.filter_congr
    intro r _
    cases hp : r.path == .text f.identity.path with
    | false => rfl
    | true =>
      have hreplaced : t.isReplaced retention files r = false := by
        simp only [isReplaced, Bool.and_eq_false_iff, List.any_eq_false, beq_iff_eq]
        exact .inr fun g hg he ↦ hother g hg (Data.text.inj (he.symm.trans (beq_iff_eq.1 hp)))
      simp [hreplaced]
  simp only [latest?, idsOf, landFiles, files_withFiles, List.filter_append, hkept, hnew,
    List.append_nil]

theorem landFiles_append_keepAll (h : f.isDue t = true) :
    t.landFiles .keepAll (files ++ [f]) =
      (t.landFiles .keepAll files).withFiles [f.row (t.landFiles .keepAll files).nextId] := by
  rw [nextId_landFiles]
  simp only [landFiles, isReplaced_keepAll, newRows_append, due_singleton h, withFiles_withFiles]
  rfl

theorem landFiles_append_prune (h : f.isDue t = true)
    (hnew : ∀ g ∈ files, g.identity.path ≠ f.identity.path) :
    let landed := t.landFiles .pruneSuperseded files
    let older := fun r : FileRow ↦ r.path == .text f.identity.path && decide (r.id < landed.nextId)
    (landed.withFiles [f.row landed.nextId]).deleteFiles older =
        t.landFiles .pruneSuperseded (files ++ [f]) ∧
      (t.files.filter (t.isReplaced .pruneSuperseded (files ++ [f]))).length =
        (t.files.filter (t.isReplaced .pruneSuperseded files)).length +
          ((landed.withFiles [f.row landed.nextId]).files.filter older).length := by
  intro landed older
  have hnext : landed.nextId = t.nextId + (t.due files).length := nextId_landFiles _ _
  have hself (r : FileRow) :
      t.isReplaced .pruneSuperseded [f] r = (r.path == .text f.identity.path) := by
    simp [isReplaced, due_singleton h]
  have hreplaced : t.isReplaced .pruneSuperseded (files ++ [f]) = fun r ↦
      t.isReplaced .pruneSuperseded files r || r.path == .text f.identity.path := by
    funext r
    rw [isReplaced_append, hself]
  -- the rows that this run has added stay: no other file has this path
  have hadded : ∀ r ∈ t.newRows files ++ [f.row landed.nextId], older r = false := by
    intro r hr
    rcases List.mem_append.1 hr with hr | hr
    · obtain ⟨g, hg, hpath⟩ := path_of_mem_newRows hr
      simp [older, hpath, hnew g ((List.mem_filter.1 hg).1)]
    · rw [List.mem_singleton.1 hr]
      simp [older, RunFile.row]
  -- and every row before it is older
  have holder : ∀ r ∈ t.files, older r = (r.path == .text f.identity.path) := by
    intro r hr
    have := lt_nextId hr
    have hlt : r.id < landed.nextId := by omega
    simp [older, hlt]
  have hlanded : landed.withFiles [f.row landed.nextId] =
      (t.deleteFiles (t.isReplaced .pruneSuperseded files)).withFiles
        (t.newRows files ++ [f.row landed.nextId]) := by
    simp only [landed, landFiles, withFiles_withFiles]
  have hrows : t.newRows (files ++ [f]) = t.newRows files ++ [f.row landed.nextId] := by
    rw [newRows_append, due_singleton h, hnext]
    rfl
  rw [hlanded]
  constructor
  · rw [deleteFiles_withFiles hadded, deleteFiles_deleteFiles, landFiles, hrows]
    congr 1
    apply deleteFiles_congr
    intro r hr
    rw [hreplaced, holder r hr]
  · have hnone : (t.newRows files ++ [f.row landed.nextId]).filter older = [] :=
      List.filter_eq_nil_iff.2 fun r hr ↦ by simp [hadded r hr]
    have hkept : (t.files.filter fun r ↦ !t.isReplaced .pruneSuperseded files r).filter older =
        (t.files.filter fun r ↦ !t.isReplaced .pruneSuperseded files r).filter
          (·.path == .text f.identity.path) :=
      List.filter_congr fun r hr ↦ holder r ((List.mem_filter.1 hr).1)
    rw [hreplaced, length_filter_or, files_withFiles, List.filter_append, hnone, List.append_nil]
    simp only [deleteFiles, hkept]

end Tables

namespace Ledger

theorem isDirect_landFindings (files : List RunFile) (ids : List (Option Int))
    (staged : List RunFinding) (stats : CommitCounts) :
    (landFindings files ids staged stats).IsDirect := by
  induction staged generalizing stats with
  | nil => exact .finish _ _
  | cons f rest ih =>
    unfold landFindings
    split
    · exact .finish _ _
    · exact .ask _ _ fun _ ↦ ih _

theorem isDirect_landFile (retention : Retention) (f : RunFile) (stats : CommitCounts)
    {next : Int → CommitCounts → Work Unit CommitCounts}
    (h : ∀ id stats, (next id stats).IsDirect) : (landFile retention f stats next).IsDirect := by
  apply Work.IsDirect.ask
  intro id
  cases retention with
  | keepAll => exact h _ _
  | pruneSuperseded => exact .ask _ _ fun _ ↦ h _ _

theorem isDirect_needsRow (f : RunFile) {next : Bool → Work Unit CommitCounts}
    (h : ∀ b, (next b).IsDirect) : (needsRow f next).IsDirect := by
  unfold needsRow
  split
  · exact h true
  · split
    · exact .ask _ _ fun _ ↦ h _
    · exact h false

theorem isDirect_landFiles (retention : Retention)
    {next : List (Option Int) → CommitCounts → Work Unit CommitCounts}
    (h : ∀ ids stats, (next ids stats).IsDirect) (files : List RunFile)
    (ids : List (Option Int)) (stats : CommitCounts) :
    (landFiles retention next files ids stats).IsDirect := by
  induction files generalizing ids stats with
  | nil => exact h ids stats
  | cons f rest ih =>
    apply isDirect_needsRow f
    intro b
    cases b with
    | false => exact ih _ _
    | true => exact isDirect_landFile retention f stats fun _ _ ↦ ih _ _

theorem isDirect_work (retention : Retention) (files : List RunFile)
    (staged : List RunFinding) : (work retention files staged).IsDirect :=
  isDirect_landFiles retention (isDirect_landFindings files · staged ·) files [] {}

variable {t u : Tables} {w : Draft} {v : Verdict CommitCounts} {retention : Retention}
  {f : RunFile} {stats : CommitCounts}

theorem runs_needsRow {next : Bool → Work Unit CommitCounts}
    (hu : u.latest? f.identity.path = t.latest? f.identity.path) :
    (needsRow f next).Runs u (.ok v, ()) w ↔ (next (f.isDue t)).Runs u (.ok v, ()) w := by
  unfold needsRow RunFile.isDue
  cases f.hasFindings with
  | true => rfl
  | false =>
    cases f.marked with
    | false => rfl
    | true =>
      rw [Bool.false_or, Bool.true_and, ← hu]
      exact Work.runs_ask_of_apply rfl

/-- How far a run has come that has landed some of its files. -/
structure HasLanded (t : Tables) (retention : Retention) (landed : List RunFile)
    (ids : List (Option Int)) (stats : CommitCounts) (u : Tables) : Prop where
  tables : u = t.landFiles retention landed
  length : ids.length = landed.length
  ids {n : Nat} {f : RunFile} : landed[n]? = some f → f.isDue t = true →
    ids[n]? = some (some (t.rowId landed n))
  stats : stats = t.landCounts retention landed []

theorem HasLanded.nil (t : Tables) (retention : Retention) : HasLanded t retention [] [] {} t where
  tables := Tables.landFiles_nil.symm
  length := rfl
  ids h := nomatch h
  stats := by
    have hnone : t.files.filter (fun _ ↦ false) = [] := List.filter_eq_nil_iff.2 fun _ _ ↦ nofun
    simp [Tables.landCounts, Tables.newReports, Tables.isReplaced_nil, Tables.due, hnone]

theorem HasLanded.id_append {landed : List RunFile} {ids : List (Option Int)}
    (h : HasLanded t retention landed ids stats u) (id : Option Int)
    (hid : f.isDue t = true → id = some (t.rowId (landed ++ [f]) landed.length)) {n : Nat}
    {g : RunFile} (hg : (landed ++ [f])[n]? = some g) (hdue : g.isDue t = true) :
    (ids ++ [id])[n]? = some (some (t.rowId (landed ++ [f]) n)) := by
  rcases Nat.lt_or_ge n landed.length with hn | hn
  · rw [List.getElem?_append_left hn] at hg
    rw [List.getElem?_append_left (h.length ▸ hn), h.ids hg hdue]
    simp only [Tables.rowId, List.take_append_of_le_length (Nat.le_of_lt hn)]
  · have hlast : n = landed.length := by
      have := (List.getElem?_eq_some_iff.1 hg).1
      simp only [List.length_append, List.length_singleton] at this
      omega
    subst hlast
    rw [List.getElem?_append_right (Nat.le_refl _), Nat.sub_self] at hg
    cases hg
    rw [← h.length, List.getElem?_append_right (Nat.le_refl _), Nat.sub_self, h.length, hid hdue]
    rfl

theorem HasLanded.skip {landed : List RunFile} {ids : List (Option Int)}
    (h : HasLanded t retention landed ids stats u) (hf : f.isDue t = false) :
    HasLanded t retention (landed ++ [f]) (ids ++ [none]) stats u := by
  have hdue := Tables.due_append_of_not landed hf
  refine ⟨?_, by simp [h.length], fun hg ↦ h.id_append _ (by simp [hf]) hg, ?_⟩
  · rw [h.tables, Tables.landFiles_append_of_not_due hf]
  · simp only [h.stats, Tables.landCounts, Tables.length_newRows, hdue,
      Tables.isReplaced_congr hdue, Tables.newReports, List.map_nil]

theorem HasLanded.rowId_last {landed : List RunFile} {ids : List (Option Int)}
    (h : HasLanded t retention landed ids stats u) :
    t.rowId (landed ++ [f]) landed.length = u.nextId := by
  rw [h.tables, Tables.nextId_landFiles, Tables.rowId, List.take_left']
  rfl

/-- The row of a file that is due, and the removal of the older ones. -/
theorem HasLanded.land {landed : List RunFile} {ids : List (Option Int)}
    (h : HasLanded t retention landed ids stats u) (hf : f.isDue t = true)
    (hnew : ∀ g ∈ landed, g.identity.path ≠ f.identity.path)
    (next : Int → CommitCounts → Work Unit CommitCounts) :
    ∃ id stats', ∃ u' : Tables,
      HasLanded t retention (landed ++ [f]) (ids ++ [some id]) stats' u' ∧
        ∀ {v w}, (landFile retention f stats next).Runs u (.ok v, ()) w ↔
          (next id stats').Runs u' (.ok v, ()) w := by
  have hfiles : (t.newRows (landed ++ [f])).length = (t.newRows landed).length + 1 := by
    simp [Tables.due_append, Tables.due_singleton hf]
  have hids {n : Nat} {g : RunFile} (hg : (landed ++ [f])[n]? = some g) :=
    h.id_append (some u.nextId) (fun _ ↦ by rw [h.rowId_last]) hg
  have hinsert : u.apply false (.insertFile .null (.text f.identity.path)
      (.integer f.identity.mtime) (.integer f.identity.size)) =
        .ok (u.nextId, u.withFiles [f.row u.nextId]) := u.insertFile_eq ..
  cases retention with
  | keepAll =>
    refine ⟨u.nextId, _, _, ⟨?_, by simp [h.length], hids, ?_⟩,
      Work.runs_ask_of_apply hinsert⟩
    · rw [h.tables, Tables.landFiles_append_keepAll hf]
    · simp only [h.stats, Tables.landCounts, hfiles, Tables.isReplaced_keepAll, Tables.newReports,
        List.map_nil]
  | pruneSuperseded =>
    obtain ⟨htables, hpruned⟩ := Tables.landFiles_append_prune hf hnew
    refine ⟨u.nextId, _, _, ⟨?_, by simp [h.length], hids, ?_⟩,
      (Work.runs_ask_of_apply hinsert).trans (Work.runs_ask_of_apply rfl)⟩
    · rw [h.tables, ← htables]
    · simp only [Tables.landCounts, hfiles, hpruned, h.stats, h.tables, Tables.newReports,
        List.map_nil]

theorem runs_landFiles (next : List (Option Int) → CommitCounts → Work Unit CommitCounts)
    {rest landed : List RunFile} {ids : List (Option Int)}
    (h : HasLanded t retention landed ids stats u)
    (hnodup : ((landed ++ rest).map (·.identity.path)).Nodup) :
    ∃ ids' stats', ∃ u' : Tables, HasLanded t retention (landed ++ rest) ids' stats' u' ∧
      ∀ {v w}, (landFiles retention next rest ids stats).Runs u (.ok v, ()) w ↔
        (next ids' stats').Runs u' (.ok v, ()) w := by
  induction rest generalizing landed ids stats u with
  | nil => exact ⟨ids, stats, u, by rwa [List.append_nil], .rfl⟩
  | cons f rest ih =>
    have hsplit : landed ++ f :: rest = (landed ++ [f]) ++ rest := by simp
    have hnew : ∀ g ∈ landed, g.identity.path ≠ f.identity.path := by
      intro g hg he
      rw [List.map_append] at hnodup
      exact (List.nodup_append.1 hnodup).2.2 _ (List.mem_map_of_mem hg) _
        (List.mem_map_of_mem List.mem_cons_self) he
    rw [hsplit] at hnodup ⊢
    have hlatest : u.latest? f.identity.path = t.latest? f.identity.path := by
      rw [h.tables, Tables.latest?_landFiles hnew]
    unfold landFiles
    cases hdue : f.isDue t with
    | false =>
      obtain ⟨ids', stats', u', h', hruns⟩ := ih (h.skip hdue) hnodup
      refine ⟨ids', stats', u', h', (runs_needsRow hlatest).trans ?_⟩
      rw [hdue]
      exact hruns
    | true =>
      obtain ⟨id, stats₁, u₁, h₁, hland⟩ := h.land hdue hnew fun id stats ↦
        landFiles retention next rest (ids ++ [some id]) stats
      obtain ⟨ids', stats', u', h', hruns⟩ := ih h₁ hnodup
      refine ⟨ids', stats', u', h', (runs_needsRow hlatest).trans ?_⟩
      rw [hdue]
      exact hland.trans hruns

theorem runs_landFindings {files : List RunFile} {ids : List (Option Int)} {row : Nat → Int}
    {staged : List RunFinding} (hids : ∀ f ∈ staged, ids[f.file]? = some (some (row f.file)))
    (hrows : ∀ f ∈ staged, u.hasFile (row f.file) = true) :
    (landFindings files ids staged stats).Runs u (.ok v, ()) w ↔
      (∀ f ∈ staged, f.message ∉ u.rejected) ∧
        v = .commit { stats with findings := stats.findings + staged.length } ∧
        w = ({ u with reports :=
          u.reports ++ staged.map fun f ↦ f.toRemark.report (row f.file) } : Tables) := by
  induction staged generalizing stats u with
  | nil =>
    constructor
    · intro hr
      cases hr
      simp
    · rintro ⟨-, rfl, rfl⟩
      simp only [List.map_nil, List.append_nil, List.length_nil, Nat.add_zero]
      exact .done _ _
  | cons f rest ih =>
    have hid : ids[f.file]?.join = some (row f.file) := by
      rw [hids f List.mem_cons_self]
      rfl
    have hrest (reports : List ReportRow) {counted : CommitCounts} :=
      @ih { u with reports } counted (fun g hg ↦ hids g (List.mem_cons_of_mem _ hg))
        fun g hg ↦ hrows g (List.mem_cons_of_mem _ hg)
    have hinsert (u' : Tables) : u.apply false (.insertReport (.integer (row f.file))
        (.integer f.line) (.integer f.column) (.text f.tool) (.text f.message)) = .ok ((), u') ↔
        f.message ∉ u.rejected ∧
          u' = { u with reports := u.reports ++ [f.toRemark.report (row f.file)] } := by
      simp only [Tables.apply, map_eq_ok, Tables.insertReport_eq_ok, hrows f List.mem_cons_self,
        Prod.mk.injEq, true_and, exists_eq_right, Remark.report, Remark.cells]
    have hcount : stats.findings + 1 + rest.length = stats.findings + (rest.length + 1) := by omega
    simp only [landFindings, hid, Work.runs_ask, hinsert, List.forall_mem_cons, List.map_cons,
      List.length_cons]
    constructor
    · rintro ⟨⟨⟩, _, ⟨hmessage, rfl⟩, hr⟩
      obtain ⟨hmessages, hv, hw⟩ := (hrest _).1 hr
      rw [List.append_assoc, List.singleton_append] at hw
      exact ⟨⟨hmessage, hmessages⟩, hcount ▸ hv, hw⟩
    · rintro ⟨⟨hmessage, hmessages⟩, hv, hw⟩
      refine ⟨(), _, ⟨hmessage, rfl⟩, (hrest _).2 ⟨hmessages, hcount ▸ hv, ?_⟩⟩
      rw [List.append_assoc, List.singleton_append]
      exact hw

section Work

variable {files : List RunFile} {staged : List RunFinding}
  (hnodup : (files.map (·.identity.path)).Nodup)
  (hstaged : ∀ f ∈ staged, ∃ file, files[f.file]? = some file ∧ file.hasFindings = true)

include hnodup hstaged

/-- The unit of work goes through if no message is refused. It asks for a commit then and has landed
the whole run. -/
theorem runs_work_iff :
    (work retention files staged).Runs t (.ok v, ()) w ↔
      (∀ f ∈ staged, f.message ∉ t.rejected) ∧
        v = .commit (t.landCounts retention files staged) ∧ w = t.land retention files staged := by
  obtain ⟨ids, stats, u, h, hruns⟩ := runs_landFiles (landFindings files · staged ·)
    (.nil t retention) hnodup
  rw [List.nil_append] at h
  have hdue {f : RunFinding} (hf : f ∈ staged) :
      ∃ file, files[f.file]? = some file ∧ file.isDue t = true := by
    obtain ⟨file, hfile, hfindings⟩ := hstaged f hf
    exact ⟨file, hfile, by simp [RunFile.isDue, hfindings]⟩
  have hids : ∀ f ∈ staged, ids[f.file]? = some (some (t.rowId files f.file)) := by
    intro f hf
    obtain ⟨file, hfile, hfdue⟩ := hdue hf
    exact h.ids hfile hfdue
  have hrows : ∀ f ∈ staged, u.hasFile (t.rowId files f.file) = true := by
    intro f hf
    obtain ⟨file, hfile, hfdue⟩ := hdue hf
    rw [h.tables, Tables.hasFile_eq_true]
    exact ⟨_, List.mem_append_right _ (Tables.row_mem_newRows hfile hfdue), rfl⟩
  have hcounts : ({ stats with findings := stats.findings + staged.length } : CommitCounts) =
      t.landCounts retention files staged := by
    simp only [h.stats, Tables.landCounts, Tables.newReports, List.map_nil, List.length_nil,
      List.length_map, Nat.zero_add]
  unfold work
  rw [hruns, runs_landFindings hids hrows, hcounts, h.tables]
  rfl

theorem runs_work (hr : (work retention files staged).Runs t (.ok v, ()) w) :
    v = .commit (t.landCounts retention files staged) ∧
      w.tables = t.land retention files staged := by
  obtain ⟨-, hv, rfl⟩ := (runs_work_iff hnodup hstaged).1 hr
  exact ⟨hv, rfl⟩

end Work

end Ledger

end FindingStore
