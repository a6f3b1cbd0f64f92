import FindingStore.Proofs.Ledger.Invariant
import FindingStore.Proofs.Ledger.Landing

namespace FindingStore

structure Run where
  remarks : List (Identity × Remark) := []
  marked : List Identity := []
  deriving DecidableEq, Repr

def Run.on (r : Run) (i : Identity) : List Remark := (r.remarks.filter (·.1 == i)).map Prod.snd

theorem Run.mem_on {r : Run} {i : Identity} {remark : Remark} :
    remark ∈ r.on i ↔ (i, remark) ∈ r.remarks := by
  simp only [on, List.mem_map, List.mem_filter, beq_iff_eq, Prod.exists]
  constructor
  · rintro ⟨j, _, ⟨hmem, rfl⟩, rfl⟩
    exact hmem
  · exact fun hmem ↦ ⟨i, remark, ⟨hmem, rfl⟩, rfl⟩

/-- What has been said about the files in all their observed states, and the paths about which
something has been said. -/
structure Memory where
  remembers : Identity → Option (List Remark) := fun _ ↦ none
  stored : List String := []

/-- A run overwrites what was said about the files on which it remarks, and clears what was said
about the others in its scope, if their paths are stored. -/
def Memory.land (m : Memory) (r : Run) : Memory where
  remembers i :=
    if r.on i ≠ [] then some (r.on i)
    else if i ∈ r.marked ∧ i.path ∈ m.stored then some []
    else m.remembers i
  stored := m.stored ++ r.remarks.map (·.1.path)

def Remark.InRange (r : Remark) : Prop :=
  (r.line : Int) ≤ Cell.maxCoordinate ∧ (r.column : Int) ≤ Cell.maxCoordinate

namespace Tables

def cellsOf (t : Tables) (id : Int) : List ReportCells :=
  (t.reports.filter (·.file == .integer id)).map ReportRow.toReportCells

/-- The newest row of each state of a file holds what the map says about it. -/
structure Represents (t : Tables) (m : Memory) : Prop where
  referred {r : ReportRow} : r ∈ t.reports → t.hasFile r.file = true
  named {f : FileRow} : f ∈ t.files → ∃ path : String, f.path = path
  remembers (i : Identity) : (t.matching? i.path i.mtime i.size).map t.cellsOf =
    (m.remembers i).map (List.map Remark.cells)
  known (path : String) : (t.latest? path).isSome ↔ path ∈ m.stored
  reported (path : String) :
    (∃ f ∈ t.files, f.path = path ∧ ∃ r ∈ t.reports, r.file = f.id) ↔ path ∈ m.stored
  inRange {i : Identity} {remarks : List Remark} : m.remembers i = some remarks →
    ∀ r ∈ remarks, r.InRange

theorem Represents.empty : Represents {} {} where
  referred h := nomatch h
  named h := nomatch h
  remembers _ := rfl
  known _ := by simp [latest?, idsOf, largest?]
  reported _ := by simp
  inRange h := nomatch h

end Tables

structure Ledger.Says (l : Ledger) (r : Run) : Prop where
  remarks : r.remarks = l.staged.map fun f ↦
    ((l.files[f.file]?.map RunFile.identity).getD {}, f.toRemark)
  marked {i : Identity} : i ∈ r.marked → ∃ f ∈ l.files, f.identity = i ∧ f.marked = true
  scope {f : RunFile} : f ∈ l.files → f.hasFindings = true ∨ f.identity ∈ r.marked

namespace Ledger

variable {l : Ledger} {r : Run} {t : Tables} {m : Memory} {f : RunFile} {n : Nat}

theorem Sound.index_unique (h : l.Sound) {k : Nat} {g : RunFile} (hf : l.files[n]? = some f)
    (hg : l.files[k]? = some g) (hpath : f.identity.path = g.identity.path) : n = k := by
  have hn := (List.getElem?_eq_some_iff.1 hf).1
  refine (List.getElem?_inj (by rwa [List.length_map]) h.nodup).1 ?_
  simp only [List.getElem?_map, hf, hg, Option.map_some, hpath]

theorem Sound.file_unique (h : l.Sound) {g : RunFile} (hf : f ∈ l.files) (hg : g ∈ l.files)
    (hpath : f.identity.path = g.identity.path) : f = g := by
  obtain ⟨n, hn⟩ := List.getElem?_of_mem hf
  obtain ⟨k, hk⟩ := List.getElem?_of_mem hg
  have hnk := h.index_unique hn hk hpath
  subst hnk
  exact Option.some.inj (hn.symm.trans hk)

theorem Says.on_eq (hs : l.Says r) (h : l.Sound) (hf : l.files[n]? = some f) :
    r.on f.identity = (l.staged.filter (·.file == n)).map RunFinding.toRemark := by
  rw [Run.on, hs.remarks, List.filter_map, List.map_map]
  refine congrArg (List.map _) (List.filter_congr fun g hg ↦ ?_)
  have hget := List.getElem?_eq_getElem (h.staged hg)
  rw [Function.comp_apply, hget, Option.map_some, Option.getD_some, Bool.eq_iff_iff, beq_iff_eq,
    beq_iff_eq]
  constructor
  · exact fun he ↦ h.index_unique hget hf (congrArg Identity.path he)
  · rintro rfl
    rw [hget] at hf
    rw [Option.some.inj hf]

theorem Says.on_ne_nil (hs : l.Says r) (h : l.Sound) (hf : l.files[n]? = some f) :
    r.on f.identity ≠ [] ↔ f.hasFindings = true := by
  rw [hs.on_eq h hf, h.hasFindings hf, Ne, List.map_eq_nil_iff, List.filter_eq_nil_iff]
  simp [IsStaged]

theorem Says.file_of_remark (hs : l.Says r) (h : l.Sound) {i : Identity} {remark : Remark}
    (hmem : (i, remark) ∈ r.remarks) : ∃ f ∈ l.files, f.identity = i := by
  rw [hs.remarks] at hmem
  obtain ⟨g, hg, he⟩ := List.mem_map.1 hmem
  have hget := List.getElem?_eq_getElem (h.staged hg)
  refine ⟨_, List.getElem_mem (h.staged hg), ?_⟩
  simpa [hget] using congrArg Prod.fst he

theorem Says.file_of_on (hs : l.Says r) (h : l.Sound) {i : Identity} (hon : r.on i ≠ []) :
    ∃ f ∈ l.files, f.identity = i := by
  obtain ⟨remark, hmem⟩ := List.exists_mem_of_ne_nil _ hon
  exact hs.file_of_remark h (Run.mem_on.1 hmem)

theorem Says.marked_of_scope (hs : l.Says r) (h : l.Sound) (hf : f ∈ l.files)
    (hi : f.identity ∈ r.marked) : f.marked = true := by
  obtain ⟨g, hg, hidentity, hmarked⟩ := hs.marked hi
  rwa [h.file_unique hf hg (by rw [hidentity])]

/-- The files that are due are those on which the run remarks, and the others in its scope whose
paths are stored. -/
theorem Says.isDue_iff (hs : l.Says r) (h : l.Sound) (ht : t.Represents m)
    (hf : l.files[n]? = some f) :
    f.isDue t = true ↔
      r.on f.identity ≠ [] ∨ f.identity ∈ r.marked ∧ f.identity.path ∈ m.stored := by
  have hmem := List.mem_of_getElem? hf
  rw [hs.on_ne_nil h hf, RunFile.isDue, Bool.or_eq_true, Bool.and_eq_true, ht.known]
  constructor
  · rintro (hfindings | ⟨-, hstored⟩)
    · exact .inl hfindings
    · exact (hs.scope hmem).imp_right fun hi ↦ ⟨hi, hstored⟩
  · rintro (hfindings | ⟨hi, hstored⟩)
    · exact .inl hfindings
    · exact .inr ⟨hs.marked_of_scope h hmem hi, hstored⟩

end Ledger

def FileRow.carries (i : Identity) (r : FileRow) : Bool :=
  r.path == .text i.path && r.mtime == .integer i.mtime && r.size == .integer i.size

theorem RunFile.carries_row {f : RunFile} {id : Int} {i : Identity} :
    (f.row id).carries i = true ↔ f.identity = i := by
  obtain ⟨⟨path, mtime, size⟩, -⟩ := f
  obtain ⟨path', mtime', size'⟩ := i
  simp only [FileRow.carries, RunFile.row, Bool.and_eq_true, beq_iff_eq, Data.text.injEq,
    Cell.integer.injEq, Int.natCast_inj, Identity.mk.injEq, and_assoc]

namespace Tables

variable {t : Tables} {m : Memory} {l : Ledger} {r : Run} {f : RunFile} {n : Nat}
  {files : List RunFile} {staged : List RunFinding} {retention : Retention}

theorem land_keepAll (t : Tables) (files : List RunFile) (staged : List RunFinding) :
    t.land .keepAll files staged =
      { t with
        files := t.files ++ t.newRows files
        reports := t.reports ++ t.newReports files staged } := by
  have hkept : t.deleteFiles (t.isReplaced .keepAll files) = t :=
    deleteFiles_eq_self fun _ _ ↦ rfl
  simp only [land, landFiles, hkept, withFiles]

theorem matching?_eq_largest? (t : Tables) (i : Identity) :
    t.matching? i.path i.mtime i.size =
      largest? ((t.files.filter (FileRow.carries i)).map FileRow.id) := rfl

theorem lt_nextId_of_matching? {i : Identity} {id : Int}
    (h : t.matching? i.path i.mtime i.size = some id) : id < t.nextId := by
  rw [matching?_eq_largest?] at h
  obtain ⟨row, hrow, rfl⟩ := List.mem_map.1 (largest?_eq_some.1 h).1
  exact lt_nextId (List.mem_filter.1 hrow).1

theorem mem_or_mem_of_mem_land {row : FileRow}
    (h : row ∈ (t.land retention files staged).files) : row ∈ t.files ∨ row ∈ t.newRows files :=
  (List.mem_append.1 h).imp_left fun hold ↦ (List.mem_filter.1 hold).1

theorem matching?_land_of_due (h : (files.map (·.identity.path)).Nodup)
    (hf : files[n]? = some f) (hdue : f.isDue t = true) :
    (t.land retention files staged).matching? f.identity.path f.identity.mtime f.identity.size =
      some (t.rowId files n) := by
  rw [matching?_eq_largest?, largest?_eq_some]
  constructor
  · refine List.mem_map.2 ⟨f.row (t.rowId files n), List.mem_filter.2 ⟨?_, ?_⟩, rfl⟩
    · exact List.mem_append_right _ (row_mem_newRows hf hdue)
    · exact RunFile.carries_row.2 rfl
  · intro id hid
    obtain ⟨row, hrow, rfl⟩ := List.mem_map.1 hid
    obtain ⟨hrow, hcarries⟩ := List.mem_filter.1 hrow
    rcases mem_or_mem_of_mem_land hrow with hold | hnew
    · exact Int.le_trans (Int.le_of_lt (lt_nextId hold)) (nextId_le_rowId files n)
    · obtain ⟨k, g, hg, -, rfl⟩ := exists_of_mem_newRows hnew
      have hidentity := RunFile.carries_row.1 hcarries
      have hk : k = n := by
        refine (List.getElem?_inj (i := k) (j := n) ?_ h).1 ?_
        · simpa using (List.getElem?_eq_some_iff.1 hg).1
        · simp only [List.getElem?_map, hf, hg, Option.map_some, hidentity]
      subst hk
      exact Int.le_refl _

theorem matching?_land_of_not_due {i : Identity}
    (h : ∀ f ∈ files, f.isDue t = true → f.identity ≠ i) :
    (t.land .keepAll files staged).matching? i.path i.mtime i.size =
      t.matching? i.path i.mtime i.size := by
  have hnone : (t.newRows files).filter (FileRow.carries i) = [] := by
    apply List.filter_eq_nil_iff.2
    intro row hrow hcarries
    obtain ⟨k, g, hg, hdue, rfl⟩ := exists_of_mem_newRows hrow
    exact h g (List.mem_of_getElem? hg) hdue (RunFile.carries_row.1 hcarries)
  rw [matching?_eq_largest?, matching?_eq_largest?, land_keepAll]
  simp only [List.filter_append, hnone, List.append_nil]

theorem cellsOf_deleteFiles {doomed : FileRow → Bool} {id : Int}
    (h : ∀ r ∈ t.files, doomed r = true → r.id ≠ id) :
    (t.deleteFiles doomed).cellsOf id = t.cellsOf id := by
  have hgone : .integer id ∉ (t.files.filter doomed).map (Cell.integer ·.id) := by
    intro hmem
    obtain ⟨r, hr, he⟩ := List.mem_map.1 hmem
    obtain ⟨hr, hdoomed⟩ := List.mem_filter.1 hr
    exact h r hr hdoomed (Cell.integer.inj he)
  rw [cellsOf, cellsOf, deleteFiles, List.filter_filter]
  refine congrArg (List.map _) (List.filter_congr fun report _ ↦ ?_)
  cases he : report.file == .integer id with
  | false => rfl
  | true =>
    rw [beq_iff_eq.1 he]
    simpa using hgone

theorem cellsOf_land {id : Int} (hid : id < t.nextId)
    (hkept : ∀ r ∈ t.files, t.isReplaced retention files r = true → r.id ≠ id) :
    (t.land retention files staged).cellsOf id = t.cellsOf id := by
  have hnone : (t.newReports files staged).filter (·.file == .integer id) = [] := by
    apply List.filter_eq_nil_iff.2
    intro report hreport he
    obtain ⟨g, -, rfl⟩ := List.mem_map.1 hreport
    have := nextId_le_rowId (t := t) files g.file
    have : t.rowId files g.file = id := by simpa [Remark.report] using he
    omega
  have hreports : (t.land retention files staged).reports =
      (t.deleteFiles (t.isReplaced retention files)).reports ++ t.newReports files staged := rfl
  rw [← cellsOf_deleteFiles hkept, cellsOf, hreports, List.filter_append, hnone, List.append_nil]
  rfl

theorem cellsOf_land_of_lt {id : Int} (h : id < t.nextId) :
    (t.land .keepAll files staged).cellsOf id = t.cellsOf id :=
  cellsOf_land h fun _ _ ↦ nofun

theorem cellsOf_land_of_due (retention : Retention)
    (hreferred : ∀ r ∈ t.reports, t.hasFile r.file = true)
    (hstaged : ∀ g ∈ staged, ∃ file, files[g.file]? = some file ∧ file.isDue t = true)
    (hf : files[n]? = some f) (hdue : f.isDue t = true) :
    (t.land retention files staged).cellsOf (t.rowId files n) =
      ((staged.filter (·.file == n)).map RunFinding.toRemark).map Remark.cells := by
  have hnone : (t.landFiles retention files).reports.filter
      (·.file == .integer (t.rowId files n)) = [] := by
    apply List.filter_eq_nil_iff.2
    intro report hreport he
    replace hreport : report ∈ t.reports := (List.mem_filter.1 hreport).1
    obtain ⟨row, hrow, hid⟩ := hasFile_eq_true.1 (hreferred report hreport)
    have := lt_nextId hrow
    have := nextId_le_rowId (t := t) files n
    have : row.id = t.rowId files n := Cell.integer.inj (hid.symm.trans (beq_iff_eq.1 he))
    omega
  have hnew : (t.newReports files staged).filter (·.file == .integer (t.rowId files n)) =
      (staged.filter (·.file == n)).map fun g ↦ g.toRemark.report (t.rowId files g.file) := by
    rw [newReports, List.filter_map]
    refine congrArg (List.map _) (List.filter_congr fun g hg ↦ ?_)
    obtain ⟨file, hfile, hfiledue⟩ := hstaged g hg
    rw [Function.comp_apply, Bool.eq_iff_iff, beq_iff_eq, beq_iff_eq]
    exact ⟨fun he ↦ rowId_injective hfile hfiledue hf hdue (Cell.integer.inj he),
      fun he ↦ he ▸ rfl⟩
  simp only [cellsOf, land, List.filter_append, hnone, hnew, List.nil_append, List.map_map]
  rfl

theorem isSome_latest? {path : Data} :
    (t.latest? path).isSome ↔ ∃ f ∈ t.files, f.path = path := by
  rw [latest?, isSome_largest?, idsOf, Ne, List.map_eq_nil_iff, List.filter_eq_nil_iff]
  simp

section Land

variable (h : t.Represents m) (hl : l.Sound) (hs : l.Says r)

include hl in
theorem isDue_of_staged {g : RunFinding} (hg : g ∈ l.staged) :
    ∃ file, l.files[g.file]? = some file ∧ file.isDue t = true := by
  have hget := List.getElem?_eq_getElem (hl.staged hg)
  exact ⟨_, hget, by simp [RunFile.isDue, (hl.hasFindings hget).2 ⟨g, hg, rfl⟩]⟩

include hl in
theorem isConsistent_land (ht : t.isConsistent = true) (retention : Retention) :
    (t.land retention l.files l.staged).isConsistent = true := by
  have hkept := isConsistent_deleteFiles ht (t.isReplaced retention l.files)
  simp only [isConsistent, List.all_eq_true] at hkept ⊢
  intro report hreport
  rw [hasFile_eq_true]
  rcases List.mem_append.1 hreport with hold | hnew
  · obtain ⟨row, hrow, hid⟩ := hasFile_eq_true.1 (hkept report hold)
    exact ⟨row, List.mem_append_left _ hrow, hid⟩
  · obtain ⟨g, hg, rfl⟩ := List.mem_map.1 hnew
    obtain ⟨file, hfile, hdue⟩ := isDue_of_staged (t := t) hl hg
    exact ⟨_, List.mem_append_right _ (row_mem_newRows hfile hdue), rfl⟩

include h hl in
theorem Represents.referred_land {report : ReportRow}
    (hreport : report ∈ (t.land .keepAll l.files l.staged).reports) :
    (t.land .keepAll l.files l.staged).hasFile report.file = true := by
  have ht : t.isConsistent = true := List.all_eq_true.2 fun _ hr ↦ h.referred hr
  exact List.all_eq_true.1 (isConsistent_land hl ht .keepAll) report hreport

include h hl hs in
theorem Represents.remembers_land (i : Identity) :
    ((t.land .keepAll l.files l.staged).matching? i.path i.mtime i.size).map
        (t.land .keepAll l.files l.staged).cellsOf =
      ((m.land r).remembers i).map (List.map Remark.cells) := by
  by_cases hi : ∃ f ∈ l.files, f.isDue t = true ∧ f.identity = i
  · obtain ⟨f, hf, hdue, rfl⟩ := hi
    obtain ⟨n, hn⟩ := List.getElem?_of_mem hf
    have hcells := cellsOf_land_of_due .keepAll (fun _ ↦ h.referred)
      (fun _ ↦ isDue_of_staged hl) hn hdue
    rw [matching?_land_of_due hl.nodup hn hdue, Option.map_some, hcells, ← hs.on_eq hl hn]
    unfold Memory.land
    dsimp only
    split
    · rfl
    · next hon =>
      rw [if_pos (((hs.isDue_iff hl h hn).1 hdue).resolve_left hon), Classical.not_not.1 hon]
      rfl
  · have hnot : ∀ f ∈ l.files, f.isDue t = true → f.identity ≠ i :=
      fun f hf hdue he ↦ hi ⟨f, hf, hdue, he⟩
    have hon : r.on i = [] := by
      apply Classical.byContradiction
      intro hon
      obtain ⟨f, hf, rfl⟩ := hs.file_of_on hl hon
      obtain ⟨n, hn⟩ := List.getElem?_of_mem hf
      exact hnot f hf ((hs.isDue_iff hl h hn).2 (.inl hon)) rfl
    have hmarked : ¬(i ∈ r.marked ∧ i.path ∈ m.stored) := by
      rintro ⟨hmarked, hstored⟩
      obtain ⟨f, hf, rfl, -⟩ := hs.marked hmarked
      obtain ⟨n, hn⟩ := List.getElem?_of_mem hf
      exact hnot f hf ((hs.isDue_iff hl h hn).2 (.inr ⟨hmarked, hstored⟩)) rfl
    have hsame : (m.land r).remembers i = m.remembers i := by
      simp only [Memory.land, hon, ne_eq, not_true_eq_false, if_false, if_neg hmarked]
    rw [matching?_land_of_not_due hnot, hsame, ← h.remembers i]
    cases hmatch : t.matching? i.path i.mtime i.size with
    | none => rfl
    | some id => rw [Option.map_some, Option.map_some,
        cellsOf_land_of_lt (lt_nextId_of_matching? hmatch)]

include h hl hs in
theorem Represents.known_land (path : String) :
    ((t.land .keepAll l.files l.staged).latest? path).isSome ↔ path ∈ (m.land r).stored := by
  rw [isSome_latest?, land_keepAll, Memory.land, List.mem_append, ← h.known, isSome_latest?]
  simp only [List.mem_append, or_and_right, exists_or]
  constructor
  · rintro (hold | ⟨row, hnew, hpath⟩)
    · exact .inl hold
    · obtain ⟨n, f, hn, hdue, rfl⟩ := exists_of_mem_newRows hnew
      obtain rfl : f.identity.path = path := Data.text.inj hpath
      rcases (hs.isDue_iff hl h hn).1 hdue with hon | ⟨-, hstored⟩
      · obtain ⟨remark, hmem⟩ := List.exists_mem_of_ne_nil _ hon
        exact .inr (List.mem_map.2 ⟨_, Run.mem_on.1 hmem, rfl⟩)
      · exact .inl (isSome_latest?.1 ((h.known _).2 hstored))
  · rintro (hold | hnew)
    · exact .inl hold
    · obtain ⟨⟨i, remark⟩, hmem, rfl⟩ := List.mem_map.1 hnew
      obtain ⟨f, hf, rfl⟩ := hs.file_of_remark hl hmem
      obtain ⟨n, hn⟩ := List.getElem?_of_mem hf
      have hdue := (hs.isDue_iff hl h hn).2 (.inl (List.ne_nil_of_mem (Run.mem_on.2 hmem)))
      exact .inr ⟨_, row_mem_newRows hn hdue, rfl⟩

include h hl hs in
theorem Represents.reported_land (path : String) :
    (∃ row ∈ (t.land .keepAll l.files l.staged).files, row.path = path ∧
        ∃ report ∈ (t.land .keepAll l.files l.staged).reports, report.file = row.id) ↔
      path ∈ (m.land r).stored := by
  rw [land_keepAll, Memory.land, List.mem_append, ← h.reported]
  constructor
  · rintro ⟨row, hrow, hpath, report, hreport, hid⟩
    rcases List.mem_append.1 hrow with hold | hnew <;>
      rcases List.mem_append.1 hreport with hreport | hreport
    · exact .inl ⟨row, hold, hpath, report, hreport, hid⟩
    · -- a new report does not refer to an old row
      obtain ⟨g, -, rfl⟩ := List.mem_map.1 hreport
      have := lt_nextId hold
      have := nextId_le_rowId (t := t) l.files g.file
      have : t.rowId l.files g.file = row.id := Cell.integer.inj hid
      omega
    · -- an old report does not refer to a new row
      obtain ⟨n, f, -, -, rfl⟩ := exists_of_mem_newRows hnew
      obtain ⟨old, hold, hold'⟩ := hasFile_eq_true.1 (h.referred hreport)
      have := lt_nextId hold
      have := nextId_le_rowId (t := t) l.files n
      have : old.id = t.rowId l.files n := Cell.integer.inj (hold'.symm.trans hid)
      omega
    · obtain ⟨n, f, hn, hdue, rfl⟩ := exists_of_mem_newRows hnew
      obtain rfl : f.identity.path = path := Data.text.inj hpath
      obtain ⟨g, hg, rfl⟩ := List.mem_map.1 hreport
      obtain ⟨file, hfile, hfiledue⟩ := isDue_of_staged (t := t) hl hg
      have hfindings : f.hasFindings = true :=
        (hl.hasFindings hn).2 ⟨g, hg, rowId_injective hfile hfiledue hn hdue (Cell.integer.inj hid)⟩
      obtain ⟨remark, hmem⟩ := List.exists_mem_of_ne_nil _ ((hs.on_ne_nil hl hn).2 hfindings)
      exact .inr (List.mem_map.2 ⟨_, Run.mem_on.1 hmem, rfl⟩)
  · rintro (⟨row, hrow, hpath, report, hreport, hid⟩ | hnew)
    · exact ⟨row, List.mem_append_left _ hrow, hpath, report, List.mem_append_left _ hreport, hid⟩
    · obtain ⟨⟨i, remark⟩, hmem, rfl⟩ := List.mem_map.1 hnew
      rw [hs.remarks] at hmem
      obtain ⟨g, hg, he⟩ := List.mem_map.1 hmem
      obtain ⟨file, hfile, hdue⟩ := isDue_of_staged (t := t) hl hg
      have hidentity : file.identity = i := by simpa [hfile] using congrArg Prod.fst he
      exact ⟨_, List.mem_append_right _ (row_mem_newRows hfile hdue),
        congrArg (fun i : Identity ↦ Data.text i.path) hidentity, _,
        List.mem_append_right _ (List.mem_map_of_mem hg), rfl⟩

include h hl hs in
/-- A run that lands while every row is kept updates the map. -/
theorem Represents.land (hr : ∀ f ∈ l.staged, f.toRemark.InRange) :
    (t.land .keepAll l.files l.staged).Represents (m.land r) where
  referred := h.referred_land hl
  named hrow := (mem_or_mem_of_mem_land hrow).elim h.named fun hnew ↦
    have ⟨f, _, hpath⟩ := path_of_mem_newRows hnew
    ⟨f.identity.path, hpath⟩
  remembers := h.remembers_land hl hs
  known := h.known_land hl hs
  reported := h.reported_land hl hs
  inRange {i remarks} hremembers remark hremark := by
    unfold Memory.land at hremembers
    dsimp only at hremembers
    split at hremembers
    · cases hremembers
      have hmem := Run.mem_on.1 hremark
      rw [hs.remarks] at hmem
      obtain ⟨g, hg, he⟩ := List.mem_map.1 hmem
      obtain rfl : g.toRemark = remark := congrArg Prod.snd he
      exact hr g hg
    · split at hremembers
      · cases hremembers
        cases hremark
      · exact h.inRange hremembers remark hremark

end Land

end Tables

end FindingStore
