import FindingStore.Proofs.Replay.Findings
import FindingStore.Proofs.Store.Numbering

namespace FindingStore

namespace Tables

variable {t u : Tables} {l : Ledger} {retention : Retention} {f : RunFile} {i : Identity}
  {history : List FileRow}

theorem filter_carries_newRows (hl : l.Sound) (hf : f ∈ l.files)
    (hpath : f.identity.path = i.path) (hne : f.identity ≠ i) :
    (t.newRows l.files).filter (FileRow.carries i) = [] := by
  refine List.filter_eq_nil_iff.2 fun row hrow hcarries ↦ ?_
  obtain ⟨n, g, hg, -, rfl⟩ := exists_of_mem_newRows hrow
  have hidentity := RunFile.carries_row.1 hcarries
  obtain rfl : g = f :=
    hl.file_unique (List.mem_of_getElem? hg) hf (hidentity ▸ hpath.symm)
  exact hne hidentity

theorem mem_newRows_iff (t : Tables) (retention : Retention) (hl : l.Sound) {r : FileRow} :
    r ∈ t.newRows l.files ↔ r ∈ (t.land retention l.files l.staged).files ∧ r ∉ t.files := by
  rw [← (advances_land hl t retention).filter_files, List.mem_filter]
  simp

theorem exists_newRow_iff (hl : l.Sound) (hf : f ∈ l.files) :
    (∃ r ∈ (t.land retention l.files l.staged).files, r ∉ t.files ∧ r.path = f.identity.path) ↔
      f.isDue t = true := by
  constructor
  · rintro ⟨r, hr, hold, hpath⟩
    obtain ⟨n, g, hg, hdue, rfl⟩ :=
      exists_of_mem_newRows ((mem_newRows_iff t retention hl).2 ⟨hr, hold⟩)
    obtain rfl : g = f := hl.file_unique (List.mem_of_getElem? hg) hf (Data.text.inj hpath)
    exact hdue
  · intro hdue
    obtain ⟨n, hn⟩ := List.getElem?_of_mem hf
    obtain ⟨hr, hold⟩ := (mem_newRows_iff t retention hl).1 (row_mem_newRows hn hdue)
    exact ⟨_, hr, hold, rfl⟩

theorem path_of_carries {row : FileRow} (h : row.carries i = true) : row.path = i.path := by
  simp only [FileRow.carries, Bool.and_eq_true, beq_iff_eq] at h
  exact h.1.1

/-- The older rows of the path go if the run adds one and superseded rows are pruned. -/
theorem isReplaced_of_path (hl : l.Sound) (hf : f ∈ l.files) {row : FileRow}
    (hpath : row.path = f.identity.path) :
    t.isReplaced retention l.files row =
      (retention == .pruneSuperseded && f.isDue t) := by
  rw [Bool.eq_iff_iff]
  simp only [isReplaced, Bool.and_eq_true, List.any_eq_true, beq_iff_eq, due, List.mem_filter]
  constructor
  · rintro ⟨hretention, g, ⟨hg, hdue⟩, he⟩
    obtain rfl : g = f := hl.file_unique hg hf (Data.text.inj (he.symm.trans hpath))
    exact ⟨hretention, hdue⟩
  · rintro ⟨hretention, hdue⟩
    exact ⟨hretention, f, ⟨hf, hdue⟩, hpath⟩

theorem filter_carries_land (t : Tables) (retention : Retention) (hl : l.Sound) (hf : f ∈ l.files)
    (hpath : f.identity.path = i.path) (hne : f.identity ≠ i) :
    (t.land retention l.files l.staged).files.filter (FileRow.carries i) =
      if retention = .pruneSuperseded ∧ f.isDue t = true then []
      else t.files.filter (FileRow.carries i) := by
  have hreplaced {row : FileRow} (hcarries : row.carries i = true) :
      t.isReplaced retention l.files row = (retention == .pruneSuperseded && f.isDue t) :=
    isReplaced_of_path hl hf ((path_of_carries hcarries).trans (congrArg Data.text hpath.symm))
  have hfiles : (t.land retention l.files l.staged).files =
      t.files.filter (fun row ↦ !t.isReplaced retention l.files row) ++ t.newRows l.files := rfl
  rw [hfiles, List.filter_append, filter_carries_newRows hl hf hpath hne, List.append_nil,
    List.filter_filter]
  split
  · next hgone =>
    refine List.filter_eq_nil_iff.2 fun row _ h ↦ ?_
    obtain ⟨hcarries, hkept⟩ := Bool.and_eq_true_iff.1 h
    rw [hreplaced hcarries, hgone.1, hgone.2] at hkept
    cases hkept
  · next hstay =>
    refine List.filter_congr fun row _ ↦ ?_
    cases hcarries : row.carries i with
    | false => rfl
    | true => simpa [hreplaced hcarries, or_iff_not_imp_left] using hstay

theorem cellsOf_land_of_kept (h : t.Numbered history) {row : FileRow} (hrow : row ∈ t.files)
    (hkept : t.isReplaced retention l.files row = false) :
    (t.land retention l.files l.staged).cellsOf row.id = t.cellsOf row.id := by
  refine cellsOf_land (lt_nextId hrow) fun q hq hreplaced he ↦ ?_
  rw [h.eq_of_id_eq hq hrow he, hkept] at hreplaced
  cases hreplaced

/-- When a run lands that has met a file in another state, what the file shows is the same as
before, or nothing if its older rows are pruned. -/
theorem shown_land_of_outdated (t : Tables) (retention : Retention) (h : t.Numbered history)
    (hl : l.Sound) (hf : f ∈ l.files) {fs : FileSystem}
    (houtdated : ∀ i, fs.resolved? (Path.ofText f.identity.path) = some i →
      ¬(f.identity.mtime = i.mtime ∧ f.identity.size = i.size)) :
    (t.land retention l.files l.staged).shown fs f.identity.path =
      if retention = .pruneSuperseded ∧ f.isDue t = true then []
      else t.shown fs f.identity.path := by
  unfold shown
  cases hi : fs.resolved? (Path.ofText f.identity.path) with
  | none => simp only [ite_self]
  | some i =>
    have hne : f.identity ≠ { i with path := f.identity.path } :=
      fun he ↦ houtdated i hi ⟨(congrArg Identity.mtime he :), (congrArg Identity.size he :)⟩
    have hland := t.filter_carries_land retention hl hf
      (i := { i with path := f.identity.path }) rfl hne
    have hmatching (u : Tables) : u.matching? f.identity.path i.mtime i.size =
        largest? ((u.files.filter
          (FileRow.carries { i with path := f.identity.path })).map FileRow.id) := rfl
    dsimp only
    split at hland
    · next hgone =>
      rw [if_pos hgone, hmatching, hland]
      rfl
    · next hstay =>
      rw [if_neg hstay]
      have hsame : (t.land retention l.files l.staged).matching? f.identity.path i.mtime i.size =
          t.matching? f.identity.path i.mtime i.size := by rw [hmatching, hmatching, hland]
      rw [hsame]
      cases hid : t.matching? f.identity.path i.mtime i.size with
      | none => rfl
      | some id =>
        obtain ⟨row, hrow, rfl⟩ := exists_isNewest (i := { i with path := f.identity.path }) hid
        have hkept : t.isReplaced retention l.files row = false := by
          have hpath := path_of_carries (i := { i with path := f.identity.path }) hrow.carries
          rw [isReplaced_of_path hl hf hpath, Bool.eq_false_iff]
          simpa using hstay
        have hreports : (t.land retention l.files l.staged).reportsOf row.id =
            t.reportsOf row.id :=
          congrArg Order.firstOccurrences (cellsOf_land_of_kept h hrow.mem hkept)
        simp only [hreports]

theorem IsReadable.deleteFiles (h : t.IsReadable) (doomed : FileRow → Bool) :
    (t.deleteFiles doomed).IsReadable :=
  ⟨fun hf ↦ h.paths (List.mem_filter.1 hf).1, fun hr ↦ h.reports (List.mem_filter.1 hr).1⟩

theorem IsReadable.land (h : t.IsReadable) (retention : Retention) {staged : List RunFinding}
    (hr : ∀ f ∈ staged, f.toRemark.InRange) (files : List RunFile) :
    (t.land retention files staged).IsReadable where
  paths hf := (mem_or_mem_of_mem_land hf).elim h.paths fun hnew ↦
    have ⟨f, _, hpath⟩ := path_of_mem_newRows hnew
    ⟨f.identity.path, hpath⟩
  reports hmem := by
    rcases List.mem_append.1 hmem with hold | hnew
    · exact (h.deleteFiles _).reports hold
    · obtain ⟨g, hg, rfl⟩ := List.mem_map.1 hnew
      exact ⟨g.toRemark, hr g hg, rfl⟩

end Tables

theorem Store.Call.Lands.isReadable {call : Call} {s : Store} {t u : Tables} {answer : Answer}
    (h : call.Lands s t answer u) (hc : call.IsSound) (ht : t.IsReadable) : u.IsReadable := by
  have happly := h.apply_eq hc
  cases call with
  | commit run source =>
    cases happly
    exact ht.land s.retention hc.2.2 run.files
  | prune =>
    cases happly
    exact ht.deleteFiles _

end FindingStore
