import FindingStore.Proofs.FileSystem.Canonical
import FindingStore.Proofs.Ledger.Commit
import FindingStore.Proofs.Ledger.Sightings
import FindingStore.Proofs.Replay.Recall

namespace FindingStore

namespace Ledger

variable {l l' : Ledger} {fs : FileSystem} {p : Path} {n : Nat} {seen : Sightings}

theorem files_pending (hp : l.pending fs p = .ok (n, l')) :
    l'.files = l.files ∨ n = l.files.length ∧ ∃ i, l'.files = (l.added i).files := by
  rcases pending_eq_ok hp with ⟨-, rfl⟩ | ⟨-, i, -, rfl, rfl⟩
  · exact .inl rfl
  · cases hn : l.canonical.lookup i.path with
    | some n =>
      rw [enter_of_some hn]
      exact .inl rfl
    | none =>
      rw [enter_of_none hn]
      exact .inr ⟨rfl, i, rfl⟩

def IsScoped (l : Ledger) : Prop := ∀ f ∈ l.files, f.hasFindings = true ∨ f.marked = true

theorem IsScoped.pending (h : l.IsScoped) (hp : l.pending fs p = .ok (n, l'))
    {change : RunFile → RunFile}
    (hc : ∀ f, (change f).hasFindings = true ∨ (change f).marked = true) :
    ∀ f ∈ l'.files.modify n change, f.hasFindings = true ∨ f.marked = true := by
  intro f hf
  obtain ⟨k, g, hg, rfl⟩ := mem_modify.1 hf
  by_cases hk : n = k
  · rw [if_pos hk]
    exact hc g
  · rw [if_neg hk]
    rcases files_pending hp with hfiles | ⟨hn, i, hfiles⟩
    · exact h g (List.mem_of_getElem? (hfiles ▸ hg))
    · rw [hfiles] at hg
      rcases getElem?_files_added.1 hg with hg | ⟨hk', -⟩
      · exact h g (List.mem_of_getElem? hg)
      · exact absurd (hn.trans hk'.symm) hk

theorem IsScoped.record (h : l.IsScoped) (fs : FileSystem) (p : Path) (remark : Remark) :
    (l.record fs p remark).2.IsScoped := by
  cases hp : l.pending fs p with
  | error e =>
    rw [record_of_error hp]
    exact h
  | ok r =>
    rw [record_of_ok hp]
    exact h.pending hp fun _ ↦ .inl rfl

theorem IsScoped.resolveMark (h : l.IsScoped) (fs : FileSystem) (p : Path) :
    (l.resolveMark fs p).IsScoped := by
  cases hp : l.pending fs p with
  | error e =>
    rw [resolveMark_of_error hp]
    exact h
  | ok r =>
    rw [resolveMark_of_ok hp]
    exact h.pending hp fun _ ↦ .inr rfl

theorem isScoped_after (error : Option String) (calls : List TimedCall) :
    (after { error } calls).IsScoped := by
  induction calls using List.reverseRecOn with
  | nil => exact nofun
  | append_singleton calls c ih =>
    rw [after_append]
    obtain ⟨fs, call⟩ := c
    cases call with
    | record p remark => exact ih.record fs p remark
    | mark p => exact ih

theorem IsScoped.resolveMarks (h : l.IsScoped) (fs : FileSystem) :
    (l.resolveMarks fs).IsScoped := by
  have hfold : ∀ (paths : List Path) (l : Ledger), l.IsScoped →
      (paths.foldl (Ledger.resolveMark fs) l).IsScoped := by
    intro paths
    induction paths with
    | nil => exact fun _ h ↦ h
    | cons p rest ih => exact fun l h ↦ ih _ (h.resolveMark fs p)
  exact hfold l.marks { l with marks := [] } h

theorem Recalls.met_iff (h : l.Recalls seen) {i : Identity} :
    seen.met i.path = some i ↔ ∃ f ∈ l.files, f.identity = i := by
  rw [← h.met, Option.bind_eq_some_iff]
  constructor
  · rintro ⟨n, -, hi⟩
    obtain ⟨f, hf, rfl⟩ := Option.map_eq_some_iff.1 hi
    exact ⟨f, List.mem_of_getElem? hf, rfl⟩
  · rintro ⟨f, hf, rfl⟩
    obtain ⟨n, hn⟩ := Option.isSome_iff_exists.1 (h.sound.entered hf)
    obtain ⟨g, hg, hpath⟩ := h.sound.canonical hn
    obtain rfl : g = f := h.sound.file_unique (List.mem_of_getElem? hg) hf hpath
    exact ⟨n, hn, by rw [identityAt, hg, Option.map_some]⟩

end Ledger

namespace Tables

variable {t : Tables} {l : Ledger} {retention : Retention} {f : RunFile} {n : Nat} {id : Int}

/-- Once a run has landed, the newest row of a file in a state in which the run has met it has no
reports but those of the run. -/
theorem staged_of_matching?_land (ht : t.isConsistent = true) (hl : l.Sound) (hscoped : l.IsScoped)
    (hf : l.files[n]? = some f)
    (hid : (t.land retention l.files l.staged).matching? f.identity.path f.identity.mtime
      f.identity.size = some id) {cells : ReportCells}
    (hcells : cells ∈ (t.land retention l.files l.staged).cellsOf id) :
    ∃ g ∈ l.staged, g.file = n ∧ g.toRemark.cells = cells := by
  cases hdue : f.isDue t with
  | true =>
    rw [matching?_land_of_due hl.nodup hf hdue] at hid
    cases hid
    rw [cellsOf_land_of_due retention (fun r hr ↦ List.all_eq_true.1 ht r hr)
      (fun _ ↦ isDue_of_staged hl) hf hdue, List.map_map] at hcells
    obtain ⟨g, hg, rfl⟩ := List.mem_map.1 hcells
    obtain ⟨hg, hfile⟩ := List.mem_filter.1 hg
    exact ⟨g, hg, beq_iff_eq.1 hfile, rfl⟩
  | false =>
    -- the path is not known, and no row of it is new
    simp only [RunFile.isDue, Bool.or_eq_false_iff] at hdue
    obtain ⟨hfindings, hunknown⟩ := hdue
    have hmarked : f.marked = true :=
      (hscoped f (List.mem_of_getElem? hf)).resolve_left (Bool.eq_false_iff.1 hfindings)
    rw [hmarked, Bool.true_and, Option.isSome_eq_false_iff, Option.isNone_iff_eq_none] at hunknown
    rw [matching?_eq_largest?] at hid
    obtain ⟨row, hrow, -⟩ := List.mem_map.1 (largest?_eq_some.1 hid).1
    obtain ⟨hrow, hcarries⟩ := List.mem_filter.1 hrow
    rcases mem_or_mem_of_mem_land hrow with hold | hnew
    · have hpath : row.path = f.identity.path := by
        simp only [FileRow.carries, Bool.and_eq_true, beq_iff_eq] at hcarries
        exact hcarries.1.1
      have hknown := isSome_latest?.2 ⟨row, hold, hpath⟩
      rw [hunknown] at hknown
      cases hknown
    · obtain ⟨k, g, hg, hdue, rfl⟩ := exists_of_mem_newRows hnew
      obtain rfl : g = f := hl.file_unique (List.mem_of_getElem? hg) (List.mem_of_getElem? hf)
        (congrArg Identity.path (RunFile.carries_row.1 hcarries))
      simp [RunFile.isDue, hfindings, hunknown] at hdue

/-- The rows of a file are the same before and after a run that has met it in another state, if
every row is kept. -/
theorem enter_land_of_unmet {s s' : Store} {w v : World} {files : List RunFile}
    {staged : List RunFinding} {i : Identity} (hw : s.Sees w t)
    (hv : s'.Sees v (t.land .keepAll files staged))
    (hi : w.files.resolved? (Path.ofText i.path) = some i)
    (hi' : v.files.resolved? (Path.ofText i.path) = some i)
    (hunmet : ∀ f ∈ files, f.identity ≠ i) :
    (s'.reads v i.path).enter i.path = (s.reads w i.path).enter i.path := by
  rw [hv.enter_of_some hi', hw.enter_of_some hi,
    matching?_land_of_not_due fun f hf _ ↦ hunmet f hf]
  cases hmatch : t.matching? i.path i.mtime i.size with
  | none => rfl
  | some id =>
    have hreports : (t.land .keepAll files staged).reportsOf id = t.reportsOf id :=
      congrArg Order.firstOccurrences (cellsOf_land_of_lt (lt_nextId_of_matching? hmatch))
    simp only [hreports]

end Tables

namespace Ledger

/-- A finding that is staged for a file at the commit has been recorded under a path that the run
takes for the file. -/
theorem call_of_staged_atCommit (error : Option String) (calls : List TimedCall) (fs : FileSystem)
    {g : RunFinding} {file : RunFile} (hg : g ∈ (after { error } calls).staged)
    (hfile : ((after { error } calls).resolveMarks fs).files[g.file]? = some file) :
    ∃ fs' q, ⟨fs', .record q g.toRemark⟩ ∈ calls ∧
      (Sightings.atCommit calls fs).kept (Path.parts q) = some file.identity := by
  obtain ⟨fs', q, k, hcall, hkept, hat⟩ := call_of_staged error calls hg
  have hat' := ((recalls_after error calls).resolveMarks fs).2.identityAt hat
  rw [identityAt, hfile, Option.map_some] at hat'
  cases hat'
  exact ⟨fs', q, hcall, Sightings.kept_foldl_see_of_kept hkept _ _⟩

open World in
/-- A marked path that leads to a file at the commit is taken for something by the run. If that is
the file as it is at the commit, a later replay has no findings on the file but those of the run,
as long as the file stays as it is. If the run has met the file in no such state and every row is
kept, the commit does not change what is replayed for the file. -/
theorem mark_masks_of_kept {s s' : Store} {w : World} {t : Tables} (ha : s.access.IsOrdinary)
    (ha' : s'.access.IsOrdinary) (hw : w.Awaits s.database s.access t)
    (ht : t.isConsistent = true) (hfs : w.files.IsTree) (error : Option String)
    (calls : List TimedCall) {p : Path} {i : Identity} (hmark : ∃ fs, ⟨fs, .mark p⟩ ∈ calls)
    (hp : w.files.FindsText p) (hi : w.files.resolved? p = some i) (source : Retry.Source)
    (faults : List (Option SqlError)) {counts : CommitCounts} :
    let seen := Sightings.atCommit calls w.files
    let c := (after { error } calls).commitOver w.files s s.connection.failing source (faults, w)
    c.result = .ok counts → ∃ u j, c.state.2.Awaits s.database s.access u ∧
      u.isConsistent = true ∧ seen.kept (Path.parts p) = some j ∧
      ∀ v : World, v.Awaits s'.database s'.access u → v.files.IsTree →
        v.files.FindsText p → v.files.resolved? p = some i →
        (j = i → ∀ r f, Replay.start s' v = .ok r →
          findingItem f ∈ Replay.items (s'.reads v) r → f.path = i.path →
          ∃ fs q, ⟨fs, .record q f.toRemark⟩ ∈ calls ∧ seen.kept (Path.parts q) = some i) ∧
        (seen.met i.path ≠ some i → s.retention = .keepAll →
          w.IsClear s.database s.access → v.IsClear s'.database s'.access →
          (s'.reads v i.path).enter i.path = (s.reads w i.path).enter i.path) := by
  intro seen c hresult
  let l := after { error } calls
  let run := l.resolveMarks w.files
  have hrecalls : run.Recalls seen := recalls_atCommit error calls w.files
  have hsound := hrecalls.sound
  have hscoped : run.IsScoped := (isScoped_after error calls).resolveMarks w.files
  obtain ⟨-, hlands, -⟩ :=
    awaits_commitOver (recalls_after error calls).sound ha hw w.files source faults
  obtain ⟨-, hawaits⟩ := hlands counts hresult
  have hmarked : p ∈ calls.filterMap (·.call.marked?) := by
    obtain ⟨fs, hmem⟩ := hmark
    exact List.mem_filterMap.2 ⟨_, hmem, rfl⟩
  obtain ⟨j, hj⟩ := Option.isSome_iff_exists.1 (Sightings.isSome_kept_atCommit hmarked hi)
  refine ⟨_, j, hawaits, Tables.isConsistent_land hsound ht s.retention, hj, ?_⟩
  intro v hv hvfs hvp hvi
  have hvpath := FileSystem.resolved?_path hvfs hvp hvi
  constructor
  · rintro rfl r f hr hf hpath
    rw [← hpath] at hvpath
    obtain ⟨id, cells, hid, hcells, hread⟩ :=
      (hv.sees ha' (hv.isClear_of_start ha' hr)).cells_of_replayed hr hf hvpath
    have hmet : seen.met j.path = some j := by
      obtain ⟨k, -, hmet⟩ := Option.bind_eq_some_iff.1 hj
      rwa [← Sightings.path_of_met hmet] at hmet
    obtain ⟨file, hfile, rfl⟩ := hrecalls.met_iff.1 hmet
    obtain ⟨n, hn⟩ := List.getElem?_of_mem hfile
    rw [hpath] at hid
    obtain ⟨g, hg, rfl, rfl⟩ := Tables.staged_of_matching?_land ht hsound hscoped hn hid hcells
    rw [Remark.eq_of_remark?_cells hread]
    rw [staged_resolveMarks] at hg
    exact call_of_staged_atCommit error calls w.files hg hn
  · intro hmet hretention hclear hclear'
    rw [hretention] at hv
    exact Tables.enter_land_of_unmet (hw.sees ha hclear) (hv.sees ha' hclear')
      (FileSystem.resolved?_path hfs hp hi) hvpath
      fun f hf he ↦ hmet (hrecalls.met_iff.2 ⟨f, hf, he⟩)

def marking : World := .fresh (.reporting [] [⟨1, 1, "t", "older"⟩]) []

def markedCommit : Committed (List (Option SqlError) × World) :=
  (after {} [⟨marking.files, .mark (Path.ofText "/file")⟩]).commitOver marking.files
    (.single .keepAll) (Store.single .keepAll).connection.failing {} ([], marking)

theorem markedCommit_masks_older_finding :
    markedCommit.result = .ok { files := 1 } ∧
      ∀ r f, Replay.start (.single .keepAll) markedCommit.state.2 = .ok r →
        findingItem f ∈ Replay.items ((Store.single .keepAll).reads markedCommit.state.2) r →
        f.path ≠ "/file" := by
  have hresult : markedCommit.result = .ok { files := 1 } := rfl
  have hpath : marking.files.FindsText (Path.ofText "/file") :=
    ⟨[Utf8.encode "file"], "/file", rfl, rfl⟩
  have hi : marking.files.resolved? (Path.ofText "/file") = some ⟨"/file", 0, 0⟩ := rfl
  obtain ⟨u, j, hawaits, -, hkept, hmasks⟩ := mark_masks_of_kept (Store.single_isOrdinary .keepAll)
    (Store.single_isOrdinary .keepAll) (World.fresh_awaits _ [] .keepAll) (by decide)
    (World.fresh_isTree _ []) none [⟨marking.files, .mark (Path.ofText "/file")⟩]
    ⟨_, List.mem_singleton_self _⟩ hpath hi {} [] hresult
  cases hkept
  have htree : markedCommit.state.2.files.IsTree :=
    FileSystem.isTree_of_entries (by decide +kernel)
  refine ⟨hresult, fun r f hr hf he ↦ ?_⟩
  obtain ⟨fs, q, hcall, -⟩ := (hmasks markedCommit.state.2 hawaits htree
    ⟨[Utf8.encode "file"], "/file", rfl, rfl⟩ rfl).1 rfl r f hr hf he
  simp at hcall

def undoneCommit : Committed (List (Option SqlError) × World) :=
  (after {} [⟨.single [0x61], .record (Path.ofText "/file") ⟨1, 1, "t", "newer"⟩⟩,
      ⟨.single [], .mark (Path.ofText "/file")⟩]).commitOver (.single [])
    (.single .keepAll) (Store.single .keepAll).connection.failing {}
    ([], .reporting [] [⟨1, 1, "t", "older"⟩])

/-- The mark is taken for the edited file, and the older finding is still replayed. -/
theorem undoneCommit_shows_older_finding :
    undoneCommit.result = .ok { files := 1, findings := 1 } ∧
      undoneCommit.state.2.files = .single [] ∧
      (Replay.start (.single .keepAll) undoneCommit.state.2).map
          (Replay.items ((Store.single .keepAll).reads undoneCommit.state.2)) =
        .ok [findingItem ⟨⟨1, 1, "t", "older"⟩, "/file"⟩] :=
  ⟨rfl, rfl, rfl⟩

end Ledger

end FindingStore
