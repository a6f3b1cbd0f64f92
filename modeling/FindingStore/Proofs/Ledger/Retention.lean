import FindingStore.Proofs.Ledger.Outdating
import FindingStore.Proofs.Store.Pruning

namespace FindingStore

namespace Tables

variable {t u : Tables} {l : Ledger} {r : FileRow}

/-- Whether a row is older than a row of its path that some tables have and others have not. -/
def isOutdated (t u : Tables) (r : FileRow) : Bool :=
  u.files.any fun q ↦ !t.files.contains q && q.path == r.path && decide (r.id < q.id)

theorem isOutdated_iff :
    t.isOutdated u r = true ↔ ∃ q ∈ u.files, q ∉ t.files ∧ q.path = r.path ∧ r.id < q.id := by
  simp [isOutdated, and_assoc]

theorem isSuperseded_iff (hr : r ∈ u.files) :
    u.isSuperseded r = true ↔ ∃ q ∈ u.files, q.path = r.path ∧ r.id < q.id := by
  rw [isSuperseded, bne_iff_ne, Ne, latest?_eq_some, not_and]
  simp only [not_forall, Int.not_le]
  constructor
  · intro h
    obtain ⟨q, hq, hpath, hlt⟩ := h ⟨r, hr, rfl, rfl⟩
    exact ⟨q, hq, hpath, hlt⟩
  · intro hnewer _
    obtain ⟨q, hq, hpath, hlt⟩ := hnewer
    exact ⟨q, hq, hpath, hlt⟩

theorem files_land_keepAll (t : Tables) (l : Ledger) :
    (t.land .keepAll l.files l.staged).files = t.files ++ t.newRows l.files :=
  congrArg Tables.files (t.land_keepAll l.files l.staged)

theorem eq_of_mem_newRows (hl : l.Sound) {q : FileRow} (hr : r ∈ t.newRows l.files)
    (hq : q ∈ t.newRows l.files) (hpath : r.path = q.path) : r = q := by
  obtain ⟨m, f, hf, -, rfl⟩ := exists_of_mem_newRows hr
  obtain ⟨n, g, hg, -, rfl⟩ := exists_of_mem_newRows hq
  obtain rfl := hl.index_unique hf hg (Data.text.inj hpath)
  rw [Option.some.inj (hf.symm.trans hg)]

theorem isOutdated_of_mem (hl : l.Sound) (hr : r ∈ t.files) :
    t.isOutdated (t.land .keepAll l.files l.staged) r =
      t.isReplaced .pruneSuperseded l.files r := by
  rw [Bool.eq_iff_iff, isOutdated_iff]
  simp only [isReplaced, beq_self_eq_true, Bool.true_and, List.any_eq_true, beq_iff_eq]
  constructor
  · intro houtdated
    obtain ⟨q, hq, hnew, hpath, _⟩ := houtdated
    obtain ⟨f, hf, hf'⟩ := path_of_mem_newRows ((mem_newRows_iff t .keepAll hl).2 ⟨hq, hnew⟩)
    exact ⟨f, hf, hpath.symm.trans hf'⟩
  · intro hreplaced
    obtain ⟨f, hf, hpath⟩ := hreplaced
    obtain ⟨hf, hdue⟩ := List.mem_filter.1 hf
    obtain ⟨q, hq, hnew, hf'⟩ : ∃ q ∈ (t.land .keepAll l.files l.staged).files, q ∉ t.files ∧
        q.path = f.identity.path := (exists_newRow_iff hl hf).2 hdue
    refine ⟨q, hq, hnew, hf'.trans hpath.symm, ?_⟩
    have := lt_nextId hr
    have := (advances_land hl t .keepAll).fresh q ((mem_newRows_iff t .keepAll hl).2 ⟨hq, hnew⟩)
    omega

theorem isOutdated_of_mem_newRows (hl : l.Sound) (hr : r ∈ t.newRows l.files) :
    t.isOutdated (t.land .keepAll l.files l.staged) r = false := by
  refine Bool.eq_false_iff.2 fun houtdated ↦ ?_
  obtain ⟨q, hq, hnew, hpath, hlt⟩ := isOutdated_iff.1 houtdated
  rw [eq_of_mem_newRows hl ((mem_newRows_iff t .keepAll hl).2 ⟨hq, hnew⟩) hr hpath] at hlt
  exact absurd hlt (Int.lt_irrefl _)

theorem filter_isOutdated_land (hl : l.Sound) :
    (t.land .keepAll l.files l.staged).files.filter
        (t.isOutdated (t.land .keepAll l.files l.staged)) =
      t.files.filter (t.isReplaced .pruneSuperseded l.files) := by
  have hnone : (t.newRows l.files).filter
      (t.isOutdated (t.land .keepAll l.files l.staged)) = [] :=
    List.filter_eq_nil_iff.2 fun r hr ↦ Bool.eq_false_iff.1 (isOutdated_of_mem_newRows hl hr)
  conv_lhs => rw [files_land_keepAll]
  rw [List.filter_append, hnone, List.append_nil]
  exact List.filter_congr fun r hr ↦ isOutdated_of_mem hl hr

/-- It makes no difference whether the older rows go before the findings land or after that. -/
theorem land_pruneSuperseded (hl : l.Sound) : t.land .pruneSuperseded l.files l.staged =
    (t.land .keepAll l.files l.staged).deleteFiles
      (t.isOutdated (t.land .keepAll l.files l.staged)) := by
  have hkept : (t.files ++ t.newRows l.files).filter
      (fun r ↦ !t.isOutdated (t.land .keepAll l.files l.staged) r) =
        t.files.filter (fun r ↦ !t.isReplaced .pruneSuperseded l.files r) ++
          t.newRows l.files := by
    rw [List.filter_append]
    congr 1
    · exact List.filter_congr fun r hr ↦ by rw [isOutdated_of_mem hl hr]
    · exact List.filter_eq_self.2 fun r hr ↦ by rw [isOutdated_of_mem_newRows hl hr]; rfl
  have hreports : (t.land .keepAll l.files l.staged).reports =
      t.reports ++ t.newReports l.files l.staged :=
    congrArg Tables.reports (t.land_keepAll l.files l.staged)
  -- the reports of the run are on rows that have been added
  have hnew : (t.newReports l.files l.staged).filter (fun report ↦
      !((t.files.filter (t.isReplaced .pruneSuperseded l.files)).map (Cell.integer ·.id)).contains
        report.file) = t.newReports l.files l.staged := by
    refine List.filter_eq_self.2 fun report hreport ↦ ?_
    obtain ⟨f, -, rfl⟩ := List.mem_map.1 hreport
    rw [Bool.not_eq_true', List.contains_eq_mem, decide_eq_false_iff_not]
    intro hgone
    obtain ⟨r, hr, hid⟩ := List.mem_map.1 hgone
    have := lt_nextId (List.mem_filter.1 hr).1
    have := t.nextId_le_rowId l.files f.file
    have : r.id = t.rowId l.files f.file := Cell.integer.inj hid
    omega
  conv_rhs =>
    unfold deleteFiles
    dsimp only
    rw [filter_isOutdated_land hl, files_land_keepAll, hreports, hkept, List.filter_append, hnew]
  rfl

/-- If no path had two rows before, every row that is superseded afterwards is outdated. -/
theorem isSuperseded_land (hl : l.Sound) (hnodup : (t.files.map FileRow.path).Nodup)
    (hr : r ∈ (t.land .keepAll l.files l.staged).files) :
    (t.land .keepAll l.files l.staged).isSuperseded r =
      t.isOutdated (t.land .keepAll l.files l.staged) r := by
  rw [Bool.eq_iff_iff, isSuperseded_iff hr, isOutdated_iff]
  constructor
  · intro hsuperseded
    obtain ⟨q, hq, hpath, hlt⟩ := hsuperseded
    refine ⟨q, hq, fun hold ↦ ?_, hpath, hlt⟩
    rcases (advances_land hl t .keepAll).mem_files hr with hr | hr
    · rw [List.inj_on_of_nodup_map hnodup hold hr hpath] at hlt
      exact absurd hlt (Int.lt_irrefl _)
    · have := lt_nextId hold
      have := (advances_land hl t .keepAll).fresh r hr
      omega
  · intro houtdated
    obtain ⟨q, hq, _, hpath, hlt⟩ := houtdated
    exact ⟨q, hq, hpath, hlt⟩

theorem prune_land (hl : l.Sound) (hnodup : (t.files.map FileRow.path).Nodup) :
    (t.land .keepAll l.files l.staged).prune = t.land .pruneSuperseded l.files l.staged := by
  rw [land_pruneSuperseded hl]
  exact deleteFiles_congr fun _ hr ↦ isSuperseded_land hl hnodup hr

theorem prunedCount_land (hl : l.Sound) (hnodup : (t.files.map FileRow.path).Nodup) :
    (t.land .keepAll l.files l.staged).prunedCount =
      ((t.land .keepAll l.files l.staged).files.filter
        (t.isOutdated (t.land .keepAll l.files l.staged))).length :=
  congrArg List.length (List.filter_congr fun _ hr ↦ isSuperseded_land hl hnodup hr)

theorem landCounts_keepAll (t : Tables) (l : Ledger) :
    (t.landCounts .keepAll l.files l.staged).pruned = 0 := by
  have hnone : t.files.filter (fun _ ↦ false) = [] := List.filter_eq_nil_iff.2 fun _ _ ↦ nofun
  exact congrArg List.length hnone

theorem landCounts_pruneSuperseded (hl : l.Sound) :
    t.landCounts .pruneSuperseded l.files l.staged =
      { t.landCounts .keepAll l.files l.staged with
        pruned := ((t.land .keepAll l.files l.staged).files.filter
          (t.isOutdated (t.land .keepAll l.files l.staged))).length } := by
  rw [filter_isOutdated_land hl]
  rfl

end Tables

namespace Ledger

variable {l : Ledger} {s : Store} {w : World} {t : Tables}

theorem result_commit (l : Ledger) (s : Store) (source : Retry.Source) (w : World) :
    (l.commit s source w).result = ((Transaction.program s.policy source
      (fun _ ↦ work s.retention (l.resolveMarks w.files).files (l.resolveMarks w.files).staged)
        ()).run s.connection w).1.result.map Settlement.value := by
  unfold commit commitOver
  dsimp only [Store.transactOver]
  rcases (Transaction.program s.policy source (fun _ ↦ work s.retention
    (l.resolveMarks w.files).files (l.resolveMarks w.files).staged) ()).run s.connection w with
      ⟨⟨result, memory, source', delays⟩, v⟩
  cases result <;> rfl

/-- A commit succeeds if nothing stands between the store and its file, an attempt is made and none
of its messages is refused, with either setting. -/
theorem commit_isOk_iff (hl : l.Sound) (ha : s.access.IsOrdinary)
    (hw : w.Awaits s.database s.access t) (source : Retry.Source) :
    (∃ counts, (l.commit s source w).result = .ok counts) ↔
      w.IsClear s.database s.access ∧ 1 ≤ s.policy.maxAttempts ∧
        ∀ f ∈ l.staged, f.message ∉ t.rejected := by
  have hsound : (l.resolveMarks w.files).Sound := hl.resolveMarks w.files
  have hdirect := isDirect_work s.retention (l.resolveMarks w.files).files
    (l.resolveMarks w.files).staged
  let run := l.resolveMarks w.files
  have hruns {v : Verdict CommitCounts} {d : Draft} :
      (work s.retention run.files run.staged).Runs t (.ok v, ()) d ↔
        (∀ f ∈ run.staged, f.message ∉ t.rejected) ∧
          v = .commit (t.landCounts s.retention run.files run.staged) ∧
          d = t.land s.retention run.files run.staged :=
    runs_work_iff hsound.nodup fun _ hf ↦ hsound.file_of_staged hf
  rw [result_commit, ← l.staged_resolveMarks w.files]
  constructor
  · intro hsuccess
    obtain ⟨counts, hok⟩ := hsuccess
    obtain ⟨settlement, hsettlement, -⟩ := map_eq_ok.1 hok
    have hclear : w.IsClear s.database s.access := by
      by_contra hblocked
      obtain ⟨e, he⟩ := Store.result_of_not_isClear ha hw hblocked source
        (fun _ ↦ work s.retention run.files run.staged) ()
      rw [Store.transact, Store.report_transactOver] at he
      cases hsettlement.symm.trans he
    have hpolicy : 1 ≤ s.policy.maxAttempts := by
      refine Nat.one_le_iff_ne_zero.2 fun hzero ↦ ?_
      rw [Transaction.program, hzero] at hsettlement
      cases hsettlement
    obtain ⟨trials, -, hend⟩ := Transaction.run_program (Store.isolates_of_awaits w ha)
      (fun _ ↦ hdirect.staysInside) hpolicy source () ⟨hw, .refl w s.database, id⟩
    refine ⟨hclear, hpolicy, ?_⟩
    cases settlement with
    | committed v =>
      obtain ⟨last, d, -, hr, -⟩ := hend.commits hsettlement
      exact (hruns.1 hr).1
    | rolledBack v =>
      obtain ⟨last, d, -, hr, -⟩ := hend.rollsBack hsettlement
      exact (hruns.1 hr).1
  · intro hconditions
    obtain ⟨hclear, hpolicy, hmessages⟩ := hconditions
    obtain ⟨hok, -⟩ := Transaction.run_program_of_grants (Store.grants_of_clear ha)
      (fun _ ↦ hdirect) hpolicy source (hruns.2 ⟨hmessages, rfl, rfl⟩) ⟨hw, hclear⟩
    rw [hok]
    exact ⟨_, rfl⟩

open World in
/-- A run is committed twice from the same state of a store, once with every row kept and once with
superseded rows pruned. Either both fail and leave the tables as they were, or both succeed. The
second commit leaves what the first one leaves without the rows that are older than a row of their
path added by the run, it counts these rows, and its other counts are the same. If no path had two
rows before, so does a removal of the superseded rows after the first commit. -/
theorem pruning_commit_eq (hl : l.Reachable) (ha : s.access.IsOrdinary)
    (hw : w.Awaits s.database s.access t) (source source' : Retry.Source) :
    let keeping := l.commit { s with retention := .keepAll } source w
    let pruning := l.commit { s with retention := .pruneSuperseded } source' w
    let idle := fun (v : World) (u : Tables) ↦ v.Awaits s.database s.access u
    (∀ e, keeping.result = .error e →
      (∃ e, pruning.result = .error e) ∧ idle keeping.state t ∧ idle pruning.state t) ∧
      ∀ counts, keeping.result = .ok counts → counts.pruned = 0 ∧ ∃ u, idle keeping.state u ∧
        let outdated := (u.files.filter (t.isOutdated u)).length
        pruning.result = .ok { counts with pruned := outdated } ∧
          idle pruning.state (u.deleteFiles (t.isOutdated u)) ∧
          ((t.files.map FileRow.path).Nodup →
            let later := keeping.store.prune keeping.state
            later.1 = .ok outdated ∧ idle later.2.2 (u.deleteFiles (t.isOutdated u))) := by
  intro keeping pruning idle
  have hsound : (l.resolveMarks w.files).Sound := hl.sound.resolveMarks w.files
  have hboth : (∃ counts, keeping.result = .ok counts) ↔ ∃ counts, pruning.result = .ok counts :=
    (commit_isOk_iff (s := { s with retention := .keepAll }) hl.sound ha hw source).trans
      (commit_isOk_iff (s := { s with retention := .pruneSuperseded }) hl.sound ha hw source').symm
  obtain ⟨hkeeping, hkeepingFails⟩ :=
    awaits_commit (s := { s with retention := .keepAll }) hl.sound ha hw source
  obtain ⟨hpruning, hpruningFails⟩ :=
    awaits_commit (s := { s with retention := .pruneSuperseded }) hl.sound ha hw source'
  refine ⟨fun e hk ↦ ?_, fun counts hk ↦ ?_⟩
  · cases hp : pruning.result with
    | error e' => exact ⟨⟨e', rfl⟩, hkeepingFails e hk, hpruningFails e' hp⟩
    | ok counts =>
      obtain ⟨counts, hok⟩ := hboth.2 ⟨counts, hp⟩
      cases hk.symm.trans hok
  · obtain ⟨rfl, hkept, hclear⟩ := hkeeping counts hk
    obtain ⟨counts', hp⟩ := hboth.1 ⟨_, hk⟩
    obtain ⟨rfl, hpruned, -⟩ := hpruning counts' hp
    refine ⟨Tables.landCounts_keepAll _ _, _, hkept, ?_, ?_, fun hnodup ↦ ?_⟩
    · rw [hp, Tables.landCounts_pruneSuperseded hsound]
    · rw [← Tables.land_pruneSuperseded hsound]
      exact hpruned
    · obtain ⟨hclear', hpolicy, -⟩ := (commit_isOk_iff (s := { s with retention := .keepAll })
        hl.sound ha hw source).1 ⟨_, hk⟩
      obtain ⟨lastError, hstore⟩ := l.store_commitOver w.files { s with retention := .keepAll }
        s.connection source w
      obtain ⟨hlater, hremoved, -⟩ := Store.prune_of_clear
        (s := { s with retention := .keepAll, lastError }) ha hpolicy hkept (hclear hclear')
      rw [Tables.prunedCount_land hsound hnodup] at hlater
      rw [Tables.prune_land hsound hnodup, Tables.land_pruneSuperseded hsound] at hremoved
      rw [show keeping.store = _ from hstore]
      exact ⟨hlater, hremoved⟩

def earlier : Tables where
  files := [⟨1, "/file", .integer 0, .integer 0⟩]
  reports := [Remark.report ⟨1, 1, "t", "old"⟩ 1]

def secondCommit (retention : Retention) : Committed World :=
  single.commit (.single retention) {} (.fresh earlier [])

theorem secondCommit_prunes_earlier :
    (secondCommit .pruneSuperseded).result = .ok { files := 1, findings := 1, pruned := 1 } ∧
      ∃ u, (secondCommit .keepAll).state.Awaits 0 (Store.single .keepAll).access u ∧
        (u.files.filter (earlier.isOutdated u)).length = 1 ∧
        (secondCommit .pruneSuperseded).state.Awaits 0 (Store.single .keepAll).access
          (u.deleteFiles (earlier.isOutdated u)) ∧
        ((secondCommit .keepAll).store.prune (secondCommit .keepAll).state).1 = .ok 1 := by
  have hreachable : single.Reachable := .record (.single []) _ _ .empty
  obtain ⟨-, hok⟩ := pruning_commit_eq hreachable (Store.single_isOrdinary .keepAll)
    (World.fresh_awaits earlier [] .keepAll) {} {}
  obtain ⟨-, u, hkeeping, hresult, hpruning, hlater⟩ := hok { files := 1, findings := 1 } rfl
  have hpruned : (secondCommit .pruneSuperseded).result =
      .ok { files := 1, findings := 1, pruned := 1 } := rfl
  have hone : (u.files.filter (earlier.isOutdated u)).length = 1 :=
    (congrArg CommitCounts.pruned (Except.ok.inj (hpruned.symm.trans hresult))).symm
  have hnodup : (earlier.files.map FileRow.path).Nodup := List.nodup_singleton _
  obtain ⟨hremoved, -⟩ := hlater hnodup
  exact ⟨hpruned, u, hkeeping, hone, hpruning, hone ▸ hremoved⟩

end Ledger

end FindingStore
