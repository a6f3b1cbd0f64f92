import FindingStore.Proofs.Lifetime.Reading

namespace FindingStore

/-- A call that lands leaves the reports on a row as they are, as long as the row stays. -/
theorem Store.Call.Lands.cellsOf_eq {call : Call} {s : Store} {t u : Tables} {answer : Answer}
    (h : call.Lands s t answer u) (hc : call.IsSound) {history : List FileRow}
    (hn : t.Numbered history) {row : FileRow} (hold : row ∈ t.files) (hrow : row ∈ u.files) :
    u.cellsOf row.id = t.cellsOf row.id := by
  have happly := h.apply_eq hc
  cases call with
  | commit run source =>
    cases happly
    refine Tables.cellsOf_land_of_kept hn hold ?_
    rcases List.mem_append.1 hrow with hkept | hnew
    · simpa using (List.mem_filter.1 hkept).2
    · have := Tables.lt_nextId hold
      have := (t.advances_land hc.1 s.retention).fresh row hnew
      omega
  | prune =>
    cases happly
    refine Tables.cellsOf_deleteFiles fun q hq hsuperseded he ↦ ?_
    rw [hn.eq_of_id_eq hq hold he] at hsuperseded
    have hkept := (List.mem_filter.1 hrow).2
    rw [hsuperseded] at hkept
    cases hkept

namespace Lifetime

/-- A committed call has added a row with remarks: when it landed, it was the row of a file of its
run, and these are all the remarks of the run on this file. -/
inductive Attached (jobs : List Job) (ks : List Nat) (row : FileRow) : List Remark → Prop
  | intro {before after : List Nat} {k n : Nat} {job : Job} {t : Tables} {run : Ledger}
      {source : Retry.Source} {f : RunFile} :
      ks = before ++ k :: after → Landed jobs before t → jobs[k]? = some job →
      job.call = .commit run source → run.files[n]? = some f → f.isDue t = true →
      row = f.row (t.rowId run.files n) →
      Attached jobs ks row ((run.staged.filter (·.file == n)).map RunFinding.toRemark)

theorem Attached.append {jobs : List Job} {ks : List Nat} {row : FileRow} {remarks : List Remark}
    (h : Attached jobs ks row remarks) (more : List Nat) :
    Attached jobs (ks ++ more) row remarks := by
  cases h with
  | @intro before after k n job t run source f hks hlanded hjob hcall hf hdue hrow =>
    have hsplit : ks ++ more = before ++ k :: (after ++ more) := by
      rw [hks, List.append_assoc, List.cons_append]
    exact .intro hsplit hlanded hjob hcall hf hdue hrow

section Landed

variable {jobs : List Job} {ks : List Nat} {t : Tables} (hjobs : ∀ job ∈ jobs, job.call.IsSound)

include hjobs

theorem Landed.numbered (h : Landed jobs ks t) : ∃ history, t.Numbered history := by
  induction h with
  | nil => exact ⟨[], Tables.numbered_nil⟩
  | snoc _ hjob _ hlands ih =>
    obtain ⟨history, hnumbered⟩ := ih
    obtain ⟨rows, hadvances⟩ := hlands.advances (hjobs _ (List.mem_of_getElem? hjob))
    exact ⟨history ++ rows, hnumbered.advances hadvances⟩

/-- The reports on a row are those with which it has been added. -/
theorem Landed.attached (h : Landed jobs ks t) {row : FileRow} (hrow : row ∈ t.files) :
    ∃ remarks, Attached jobs ks row remarks ∧ t.cellsOf row.id = remarks.map Remark.cells := by
  induction h with
  | nil => cases hrow
  | @snoc ks k job t u answer hlanded hjob hresult hlands ih =>
    obtain ⟨history, hnumbered⟩ := hlanded.numbered hjobs
    have hsound := hjobs job (List.mem_of_getElem? hjob)
    by_cases hold : row ∈ t.files
    · obtain ⟨remarks, hattached, hcells⟩ := ih hold
      have hsame := hlands.cellsOf_eq hsound hnumbered hold hrow
      exact ⟨remarks, hattached.append [k], hsame.trans hcells⟩
    · have happly := hlands.apply_eq hsound
      rcases hcall : job.call with ⟨run, source⟩ | _
      · rw [hcall] at happly hsound
        cases happly
        obtain ⟨n, f, hf, hdue, rfl⟩ := Tables.exists_of_mem_newRows
          ((Tables.mem_or_mem_of_mem_land hrow).resolve_left hold)
        have hsplit : ks ++ [k] = ks ++ k :: [] := rfl
        refine ⟨_, .intro hsplit hlanded hjob hcall hf hdue rfl, ?_⟩
        refine Tables.cellsOf_land_of_due _ (fun report hreport ↦ ?_)
          (fun g hg ↦ Tables.isDue_of_staged hsound.1 hg) hf hdue
        exact List.all_eq_true.1 hnumbered.consistent report hreport
      · rw [hcall] at happly
        cases happly
        exact absurd (List.mem_filter.1 hrow).1 hold

end Landed

/-- When a replay reads about a path: the file as it is when the path is looked up, the state in
which the row is asked for, and the state in which its reports are. -/
structure Visit where
  files : FileSystem
  matched : State
  loaded : State

namespace Visit

variable {home : Location} {states : List State} {s : Store} {v : Visit} {path : String}

def reads (s : Store) (v : Visit) (path : String) : PathReads where
  identity := Identity.resolve v.files (Path.ofText path)
  matching mtime size := s.ask v.matched.world (.matching path mtime size)
  reports id := s.ask v.loaded.world (.reportsOf id)

structure IsWithin (v : Visit) (states : List State) (s : Store) : Prop where
  matched : v.matched ∈ states ∧ s ∈ v.matched.handles ∧ v.matched.IsFree s
  loaded : v.loaded ∈ states ∧ s ∈ v.loaded.handles ∧ v.loaded.IsFree s

/-- What a visit to a path can yield. If the path leads to a file and the newest row that carries
its identity is still there when the reports are read, then these are all remarks that one run had
on the file when it landed, each once and where it first came. -/
inductive Yields (s : Store) (v : Visit) (path : String) :
    Except StoreError (List ReplayEvent) → Prop
  | missing {e : IoError} : Identity.resolve? v.files (Path.ofText path) = .error e →
      Yields s v path (.ok [.missing path])
  | unmatched {i : Identity} : Identity.resolve? v.files (Path.ofText path) = .ok i →
      (∀ row ∈ v.matched.tables.files, row.carries { i with path } = false) →
      Yields s v path (.ok [.unmatched path])
  | findings {i : Identity} {row : FileRow} {attached remarks : List Remark} :
      Identity.resolve? v.files (Path.ofText path) = .ok i →
      v.matched.tables.IsNewest { i with path } row → row ∈ v.loaded.tables.files →
      Attached v.loaded.jobs v.loaded.commits row attached → Order.Folds attached remarks →
      Yields s v path (.ok ((findingsAt path remarks).map .finding))
  | gone {i : Identity} {row : FileRow} : Identity.resolve? v.files (Path.ofText path) = .ok i →
      v.matched.tables.IsNewest { i with path } row → row ∉ v.loaded.tables.files →
      Yields s v path (.ok [])
  | unread {i : Identity} {e : SqlError} : Identity.resolve? v.files (Path.ofText path) = .ok i →
      s.ask v.matched.world (.matching path i.mtime i.size) = .error e →
      Yields s v path (.error (.sql "match file" e))
  | unloaded {i : Identity} {row : FileRow} {e : SqlError} :
      Identity.resolve? v.files (Path.ofText path) = .ok i →
      v.matched.tables.IsNewest { i with path } row →
      s.ask v.loaded.world (.reportsOf row.id) = .error e →
      Yields s v path (.error (.sql "load reports" e))

end Visit

variable {home : Location} {states : List State}

theorem of_mem (h : Lifetime home states) {st : State} (hst : st ∈ states) :
    ∃ past, Lifetime home (st :: past) ∧ committedRows (st :: past) ⊆ committedRows states := by
  induction h with
  | created hw hp hs =>
    obtain rfl := List.mem_singleton.1 hst
    exact ⟨[], .created hw hp hs, List.Subset.refl _⟩
  | step h hstep ih =>
    rcases List.mem_cons.1 hst with rfl | hst
    · exact ⟨_, h.step hstep, List.Subset.refl _⟩
    · obtain ⟨past, hpast, hrows⟩ := ih hst
      exact ⟨past, hpast, List.Subset.trans hrows (List.subset_append_left _ _)⟩

theorem eq_of_id_eq (h : Lifetime home states) {before after : State} (hbefore : before ∈ states)
    (hafter : after ∈ states) {r q : FileRow} (hr : r ∈ before.tables.files)
    (hq : q ∈ after.tables.files) (he : r.id = q.id) : r = q := by
  have hknown {st : State} (hst : st ∈ states) : st.tables.files ⊆ committedRows states := by
    obtain ⟨past, hpast, hrows⟩ := h.of_mem hst
    exact List.Subset.trans (numbered hpast).known hrows
  obtain ⟨st, past, rfl⟩ : ∃ st past, states = st :: past := by
    cases h <;> exact ⟨_, _, rfl⟩
  exact Tables.eq_of_ascending (numbered h).ascending (hknown hbefore hr) (hknown hafter hq) he

section Reads

variable (h : Lifetime home states) {st : State} (hst : st ∈ states)

include h hst

theorem sees {s : Store} (hs : s ∈ st.handles) (hfree : st.IsFree s) :
    s.Sees st.world st.tables ∨ ∀ q : Query, ∃ e, s.ask st.world q = .error e := by
  obtain ⟨x, hx⟩ := turns h hst
  rw [hx.tables]
  exact hx.shares.sees (hx.handle hs).1 (hx.own?_of_isFree hfree)

/-- The reports on a row are read as the remarks with which it has been added. -/
theorem mapM_remark?_of_mem {row : FileRow} (hrow : row ∈ st.tables.files) :
    ∃ attached, Attached st.jobs st.commits row attached ∧
      (st.tables.reportsOf row.id).mapM ReportCells.remark? =
        .ok (Order.firstOccurrences attached) := by
  obtain ⟨x, hx⟩ := turns h hst
  obtain ⟨attached, hattached, hcells⟩ :=
    hx.landed.attached (fun job hjob ↦ (hx.job hjob).1) (hx.tables ▸ hrow)
  refine ⟨attached, hattached, ?_⟩
  rw [← hx.tables] at hcells
  have hreports : st.tables.reportsOf row.id =
      (Order.firstOccurrences attached).map Remark.cells := by
    rw [← Order.firstOccurrences_map fun _ _ ↦ Remark.cells_injective, ← hcells]
    rfl
  obtain ⟨past, hpast, -⟩ := h.of_mem hst
  obtain ⟨remarks, hread, hrows, -⟩ | ⟨e, -, -, -, herror, -⟩ :=
    ReportCells.mapM_remark? (st.tables.reportsOf row.id)
  · obtain rfl : remarks = Order.firstOccurrences attached :=
      (List.map_injective_iff.2 fun _ _ ↦ Remark.cells_injective) (hrows.symm.trans hreports)
    exact hread
  · obtain ⟨remarks, hread⟩ := (readable hpast).mapM_remark? row.id
    rw [hread] at herror
    cases herror

theorem reportsOf_of_not_mem {id : Int} (hid : ∀ r ∈ st.tables.files, r.id ≠ id) :
    st.tables.reportsOf id = [] := by
  obtain ⟨past, hpast, -⟩ := h.of_mem hst
  have hnone : st.tables.reports.filter (·.file == .integer id) = [] := by
    refine List.filter_eq_nil_iff.2 fun report hreport he ↦ ?_
    obtain ⟨r, hr, hfile⟩ :=
      Tables.hasFile_eq_true.1 (List.all_eq_true.1 (numbered hpast).consistent report hreport)
    exact hid r hr (Cell.integer.inj (hfile.symm.trans (beq_iff_eq.1 he)))
  rw [Tables.reportsOf, hnone]
  rfl

end Reads

/-- What a visit yields, whatever has happened to the store between its reads. -/
theorem Visit.yields (h : Lifetime home states) {s : Store} {v : Visit} (hv : v.IsWithin states s)
    (path : String) : v.Yields s path (answerOf ((v.reads s path).enter path)) := by
  obtain ⟨⟨hmatched, hs, hfree⟩, ⟨hloaded, hs', hfree'⟩⟩ := hv
  unfold PathReads.enter Visit.reads Identity.resolve
  cases hi : Identity.resolve? v.files (Path.ofText path) with
  | error e => exact .missing hi
  | ok i =>
    simp only [Except.toOption, Option.getD_some, Identity.isValid_of_resolve? hi, Bool.not_true,
      Bool.false_eq_true, if_false]
    rcases h.sees hmatched hs hfree with hsees | hblind
    · have hmatching : s.ask v.matched.world (.matching path i.mtime i.size) =
          .ok (v.matched.tables.matching? path i.mtime i.size) := hsees _ rfl
      rw [hmatching]
      cases hmatch : v.matched.tables.matching? path i.mtime i.size with
      | none => exact .unmatched hi (Tables.matching?_eq_none (i := { i with path }).1 hmatch)
      | some id =>
        obtain ⟨row, hrow, rfl⟩ := Tables.exists_isNewest (i := { i with path }) hmatch
        rcases h.sees hloaded hs' hfree' with hsees' | hblind'
        · have hreports := hsees'.ask_reportsOf row.id
          by_cases hkept : row ∈ v.loaded.tables.files
          · obtain ⟨attached, hattached, hread⟩ := h.mapM_remark?_of_mem hloaded hkept
            simp only [hreports, hread]
            exact .findings hi hrow hkept hattached (Order.folds_firstOccurrences attached)
          · have hnone : v.loaded.tables.reportsOf row.id = [] := by
              refine h.reportsOf_of_not_mem hloaded fun q hq he ↦ hkept ?_
              rwa [← h.eq_of_id_eq hloaded hmatched hq hrow.mem he]
            simp only [hreports, hnone]
            exact .gone hi hrow hkept
        · obtain ⟨e, he⟩ := hblind' (.reportsOf row.id)
          simp only [he]
          exact .unloaded hi hrow he
    · obtain ⟨e, he⟩ := hblind (.matching path i.mtime i.size)
      rw [he]
      exact .unread hi he

/-- However its reads lie among the commits, the removals and the changes of the files, a replay
visits the paths once and in the order of their bytes. What it yields for a path does not mix two
runs: it is all that one run had on the file when it landed, or there are no findings. -/
theorem replay_keeps_runs_apart (h : Lifetime home states) {s : Store} {started : State}
    (hstarted : started ∈ states ∧ s ∈ started.handles ∧ started.IsFree s) {r : Replay}
    (hstart : Replay.start s started.world = .ok r) (visits : String → Visit)
    (hvisits : ∀ path ∈ r.paths, (visits path).IsWithin states s) :
    r.paths.Pairwise (fun p q ↦ Utf8.encode p < Utf8.encode q) ∧
      ∃ answers, List.Forall₂ (fun path ↦ (visits path).Yields s path) r.paths answers ∧
        ∀ k, Replay.nth (fun path ↦ (visits path).reads s path) k r =
          (Replay.listing answers)[k]? := by
  obtain ⟨hmem, hs, hfree⟩ := hstarted
  have hsees : s.Sees started.world started.tables := by
    refine (h.sees hmem hs hfree).resolve_right fun hblind ↦ ?_
    obtain ⟨e, he⟩ := hblind .reportedPaths
    rw [Replay.start, he] at hstart
    cases hstart
  let answers := r.paths.map fun path ↦ answerOf (((visits path).reads s path).enter path)
  refine ⟨hsees.pairwise_paths hstart, answers, ?_, fun k ↦ ?_⟩
  · exact List.forall₂_map_right_iff.2
      (List.forall₂_same.2 fun path hpath ↦ Visit.yields h (hvisits path hpath) path)
  · rw [Replay.nth_eq_remaining, ← Replay.itemsOf_eq_listing, Replay.start_eq_ok hstart]
    rfl

def State.ahead : State :=
  [1, 0, 1, 1, 1].foldl State.advance
    (((State.shared .keepAll).commit .keepAll 0 [] "late").commit .keepAll 1 [] "early")

def State.level : State := [0, 0, 0, 0].foldl State.advance State.ahead

theorem ahead : ∃ past, Lifetime [Utf8.encode "store"] (State.ahead :: past) :=
  schedule _ (((shared .keepAll).commit (by decide +kernel) (by decide +kernel) [] "late").commit
    (by decide +kernel) (by decide +kernel) [] "early") (by decide +kernel)

def crossing : Visit where
  files := .single []
  matched := State.ahead
  loaded := State.level

theorem crossing_replays_early :
    let reads := crossing.reads (handle .keepAll 1)
    (∃ answers, List.Forall₂ (fun path ↦ crossing.Yields (handle .keepAll 1) path)
        ["/file"] answers ∧
      ∀ k, Replay.nth reads k ⟨["/file"], []⟩ = (Replay.listing answers)[k]?) ∧
      State.level.tables.latest? "/file" = some 2 ∧
      Replay.nth reads 0 ⟨["/file"], []⟩ =
        some (findingItem ⟨⟨1, 1, "t", "early"⟩, "/file"⟩) ∧
      Replay.nth reads 1 ⟨["/file"], []⟩ = none := by
  intro reads
  obtain ⟨past, h⟩ := ahead
  obtain ⟨before, h', hsuffix⟩ := schedule_suffix [0, 0, 0, 0] h (by decide +kernel)
  have hmem : State.ahead ∈ State.level :: before := hsuffix.subset List.mem_cons_self
  have hfree : handle .keepAll 1 ∈ State.ahead.handles ∧
      State.ahead.IsFree (handle .keepAll 1) := by decide +kernel
  have hfree' : handle .keepAll 1 ∈ State.level.handles ∧
      State.level.IsFree (handle .keepAll 1) := by decide +kernel
  have hwithin : crossing.IsWithin (State.level :: before) (handle .keepAll 1) :=
    ⟨⟨hmem, hfree⟩, ⟨List.mem_cons_self, hfree'⟩⟩
  have hstart : Replay.start (handle .keepAll 1) State.ahead.world = .ok ⟨["/file"], []⟩ := by
    decide +kernel
  obtain ⟨-, hanswers⟩ :=
    replay_keeps_runs_apart h' ⟨hmem, hfree⟩ hstart (fun _ ↦ crossing) fun _ _ ↦ hwithin
  exact ⟨hanswers, by decide +kernel, by decide +kernel, by decide +kernel⟩

end Lifetime

end FindingStore
