import FindingStore.Proofs.Lifetime.Reading

namespace FindingStore

def Job.statement? (job : Job) : Option Statement :=
  match job.rest with
  | .done _ => none
  | .execute s _ => some s

theorem Job.rest_of_statement? {job : Job} {s : Statement} (h : job.statement? = some s) :
    ∃ next, job.rest = .execute s next := by
  obtain ⟨store, call, rest⟩ := job
  cases rest with
  | done => cases h
  | execute statement next =>
    cases h
    exact ⟨next, rfl⟩

def Job.files (job : Job) : List RunFile :=
  match job.call with
  | .commit run _ => run.files
  | .prune => []

theorem Job.call_of_mem_files {job : Job} {f : RunFile} (h : f ∈ job.files) :
    ∃ run source, job.call = .commit run source ∧ f ∈ run.files := by
  obtain ⟨store, call, rest⟩ := job
  cases call with
  | commit run source => exact ⟨run, source, rfl, h⟩
  | prune => cases h

theorem Tables.shown_congr (t : Tables) {fs fs' : FileSystem} {path : String}
    (h : fs'.resolved? (Path.ofText path) = fs.resolved? (Path.ofText path)) :
    t.shown fs' path = t.shown fs path := by
  unfold shown
  rw [h]

namespace Lifetime

variable {home : Location} {st : State} {past : List State} {k : Nat} {job : Job} {run : Ledger}
  {source : Retry.Source} {v : World}

/-- After a successful commit nobody is in a transaction, and the run has landed. The handle goes on
using the log. -/
theorem State.Turns.commit {x : Shared} (hx : st.Turns home x) (hk : st.jobs[k]? = some job)
    (hjob : job.store ∈ st.handles)
    {next : Except SqlError Unit → Program (Except StoreError Store.Answer)}
    (hrest : job.rest = .execute .commit next) (hcall : job.call = .commit run source)
    (hcommit : job.store.connection .commit st.world = (.ok (), v)) :
    (st.answer k job v (s := .commit) next (.ok ())).Turns home
        ⟨x.tables.land job.store.retention run.files run.staged, none⟩ ∧
      v.UsesLog 0 job.store.access.cache := by
  obtain ⟨y, htakes, htracks, hturns, hlanded⟩ := hx.execute hk hjob hrest
  rw [hcommit] at htakes htracks hturns hlanded
  obtain ⟨answer, hlands⟩ : ∃ answer, job.call.Lands job.store x.tables answer y.tables := by
    rcases hlanded with ⟨hnot, -⟩ | ⟨-, hlands⟩
    · exact absurd ⟨rfl, rfl⟩ hnot
    · exact hlands
  have happly := hlands.apply_eq (hx.job (List.mem_of_getElem? hk)).1
  rw [hcall] at happly
  have htables := (Prod.mk.inj happly).2
  obtain ⟨d, hheld, hholder⟩ :
      ∃ d, x.holder = some (job.store.access.session, d) ∧ y.holder = none := by
    cases htakes
    exact ⟨_, rfl, rfl⟩
  have huses : st.world.UsesLog 0 job.store.access.cache := by
    rw [(hx.handle hjob).1.cache]
    exact hx.shares.usesLog _ hheld
  obtain ⟨t, holder⟩ := y
  cases hholder
  obtain rfl : _ = t := htables
  exact ⟨hturns, htracks.usesLog huses⟩

/-- A run is committed that has met a file in another state than the present one. What is replayed
for the file is the same as it has been since the last commit, unless superseded rows are pruned and
the run adds a row for the file; then nothing is replayed for it. The handle that has committed can
replay. -/
theorem outdated_run_keeps_findings (h : Lifetime home (st :: past))
    (hk : st.jobs[k]? = some job) (hjob : job.store ∈ st.handles)
    {next : Except SqlError Unit → Program (Except StoreError Store.Answer)}
    (hrest : job.rest = .execute .commit next) (hcall : job.call = .commit run source)
    (hcommit : job.store.connection .commit st.world = (.ok (), v)) {f : RunFile}
    (hf : f ∈ run.files)
    (houtdated : ∀ i, st.world.files.resolved? (Path.ofText f.identity.path) = some i →
      ¬(f.identity.mtime = i.mtime ∧ f.identity.size = i.size))
    (hsame : v.files.resolved? (Path.ofText f.identity.path) =
      st.world.files.resolved? (Path.ofText f.identity.path)) :
    let path := f.identity.path
    let after := st.answer k job v (s := .commit) next (.ok ())
    let prunes := job.store.retention = .pruneSuperseded ∧
      ∃ r ∈ after.tables.files, r ∉ st.tables.files ∧ r.path = path
    (Replay.start job.store v).isOk = true ∧
      ∀ reader ∈ st.handles, (Replay.start reader v).isOk = true →
        (prunes → reader.replayed v path = []) ∧
          (¬prunes → ∀ before ∈ st :: past, before.commits = st.commits →
            before.world.files.resolved? (Path.ofText path) =
              st.world.files.resolved? (Path.ofText path) →
            ∀ s ∈ before.handles, before.IsFree s → (Replay.start s before.world).isOk = true →
              reader.replayed v path = s.replayed before.world path) := by
  intro path after prunes
  obtain ⟨x, hx⟩ := turns h List.mem_cons_self
  obtain ⟨hy, huses⟩ := hx.commit hk hjob hrest hcall hcommit
  have hcallSound := (hx.job (List.mem_of_getElem? hk)).1
  rw [hcall] at hcallSound
  obtain ⟨hsound, -, hrange⟩ := hcallSound
  have hsees : job.store.Sees v _ := hy.shares.keeps.sees (hx.handle hjob).1 rfl huses
  rw [← hx.tables] at hsees
  have hreadable := (readable h).land job.store.retention hrange run.files
  refine ⟨hsees.isOk_start hreadable, fun reader hreader hafter ↦ ?_⟩
  have hsees : reader.Sees v _ := hy.shares.sees_of_start (hx.handle hreader).1 rfl hafter
  rw [← hx.tables] at hsees hy
  have hprunes : prunes ↔ job.store.retention = .pruneSuperseded ∧ f.isDue st.tables = true := by
    simp only [prunes, after, hy.tables]
    exact and_congr_right fun _ ↦ Tables.exists_newRow_iff hsound hf
  have hshown := st.tables.shown_land_of_outdated job.store.retention (numbered h) hsound hf
    houtdated
  have hreplayed := hsees.replayed_eq hreadable path
  rw [Tables.shown_congr _ hsame, hshown, ← if_congr hprunes rfl rfl] at hreplayed
  refine ⟨fun hgone ↦ hreplayed.trans (if_pos hgone),
    fun hstay before hbefore hcommits hdisk s hs hfree hstart ↦ ?_⟩
  obtain ⟨z, hz⟩ := turns h hbefore
  have htables := (tables_eq_of_commits h hbefore).2 (congrArg List.length hcommits)
  have hsees' := hz.shares.sees_of_start (hz.handle hs).1 (hz.own?_of_isFree hfree) hstart
  rw [← hz.tables, htables] at hsees'
  rw [hreplayed, if_neg hstay, hsees'.replayed_eq (readable h), Tables.shown_congr _ hdisk]

def State.current (retention : Retention) : State :=
  [0, 0, 0, 0, 0].foldl State.advance
    ((State.shared retention).commit retention 0 [0x61] "current")

def State.crossed (retention : Retention) : State :=
  (List.replicate (if retention = .pruneSuperseded then 4 else 3) 1).foldl State.advance
    ((State.current retention).commit retention 1 [] "outdated")

theorem crossed (retention : Retention) :
    ∃ past, Lifetime [Utf8.encode "store"] (State.crossed retention :: past) := by
  have hstart : handle retention 0 ∈ (State.shared retention).handles ∧
      (State.shared retention).IsFree (handle retention 0) := by
    cases retention <;> decide +kernel
  have hcurrent : ∃ past, Lifetime [Utf8.encode "store"] (State.current retention :: past) :=
    schedule _ ((shared retention).commit hstart.1 hstart.2 [0x61] "current")
      (by cases retention <;> decide +kernel)
  obtain ⟨past, h⟩ := hcurrent
  have hnext : handle retention 1 ∈ (State.current retention).handles ∧
      (State.current retention).IsFree (handle retention 1) := by
    cases retention <;> decide +kernel
  exact schedule _ (h.commit hnext.1 hnext.2 [] "outdated")
    (by cases retention <;> decide +kernel)

theorem crossed_keeps_current :
    let w := (State.crossed .keepAll).world
    let v := ((handle .keepAll 1).connection .commit w).2
    (handle .keepAll 0).replayed v "/file" = (handle .keepAll 0).replayed w "/file" ∧
      (handle .keepAll 0).replayed w "/file" = [⟨⟨1, 1, "t", "current"⟩, "/file"⟩] := by
  obtain ⟨past, h⟩ := crossed .keepAll
  obtain ⟨job, hk, hstore⟩ := Option.map_eq_some_iff.1
    (show (State.crossed .keepAll).jobs[1]?.map Job.store = some (handle .keepAll 1) by
      decide +kernel)
  have hstatement : (State.crossed .keepAll).jobs[1]?.bind Job.statement? = some .commit := by
    decide +kernel
  have hfiles : (State.crossed .keepAll).jobs[1]?.map Job.files =
      some [{ identity := ⟨"/file", 0, 0⟩, hasFindings := true }] := by decide +kernel
  rw [hk] at hstatement hfiles
  obtain ⟨next, hrest⟩ := Job.rest_of_statement? hstatement
  have hf : { identity := ⟨"/file", 0, 0⟩, hasFindings := true } ∈ job.files :=
    Option.some.inj hfiles ▸ List.mem_singleton_self _
  obtain ⟨run, source, hcall, hf⟩ := Job.call_of_mem_files hf
  have hcommit : ((handle .keepAll 1).connection .commit (State.crossed .keepAll).world).1 =
      .ok () := by decide +kernel
  have hdisk : (State.crossed .keepAll).world.files.resolved? (Path.ofText "/file") =
      some ⟨"/file", 0, 1⟩ := by decide +kernel
  obtain ⟨-, hkeeps⟩ := outdated_run_keeps_findings h hk (by rw [hstore]; decide +kernel) hrest
    hcall (by rw [hstore]; exact Prod.ext hcommit rfl) hf
    (by rintro i hi ⟨-, hsize⟩; rw [hdisk] at hi; cases hi; cases hsize) (by decide +kernel)
  obtain ⟨-, hkeeps⟩ := hkeeps (handle .keepAll 0) (by decide +kernel) (by decide +kernel)
  refine ⟨hkeeps (fun ⟨hprunes, _⟩ ↦ ?_) _ List.mem_cons_self rfl rfl (handle .keepAll 0)
    (by decide +kernel) (by decide +kernel) (by decide +kernel), by decide +kernel⟩
  rw [hstore] at hprunes
  cases hprunes

/-- If superseded rows are pruned, the commit of the outdated run hides what the other handle has
found in the file as it is. -/
theorem crossed_hides_current :
    (∃ past, Lifetime [Utf8.encode "store"] (State.crossed .pruneSuperseded :: past)) ∧
      (State.crossed .pruneSuperseded).jobs[1]?.map Job.store = some (handle .pruneSuperseded 1) ∧
      (State.crossed .pruneSuperseded).jobs[1]?.bind Job.statement? = some .commit ∧
      (State.crossed .pruneSuperseded).jobs[1]?.map Job.files =
        some [{ identity := ⟨"/file", 0, 0⟩, hasFindings := true }] ∧
      let w := (State.crossed .pruneSuperseded).world
      let v := ((handle .pruneSuperseded 1).connection .commit w).2
      w.files.resolved? (Path.ofText "/file") = some ⟨"/file", 0, 1⟩ ∧
        ((handle .pruneSuperseded 1).connection .commit w).1 = .ok () ∧
        v.files.resolved? (Path.ofText "/file") = some ⟨"/file", 0, 1⟩ ∧
        (handle .pruneSuperseded 0).replayed w "/file" =
          [⟨⟨1, 1, "t", "current"⟩, "/file"⟩] ∧
        (handle .pruneSuperseded 0).replayed v "/file" = [] :=
  ⟨crossed .pruneSuperseded, by decide +kernel, by decide +kernel, by decide +kernel,
    by decide +kernel, by decide +kernel, by decide +kernel, by decide +kernel, by decide +kernel⟩

end Lifetime

end FindingStore
