import FindingStore.Proofs.Lifetime.Turns

namespace FindingStore

def Job.performAll : List Job → World → List (Except StoreError Store.Answer) × World
  | [], w => ([], w)
  | job :: rest, w =>
    let r := job.call.perform job.store w
    let results := performAll rest r.2
    (r.1 :: results.1, results.2)

theorem Job.performAll_append (jobs more : List Job) (w : World) :
    performAll (jobs ++ more) w =
      ((performAll jobs w).1 ++ (performAll more (performAll jobs w).2).1,
        (performAll more (performAll jobs w).2).2) := by
  induction jobs generalizing w with
  | nil => rfl
  | cons job rest ih => simp only [List.cons_append, performAll, ih]

namespace Lifetime

def State.committed (st : State) : List Job := st.commits.filterMap (st.jobs[·]?)

/-- Jobs that have landed beside others do the same where nothing stands in their way. -/
theorem Landed.performAll {home : Location} {jobs : List Job} {ks : List Nat} {t : Tables}
    (h : Landed jobs ks t)
    (hjobs : ∀ job ∈ jobs, job.call.IsSound ∧ job.store.IsHandle 0 home)
    {caches : Nat → Prop} (hcaches : ∀ job ∈ ks.filterMap (jobs[·]?), caches job.store.access.cache)
    {v : World} (hv : v.Idle 0 caches {}) :
    let r := Job.performAll (ks.filterMap (jobs[·]?)) v
    r.1.map some = (ks.filterMap (jobs[·]?)).map Job.result? ∧ r.2.Idle 0 caches t := by
  induction h with
  | nil => exact ⟨rfl, hv⟩
  | @snoc ks k job t u answer _ hjob hresult hlands ih =>
    have hsplit : (ks ++ [k]).filterMap (jobs[·]?) = ks.filterMap (jobs[·]?) ++ [job] := by
      simp [hjob]
    rw [hsplit] at hcaches ⊢
    obtain ⟨hresults, hidle⟩ := ih fun job hmem ↦ hcaches job (List.mem_append_left _ hmem)
    obtain ⟨hsound, hhandle⟩ := hjobs job (List.mem_of_getElem? hjob)
    obtain ⟨hanswer, hidle'⟩ := Store.Call.perform_of_lands hlands hsound hhandle.attempts
      (Store.grants caches (hcaches job (by simp)) hhandle.ordinary) (hhandle.database ▸ hidle)
    rw [hhandle.database] at hidle'
    rw [Job.performAll_append]
    refine ⟨?_, hidle'⟩
    simp only [Job.performAll, List.map_append, hresults, hanswer, List.map_cons, List.map_nil,
      hresult]

/-- Calls that run beside each other are serializable. Exactly the calls that give a result have
been committed, each once, and performing these alone gives the same results and rows. -/
theorem serializes {home : Location} {st : State} {past : List State}
    (h : Lifetime home (st :: past)) :
    st.commits.Nodup ∧
      (∀ k job, st.jobs[k]? = some job →
        (k ∈ st.commits ↔ ∃ answer, job.result? = some (.ok answer))) ∧
      ∀ v : World,
        v.Idle 0 (fun cache ↦ ∃ job ∈ st.committed, job.store.access.cache = cache) {} →
          let r := Job.performAll st.committed v
          r.1.map some = st.committed.map Job.result? ∧
            (r.2.database 0).contents = (st.world.database 0).contents := by
  obtain ⟨x, hx⟩ := turns h List.mem_cons_self
  refine ⟨hx.nodup, fun k job hk ↦ ⟨fun hcommits ↦ ?_, fun ⟨answer, hanswer⟩ ↦ ?_⟩, fun v hv ↦ ?_⟩
  · obtain ⟨ended, answer, hended, hanswer⟩ := hx.landed.result? hcommits
    rw [hk] at hended
    cases hended
    exact ⟨answer, hanswer⟩
  · by_contra hcommits
    exact hx.failed hk hcommits answer hanswer
  · obtain ⟨hresults, hidle⟩ := hx.landed.performAll
      (fun job hjob ↦ ⟨(hx.job hjob).1, (hx.job hjob).2.1⟩) (fun job hjob ↦ ⟨job, hjob, rfl⟩) hv
    exact ⟨hresults, hidle.2.contents.trans hx.shares.stands.contents.symm⟩

def quiet (caches : List Nat) : World where
  files := .single []
  databases := [{ contents := .tables {}, log := some { stored := .bare, users := caches } }]
  logs := [none]

theorem quiet_idle (caches : List Nat) : (quiet caches).Idle 0 (· ∈ caches) {} := by
  refine ⟨⟨⟨Nat.zero_lt_one, ⟨_, rfl, rfl⟩, FileSystem.single_spares []⟩, ?_⟩, rfl, rfl, rfl, rfl⟩
  intro cache hcache log hlog
  obtain rfl : { stored := .bare, users := caches } = log := Option.some.inj hlog
  exact ⟨hcache, List.not_mem_nil⟩

theorem overtaken_serializes :
    State.overtaken.commits = [1, 0] ∧
      let r := Job.performAll State.overtaken.committed (quiet [0, 1])
      r.1.map some = State.overtaken.committed.map Job.result? ∧
        (r.2.database 0).contents = (State.overtaken.world.database 0).contents := by
  obtain ⟨past, h⟩ := overtaken
  obtain ⟨-, -, hserial⟩ := serializes h
  have hcaches : ∀ job ∈ State.overtaken.committed, job.store.access.cache ∈ [0, 1] := by
    decide +kernel
  refine ⟨by decide +kernel, hserial (quiet [0, 1]) ⟨⟨(quiet_idle _).1.1, ?_⟩, (quiet_idle _).2⟩⟩
  rintro cache ⟨job, hjob, rfl⟩
  exact (quiet_idle [0, 1]).1.2 _ (hcaches job hjob)

end Lifetime

end FindingStore
