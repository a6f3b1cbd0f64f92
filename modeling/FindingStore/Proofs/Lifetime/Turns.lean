import FindingStore.Proofs.Lifetime.Steps

namespace FindingStore

namespace Shared

variable {x y : Shared} {session other : Nat} {s : Statement} {reply : Except SqlError s.Reply}

theorem Takes.standing_of_ne (h : x.Takes session s reply y) (hne : other ≠ session) :
    y.standing other = x.standing other := by
  cases h <;> simp [standing, own?, hne.symm]

theorem Takes.holder (h : x.Takes session s reply y) {held : Nat × Draft}
    (hheld : held ∈ y.holder) : held.1 = session ∨ held ∈ x.holder := by
  cases h with
  | begun | asked | deferred =>
    cases hheld
    exact .inl rfl
  | committed | undone => cases hheld
  | refused => exact .inr hheld

theorem tables_without : (x.without session).tables = x.tables := by
  unfold without
  split <;> rfl

theorem standing_without_of_ne (hne : other ≠ session) :
    (x.without session).standing other = x.standing other := by
  rw [standing, standing, own?_without_of_ne hne, tables_without]

end Shared

namespace Lifetime

inductive Landed (jobs : List Job) : List Nat → Tables → Prop
  | nil : Landed jobs [] {}
  | snoc {ks : List Nat} {k : Nat} {job : Job} {t u : Tables} {answer : Store.Answer} :
      Landed jobs ks t → jobs[k]? = some job → job.result? = some (.ok answer) →
      job.call.Lands job.store t answer u → Landed jobs (ks ++ [k]) u

theorem Landed.result? {jobs : List Job} {ks : List Nat} {t : Tables} (h : Landed jobs ks t)
    {k : Nat} (hk : k ∈ ks) :
    ∃ job answer, jobs[k]? = some job ∧ job.result? = some (.ok answer) := by
  induction h with
  | nil => cases hk
  | snoc _ hjob hresult _ ih =>
    rcases List.mem_append.1 hk with hk | hk
    · exact ih hk
    · rw [List.mem_singleton.1 hk]
      exact ⟨_, _, hjob, hresult⟩

theorem Landed.mono {jobs more : List Job} {ks : List Nat} {t : Tables} (h : Landed jobs ks t)
    (hmore : ∀ k ∈ ks, more[k]? = jobs[k]?) : Landed more ks t := by
  induction h with
  | nil => exact .nil
  | snoc _ hjob hresult hlands ih =>
    refine .snoc (ih fun k hk ↦ hmore k (List.mem_append_left _ hk)) ?_ hresult hlands
    rw [hmore _ (List.mem_append_right _ (List.mem_singleton_self _)), hjob]

/-- The handles of a store and their calls, given its tables and the transaction on it. -/
structure State.Turns (st : State) (home : Location) (x : Shared) : Prop where
  shares : st.world.Shares 0 home x
  handle {s : Store} : s ∈ st.handles →
    s.IsHandle 0 home ∧ s.access.session < st.world.opened
  distinct {s s' : Store} : s ∈ st.handles → s' ∈ st.handles →
    s.access.session = s'.access.session → s = s'
  holder : ∀ held ∈ x.holder, ∃ job ∈ st.jobs, job.result? = none ∧ job.store ∈ st.handles ∧
    job.store.access.session = held.1
  job {job : Job} : job ∈ st.jobs → job.call.IsSound ∧ job.store.IsHandle 0 home ∧
    job.store.access.session < st.world.opened
  once {i j : Nat} {job job' : Job} : st.jobs[i]? = some job → st.jobs[j]? = some job' →
    job.store ∈ st.handles → job'.store ∈ st.handles →
    job.result? = none → job'.result? = none →
    job.store.access.session = job'.store.access.session → i = j
  obeys {job : Job} : job ∈ st.jobs → job.store ∈ st.handles → job.result? = none →
    job.rest.Obeys (job.call.Returns job.store) Store.Call.Fails
      (x.standing job.store.access.session)
  failed {k : Nat} {job : Job} : st.jobs[k]? = some job → k ∉ st.commits →
    ∀ answer, job.result? ≠ some (.ok answer)
  nodup : st.commits.Nodup
  landed : Landed st.jobs st.commits x.tables

namespace State.Turns

variable {st : State} {home : Location} {x y : Shared} {v : World} {s : Store}

theorem world (h : st.Turns home x) (hv : v.Shares 0 home x)
    (hopened : v.opened = st.world.opened) : State.Turns { st with world := v } home x where
  shares := hv
  handle hs := ⟨(h.handle hs).1, hopened ▸ (h.handle hs).2⟩
  distinct := h.distinct
  holder := h.holder
  job hjob := ⟨(h.job hjob).1, (h.job hjob).2.1, hopened ▸ (h.job hjob).2.2⟩
  once := h.once
  obeys := h.obeys
  failed := h.failed
  nodup := h.nodup
  landed := h.landed

theorem holder_lt (h : st.Turns home x) : ∀ held ∈ x.holder, held.1 < st.world.opened := by
  intro held hheld
  obtain ⟨job, hjob, -, -, hsession⟩ := h.holder held hheld
  exact hsession ▸ (h.job hjob).2.2

theorem own?_of_isFree (h : st.Turns home x) (hs : st.IsFree s) :
    x.own? s.access.session = none := by
  rw [Shared.own?_eq_none]
  intro held hheld he
  obtain ⟨job, hjob, hrest, -, hsession⟩ := h.holder held hheld
  have hended := hs job hjob (hsession.trans he)
  rw [hrest] at hended
  cases hended

theorem receive (h : st.Turns home x) {r : Except StoreError Store × World}
    (hr : st.world.Continues r.2 0 home ∧ ∀ s, r.1 = .ok s → s.IsHandle 0 home ∧
      s.access.session = st.world.opened ∧ r.2.opened = st.world.opened + 1) :
    (st.receive r).Turns home x := by
  obtain ⟨hcontinues, hok⟩ := hr
  have hmem {s : Store} (hs : s ∈ (st.receive r).handles) : r.1 = .ok s ∨ s ∈ st.handles := by
    rcases List.mem_append.1 hs with hs | hs
    · left
      rcases hresult : r.1 with e | s'
      · simp [hresult, Except.toOption] at hs
      · simp [hresult, Except.toOption] at hs
        rw [hs]
    · exact .inr hs
  have hold {s : Store} (hs : s ∈ (st.receive r).handles)
      (hlt : s.access.session < st.world.opened) : s ∈ st.handles := by
    rcases hmem hs with hs | hs
    · have := (hok s hs).2.1
      omega
    · exact hs
  refine ⟨h.shares.continues hcontinues h.holder_lt, fun {s} hs ↦ ?_, fun {s s'} hs hs' he ↦ ?_,
    fun held hheld ↦ ?_, fun {job} hjob ↦ ?_, fun hi hj hs hs' ↦ ?_, fun {job} hjob hs ↦ ?_,
    h.failed, h.nodup, h.landed⟩
  · rcases hmem hs with hs | hs
    · obtain ⟨hhandle, hsession, hopened⟩ := hok s hs
      exact ⟨hhandle, by simp only [State.receive]; omega⟩
    · exact ⟨(h.handle hs).1, Nat.lt_of_lt_of_le (h.handle hs).2 hcontinues.opened⟩
  · rcases hmem hs with hs | hs <;> rcases hmem hs' with hs' | hs'
    · rw [hs] at hs'
      exact Except.ok.inj hs'
    · have := (hok s hs).2.1
      have := (h.handle hs').2
      omega
    · have := (hok s' hs').2.1
      have := (h.handle hs).2
      omega
    · exact h.distinct hs hs' he
  · obtain ⟨job, hjob, hrest, hs, hsession⟩ := h.holder held hheld
    exact ⟨job, hjob, hrest, List.mem_append_right _ hs, hsession⟩
  · obtain ⟨hsound, hhandle, hlt⟩ := h.job hjob
    exact ⟨hsound, hhandle, Nat.lt_of_lt_of_le hlt hcontinues.opened⟩
  · exact h.once hi hj (hold hs (h.job (List.mem_of_getElem? hi)).2.2)
      (hold hs' (h.job (List.mem_of_getElem? hj)).2.2)
  · exact h.obeys hjob (hold hs (h.job hjob).2.2)

theorem dismiss (h : st.Turns home x) (hs : s ∈ st.handles) :
    (st.dismiss s).Turns home (x.without s.access.session) := by
  obtain ⟨hshares, hopened⟩ := h.shares.close (h.handle hs).1
  have hmem {s' : Store} :
      s' ∈ (st.dismiss s).handles ↔ s' ∈ st.handles ∧ s'.access.session ≠ s.access.session := by
    simp [State.dismiss]
  refine ⟨hshares, fun {s'} hs' ↦ ?_, fun hi hj ↦ h.distinct (hmem.1 hi).1 (hmem.1 hj).1,
    fun held hheld ↦ ?_, fun {job} hjob ↦ ?_, fun hi hj hs hs' ↦ ?_, fun {job} hjob hs' ↦ ?_,
    h.failed, h.nodup, ?_⟩
  · exact ⟨(h.handle (hmem.1 hs').1).1, hopened ▸ (h.handle (hmem.1 hs').1).2⟩
  · obtain ⟨hne, hheld⟩ := Shared.mem_holder_without.1 hheld
    obtain ⟨job, hjob, hrest, hs', hsession⟩ := h.holder held hheld
    exact ⟨job, hjob, hrest, hmem.2 ⟨hs', hsession ▸ hne⟩, hsession⟩
  · obtain ⟨hsound, hhandle, hlt⟩ := h.job hjob
    exact ⟨hsound, hhandle, hopened ▸ hlt⟩
  · exact h.once hi hj (hmem.1 hs).1 (hmem.1 hs').1
  · obtain ⟨hs', hne⟩ := hmem.1 hs'
    rw [Shared.standing_without_of_ne hne]
    exact h.obeys hjob hs'
  · rw [Shared.tables_without]
    exact h.landed

theorem lt_of_mem_commits (h : st.Turns home x) {k : Nat} (hk : k ∈ st.commits) :
    k < st.jobs.length := by
  obtain ⟨job, answer, hjob, -⟩ := h.landed.result? hk
  exact (List.getElem?_eq_some_iff.1 hjob).1

theorem start (h : st.Turns home x) (hs : s ∈ st.handles) (hfree : st.IsFree s)
    {call : Store.Call} (hcall : call.IsSound) : (st.start s call).Turns home x := by
  let new : Job := { store := s, call, rest := call.program s }
  have hobeys : (call.program s).Obeys (call.Returns s) Store.Call.Fails
      (x.standing s.access.session) := by
    rw [Shared.standing_eq_none.2 (h.own?_of_isFree hfree)]
    exact Store.Call.obeys hcall s
  have hget {i : Nat} {job : Job} (hi : (st.jobs ++ [new])[i]? = some job) :
      st.jobs[i]? = some job ∨ i = st.jobs.length ∧ job = new := by
    rcases Nat.lt_or_ge i st.jobs.length with hlt | hge
    · exact .inl (List.getElem?_append_left hlt ▸ hi)
    · rw [List.getElem?_append_right hge, List.getElem?_singleton] at hi
      obtain ⟨hzero, hnew⟩ := Option.ite_none_right_eq_some.1 hi
      exact .inr ⟨by omega, (Option.some.inj hnew).symm⟩
  have hmem {job : Job} (hjob : job ∈ st.jobs ++ [new]) : job ∈ st.jobs ∨ job = new :=
    (List.mem_append.1 hjob).imp_right List.mem_singleton.1
  -- an earlier call of the handle has ended
  have hother {i : Nat} {job : Job} (hi : st.jobs[i]? = some job) (hrest : job.result? = none) :
      job.store.access.session ≠ s.access.session := by
    intro he
    have hended := hfree job (List.mem_of_getElem? hi) he
    rw [hrest] at hended
    cases hended
  refine ⟨h.shares, h.handle, h.distinct, fun held hheld ↦ ?_, fun {job} hjob ↦ ?_,
    fun {i j job job'} hi hj hmem hmem' hrest hrest' he ↦ ?_, fun {job} hjob hstore hrest ↦ ?_,
    fun {k job} hk hcommits answer hanswer ↦ ?_, h.nodup,
    h.landed.mono fun k hk ↦ List.getElem?_append_left (h.lt_of_mem_commits hk)⟩
  · obtain ⟨job, hjob, hrest⟩ := h.holder held hheld
    exact ⟨job, List.mem_append_left _ hjob, hrest⟩
  · rcases hmem hjob with hjob | rfl
    · exact h.job hjob
    · exact ⟨hcall, h.handle hs⟩
  · rcases hget hi with hi | ⟨rfl, rfl⟩ <;> rcases hget hj with hj | ⟨rfl, rfl⟩
    · exact h.once hi hj hmem hmem' hrest hrest' he
    · exact absurd he (hother hi hrest)
    · exact absurd he.symm (hother hj hrest')
    · rfl
  · rcases hmem hjob with hjob | rfl
    · exact h.obeys hjob hstore hrest
    · exact hobeys
  · rcases hget hk with hk | ⟨rfl, rfl⟩
    · exact h.failed hk hcommits answer hanswer
    · have hdone := Job.rest_of_result? hanswer
      rw [show new.rest = call.program s from rfl] at hdone
      rw [hdone] at hobeys
      obtain ⟨e, he⟩ := hobeys.fails_of_done
      cases he

section Answer

variable {k : Nat} {job job' : Job} {statement : Statement}
  {reply : Except SqlError statement.Reply}

theorem replace (h : st.Turns home x) (hk : st.jobs[k]? = some job) (hs : job.store ∈ st.handles)
    (hpending : job.result? = none) (hjob : job'.store = job.store ∧ job'.call = job.call)
    (ht : x.Takes job.store.access.session statement reply y) (hv : v.Shares 0 home y)
    (hopened : v.opened = st.world.opened) {commits : List Nat}
    (hobeys : job'.result? = none → job'.rest.Obeys (job.call.Returns job.store)
      Store.Call.Fails (y.standing job.store.access.session))
    (hinside : ∀ d, y.own? job.store.access.session = some d → job'.result? = none)
    (hfailed : k ∈ commits ∨ ∀ answer, job'.result? ≠ some (.ok answer))
    (hcommits : st.commits ⊆ commits) (hnodup : commits.Nodup)
    (hlanded : Landed (st.jobs.set k job') commits y.tables) :
    State.Turns { st with world := v, jobs := st.jobs.set k job', commits } home y := by
  obtain ⟨hstore, hcall⟩ := hjob
  have hset : (st.jobs.set k job')[k]? = some job' :=
    List.getElem?_set_self (List.getElem?_eq_some_iff.1 hk).1
  have hothers {i : Nat} {other : Job} (hi : st.jobs[i]? = some other) (hne : i ≠ k)
      (hmem : other.store ∈ st.handles) (hresult : other.result? = none) :
      other.store.access.session ≠ job.store.access.session :=
    fun he ↦ hne (h.once hi hk hmem hs hresult hpending he)
  have hown {held : Nat × Draft} (hheld : held ∈ y.holder)
      (hsession : held.1 = job.store.access.session) :
      ∃ job ∈ st.jobs.set k job', job.result? = none ∧ job.store ∈ st.handles ∧
        job.store.access.session = held.1 := by
    refine ⟨job', List.mem_of_getElem? hset, hinside held.2 ?_, hstore ▸ hs, ?_⟩
    · rw [Shared.own?_eq_some, ← hsession]
      exact hheld
    · rw [hstore, hsession]
  refine ⟨hv, fun hs ↦ ⟨(h.handle hs).1, hopened ▸ (h.handle hs).2⟩, h.distinct,
    fun held hheld ↦ ?_, fun {other} hother ↦ ?_, fun {i j a b} hi hj ha hb ha' hb' he ↦ ?_,
    fun {other} hother hmem hresult ↦ ?_, fun {i other} hi hnot answer hanswer ↦ ?_, hnodup,
    hlanded⟩
  · rcases ht.holder hheld with hsession | hold
    · exact hown hheld hsession
    · obtain ⟨other, hother, hresult, hmem, hsession⟩ := h.holder held hold
      obtain ⟨i, hi⟩ := List.mem_iff_getElem?.1 hother
      by_cases hne : i = k
      · subst hne
        rw [hk] at hi
        cases hi
        exact hown hheld hsession.symm
      · rw [← List.getElem?_set_ne (Ne.symm hne)] at hi
        exact ⟨other, List.mem_of_getElem? hi, hresult, hmem, hsession⟩
  · obtain ⟨i, hi⟩ := List.mem_iff_getElem?.1 hother
    rcases Job.getElem?_set hi with ⟨rfl, rfl⟩ | ⟨-, hi⟩
    · rw [hstore, hcall]
      obtain ⟨hsound, hhandle, hlt⟩ := h.job (List.mem_of_getElem? hk)
      exact ⟨hsound, hhandle, hopened ▸ hlt⟩
    · obtain ⟨hsound, hhandle, hlt⟩ := h.job (List.mem_of_getElem? hi)
      exact ⟨hsound, hhandle, hopened ▸ hlt⟩
  · rcases Job.getElem?_set hi with ⟨rfl, rfl⟩ | ⟨hne, hold⟩ <;>
      rcases Job.getElem?_set hj with ⟨rfl, rfl⟩ | ⟨hne', hold'⟩
    · rfl
    · exact absurd (he.symm.trans (congrArg (·.access.session) hstore)) (hothers hold' hne' hb hb')
    · exact absurd (he.trans (congrArg (·.access.session) hstore)) (hothers hold hne ha ha')
    · exact h.once hold hold' ha hb ha' hb' he
  · obtain ⟨i, hi⟩ := List.mem_iff_getElem?.1 hother
    rcases Job.getElem?_set hi with ⟨rfl, rfl⟩ | ⟨hne, hi⟩
    · rw [hstore, hcall]
      exact hobeys hresult
    · rw [ht.standing_of_ne (hothers hi hne hmem hresult)]
      exact h.obeys (List.mem_of_getElem? hi) hmem hresult
  · rcases Job.getElem?_set hi with ⟨rfl, rfl⟩ | ⟨-, hi⟩
    · exact hfailed.elim (fun hin ↦ hnot hin) fun hfailed ↦ hfailed answer hanswer
    · exact h.failed hi (fun hin ↦ hnot (hcommits hin)) answer hanswer

theorem not_mem_commits (h : st.Turns home x) (hk : st.jobs[k]? = some job)
    (hpending : job.result? = none) : k ∉ st.commits := by
  intro hcommits
  obtain ⟨ended, answer, hended, hanswer⟩ := h.landed.result? hcommits
  rw [hk] at hended
  cases hended
  rw [hpending] at hanswer
  cases hanswer

/-- A statement of a call is answered. Either the tables are as before, or the call has landed. -/
theorem answer (h : st.Turns home x) (hk : st.jobs[k]? = some job) (hs : job.store ∈ st.handles)
    {next : Except SqlError statement.Reply → Program (Except StoreError Store.Answer)}
    (hrest : job.rest = .execute statement next)
    (ht : x.Takes job.store.access.session statement reply y) (hv : v.Shares 0 home y)
    (hopened : v.opened = st.world.opened) :
    (st.answer k job v next reply).Turns home y ∧
      (¬(statement = .commit ∧ reply.isOk = true) ∧ y.tables = x.tables ∨
        (statement = .commit ∧ reply.isOk = true) ∧
          ∃ answer, job.call.Lands job.store x.tables answer y.tables) := by
  let job' : Job := { job with rest := next reply }
  have hpending : job.result? = none := by simp [Job.result?, hrest]
  have hcommits := h.not_mem_commits hk hpending
  have hobeys := h.obeys (List.mem_of_getElem? hk) hs hpending
  rw [hrest] at hobeys
  have hlanded : Landed (st.jobs.set k job') st.commits x.tables := by
    refine h.landed.mono fun i hi ↦ List.getElem?_set_ne ?_
    rintro rfl
    exact hcommits hi
  have hsame : job'.store = job.store ∧ job'.call = job.call := ⟨rfl, rfl⟩
  unfold State.answer
  rcases ht.obeys hobeys with
    ⟨hrest', htables, hnot⟩ | ⟨hcommit, hnone, r, hdone, answer, rfl, hlands⟩
  · have hended {r : Except StoreError Store.Answer} (hresult : job'.result? = some r) :
        y.own? job.store.access.session = none ∧ Store.Call.Fails r := by
      have hdone : next reply = .done r := Job.rest_of_result? hresult
      rw [hdone] at hrest'
      exact ⟨Shared.standing_eq_none.1 hrest'.standing_of_done, hrest'.fails_of_done⟩
    rw [if_neg hnot]
    refine ⟨h.replace hk hs hpending hsame ht hv hopened (fun _ ↦ hrest') (fun d hd ↦ ?_)
      (.inr fun answer hanswer ↦ ?_) (List.Subset.refl _) h.nodup (htables ▸ hlanded),
      .inl ⟨hnot, htables⟩⟩
    · cases hresult : job'.result? with
      | none => rfl
      | some r =>
        rw [(hended hresult).1] at hd
        cases hd
    · obtain ⟨e, he⟩ := (hended hanswer).2
      cases he
  · have hresult : job'.result? = some (.ok answer) := by simp [job', Job.result?, hdone]
    have hset := List.getElem?_set_self (a := job') (List.getElem?_eq_some_iff.1 hk).1
    rw [if_pos hcommit]
    refine ⟨h.replace hk hs hpending hsame ht hv hopened (fun hpending' ↦ ?_) (fun d hd ↦ ?_)
      (.inl (by simp)) (List.subset_append_left _ _) ?_ (.snoc hlanded hset hresult hlands),
      .inr ⟨hcommit, answer, hlands⟩⟩
    · rw [hresult] at hpending'
      cases hpending'
    · rw [Shared.own?_eq_some, hnone] at hd
      cases hd
    · refine List.nodup_append.2 ⟨h.nodup, by simp, ?_⟩
      rintro i hi j hj rfl
      exact hcommits (List.mem_singleton.1 hj ▸ hi)

theorem execute (h : st.Turns home x) (hk : st.jobs[k]? = some job) (hs : job.store ∈ st.handles)
    {next : Except SqlError statement.Reply → Program (Except StoreError Store.Answer)}
    (hrest : job.rest = .execute statement next) :
    let r := job.store.connection statement st.world
    ∃ y, x.Takes job.store.access.session statement r.1 y ∧
      st.world.Tracks r.2 0 home (r.2.database 0) ∧
      (st.answer k job r.2 next r.1).Turns home y ∧
      (¬(statement = .commit ∧ r.1.isOk = true) ∧ y.tables = x.tables ∨
        (statement = .commit ∧ r.1.isOk = true) ∧
          ∃ answer, job.call.Lands job.store x.tables answer y.tables) := by
  have hobeys := h.obeys (List.mem_of_getElem? hk) hs (by simp [Job.result?, hrest])
  rw [hrest] at hobeys
  obtain ⟨y, htakes, hshares, htracks⟩ :=
    h.shares.execute (h.handle hs).1 (Shared.Admits.of_obeys hobeys)
  exact ⟨y, htakes, htracks, h.answer hk hs hrest htakes hshares htracks.opened⟩

end Answer

theorem elsewhere (h : st.Turns home x) {fs : FileSystem} (hfs : fs.Houses 0 home)
    (hlog : fs.logAt? (home.companion .log) = st.world.files.logAt? (home.companion .log)) :
    State.Turns { st with world := { st.world with files := fs } } home x := by
  have htracks := h.shares.serves.withFiles hfs hlog
  exact h.world ⟨htracks.serves, htracks.agrees.stands h.shares.stands,
    htracks.agrees.isApart h.shares.apart,
    fun held hheld ↦ htracks.usesLog (h.shares.usesLog held hheld)⟩ htracks.opened

theorem created {w : World} {p : Path} {config : Config} (hw : w.Vacant home)
    (hp : w.Finds p home) (hs : Store.create w p config = (.ok s, v)) :
    State.Turns { world := v, handles := [s] } home ⟨{}, none⟩ := by
  obtain ⟨hserves, hrests, hhandle, hsession, hopened, -⟩ := hw.create hp hs
  have hmem {s' : Store} (hs' : s' ∈ [s]) : s' = s := List.mem_singleton.1 hs'
  have hlt : s.access.session < v.opened := by omega
  have hapart : (v.database 0).IsApart := fun w hw ↦ by
    rw [hrests.writer] at hw
    cases hw
  exact ⟨⟨hserves, hrests, hapart, nofun⟩, fun hs' ↦ by rw [hmem hs']; exact ⟨hhandle, hlt⟩,
    fun hi hj _ ↦ (hmem hi).trans (hmem hj).symm, nofun, nofun, nofun, nofun, nofun, .nil, .nil⟩

end State.Turns

/-- Whatever happens, the handles go on taking turns. The tables stay as they are, or a call has
been committed and has landed. -/
theorem Step.turns {home : Location} {st st' : State} {x : Shared} (hstep : Step home st st')
    (h : st.Turns home x) :
    ∃ y, st'.Turns home y ∧ (st'.commits = st.commits ∧ y.tables = x.tables ∨
      (∃ k, st'.commits = st.commits ++ [k]) ∧
        ∃ job ∈ st.jobs, ∃ answer, job.call.Lands job.store x.tables answer y.tables) := by
  cases hstep with
  | create config hp =>
    obtain ⟨hcontinues, hok⟩ :=
      h.shares.serves.create hp h.shares.stands h.holder_lt config
    exact ⟨x, h.receive ⟨hcontinues, fun s hs ↦
      ⟨(hok s hs).1, (hok s hs).2.1, (hok s hs).2.2.1⟩⟩, .inl ⟨rfl, rfl⟩⟩
  | openExisting config hp =>
    obtain ⟨hcontinues, hok⟩ :=
      h.shares.serves.openExisting hp h.shares.stands h.holder_lt config
    exact ⟨x, h.receive ⟨hcontinues, fun s hs ↦
      ⟨(hok s hs).1, (hok s hs).2.1, (hok s hs).2.2.1⟩⟩, .inl ⟨rfl, rfl⟩⟩
  | close hs => exact ⟨_, h.dismiss hs, .inl ⟨rfl, Shared.tables_without⟩⟩
  | commit source hs hfree hl hr =>
    exact ⟨x, h.start hs hfree (Store.Call.isSound_ofLedger hl hr _ source), .inl ⟨rfl, rfl⟩⟩
  | prune hs hfree => exact ⟨x, h.start hs hfree trivial, .inl ⟨rfl, rfl⟩⟩
  | @execute k job s next hk hs hrest =>
    obtain ⟨y, -, -, hturns, ⟨hnot, htables⟩ | ⟨hcommit, hlands⟩⟩ := h.execute hk hs hrest
    · exact ⟨y, hturns, .inl ⟨if_neg hnot, htables⟩⟩
    · exact ⟨y, hturns, .inr ⟨⟨k, if_pos hcommit⟩, job, List.mem_of_getElem? hk, hlands⟩⟩
  | refuse e hk hs hrest hne =>
    obtain ⟨hturns, -⟩ := h.answer hk hs hrest (.refused e hne) h.shares rfl
    exact ⟨x, hturns, .inl ⟨if_neg fun hcommit ↦ Bool.false_ne_true hcommit.2, rfl⟩⟩
  | read hs hfree hq =>
    obtain ⟨hshares, htracks⟩ :=
      h.shares.read (h.handle hs).1 (h.own?_of_isFree hfree) hq
    exact ⟨x, h.world hshares htracks.opened, .inl ⟨rfl, rfl⟩⟩
  | elsewhere hfs hlog => exact ⟨x, h.elsewhere hfs hlog, .inl ⟨rfl, rfl⟩⟩

/-- At every point of the lifetime of a store its handles take turns. -/
theorem turns {home : Location} {states : List State} (h : Lifetime home states) {st : State}
    (hst : st ∈ states) : ∃ x, st.Turns home x := by
  induction h generalizing st with
  | created hw hp hs =>
    rw [List.mem_singleton.1 hst]
    exact ⟨_, .created hw hp hs⟩
  | step _ hstep ih =>
    rcases List.mem_cons.1 hst with rfl | hst
    · obtain ⟨x, hx⟩ := ih List.mem_cons_self
      obtain ⟨y, hy, -⟩ := hstep.turns hx
      exact ⟨y, hy⟩
    · exact ih hst

end Lifetime

end FindingStore
