import FindingStore.Proofs.Store.Calls
import FindingStore.Proofs.Store.Creation

namespace FindingStore

structure Job where
  store : Store
  call : Store.Call
  rest : Program (Except StoreError Store.Answer)

def Job.result? (job : Job) : Option (Except StoreError Store.Answer) :=
  match job.rest with
  | .done r => some r
  | .execute .. => none

theorem Job.rest_of_result? {job : Job} {r : Except StoreError Store.Answer}
    (h : job.result? = some r) : job.rest = .done r := by
  obtain ⟨store, call, rest⟩ := job
  cases rest with
  | done => exact congrArg Program.done (Option.some.inj h)
  | execute => cases h

theorem Job.getElem?_set {jobs : List Job} {k i : Nat} {job other : Job}
    (h : (jobs.set k job)[i]? = some other) :
    i = k ∧ other = job ∨ i ≠ k ∧ jobs[i]? = some other := by
  rw [List.getElem?_set] at h
  split at h
  · next hk =>
    obtain ⟨-, hother⟩ := Option.ite_none_right_eq_some.1 h
    exact .inl ⟨hk.symm, (Option.some.inj hother).symm⟩
  · next hk => exact .inr ⟨Ne.symm hk, h⟩

namespace Lifetime

structure State where
  world : World
  handles : List Store
  jobs : List Job := []
  commits : List Nat := []

namespace State

def IsFree (st : State) (s : Store) : Prop :=
  ∀ job ∈ st.jobs, job.store.access.session = s.access.session → job.result?.isSome = true

instance (st : State) (s : Store) : Decidable (st.IsFree s) :=
  inferInstanceAs (Decidable (∀ job ∈ st.jobs,
    job.store.access.session = s.access.session → job.result?.isSome = true))

def receive (st : State) (r : Except StoreError Store × World) : State :=
  { st with world := r.2, handles := r.1.toOption.toList ++ st.handles }

def dismiss (st : State) (s : Store) : State :=
  { st with
    world := s.close st.world
    handles := st.handles.filter (·.access.session != s.access.session) }

def start (st : State) (s : Store) (call : Store.Call) : State :=
  { st with jobs := st.jobs ++ [{ store := s, call, rest := call.program s }] }

def answer (st : State) (k : Nat) (job : Job) (v : World) {s : Statement}
    (next : Except SqlError s.Reply → Program (Except StoreError Store.Answer))
    (reply : Except SqlError s.Reply) : State :=
  { st with
    world := v
    jobs := st.jobs.set k { job with rest := next reply }
    commits := if s = .commit ∧ reply.isOk = true then st.commits ++ [k] else st.commits }

def advance (st : State) (k : Nat) : State :=
  match st.jobs[k]? with
  | none => st
  | some job =>
    match job.rest with
    | .done _ => st
    | .execute s next =>
      let r := job.store.connection s st.world
      st.answer k job r.2 next r.1

end State

open State

/-- What can happen to a store in the file at a place. -/
inductive Step (home : Location) : State → State → Prop
  | create {st : State} {p : Path} (config : Config) : st.world.Finds p home →
      Step home st (st.receive (Store.create st.world p config))
  | openExisting {st : State} {p : Path} (config : Config) : st.world.Finds p home →
      Step home st (st.receive (Store.openExisting st.world p config))
  | close {st : State} {s : Store} : s ∈ st.handles → Step home st (st.dismiss s)
  | commit {st : State} {s : Store} {l : Ledger} (source : Retry.Source) : s ∈ st.handles →
      st.IsFree s → l.Reachable → (∀ f ∈ l.staged, f.toRemark.InRange) →
      Step home st (st.start s (.ofLedger l st.world.files source))
  | prune {st : State} {s : Store} : s ∈ st.handles → st.IsFree s →
      Step home st (st.start s .prune)
  | execute {st : State} {k : Nat} {job : Job} {s : Statement}
      {next : Except SqlError s.Reply → Program (Except StoreError Store.Answer)} :
      st.jobs[k]? = some job → job.store ∈ st.handles → job.rest = .execute s next →
      Step home st (st.answer k job (job.store.connection s st.world).2 next
        (job.store.connection s st.world).1)
  /-- A statement does not get through to the database. -/
  | refuse {st : State} {k : Nat} {job : Job} {s : Statement}
      {next : Except SqlError s.Reply → Program (Except StoreError Store.Answer)} (e : SqlError) :
      st.jobs[k]? = some job → job.store ∈ st.handles → job.rest = .execute s next →
      s ≠ .rollback → Step home st (st.answer k job st.world next (.error e))
  | read {st : State} {s : Store} {q : Query} : s ∈ st.handles → st.IsFree s →
      q.writes = false →
      Step home st { st with world := (s.connection (.query q) st.world).2 }
  /-- Other files change. -/
  | elsewhere {st : State} {fs : FileSystem} : fs.Houses 0 home →
      fs.logAt? (home.companion .log) = st.world.files.logAt? (home.companion .log) →
      Step home st { st with world := { st.world with files := fs } }

end Lifetime

open Lifetime (State Step)

/-- The states that a store goes through from its creation, the last one first. -/
inductive Lifetime (home : Location) : List State → Prop
  | created {w v : World} {p : Path} {config : Config} {s : Store} : w.Vacant home →
      w.Finds p home → Store.create w p config = (.ok s, v) →
      Lifetime home [{ world := v, handles := [s] }]
  | step {st st' : State} {past : List State} : Lifetime home (st :: past) → Step home st st' →
      Lifetime home (st' :: st :: past)

namespace Lifetime

variable {home : Location} {st : State} {past : List State}

theorem advance (h : Lifetime home (st :: past))
    (hjobs : ∀ job ∈ st.jobs, job.store ∈ st.handles) (k : Nat) :
    ∃ before, Lifetime home (st.advance k :: before) ∧ st :: past <:+ st.advance k :: before := by
  unfold State.advance
  split
  · exact ⟨past, h, List.suffix_refl _⟩
  · next job hk =>
    split
    · exact ⟨past, h, List.suffix_refl _⟩
    · next hrest =>
      have hjob := hjobs job (List.mem_of_getElem? hk)
      exact ⟨_, h.step (.execute hk hjob hrest), List.suffix_cons _ _⟩

theorem State.stores_advance (hjobs : ∀ job ∈ st.jobs, job.store ∈ st.handles) (k : Nat) :
    ∀ job ∈ (st.advance k).jobs, job.store ∈ (st.advance k).handles := by
  unfold State.advance
  split
  · exact hjobs
  · next job hk =>
    split
    · exact hjobs
    · intro other hother
      obtain ⟨i, hi⟩ := List.mem_iff_getElem?.1 hother
      rcases Job.getElem?_set hi with ⟨-, rfl⟩ | ⟨-, hi⟩
      · exact hjobs job (List.mem_of_getElem? hk)
      · exact hjobs other (List.mem_of_getElem? hi)

theorem schedule_suffix (ks : List Nat) : ∀ {st : State} {past : List State},
    Lifetime home (st :: past) → (∀ job ∈ st.jobs, job.store ∈ st.handles) →
      ∃ before, Lifetime home (ks.foldl State.advance st :: before) ∧
        st :: past <:+ ks.foldl State.advance st :: before := by
  induction ks with
  | nil => exact fun h _ ↦ ⟨_, h, List.suffix_refl _⟩
  | cons k rest ih =>
    intro st past h hjobs
    obtain ⟨before, h, hsuffix⟩ := h.advance hjobs k
    obtain ⟨before', h', hsuffix'⟩ := ih h (State.stores_advance hjobs k)
    exact ⟨before', h', hsuffix.trans hsuffix'⟩

theorem schedule (ks : List Nat) {st : State} {past : List State} (h : Lifetime home (st :: past))
    (hjobs : ∀ job ∈ st.jobs, job.store ∈ st.handles) :
    ∃ past, Lifetime home (ks.foldl State.advance st :: past) := by
  obtain ⟨before, h, -⟩ := schedule_suffix ks h hjobs
  exact ⟨before, h⟩

def State.first (retention : Retention) : State :=
  ({ world := .storeless [0x61], handles := [] } : State).receive
    (Store.create (.storeless [0x61]) (Path.ofText "/store") { retention })

def State.shared (retention : Retention) : State :=
  (State.first retention).receive
    (Store.create (State.first retention).world (Path.ofText "/store") { retention })

theorem first (retention : Retention) : Lifetime [Utf8.encode "store"] [State.first retention] := by
  have hs : (Store.create (.storeless [0x61]) (Path.ofText "/store") { retention }).1.isOk := by
    cases retention <;> decide +kernel
  unfold State.first
  rcases hcreate : Store.create (.storeless [0x61]) (Path.ofText "/store") { retention } with
    ⟨e | s, v⟩
  · rw [hcreate] at hs
    cases hs
  · exact .created (World.storeless_vacant _) (World.storeless_finds _) hcreate

theorem shared (retention : Retention) :
    Lifetime [Utf8.encode "store"] [State.shared retention, State.first retention] := by
  have hresolves : FileSystem.FullPath.resolve? (State.first retention).world.files
      (Path.ofText "/store") = some [Utf8.encode "store"] := by
    cases retention <;> decide +kernel
  exact (first retention).step
    (.create { retention } (.of_path (by decide) (by decide) (by decide) hresolves))

def handle (retention : Retention) (session : Nat) : Store :=
  { Store.single retention with
    access := { session, cache := session, residence := .file [Utf8.encode "store"] } }

def remarking (content : Bytes) (message : String) : Ledger :=
  (({} : Ledger).record (.single content) (Path.ofText "/file") ⟨1, 1, "t", message⟩).2

def State.commit (st : State) (retention : Retention) (session : Nat) (content : Bytes)
    (message : String) : State :=
  st.start (handle retention session) (.ofLedger (remarking content message) st.world.files {})

theorem commit (h : Lifetime home (st :: past)) {retention : Retention} {session : Nat}
    (hs : handle retention session ∈ st.handles) (hfree : st.IsFree (handle retention session))
    (content : Bytes) (message : String) :
    Lifetime home (st.commit retention session content message :: st :: past) := by
  refine h.step (.commit {} hs hfree (.record _ _ _ .empty) fun f hf ↦ ?_)
  obtain rfl := List.mem_singleton.1 hf
  have hone : (1 : Int) ≤ Cell.maxCoordinate := by decide
  exact ⟨hone, hone⟩

def State.overtaken : State :=
  [1, 0, 1, 1, 1, 0, 0, 0, 0].foldl State.advance
    (((State.shared .keepAll).commit .keepAll 0 [] "first").commit .keepAll 1 [] "second")

theorem overtaken : ∃ past, Lifetime [Utf8.encode "store"] (State.overtaken :: past) :=
  schedule _ (((shared .keepAll).commit (by decide +kernel) (by decide +kernel) [] "first").commit
    (by decide +kernel) (by decide +kernel) [] "second") (by decide +kernel)

end Lifetime

end FindingStore
