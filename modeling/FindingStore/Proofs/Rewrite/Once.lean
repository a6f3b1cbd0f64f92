import FindingStore.Proofs.Lifetime.Rows
import FindingStore.Proofs.Replay.Pruned
import FindingStore.Proofs.Rewrite.Writing
import FindingStore.Proofs.Store.Leaving
import FindingStore.Proofs.World.Sparing

namespace FindingStore

def Tables.IsRedated (t : Tables) (fs : FileSystem) (path : String) : Prop :=
  ∀ i, fs.resolved? (Path.ofText path) = some i →
    ∀ row ∈ t.files, row.path = path → row.mtime ≠ .integer i.mtime

def World.atTime (w : World) (now : Timestamp) : World := { w with files := { w.files with now } }

theorem Tables.IsRedated.atTime {t : Tables} {w : World} {path : String}
    (h : t.IsRedated w.files path) (now : Timestamp) : t.IsRedated (w.atTime now).files path := by
  intro i hi
  exact h i ((w.files.resolved?_withNow now _).symm.trans hi)

theorem Tables.IsRedated.stays {t : Tables} {fs fs' : FileSystem} {home : Location} {path : String}
    (h : t.IsRedated fs path) (haside : fs.LeadsAside home (Path.ofText path))
    (halike : ∀ l, home.isAside l = true → fs.Alike fs' l) : t.IsRedated fs' path := by
  intro i hi
  rw [(haside.stays halike).2] at hi
  exact h i hi

theorem World.Keeps.atTime {w : World} {n : Nat} {x : Shared} (h : w.Keeps n x) (now : Timestamp) :
    (w.atTime now).Keeps n x :=
  h.withFiles h.holds.untouched

namespace Rewrite

open Lifetime (State)

variable {device : String → FileSystem.Device} {fs fs' : FileSystem} {s : Store} {w w' : World}
  {t : Tables} {tool path : String} {rules : Rules} {dryRun : Bool}

section Mismatch

variable (h : s.Sees w t) (ht : t.IsReadable)

include h

theorem enter_of_isRedated (hdates : t.IsRedated w.files path) :
    ∃ event, (s.reads w path).enter path = .error (.ok event) := by
  cases hi : w.files.resolved? (Path.ofText path) with
  | none => exact ⟨_, h.enter_of_none hi⟩
  | some i =>
    have hnone : t.matching? path i.mtime i.size = none := by
      refine Tables.matching?_eq_none (i := { i with path }).2 fun row hrow ↦ ?_
      rw [Bool.eq_false_iff]
      intro hcarries
      simp only [FileRow.carries, Bool.and_eq_true, beq_iff_eq] at hcarries
      exact hdates i hi row hrow hcarries.1.1 hcarries.1.2
    rw [h.enter_of_some hi, hnone]
    exact ⟨_, rfl⟩

include ht

theorem not_error_mem_items {paths : List String} (e : StoreError) :
    (.error e : ReplayItem) ∉ Replay.items (s.reads w) ⟨paths, []⟩ := by
  rw [Replay.items_eq_itemsOf, h.itemsOf_eq ht]
  intro hmem
  obtain ⟨path, -, hmem⟩ := List.mem_flatMap.1 hmem
  unfold PathReads.items at hmem
  cases henter : (s.reads w path).enter path with
  | error item =>
    rw [henter] at hmem
    exact h.enter_ne_error ht path e (henter.trans (congrArg _ (List.mem_singleton.1 hmem).symm))
  | ok findings =>
    rw [henter] at hmem
    obtain ⟨f, -, hf⟩ := List.mem_map.1 hmem
    cases hf

/-- A replay that meets a file of another date is not clean. -/
theorem collect_of_isRedated (hpath : t.IsReported path) (hdates : t.IsRedated w.files path)
    (tool : String) : ∃ found, collect s w tool = .ok (found, false) := by
  obtain ⟨paths, hpaths⟩ := ht.exists_paths
  have hstart : Replay.start s w = .ok ⟨paths, []⟩ := h.start_eq_ok.2 ⟨hpaths.symm, rfl⟩
  obtain ⟨event, henter⟩ := enter_of_isRedated h hdates
  rcases hcollect : collect s w tool with e | ⟨found, _ | _⟩
  · have herror := (Replay.failure_scan hstart _ _ e).1 (collect_eq_error.1 hcollect)
    exact absurd herror (not_error_mem_items h ht e)
  · exact ⟨found, rfl⟩
  · obtain ⟨-, r, hr, hall⟩ := collect_eq_ok.1 hcollect
    obtain rfl : r = ⟨paths, []⟩ := Except.ok.inj (hr.symm.trans hstart)
    have hlisted : path ∈ paths := by
      rw [← Tables.mem_reportedPaths, ← hpaths] at hpath
      obtain ⟨p, hp, he⟩ := List.mem_map.1 hpath
      exact Data.text.inj he ▸ hp
    have hmem : .ok event ∈ Replay.items (s.reads w) ⟨paths, []⟩ := by
      rw [Replay.items_eq_itemsOf, h.itemsOf_eq ht]
      refine List.mem_flatMap.2 ⟨path, hlisted, ?_⟩
      rw [PathReads.items, henter]
      exact List.mem_singleton_self _
    have hfinding := hall _ hmem
    cases event with
    | finding f => exact absurd henter (PathReads.enter_ne_finding _ _ f)
    | missing | unmatched => cases hfinding

end Mismatch

theorem applyWith_of_collect {found : List Finding} (h : collect s w tool = .ok (found, false)) :
    ∃ summary, applyWith device s w tool rules dryRun = (.ok summary, w) ∧
      summary.clean = false ∧ summary.written = [] := by
  obtain ⟨e, hcollect, -⟩ | ⟨clean, hcollect, -, happly⟩ | ⟨-, hclean, -⟩ :=
    applyWith_cases device s w tool rules dryRun
  · cases h.symm.trans hcollect
  · cases h.symm.trans hcollect
    exact ⟨_, happly, rfl, rfl⟩
  · cases h.symm.trans (collect_eq_ok.2 ⟨rfl, hclean⟩)

section Calls

variable {home : Location} {x : Shared} {st st' : State} {paths : List String}

structure Call where
  store : Store
  world : World
  result : Except RewriteError Summary

/-- A rewrite has found that the reports do not match the files and has written none. A store that
does not use the log may also be kept from reading anything. -/
def Call.IsRefused (call : Call) : Prop :=
  (∃ summary, call.result = .ok summary ∧ summary.clean = false ∧ summary.written = []) ∨
    ¬call.world.UsesLog 0 call.store.access.cache ∧ ∃ e,
      Replay.start call.store (call.store.look call.world) = .error e ∧
        call.result = .error (.store e)

structure Spared (w : World) (home : Location) (paths : List String) : Prop where
  serves : w.Serves 0 home
  aside : ∀ path ∈ paths, w.files.LeadsAside home (Path.ofText path)

/-- What can follow a rewrite of the files at certain paths, with the calls in their order, as long
as nothing is committed and no other file changes. Whoever has to look for the database finds it. -/
inductive Aftermath (home : Location) (paths : List String) : State → List Call → State → Prop
  | done {st : State} : Aftermath home paths st [] st
  | wait {st st' : State} {calls : List Call} (now : Timestamp) :
      Aftermath home paths { st with world := st.world.atTime now } calls st' →
      Aftermath home paths st calls st'
  | openExisting {st st' : State} {calls : List Call} {p : Path} (config : Config) :
      Spared st.world home paths → st.world.Finds p home →
      Aftermath home paths (st.receive (Store.openExisting st.world p config)) calls st' →
      Aftermath home paths st calls st'
  | close {st st' : State} {calls : List Call} {s : Store} :
      Spared st.world home paths → s ∈ st.handles →
      Aftermath home paths (st.dismiss s) calls st' → Aftermath home paths st calls st'
  | apply {st st' : State} {calls : List Call} {s : Store} (tool : String) (rules : Rules)
      (dryRun : Bool) : s ∈ st.handles → st.IsFree s →
      st.world.UsesLog 0 s.access.cache ∨ Spared st.world home paths →
      Aftermath home paths
        { st with world := (Rewrite.apply s st.world tool rules dryRun).2 } calls st' →
      Aftermath home paths st
        (⟨s, st.world, (Rewrite.apply s st.world tool rules dryRun).1⟩ :: calls) st'

structure Stays (st : State) (home : Location) (x : Shared) : Prop where
  keeps : st.world.Keeps 0 x
  handle {s : Store} : s ∈ st.handles → s.IsHandle 0 home
  own? {s : Store} : st.IsFree s → x.own? s.access.session = none
  turns : st.world.Serves 0 home → st.Turns home x

theorem Stays.of_turns (h : st.Turns home x) : Stays st home x :=
  ⟨h.shares.keeps, fun hs ↦ (h.handle hs).1, h.own?_of_isFree, fun _ ↦ h⟩

theorem serves_atTime (h : w.Serves 0 home) (now : Timestamp) : (w.atTime now).Serves 0 home := by
  have hhouses : (w.atTime now).files.Houses 0 home :=
    ⟨h.houses.file, h.houses.database, h.houses.log, h.houses.index⟩
  exact (h.withFiles hhouses rfl).serves

theorem spared_of_atTime {now : Timestamp} (h : Spared (w.atTime now) home paths) :
    Spared w home paths where
  serves := serves_atTime h.serves w.files.now
  aside path hpath := by
    have halike (l : Location) (_ : home.isAside l = true) : (w.atTime now).files.Alike w.files l :=
      rfl
    exact ((h.aside path hpath).stays halike).1

theorem Stays.atTime (h : Stays st home x) (now : Timestamp) :
    Stays { st with world := st.world.atTime now } home x where
  keeps := h.keeps.atTime now
  handle := h.handle
  own? := h.own?
  turns hserves := by
    have hturns := h.turns (serves_atTime hserves st.world.files.now)
    exact hturns.world ⟨hserves, hturns.shares.stands, hturns.shares.apart,
      hturns.shares.usesLog⟩ rfl

theorem turns_look (h : st.Turns home x) (hs : s ∈ st.handles) (hfree : st.IsFree s) :
    State.Turns { st with world := s.look st.world } home x := by
  have hhandle := (h.handle hs).1
  have hown := h.own?_of_isFree hfree
  have hbusy := h.shares.stands.isBusy hhandle.ordinary.writes (Shared.own?_eq_none.1 hown)
  have htracks := h.shares.serves.tracks_look hhandle hbusy
  have hkeeps := (h.shares.look hhandle hown).1
  exact h.world ⟨htracks.serves, hkeeps.stands, hkeeps.apart,
    fun held hheld ↦ htracks.usesLog (h.shares.usesLog held hheld)⟩ htracks.opened

section Look

variable (h : Stays st home x) (hs : s ∈ st.handles) (hfree : st.IsFree s)

include h hs hfree

/-- A handle that uses the log leaves the files alone when it looks. -/
theorem Stays.look_of_usesLog (hu : st.world.UsesLog 0 s.access.cache) :
    Stays { st with world := s.look st.world } home x ∧ (s.look st.world).files = st.world.files ∧
      ((s.look st.world).Serves 0 home → st.world.Serves 0 home) := by
  have hhandle := h.handle hs
  obtain ⟨hkeeps, hfiles, -⟩ := h.keeps.look hhandle (h.own? hfree) hu
  obtain ⟨j, hreach⟩ := h.keeps.reach hhandle (h.own? hfree) hu
  have hserves (hlooked : (s.look st.world).Serves 0 home) : st.world.Serves 0 home := by
    rw [World.look_eq hhandle hreach] at hlooked
    exact hlooked.of_learn h.keeps.holds.opened
  exact ⟨⟨hkeeps, h.handle, h.own?, fun hlooked ↦
    turns_look (h.turns (hserves hlooked)) hs hfree⟩, hfiles, hserves⟩

/-- As long as some reported path leads to a file of another date, a call does no more than look. -/
theorem Stays.apply (hspared : st.world.UsesLog 0 s.access.cache ∨ Spared st.world home paths)
    (ht : x.tables.IsReadable) {path : String} (hreported : x.tables.IsReported path)
    (hpath : path ∈ paths) (hdates : x.tables.IsRedated st.world.files path) (tool : String)
    (rules : Rules) (dryRun : Bool) :
    let r := Rewrite.apply s st.world tool rules dryRun
    r.2 = s.look st.world ∧ Call.IsRefused ⟨s, st.world, r.1⟩ := by
  have hrefused (hsees : s.Sees (s.look st.world) x.tables)
      (hdates : x.tables.IsRedated (s.look st.world).files path) :
      let r := Rewrite.apply s st.world tool rules dryRun
      r.2 = s.look st.world ∧ Call.IsRefused ⟨s, st.world, r.1⟩ := by
    obtain ⟨found, hcollect⟩ := collect_of_isRedated hsees ht hreported hdates tool
    obtain ⟨summary, (happly : Rewrite.apply s st.world tool rules dryRun = _), hsummary⟩ :=
      applyWith_of_collect hcollect
    exact ⟨congrArg Prod.snd happly, .inl ⟨summary, congrArg Prod.fst happly, hsummary⟩⟩
  have hhandle := h.handle hs
  by_cases hu : st.world.UsesLog 0 s.access.cache
  · obtain ⟨hkeeps, hfiles, huses⟩ := h.keeps.look hhandle (h.own? hfree) hu
    exact hrefused (hkeeps.sees hhandle (h.own? hfree) (huses hu)) (hfiles ▸ hdates)
  · have hspared := hspared.resolve_left hu
    obtain ⟨hkeeps, -, huses | hblind⟩ := (h.turns hspared.serves).shares.look hhandle
      (h.own? hfree)
    · exact hrefused (hkeeps.sees hhandle (h.own? hfree) huses)
        (hdates.stays (hspared.aside path hpath) fun l hl ↦
          hspared.serves.alike_look hhandle (Location.isAside_iff.1 hl).2)
    · obtain ⟨e, he⟩ := hblind .reportedPaths
      have hstart : Replay.start s (s.look st.world) = .error (.sql "list paths" e) := by
        rw [Replay.start, he]
      have happly : Rewrite.apply s st.world tool rules dryRun =
          (.error (.store (.sql "list paths" e)), s.look st.world) :=
        applyWith_of_error (collect_eq_error.2 (by rw [Replay.scan, hstart]))
      exact ⟨congrArg Prod.snd happly, .inr ⟨hu, _, hstart, congrArg Prod.fst happly⟩⟩

end Look

theorem Aftermath.refused {calls : List Call} (h : Aftermath home paths st calls st')
    (hx : Stays st home x) (ht : x.tables.IsReadable) {path : String}
    (hreported : x.tables.IsReported path) (hpath : path ∈ paths)
    (hdates : x.tables.IsRedated st.world.files path) :
    (∀ call ∈ calls, call.IsRefused) ∧
      ∀ l, (Spared st.world home paths → home.isAside l = true) →
        st.world.files.Alike st'.world.files l := by
  -- whoever comes or goes finds the files of the store, and then the path leads to another file
  induction h generalizing x with
  | done => exact ⟨List.forall_mem_nil _, fun _ _ ↦ rfl⟩
  | wait now _ ih =>
    obtain ⟨hcalls, hfiles⟩ := ih (hx.atTime now) ht hreported (hdates.atTime now)
    exact ⟨hcalls, fun l hl ↦ hfiles l fun hspared ↦ hl (spared_of_atTime hspared)⟩
  | @openExisting st _ _ p config hspared hfinds _ ih =>
    have hturns := hx.turns hspared.serves
    have halike (l : Location) (hl : home.isAside l = true) :=
      hspared.serves.alike_openExisting hl hfinds config
    obtain ⟨hcontinues, hok⟩ := hturns.shares.serves.openExisting hfinds hturns.shares.stands
      hturns.holder_lt config
    have hopened := hturns.receive ⟨hcontinues, fun s hs ↦
      ⟨(hok s hs).1, (hok s hs).2.1, (hok s hs).2.2.1⟩⟩
    obtain ⟨hcalls, hfiles⟩ := ih (.of_turns hopened) ht hreported
      (hdates.stays (hspared.aside path hpath) halike)
    exact ⟨hcalls, fun l hl ↦ (halike l (hl hspared)).trans (hfiles l fun _ ↦ hl hspared)⟩
  | @close st _ _ s hspared hs _ ih =>
    have hturns := hx.turns hspared.serves
    have halike (l : Location) (hl : home.isAside l = true) :=
      hspared.serves.alike_close hl (hx.handle hs)
    have htables : (x.without s.access.session).tables = x.tables := Shared.tables_without
    rw [← htables] at ht hreported hdates
    obtain ⟨hcalls, hfiles⟩ := ih (.of_turns (hturns.dismiss hs)) ht hreported
      (hdates.stays (hspared.aside path hpath) halike)
    exact ⟨hcalls, fun l hl ↦ (halike l (hl hspared)).trans (hfiles l fun _ ↦ hl hspared)⟩
  | @apply st _ _ s tool rules dryRun hs hfree hreach _ ih =>
    obtain ⟨hlook, hrefused⟩ :=
      hx.apply hs hfree hreach ht hreported hpath hdates tool rules dryRun
    rw [hlook] at ih
    by_cases hu : st.world.UsesLog 0 s.access.cache
    · obtain ⟨hlooked, hsame, hserves⟩ := hx.look_of_usesLog hs hfree hu
      obtain ⟨hcalls, hfiles⟩ := ih hlooked ht hreported (hsame ▸ hdates)
      refine ⟨List.forall_mem_cons.2 ⟨hrefused, hcalls⟩, fun l hl ↦ ?_⟩
      rw [← hsame]
      exact hfiles l fun hspared ↦ hl ⟨hserves hspared.serves, hsame ▸ hspared.aside⟩
    · have hspared := hreach.resolve_left hu
      have halike (l : Location) (hl : home.isAside l = true) :=
        hspared.serves.alike_look (hx.handle hs) (Location.isAside_iff.1 hl).2
      obtain ⟨hcalls, hfiles⟩ := ih (.of_turns (turns_look (hx.turns hspared.serves) hs hfree)) ht
        hreported (hdates.stays (hspared.aside path hpath) halike)
      exact ⟨List.forall_mem_cons.2 ⟨hrefused, hcalls⟩, fun l hl ↦
        (halike l (hl hspared)).trans (hfiles l fun _ ↦ hl hspared)⟩

end Calls

def reported : State :=
  let st := [0, 0, 0, 0, 0].foldl State.advance
    ((State.shared .keepAll).commit .keepAll 0 [0x61] "a(")
  { st with world := st.world.atTime { seconds := 1 } }

def aToB : Rules := ⟨[("a", "b")]⟩

def retried (st : State) (session : Nat) (now : Timestamp) : State :=
  let w := (apply (Lifetime.handle .keepAll session) st.world "t" aToB false).2
  { st with world := w.atTime now }

theorem Aftermath.retry {home : Location} {paths : List String} {st st' : State} {session : Nat}
    {now : Timestamp} {calls : List Call} (hs : Lifetime.handle .keepAll session ∈ st.handles)
    (hfree : st.IsFree (Lifetime.handle .keepAll session))
    (hspared : st.world.UsesLog 0 session ∨ Spared st.world home paths)
    (h : Aftermath home paths (retried st session now) calls st') :
    ∃ call, Aftermath home paths st (call :: calls) st' ∧
      call.store = Lifetime.handle .keepAll session :=
  ⟨_, .apply "t" aToB false hs hfree hspared (.wait now h), rfl⟩

end Rewrite

end FindingStore
