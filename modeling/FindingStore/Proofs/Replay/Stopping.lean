import FindingStore.Proofs.Replay.Reconciliation
import FindingStore.Proofs.Replay.Scan

namespace FindingStore

theorem Contents.nodup_of_apply {deferred : Bool} {c c' : Contents} {paths : List String}
    (h : c.apply deferred .reportedPaths = .ok (paths, c')) : paths.Nodup := by
  cases c with
  | unusable e => cases h
  | blank => cases h
  | bare => cases h
  | tables t =>
    obtain ⟨⟨_, _⟩, happly, he⟩ := map_eq_ok.1 h
    cases he
    obtain ⟨_, hread, he⟩ := map_eq_ok.1 happly
    cases he
    have hnodup : t.reportedPaths.Nodup :=
      (Order.sortBy_perm _ _).nodup_iff.2 (Order.firstOccurrences_nodup _)
    rw [(Data.mapM_text?_eq_ok 0 "path").1 hread] at hnodup
    exact List.Pairwise.of_map _ (fun _ _ ↦ mt (congrArg Data.text)) hnodup

namespace Database

variable {d : Database} {a : Access} {q : Query} {reply : q.Reply}

theorem exists_apply_of_runAlone (h : (d.runAlone a q).1 = .ok reply) :
    ∃ (deferred : Bool) (c c' : Contents), c.apply deferred q = .ok (reply, c') := by
  unfold runAlone at h
  split at h
  · cases h
  · split at h
    · cases h
    · cases h
    · next happly _ =>
      dsimp only at h
      generalize (if q.hasEffect _ then d.journalError? a else none) = changeError at h
      split at h
      · cases h
      · cases h
        exact ⟨_, _, _, happly⟩

theorem exists_apply_of_run (h : (d.run a q).1 = .ok reply) :
    ∃ (deferred : Bool) (c c' : Contents), c.apply deferred q = .ok (reply, c') := by
  unfold run at h
  split at h
  · exact exists_apply_of_runAlone h
  · dsimp only at h
    split at h
    · cases h
    · next happly =>
      split at h
      · cases h
        exact ⟨_, _, _, happly⟩
      · split at h
        · cases h
        · cases h
          exact ⟨_, _, _, happly⟩

end Database

theorem Store.exists_apply_of_ask {s : Store} {w : World} {q : Query} {reply : q.Reply}
    (h : s.ask w q = .ok reply) :
    ∃ (deferred : Bool) (c c' : Contents), c.apply deferred q = .ok (reply, c') := by
  unfold ask connection World.execute at h
  rcases w.reach s.database s.access with ⟨a, v⟩
  simp only [World.needsFile, if_true] at h
  unfold Database.execute at h
  split at h
  · cases h
  · exact Database.exists_apply_of_run h

theorem Replay.nodup_of_start {s : Store} {w : World} {r : Replay} (h : start s w = .ok r) :
    r.paths.Nodup := by
  unfold start at h
  split at h
  · next hask =>
    cases h
    obtain ⟨deferred, c, c', happly⟩ := Store.exists_apply_of_ask hask
    exact Contents.nodup_of_apply happly
  · cases h

namespace Replay

section Hearing

variable {β : Type}

/-- The calls of a callback with their answers, as it is given findings in their order but for those
on paths of which it does not want the rest. -/
inductive Hears (callback : β → Finding → β × Flow) :
    List String → β → List Finding → List (Finding × Flow) → β → Prop
  | nil {stopped : List String} {b : β} : Hears callback stopped b [] [] b
  | dropped {stopped : List String} {b b' : β} {f : Finding} {more : List Finding}
      {calls : List (Finding × Flow)} :
      f.path ∈ stopped → Hears callback stopped b more calls b' →
        Hears callback stopped b (f :: more) calls b'
  | proceed {stopped : List String} {b b₁ b' : β} {f : Finding} {more : List Finding}
      {calls : List (Finding × Flow)} :
      f.path ∉ stopped → callback b f = (b₁, .proceed) → Hears callback stopped b₁ more calls b' →
        Hears callback stopped b (f :: more) ((f, .proceed) :: calls) b'
  | nextFile {stopped : List String} {b b₁ b' : β} {f : Finding} {more : List Finding}
      {calls : List (Finding × Flow)} :
      f.path ∉ stopped → callback b f = (b₁, .nextFile) →
        Hears callback (f.path :: stopped) b₁ more calls b' →
        Hears callback stopped b (f :: more) ((f, .nextFile) :: calls) b'

inductive UpToStop : List Finding → List (Finding × Flow) → Prop
  | nil : UpToStop [] []
  | proceed {f : Finding} {more : List Finding} {calls : List (Finding × Flow)} :
      UpToStop more calls → UpToStop (f :: more) ((f, .proceed) :: calls)
  | nextFile {f : Finding} {more : List Finding} : UpToStop (f :: more) [(f, .nextFile)]

variable {callback : β → Finding → β × Flow} {stopped : List String} {b b' : β} {f : Finding}
  {findings more : List Finding} {calls : List (Finding × Flow)}

theorem Hears.unique {calls' : List (Finding × Flow)} {b'' : β}
    (h : Hears callback stopped b findings calls b')
    (h' : Hears callback stopped b findings calls' b'') : calls = calls' ∧ b' = b'' := by
  induction h generalizing calls' b'' with
  | nil =>
    cases h'
    exact ⟨rfl, rfl⟩
  | dropped hmem _ ih =>
    cases h' with
    | dropped _ h' => exact ih h'
    | proceed hnot | nextFile hnot => exact absurd hmem hnot
  | proceed hnot hcall _ ih =>
    cases h' with
    | dropped hmem => exact absurd hmem hnot
    | proceed _ hcall' h' =>
      cases hcall.symm.trans hcall'
      obtain ⟨rfl, rfl⟩ := ih h'
      exact ⟨rfl, rfl⟩
    | nextFile _ hcall' => cases hcall.symm.trans hcall'
  | nextFile hnot hcall _ ih =>
    cases h' with
    | dropped hmem => exact absurd hmem hnot
    | proceed _ hcall' => cases hcall.symm.trans hcall'
    | nextFile _ hcall' h' =>
      cases hcall.symm.trans hcall'
      obtain ⟨rfl, rfl⟩ := ih h'
      exact ⟨rfl, rfl⟩

theorem Hears.filter_eq_nil (h : Hears callback stopped b findings calls b') {path : String}
    (hpath : path ∈ stopped) : calls.filter (·.1.path == path) = [] := by
  have hne {f : Finding} {stopped : List String} (hpath : path ∈ stopped)
      (hnot : f.path ∉ stopped) : (f.path == path) = false := by
    refine beq_eq_false_iff_ne.2 ?_
    rintro rfl
    exact hnot hpath
  induction h with
  | nil => rfl
  | dropped _ _ ih => exact ih hpath
  | proceed hnot _ _ ih => simpa [List.filter_cons, hne hpath hnot] using ih hpath
  | nextFile hnot _ _ ih =>
    simpa [List.filter_cons, hne hpath hnot] using ih (List.mem_cons_of_mem _ hpath)

/-- On each path a callback hears all findings up to the first behind which it wants none. What it
answers on other paths has no influence on that. -/
theorem Hears.upToStop (h : Hears callback stopped b findings calls b') {path : String}
    (hpath : path ∉ stopped) :
    UpToStop (findings.filter (·.path == path)) (calls.filter (·.1.path == path)) := by
  induction h with
  | nil => exact .nil
  | @dropped stopped _ _ f _ _ hmem _ ih =>
    have hne : (f.path == path) = false := by
      refine beq_eq_false_iff_ne.2 ?_
      rintro rfl
      exact hpath hmem
    simpa [List.filter_cons, hne] using ih hpath
  | @proceed _ _ _ _ f _ _ hnot _ _ ih =>
    cases he : f.path == path with
    | true =>
      simp only [List.filter_cons, he, if_true]
      exact .proceed (ih hpath)
    | false => simpa [List.filter_cons, he] using ih hpath
  | @nextFile stopped _ _ _ f _ _ hnot _ h ih =>
    cases he : f.path == path with
    | true =>
      have hmem : path ∈ f.path :: stopped := by simp [eq_of_beq he]
      simp only [List.filter_cons, he, if_true, h.filter_eq_nil hmem]
      exact .nextFile
    | false =>
      have hnot : path ∉ f.path :: stopped := by
        intro hmem
        rcases List.mem_cons.1 hmem with rfl | hmem
        · exact beq_eq_false_iff_ne.1 he rfl
        · exact hpath hmem
      simpa [List.filter_cons, he] using ih hnot

theorem Hears.dropping (hmem : ∀ f ∈ findings, f.path ∈ stopped)
    (h : Hears callback stopped b more calls b') :
    Hears callback stopped b (findings ++ more) calls b' := by
  induction findings with
  | nil => exact h
  | cons f rest ih =>
    exact .dropped (hmem f List.mem_cons_self) (ih fun g hg ↦ hmem g (List.mem_cons_of_mem _ hg))

variable (callback) in
def noting (noted : β × List (Finding × Flow)) (f : Finding) :
    (β × List (Finding × Flow)) × Flow :=
  let (b, flow) := callback noted.1 f
  ((b, noted.2 ++ [(f, flow)]), flow)

theorem noting_eq {noted : β × List (Finding × Flow)} {b : β} {flow : Flow}
    (h : callback noted.1 f = (b, flow)) :
    noting callback noted f = ((b, noted.2 ++ [(f, flow)]), flow) := by
  rw [noting, h]

theorem Hears.noted (h : Hears callback stopped b findings calls b')
    (seen : List (Finding × Flow)) :
    Hears (noting callback) stopped (b, seen) findings calls (b', seen ++ calls) := by
  induction h generalizing seen with
  | nil =>
    rw [List.append_nil]
    exact .nil
  | dropped hmem _ ih => exact .dropped hmem (ih seen)
  | @proceed _ _ _ _ f _ calls hnot hcall _ ih =>
    rw [List.append_cons]
    exact .proceed hnot (noting_eq hcall) (ih _)
  | @nextFile _ _ _ _ f _ calls hnot hcall _ ih =>
    rw [List.append_cons]
    exact .nextFile hnot (noting_eq hcall) (ih _)

/-- The findings of one path are heard until the callback wants the next file. The path may be
stopped or not for what is heard after them. -/
theorem exists_hears_feed {path : String} (hpath : ∀ f ∈ findings, f.path = path)
    (hnot : path ∉ stopped) (scan : Scan β)
    (hmore : ∀ stopped', stopped' = stopped ∨ stopped' = path :: stopped → ∃ calls,
      Hears callback stopped' (feed (Scan.visit callback) scan findings).state more calls b') :
    ∃ calls, Hears callback stopped scan.state (findings ++ more) calls b' := by
  induction findings generalizing scan with
  | nil => exact hmore stopped (.inl rfl)
  | cons f rest ih =>
    obtain ⟨rfl, hrest⟩ := List.forall_mem_cons.1 hpath
    rcases hcall : callback scan.state f with ⟨state, flow⟩
    have hvisit : Scan.visit callback scan (.ok (.finding f)) = ({ scan with state }, flow) := by
      simp only [Scan.visit, hcall]
    unfold feed at hmore
    rw [hvisit] at hmore
    cases flow with
    | proceed =>
      obtain ⟨calls, h⟩ := ih hrest { scan with state } hmore
      exact ⟨_, .proceed hnot hcall h⟩
    | nextFile =>
      obtain ⟨calls, h⟩ := hmore _ (.inr rfl)
      refine ⟨_, .nextFile hnot hcall (h.dropping ?_)⟩
      intro g hg
      rw [hrest g hg]
      exact List.mem_cons_self

theorem filterMap_finding?_map (findings : List Finding) :
    (findings.map findingItem).filterMap finding? = findings := by
  induction findings with
  | nil => rfl
  | cons f rest ih => exact congrArg (f :: ·) ih

variable {reads : String → PathReads}

theorem exists_hears_foldPaths {paths : List String} (hpaths : paths.Nodup)
    (hnot : ∀ path ∈ paths, path ∉ stopped) (scan : Scan β) :
    ∃ calls, Hears callback stopped scan.state ((itemsOf reads paths).filterMap finding?) calls
      (foldPaths reads (Scan.visit callback) scan paths).state := by
  induction paths generalizing stopped scan with
  | nil => exact ⟨[], .nil⟩
  | cons path rest ih =>
    obtain ⟨hpath, hrest⟩ := List.nodup_cons.1 hpaths
    obtain ⟨hfirst, hlater⟩ := List.forall_mem_cons.1 hnot
    unfold foldPaths itemsOf
    cases henter : (reads path).enter path with
    | error item =>
      rcases item with e | (f | missing | unmatched)
      · exact ⟨[], .nil⟩
      · exact absurd henter (PathReads.enter_ne_finding _ _ f)
      · exact ih hrest hlater { scan with clean := false }
      · exact ih hrest hlater { scan with clean := false }
    | ok findings =>
      dsimp only
      rw [List.filterMap_append, filterMap_finding?_map]
      refine exists_hears_feed (fun f hf ↦ PathReads.path_of_enter henter hf) hfirst scan ?_
      rintro stopped' (rfl | rfl)
      · exact ih hrest hlater _
      · refine ih hrest (fun p hp hmem ↦ ?_) _
        rcases List.mem_cons.1 hmem with rfl | hmem
        · exact hpath hp
        · exact hlater p hp hmem

theorem exists_hears_scan (s : Store) (w : World) (callback : β → Finding → β × Flow) (b : β) :
    ∃ calls, Hears callback [] b (s.findings w) calls (scan s w callback b).state := by
  cases hstart : start s w with
  | error e =>
    unfold scan Store.findings
    rw [hstart]
    exact ⟨[], .nil⟩
  | ok r =>
    rw [scan_of_start hstart, findings_of_start hstart]
    exact exists_hears_foldPaths (nodup_of_start hstart) (fun _ _ ↦ List.not_mem_nil) { state := b }

end Hearing

section Returning

variable {β : Type} {s : Store} {w : World}

def Scan.returned (scan : Scan β) : Except StoreError Bool :=
  match scan.failure with
  | some e => .error e
  | none => .ok scan.clean

/-- Whatever the callback answers, a scan that starts returns the error of the replay, or else
whether the replay is without a blemish. -/
theorem returned_scan (callback : β → Finding → β × Flow) (b : β) {r : Replay}
    (hstart : start s w = .ok r) :
    (∀ e, (scan s w callback b).returned = .error e ↔
        (.error e : ReplayItem) ∈ items (s.reads w) r) ∧
      ∀ clean, (scan s w callback b).returned = .ok clean ↔
        (∀ e, (.error e : ReplayItem) ∉ items (s.reads w) r) ∧
          (clean = true ↔ ∀ item ∈ items (s.reads w) r, ¬ IsBlemish item) := by
  have hfailure := failure_scan hstart callback b
  unfold Scan.returned
  cases hend : (scan s w callback b).failure with
  | some e =>
    have he := (hfailure e).1 hend
    refine ⟨fun e' ↦ ?_, fun clean ↦ ⟨nofun, fun h ↦ absurd he (h.1 e)⟩⟩
    rw [← hfailure, hend, Option.some.injEq, Except.error.injEq]
  | none =>
    have hnone := (failure_scan_eq_none hstart callback b).1 hend
    refine ⟨fun e ↦ ⟨nofun, fun h ↦ absurd h (hnone e)⟩, fun clean ↦ ?_⟩
    rw [Except.ok.injEq, and_iff_right hnone, ← clean_scan hstart callback b, Bool.eq_iff_iff]
    exact Iff.comm

end Returning

section Skipping

variable {reads : String → PathReads} {first r : Replay} {last : Option String}

theorem items_eq_remaining (r : Replay) : items reads r = remaining reads r := by
  unfold items fold
  rw [feed_eq_foldl fun _ _ ↦ rfl, foldPaths_eq_foldl fun _ _ ↦ rfl, ← List.foldl_append,
    List.foldl_flip_cons_eq_append', List.append_nil, List.reverse_reverse]
  rfl

def subject? (item : ReplayItem) : Option String := item.toOption.map ReplayEvent.path

/-- What calls and skips, in any order, make of a replay, and the path last given. Each call may
read another state of the world. -/
inductive Played (first : Replay) : Option String → Replay → Prop
  | fresh : Played first none first
  | next {last : Option String} {r : Replay} (reads : String → PathReads) :
      Played first last r →
        Played first (((r.next reads).1.bind subject?).or last) (r.next reads).2
  | skip {last : Option String} {r : Replay} : Played first last r → Played first last r.skip

structure Fronted (last : Option String) (r : Replay) : Prop where
  nodup : r.paths.Nodup
  front : ∀ f ∈ r.findings, last = some f.path
  left : ∀ path ∈ r.paths, last ≠ some path

theorem Fronted.skip (h : Fronted last r) : Fronted last r.skip where
  nodup := h.nodup
  front := List.forall_mem_nil _
  left := h.left

theorem Fronted.nextPath {paths : List String} (h : Fronted last ⟨paths, []⟩) :
    Fronted (((nextPath reads paths).1.bind subject?).or last) (nextPath reads paths).2 := by
  induction paths with
  | nil => exact h
  | cons path rest ih =>
    obtain ⟨hpath, hrest⟩ := List.nodup_cons.1 h.nodup
    have hleft : ∀ p ∈ rest, some path ≠ some p := by
      rintro p hp he
      cases he
      exact hpath hp
    unfold Replay.nextPath
    cases henter : (reads path).enter path with
    | error item =>
      cases item with
      | error e => exact ⟨List.nodup_nil, List.forall_mem_nil _, List.forall_mem_nil _⟩
      | ok event =>
        have hevent : subject? (.ok event) = some path :=
          congrArg some (PathReads.path_of_event henter)
        simp only [Option.bind_some, hevent, Option.some_or]
        exact ⟨hrest, List.forall_mem_nil _, hleft⟩
    | ok findings =>
      cases findings with
      | nil =>
        refine ih ⟨hrest, List.forall_mem_nil _, fun p hp ↦ ?_⟩
        exact h.left p (List.mem_cons_of_mem _ hp)
      | cons f more =>
        have hf (g : Finding) (hg : g ∈ f :: more) : g.path = path :=
          PathReads.path_of_enter henter hg
        have hfirst : subject? (.ok (.finding f)) = some path :=
          congrArg some (hf f List.mem_cons_self)
        simp only [Option.bind_some, hfirst, Option.some_or]
        exact ⟨hrest, fun g hg ↦ by rw [hf g (List.mem_cons_of_mem _ hg)], hleft⟩

theorem Fronted.next (h : Fronted last r) :
    Fronted (((r.next reads).1.bind subject?).or last) (r.next reads).2 := by
  obtain ⟨paths, findings⟩ := r
  cases findings with
  | nil => exact h.nextPath
  | cons f more =>
    have hlast : last = some f.path := h.front f List.mem_cons_self
    subst hlast
    exact ⟨h.nodup, fun g hg ↦ h.front g (List.mem_cons_of_mem _ hg), h.left⟩

theorem Played.fronted (hfirst : Fronted none first) (h : Played first last r) :
    Fronted last r := by
  induction h with
  | fresh => exact hfirst
  | next reads _ ih => exact ih.next
  | skip _ ih => exact ih.skip

def isFindingOn (path : Option String) (item : ReplayItem) : Bool :=
  (finding? item).any fun f ↦ path == some f.path

/-- To skip a file drops what is left of the path last given, and all of that. -/
theorem Fronted.items_skip (h : Fronted last r) :
    items reads r.skip = (items reads r).filter fun item ↦ !isFindingOn last item := by
  have hfront : (r.findings.map findingItem).filter (fun item ↦ !isFindingOn last item) = [] := by
    refine List.filter_eq_nil_iff.2 fun item hitem ↦ ?_
    obtain ⟨f, hf, rfl⟩ := List.mem_map.1 hitem
    simp [isFindingOn, finding?, findingItem, h.front f hf]
  have hleft : (itemsOf reads r.paths).filter (fun item ↦ !isFindingOn last item) =
      itemsOf reads r.paths := by
    refine List.filter_eq_self.2 fun item hitem ↦ ?_
    rcases item with e | (f | missing | unmatched)
    · rfl
    · have hne : last ≠ some f.path := h.left _ (path_mem_of_event hitem)
      simp [isFindingOn, finding?, hne]
    · rfl
    · rfl
  rw [items_eq_remaining, items_eq_remaining, remaining, remaining, List.filter_append, hfront,
    hleft]
  rfl

end Skipping

/-- To stop at a finding costs a callback the findings behind it on the same path, and nothing
else: it hears all that no answer on their own path has stopped, on each path those up to the
first such answer, and the scan returns the error of the replay, or else whether the replay is
without a blemish. To skip a file between calls, whichever came before, drops what is left of the
path last given. -/
theorem stopping_spares_other_paths {β : Type} (s : Store) (w : World)
    (callback : β → Finding → β × Flow) (b : β) :
    (∃ calls,
      (scan s w (noting callback) (b, [])).state = ((scan s w callback b).state, calls) ∧
      Hears callback [] b (s.findings w) calls (scan s w callback b).state ∧
      ∀ path, UpToStop ((s.findings w).filter (·.path == path))
        (calls.filter (·.1.path == path))) ∧
    (∀ e, start s w = .error e → (scan s w callback b).returned = .error e) ∧
    ∀ r, start s w = .ok r →
      (∀ e, (scan s w callback b).returned = .error e ↔
        (.error e : ReplayItem) ∈ items (s.reads w) r) ∧
      (∀ clean, (scan s w callback b).returned = .ok clean ↔
        (∀ e, (.error e : ReplayItem) ∉ items (s.reads w) r) ∧
          (clean = true ↔ ∀ item ∈ items (s.reads w) r, ¬ IsBlemish item)) ∧
      ∀ last r', Played r last r' → ∀ reads,
        items reads r'.skip = (items reads r').filter fun item ↦ !isFindingOn last item := by
  refine ⟨?_, ?_, ?_⟩
  · obtain ⟨calls, hcalls⟩ := exists_hears_scan s w callback b
    obtain ⟨calls', hnoting⟩ := exists_hears_scan s w (noting callback) (b, [])
    obtain ⟨-, hstate⟩ := hnoting.unique (hcalls.noted [])
    exact ⟨calls, hstate, hcalls, fun path ↦ hcalls.upToStop List.not_mem_nil⟩
  · intro e hstart
    unfold scan
    rw [hstart]
    rfl
  · intro r hstart
    obtain ⟨herror, hok⟩ := returned_scan callback b hstart
    refine ⟨herror, hok, fun last r' hplayed reads ↦ ?_⟩
    have hpaths := nodup_of_start hstart
    have hfirst : Fronted none r := by
      rw [start_eq_ok hstart]
      exact ⟨hpaths, List.forall_mem_nil _, nofun⟩
    exact (hplayed.fronted hfirst).items_skip

def paired : Tables where
  files :=
    [⟨1, "/file", .integer 0, .integer 0⟩, ⟨2, "/", .integer 0, .integer 60⟩,
      ⟨3, "/gone", .integer 0, .integer 0⟩]
  reports :=
    [⟨(⟨1, 1, "t", "one"⟩ : Remark).cells, .integer 1⟩,
      ⟨(⟨1, 1, "t", "two"⟩ : Remark).cells, .integer 2⟩,
      ⟨(⟨2, 1, "t", "one"⟩ : Remark).cells, .integer 1⟩,
      ⟨(⟨2, 1, "t", "two"⟩ : Remark).cells, .integer 2⟩,
      ⟨(⟨1, 1, "t", "gone"⟩ : Remark).cells, .integer 3⟩]

def counting (n : Nat) (f : Finding) : Nat × Flow :=
  (n + 1, if f.path = "/" then .nextFile else .proceed)

theorem directory_stopped :
    let s := Store.single .keepAll
    let w := World.single paired (.single [])
    let heard : List (Finding × Flow) :=
      [(⟨⟨1, 1, "t", "two"⟩, "/"⟩, .nextFile), (⟨⟨1, 1, "t", "one"⟩, "/file"⟩, .proceed),
        (⟨⟨2, 1, "t", "one"⟩, "/file"⟩, .proceed)]
    Hears counting [] 0 (s.findings w) heard 3 ∧ (s.findings w).length = 4 ∧
      (scan s w counting 0).returned = .ok false ∧
      ∃ r, start s w = .ok r ∧ Played r (some "/") (r.next (s.reads w)).2 ∧
        items (s.reads w) (r.next (s.reads w)).2.skip =
          (items (s.reads w) (r.next (s.reads w)).2).filter
            fun item ↦ !isFindingOn (some "/") item := by
  intro s w heard
  obtain ⟨⟨calls, hnoted, hears, -⟩, -, hstarted⟩ := stopping_spares_other_paths s w counting 0
  have hstart : start s w = .ok ⟨["/", "/file", "/gone"], []⟩ := by decide +kernel
  have hscan : (scan s w (noting counting) (0, [])).state = (3, heard) := by decide +kernel
  obtain ⟨hstate, hcalls⟩ := Prod.mk.inj (hnoted.symm.trans hscan)
  rw [hstate, hcalls] at hears
  obtain ⟨-, hreturned, hskip⟩ := hstarted _ hstart
  have hplayed : Played ⟨["/", "/file", "/gone"], []⟩ (some "/") _ := .next (s.reads w) .fresh
  refine ⟨hears, by decide +kernel, ?_, _, hstart, hplayed, hskip _ _ hplayed _⟩
  decide +kernel

end Replay

end FindingStore
