import FindingStore.Replay

namespace FindingStore

def findingItem (f : Finding) : ReplayItem := .ok (.finding f)

theorem PathReads.path_of_enter {reads : PathReads} {path : String} {findings : List Finding}
    (h : reads.enter path = .ok findings) {f : Finding} (hf : f ∈ findings) : f.path = path := by
  unfold enter at h
  split at h
  · cases h
  · split at h
    · cases h
    · cases h
    · split at h
      · cases h
      · cases h
        obtain ⟨r, -, rfl⟩ := List.mem_map.1 hf
        rfl

theorem PathReads.enter_ne_finding (reads : PathReads) (path : String) (f : Finding) :
    reads.enter path ≠ .error (findingItem f) := by
  unfold enter
  split
  · exact nofun
  · split
    · exact nofun
    · exact nofun
    · split <;> exact nofun

def ReplayEvent.path : ReplayEvent → String
  | .finding f => f.path
  | .missing path | .unmatched path => path

theorem PathReads.path_of_event {reads : PathReads} {path : String} {event : ReplayEvent}
    (h : reads.enter path = .error (.ok event)) : event.path = path := by
  unfold enter at h
  split at h
  · cases h
    rfl
  · split at h
    · cases h
    · cases h
      rfl
    · split at h <;> cases h

def PathReads.items (reads : PathReads) (path : String) : List ReplayItem :=
  match reads.enter path with
  | .error item => [item]
  | .ok findings => findings.map findingItem

namespace Replay

def itemsOf (reads : String → PathReads) : List String → List ReplayItem
  | [] => []
  | path :: rest =>
    match (reads path).enter path with
    | .error (.ok event) => .ok event :: itemsOf reads rest
    | .error (.error e) => [.error e]
    | .ok findings => findings.map findingItem ++ itemsOf reads rest

variable {β : Type} {reads : String → PathReads} {visit : β → ReplayItem → β × Flow}

theorem feed_eq_foldl (hvisit : ∀ b item, (visit b item).2 = .proceed) (b : β)
    (findings : List Finding) :
    feed visit b findings = (findings.map findingItem).foldl (fun b item ↦ (visit b item).1) b := by
  induction findings generalizing b with
  | nil => rfl
  | cons f more ih =>
    have hf := hvisit b (findingItem f)
    rcases h : visit b (findingItem f) with ⟨b', flow⟩
    rw [h] at hf
    cases hf
    have hstep : feed visit b (f :: more) = feed visit b' more := by
      have h' : visit b (.ok (.finding f)) = (b', .proceed) := h
      simp only [feed, h']
    rw [hstep, ih, List.map_cons, List.foldl_cons, h]

theorem foldPaths_eq_foldl (hvisit : ∀ b item, (visit b item).2 = .proceed) (b : β)
    (paths : List String) :
    foldPaths reads visit b paths =
      (itemsOf reads paths).foldl (fun b item ↦ (visit b item).1) b := by
  induction paths generalizing b with
  | nil => rfl
  | cons path rest ih =>
    unfold foldPaths itemsOf
    rcases (reads path).enter path with (e | event) | findings
    · rfl
    · exact ih _
    · rw [List.foldl_append, ← feed_eq_foldl hvisit]
      exact ih _

theorem fold_eq_foldl (hvisit : ∀ b item, (visit b item).2 = .proceed) (b : β)
    (paths : List String) :
    fold reads visit b ⟨paths, []⟩ =
      (itemsOf reads paths).foldl (fun b item ↦ (visit b item).1) b :=
  foldPaths_eq_foldl hvisit b paths

theorem items_eq_itemsOf (paths : List String) : items reads ⟨paths, []⟩ = itemsOf reads paths := by
  unfold items
  rw [fold_eq_foldl fun _ _ ↦ rfl, List.foldl_flip_cons_eq_append', List.append_nil,
    List.reverse_reverse]

theorem enter_of_mem_itemsOf {paths : List String} {f : Finding}
    (h : findingItem f ∈ itemsOf reads paths) :
    ∃ findings, (reads f.path).enter f.path = .ok findings ∧ f ∈ findings := by
  induction paths with
  | nil => cases h
  | cons path rest ih =>
    rcases henter : (reads path).enter path with (e | event) | findings <;>
      simp only [itemsOf, henter] at h
    · cases List.mem_singleton.1 h
    · rcases List.mem_cons.1 h with he | h
      · exact absurd (he ▸ henter) (PathReads.enter_ne_finding _ _ f)
      · exact ih h
    · rcases List.mem_append.1 h with h | h
      · obtain ⟨g, hg, he⟩ := List.mem_map.1 h
        cases he
        rw [PathReads.path_of_enter henter hg]
        exact ⟨findings, henter, hg⟩
      · exact ih h

theorem path_mem_of_event {paths : List String} {event : ReplayEvent}
    (h : .ok event ∈ itemsOf reads paths) : event.path ∈ paths := by
  induction paths with
  | nil => cases h
  | cons path rest ih =>
    rcases henter : (reads path).enter path with (e | first) | findings <;>
      simp only [itemsOf, henter] at h
    · cases List.mem_singleton.1 h
    · rcases List.mem_cons.1 h with he | h
      · cases he
        exact PathReads.path_of_event henter ▸ List.mem_cons_self
      · exact List.mem_cons_of_mem _ (ih h)
    · rcases List.mem_append.1 h with h | h
      · obtain ⟨f, hf, he⟩ := List.mem_map.1 h
        cases he
        exact List.mem_cons.2 (.inl (PathReads.path_of_enter henter hf))
      · exact List.mem_cons_of_mem _ (ih h)

theorem itemsOf_eq_flatMap {paths : List String}
    (h : ∀ path ∈ paths, ∀ e, (reads path).enter path ≠ .error (.error e)) :
    itemsOf reads paths = paths.flatMap fun path ↦ (reads path).items path := by
  induction paths with
  | nil => rfl
  | cons path rest ih =>
    have hrest := ih fun p hp ↦ h p (List.mem_cons_of_mem _ hp)
    rw [itemsOf, List.flatMap_cons, PathReads.items]
    rcases henter : (reads path).enter path with (e | event) | findings
    · exact absurd henter (h path List.mem_cons_self e)
    · simp only [hrest, List.cons_append, List.nil_append]
    · simp only [hrest]

theorem start_eq_ok {s : Store} {w : World} {r : Replay} (h : start s w = .ok r) :
    r = ⟨r.paths, []⟩ := by
  unfold start at h
  split at h
  · cases h
    rfl
  · cases h

end Replay

end FindingStore
