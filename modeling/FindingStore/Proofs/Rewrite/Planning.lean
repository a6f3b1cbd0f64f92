import Mathlib.Data.List.Perm.Basic
import FindingStore.Proofs.Replay.Scan
import FindingStore.Proofs.Rewrite.Spans

namespace FindingStore.Rewrite

def findingsOf (s : Store) (w : World) (tool : String) : List Finding :=
  (s.findings w).filter (·.tool == tool)

theorem foldl_append_if (p : Finding → Prop) [DecidablePred p] (findings found : List Finding) :
    findings.foldl (fun found f ↦ if p f then found ++ [f] else found) found =
      found ++ findings.filter p := by
  induction findings generalizing found with
  | nil => exact (List.append_nil found).symm
  | cons f rest ih =>
    rw [List.foldl_cons, ih]
    by_cases h : p f
    · rw [if_pos h, List.filter_cons_of_pos (by simpa using h), List.append_assoc]
      rfl
    · rw [if_neg h, List.filter_cons_of_neg (by simpa using h)]

section Collect

variable {s : Store} {w : World} {tool : String} {found : List Finding} {clean : Bool}

def keeping (tool : String) : List Finding → Finding → List Finding × Replay.Flow :=
  Replay.taking fun found f ↦ if f.tool = tool then found ++ [f] else found

theorem collect_eq_ok_iff : collect s w tool = .ok (found, clean) ↔
    found = findingsOf s w tool ∧ (Replay.scan s w (keeping tool) []).failure = none ∧
      (Replay.scan s w (keeping tool) []).clean = clean := by
  have hscan : Replay.scan s w (fun found f ↦
      (if f.tool = tool then found ++ [f] else found, Replay.Flow.proceed)) [] =
      Replay.scan s w (keeping tool) [] := rfl
  have hstate : (Replay.scan s w (keeping tool) []).state = findingsOf s w tool := by
    rw [keeping, (Replay.scan_taking _ []).1, foldl_append_if, List.nil_append]
    exact List.filter_congr fun f _ ↦ (Bool.beq_eq_decide_eq _ _).symm
  unfold collect
  dsimp only
  rw [hscan, hstate]
  cases (Replay.scan s w (keeping tool) []).failure with
  | some e => exact iff_of_false nofun fun h ↦ nomatch h.2.1
  | none => simp only [Except.ok.injEq, Prod.mk.injEq, true_and, eq_comm (a := found)]

theorem collect_eq_error {e : StoreError} : collect s w tool = .error e ↔
    (Replay.scan s w (keeping tool) []).failure = some e := by
  have hscan : Replay.scan s w (fun found f ↦
      (if f.tool = tool then found ++ [f] else found, Replay.Flow.proceed)) [] =
      Replay.scan s w (keeping tool) [] := rfl
  unfold collect
  dsimp only
  rw [hscan]
  cases (Replay.scan s w (keeping tool) []).failure <;> simp

theorem collect_eq_ok :
    collect s w tool = .ok (found, true) ↔ found = findingsOf s w tool ∧ s.IsClean w := by
  rw [collect_eq_ok_iff, keeping, (Replay.scan_taking _ []).2]

theorem scan_of_collect {β : Type} (h : collect s w tool = .ok (found, clean))
    (callback : β → Finding → β × Replay.Flow) (b : β) :
    (Replay.scan s w callback b).failure = none ∧ (Replay.scan s w callback b).clean = clean := by
  obtain ⟨-, hnone, rfl⟩ := collect_eq_ok_iff.1 h
  obtain ⟨hclean, hfailure⟩ := Prod.mk.inj (Replay.verdict_scan callback (keeping tool) b [])
  exact ⟨hfailure.trans hnone, hclean⟩

end Collect

section Patch

variable {rules : Rules} {b b' : LineBuffer} {findings : List Finding}

theorem foldl_patchStep_eq {n : Nat} (h : findings.foldlM (patchFinding rules) b = .ok b') :
    findings.foldl (patchStep rules) { buffer := b, applied := n } =
      { buffer := b', applied := n + findings.length } := by
  induction findings generalizing b n with
  | nil =>
    cases h
    rfl
  | cons f rest ih =>
    rw [List.foldlM_cons] at h
    obtain ⟨next, hp, h⟩ := bind_eq_ok.1 h
    have hstep : patchStep rules { buffer := b, applied := n } f =
        { buffer := next, applied := n + 1 } := by simp only [patchStep, hp]
    rw [List.foldl_cons, hstep, ih h, List.length_cons, Nat.add_assoc, Nat.add_comm 1]

theorem patchAll_eq (h : findings.foldlM (patchFinding rules) b = .ok b') :
    patchAll rules b findings = { buffer := b', applied := findings.length } := by
  rw [patchAll, foldl_patchStep_eq h, Nat.zero_add]

theorem foldlM_of_foldl_patchStep {p : Patched}
    (h : (findings.foldl (patchStep rules) p).failures = []) :
    p.failures = [] ∧ findings.foldlM (patchFinding rules) p.buffer =
      .ok (findings.foldl (patchStep rules) p).buffer := by
  induction findings generalizing p with
  | nil => exact ⟨h, rfl⟩
  | cons f rest ih =>
    obtain ⟨hnone, hrest⟩ := ih h
    rw [List.foldlM_cons, List.foldl_cons]
    unfold patchStep at hnone hrest ⊢
    cases hp : patchFinding rules p.buffer f with
    | error failure => simp [hp] at hnone
    | ok next =>
      simp only [hp] at hnone hrest ⊢
      exact ⟨hnone, hrest⟩

theorem foldlM_of_patchAll (h : (patchAll rules b findings).failures = []) :
    findings.foldlM (patchFinding rules) b = .ok (patchAll rules b findings).buffer :=
  (foldlM_of_foldl_patchStep h).2

end Patch

def edited (fs : FileSystem) (rules : Rules) (group : String × List Finding) : LineBuffer :=
  match LineBuffer.read fs (Path.ofText group.1) with
  | .ok b => (patchAll rules b group.2).buffer
  | .error _ => {}

def IsPatched (fs : FileSystem) (rules : Rules) (group : String × List Finding) : Prop :=
  ∃ content, fs.read (Path.ofText group.1) = .ok content ∧
    group.2.foldlM (patchFinding rules) (LineBuffer.ofBytes content) = .ok (edited fs rules group)

variable {fs : FileSystem} {rules : Rules} {group : String × List Finding}
  {groups : List (String × List Finding)} {content : Bytes} {b : LineBuffer}

theorem read_eq_ok {p : Path} (h : fs.read p = .ok content) :
    LineBuffer.read fs p = .ok (LineBuffer.ofBytes content) := by
  rw [LineBuffer.read, h]
  rfl

theorem edited_eq (hread : fs.read (Path.ofText group.1) = .ok content)
    (h : group.2.foldlM (patchFinding rules) (LineBuffer.ofBytes content) = .ok b) :
    edited fs rules group = b := by
  rw [edited, read_eq_ok hread]
  dsimp only
  rw [patchAll_eq h]

def planStep (fs : FileSystem) (rules : Rules) (p : Plan) (group : String × List Finding) : Plan :=
  planFile fs rules p group.1 group.2

theorem planStep_eq (h : IsPatched fs rules group) (p : Plan) :
    planStep fs rules p group =
      { p with
        applied := p.applied + group.2.length
        buffers := p.buffers ++ [(group.1, edited fs rules group)] } := by
  obtain ⟨content, hread, hfold⟩ := h
  simp only [planStep, planFile, read_eq_ok hread, patchAll_eq hfold, List.append_nil]

theorem isPatched_of_failures {p : Plan} (hne : group.2 ≠ [])
    (h : (planStep fs rules p group).failures = []) :
    p.failures = [] ∧ IsPatched fs rules group := by
  unfold planStep planFile at h
  cases hread : fs.read (Path.ofText group.1) with
  | error e =>
    have hunread : LineBuffer.read fs (Path.ofText group.1) = .error e := by
      rw [LineBuffer.read, hread]
      rfl
    simp [hunread, unreadable, hne] at h
  | ok content =>
    simp only [read_eq_ok hread, List.append_eq_nil_iff] at h
    have hfold := foldlM_of_patchAll h.2
    refine ⟨h.1, content, hread, ?_⟩
    rw [edited_eq hread hfold, hfold]

theorem foldl_planStep_eq (h : ∀ group ∈ groups, IsPatched fs rules group) (p : Plan) :
    groups.foldl (planStep fs rules) p =
      { p with
        applied := p.applied + (groups.flatMap Prod.snd).length
        buffers := p.buffers ++ groups.map fun group ↦ (group.1, edited fs rules group) } := by
  induction groups generalizing p with
  | nil => simp
  | cons group rest ih =>
    obtain ⟨hfirst, hrest⟩ := List.forall_mem_cons.1 h
    rw [List.foldl_cons, ih hrest, planStep_eq hfirst]
    simp [Nat.add_assoc]

theorem forall_isPatched_of_failures {p : Plan} (hne : ∀ group ∈ groups, group.2 ≠ [])
    (h : (groups.foldl (planStep fs rules) p).failures = []) :
    p.failures = [] ∧ ∀ group ∈ groups, IsPatched fs rules group := by
  induction groups generalizing p with
  | nil => exact ⟨h, nofun⟩
  | cons group rest ih =>
    obtain ⟨hfirst, hrest⟩ := List.forall_mem_cons.1 hne
    obtain ⟨hnone, hall⟩ := ih hrest h
    obtain ⟨hp, hgroup⟩ := isPatched_of_failures hfirst hnone
    exact ⟨hp, List.forall_mem_cons.2 ⟨hgroup, hall⟩⟩

variable {found : List Finding}

def onPath (found : List Finding) (path : String) : List Finding := found.filter (·.path == path)

theorem mem_onPath {path : String} {f : Finding} :
    f ∈ onPath found path ↔ f ∈ found ∧ f.path = path := by
  rw [onPath, List.mem_filter, beq_iff_eq]

theorem mem_byPath : group ∈ byPath found ↔
    (∃ f ∈ found, f.path = group.1) ∧ group.2 = Order.sortBy laterFirst (onPath found group.1) := by
  obtain ⟨path, findings⟩ := group
  simp only [byPath, List.mem_map, Order.mem_sortBy, Order.mem_firstOccurrences, Prod.mk.injEq]
  constructor
  · rintro ⟨_, hpath, rfl, rfl⟩
    exact ⟨hpath, rfl⟩
  · rintro ⟨hpath, rfl⟩
    exact ⟨path, hpath, rfl, rfl⟩

theorem fst_byPath (found : List Finding) : (byPath found).map Prod.fst =
    Order.sortBy textLe (Order.firstOccurrences (found.map Finding.path)) := by
  rw [byPath, List.map_map]
  exact List.map_id _

theorem nodup_byPath (found : List Finding) : ((byPath found).map Prod.fst).Nodup := by
  rw [fst_byPath, (Order.sortBy_perm textLe _).nodup_iff]
  exact Order.firstOccurrences_nodup _

theorem perm_flatMap_onPath {paths : List String} (hnodup : paths.Nodup)
    (hpaths : ∀ f ∈ found, f.path ∈ paths) : (paths.flatMap (onPath found)).Perm found := by
  induction found with
  | nil => simp [onPath]
  | cons f rest ih =>
    obtain ⟨hf, hrest⟩ := List.forall_mem_cons.1 hpaths
    have hself : onPath (f :: rest) f.path = f :: onPath rest f.path := by simp [onPath]
    have hother {path : String} (h : path ≠ f.path) : onPath (f :: rest) path = onPath rest path :=
      List.filter_cons_of_neg (by simpa using Ne.symm h)
    obtain ⟨before, after, rfl⟩ := List.append_of_mem hf
    obtain ⟨-, hafter, hdisjoint⟩ := List.nodup_append.1 hnodup
    have hbefore : before.flatMap (onPath (f :: rest)) = before.flatMap (onPath rest) :=
      List.flatMap_congr fun path hpath ↦ hother (hdisjoint path hpath _ List.mem_cons_self)
    have hbehind : after.flatMap (onPath (f :: rest)) = after.flatMap (onPath rest) :=
      List.flatMap_congr fun path hpath ↦
        hother fun h ↦ (List.nodup_cons.1 hafter).1 (h ▸ hpath)
    have hrest := ih hrest
    rw [List.flatMap_append, List.flatMap_cons] at hrest ⊢
    rw [hbefore, hbehind, hself]
    exact List.perm_middle.trans (hrest.cons f)

theorem perm_flatMap_byPath (found : List Finding) :
    ((byPath found).flatMap Prod.snd).Perm found := by
  have hnodup := nodup_byPath found
  rw [fst_byPath] at hnodup
  rw [byPath, List.flatMap_map]
  refine (List.Perm.flatMap_left _ fun path _ ↦ Order.sortBy_perm laterFirst _).trans ?_
  refine perm_flatMap_onPath hnodup fun f hf ↦ ?_
  rw [Order.mem_sortBy, Order.mem_firstOccurrences]
  exact List.mem_map_of_mem hf

theorem plan_eq (h : ∀ group ∈ byPath found, IsPatched fs rules group) :
    plan fs rules found =
      { applied := found.length
        buffers := (byPath found).map fun group ↦ (group.1, edited fs rules group) } := by
  have hplan : plan fs rules found = (byPath found).foldl (planStep fs rules) {} := rfl
  rw [hplan, foldl_planStep_eq h, (perm_flatMap_byPath found).length_eq, Nat.zero_add,
    List.nil_append]

theorem isPatched_of_plan (h : (plan fs rules found).failures = []) :
    ∀ group ∈ byPath found, IsPatched fs rules group := by
  refine (forall_isPatched_of_failures (fun group hgroup ↦ ?_) h).2
  obtain ⟨⟨f, hf, hpath⟩, hsorted⟩ := mem_byPath.1 hgroup
  have hmem : f ∈ group.2 := by
    rw [hsorted, Order.mem_sortBy]
    exact mem_onPath.2 ⟨hf, hpath⟩
  exact List.ne_nil_of_mem hmem

section Apply

variable {device : String → FileSystem.Device} {s : Store} {w : World} {tool : String}

/-- A rewrite whose findings can all be patched writes the files. -/
theorem applyWith_eq (hclean : s.IsClean w)
    (hall : ∀ group ∈ byPath (findingsOf s w tool), IsPatched w.files rules group) :
    applyWith device s w tool rules false =
      match writeAll device w.files
        ((byPath (findingsOf s w tool)).map fun group ↦ (group.1, edited w.files rules group)) with
      | (.error e, files) => (.error e, { w with files })
      | (.ok (), files) =>
        (.ok
          { applied := (findingsOf s w tool).length
            written := (byPath (findingsOf s w tool)).map Prod.fst }, { w with files }) := by
  have hcollect : collect s w tool = .ok (findingsOf s w tool, true) :=
    collect_eq_ok.2 ⟨rfl, hclean⟩
  unfold applyWith
  rw [hcollect]
  dsimp only
  rw [plan_eq hall, if_neg (by simp [Summary.succeeded]), List.map_map]
  rfl

def tried (fs : FileSystem) (rules : Rules) (found : List Finding) (clean : Bool) : Summary where
  applied := (plan fs rules found).applied
  failures := (plan fs rules found).failures
  clean := clean

theorem applyWith_of_error {dryRun : Bool} {e : StoreError} (h : collect s w tool = .error e) :
    applyWith device s w tool rules dryRun = (.error (.store e), w) := by
  unfold applyWith
  rw [h]

theorem applyWith_of_stop {dryRun clean : Bool} (h : collect s w tool = .ok (found, clean))
    (hstop : dryRun = true ∨ (tried w.files rules found clean).succeeded = false) :
    applyWith device s w tool rules dryRun = (.ok (tried w.files rules found clean), w) := by
  unfold applyWith
  rw [h]
  exact if_pos (by simpa [tried] using hstop)

/-- A rewrite cannot collect its findings, or it stops at what it has tried, or all its patches have
been made. -/
theorem applyWith_cases (device : String → FileSystem.Device) (s : Store) (w : World)
    (tool : String) (rules : Rules) (dryRun : Bool) :
    (∃ e, collect s w tool = .error e ∧
        applyWith device s w tool rules dryRun = (.error (.store e), w)) ∨
      (∃ clean, collect s w tool = .ok (findingsOf s w tool, clean) ∧
        (dryRun = true ∨
          (tried w.files rules (findingsOf s w tool) clean).succeeded = false) ∧
        applyWith device s w tool rules dryRun =
          (.ok (tried w.files rules (findingsOf s w tool) clean), w)) ∨
      dryRun = false ∧ s.IsClean w ∧
        ∀ group ∈ byPath (findingsOf s w tool), IsPatched w.files rules group := by
  rcases hcollect : collect s w tool with e | ⟨found, clean⟩
  · exact .inl ⟨e, rfl, applyWith_of_error hcollect⟩
  · obtain ⟨rfl, -⟩ := collect_eq_ok_iff.1 hcollect
    refine .inr ?_
    by_cases hstop : dryRun = true ∨
        (tried w.files rules (findingsOf s w tool) clean).succeeded = false
    · exact .inl ⟨clean, rfl, hstop, applyWith_of_stop hcollect hstop⟩
    · simp only [Summary.succeeded, tried, not_or, Bool.not_eq_true, Bool.not_eq_false,
        Bool.and_eq_true, List.isEmpty_iff] at hstop
      obtain ⟨hdry, rfl, hfailures⟩ := hstop
      exact .inr ⟨hdry, (collect_eq_ok.1 hcollect).2, isPatched_of_plan hfailures⟩

theorem isPatched_of_succeeded {summary : Summary}
    (h : (applyWith device s w tool rules false).1 = .ok summary) (hs : summary.succeeded = true) :
    (∀ group ∈ byPath (findingsOf s w tool), IsPatched w.files rules group) ∧
      summary.written = (byPath (findingsOf s w tool)).map Prod.fst := by
  obtain ⟨e, -, happly⟩ | ⟨clean, -, hstop, happly⟩ | ⟨-, hclean, hall⟩ :=
    applyWith_cases device s w tool rules false
  · rw [happly] at h
    cases h
  · rw [happly] at h
    cases h
    rw [hstop.resolve_left Bool.false_ne_true] at hs
    cases hs
  · rw [applyWith_eq hclean hall] at h
    split at h
    · cases h
    · cases h
      exact ⟨hall, rfl⟩

end Apply

end FindingStore.Rewrite
