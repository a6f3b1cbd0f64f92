import FindingStore.Proofs.Rewrite.Planning
import FindingStore.Proofs.World.Hosting

namespace FindingStore.Rewrite

/-- Findings are tried one after the other. A patch changes the buffer for those that follow, and a
refusal leaves it as it is. -/
inductive Tries (rules : Rules) :
    LineBuffer → List Finding → LineBuffer → List Finding → List Failure → Prop
  | done (b : LineBuffer) : Tries rules b [] b [] []
  | patched {b next b' : LineBuffer} {f : Finding} {rest patched : List Finding}
      {refused : List Failure} (hf : patchFinding rules b f = .ok next)
      (h : Tries rules next rest b' patched refused) :
      Tries rules b (f :: rest) b' (f :: patched) refused
  | refused {b b' : LineBuffer} {f : Finding} {rest patched : List Finding}
      {failure : Failure} {refused : List Failure} (hf : patchFinding rules b f = .error failure)
      (h : Tries rules b rest b' patched refused) :
      Tries rules b (f :: rest) b' patched (failure :: refused)

def Ascends (f g : Finding) : Prop :=
  Utf8.encode f.path < Utf8.encode g.path ∨
    f.path = g.path ∧ (f.line < g.line ∨ f.line = g.line ∧ f.column ≤ g.column)

section Patch

variable {rules : Rules} {b b' : LineBuffer} {f : Finding} {findings patched : List Finding}
  {failure : Failure} {refused : List Failure}

theorem finding_of_patchFinding (h : patchFinding rules b f = .error failure) :
    failure.finding = f := by
  unfold patchFinding at h
  split at h
  · cases h
    rfl
  · obtain ⟨e, -, rfl⟩ := mapError_eq_error.1 h
    rfl

namespace Tries

theorem perm (h : Tries rules b findings b' patched refused) :
    (patched ++ refused.map Failure.finding).Perm findings := by
  induction h with
  | done => exact .nil
  | patched hf h ih => exact ih.cons _
  | refused hf h ih =>
    rw [List.map_cons, finding_of_patchFinding hf]
    exact List.perm_middle.trans (ih.cons _)

theorem sublist (h : Tries rules b findings b' patched refused) :
    (refused.map Failure.finding).Sublist findings := by
  induction h with
  | done => exact .slnil
  | patched hf h ih => exact ih.cons _
  | refused hf h ih =>
    rw [List.map_cons, finding_of_patchFinding hf]
    exact ih.cons_cons _

/-- The buffer in the end is that of the patched findings alone. -/
theorem foldlM_patched (h : Tries rules b findings b' patched refused) :
    patched.foldlM (patchFinding rules) b = .ok b' := by
  induction h with
  | done => rfl
  | patched hf h ih => rw [List.foldlM_cons, hf]; exact ih
  | refused hf h ih => exact ih

end Tries

theorem exists_tries_of_foldl (rules : Rules) (findings : List Finding) (p : Patched) :
    ∃ patched refused,
      Tries rules p.buffer findings (findings.foldl (patchStep rules) p).buffer patched refused ∧
        (findings.foldl (patchStep rules) p).applied = p.applied + patched.length ∧
        (findings.foldl (patchStep rules) p).failures = refused.reverse ++ p.failures := by
  induction findings generalizing p with
  | nil => exact ⟨[], [], .done _, rfl, rfl⟩
  | cons f rest ih =>
    obtain ⟨patched, refused, htries, happlied, hfailures⟩ := ih (patchStep rules p f)
    rw [List.foldl_cons]
    cases hf : patchFinding rules p.buffer f with
    | ok next =>
      have hstep : patchStep rules p f =
          { p with buffer := next, applied := p.applied + 1 } := by simp only [patchStep, hf]
      rw [hstep] at htries happlied hfailures ⊢
      refine ⟨f :: patched, refused, .patched hf htries, ?_, hfailures⟩
      rw [happlied, List.length_cons, Nat.add_assoc, Nat.add_comm 1]
    | error failure =>
      have hstep : patchStep rules p f = { p with failures := failure :: p.failures } := by
        simp only [patchStep, hf]
      rw [hstep] at htries happlied hfailures ⊢
      refine ⟨patched, failure :: refused, .refused hf htries, happlied, ?_⟩
      rw [hfailures, List.reverse_cons, List.append_assoc]
      rfl

theorem exists_tries (rules : Rules) (b : LineBuffer) (findings : List Finding) :
    ∃ patched, Tries rules b findings (patchAll rules b findings).buffer patched
        (patchAll rules b findings).failures.reverse ∧
      (patchAll rules b findings).applied = patched.length := by
  obtain ⟨patched, refused, htries, happlied, hfailures⟩ :=
    exists_tries_of_foldl rules findings { buffer := b }
  rw [List.append_nil] at hfailures
  refine ⟨patched, ?_, happlied.trans (Nat.zero_add _)⟩
  rw [patchAll, hfailures, List.reverse_reverse]
  exact htries

end Patch

/-- What becomes of the findings of a file, in the order in which they are tried, and of a file that
cannot be read. -/
def Handles (fs : FileSystem) (rules : Rules) (path : String) (findings patched : List Finding)
    (failures : List Failure) : Prop :=
  match LineBuffer.read fs (Path.ofText path) with
  | .error e => patched = [] ∧ failures = findings.reverse.map fun f ↦ ⟨f, .unreadable e, none⟩
  | .ok b => ∃ b', Tries rules b findings b' patched failures.reverse

section Plan

variable {fs : FileSystem} {rules : Rules} {path : String} {findings patched found : List Finding}
  {failures : List Failure}

namespace Handles

theorem perm (h : Handles fs rules path findings patched failures) :
    (patched ++ failures.map Failure.finding).Perm findings := by
  unfold Handles at h
  split at h
  · obtain ⟨rfl, rfl⟩ := h
    rw [List.nil_append, List.map_map]
    exact (List.map_id _).symm ▸ List.reverse_perm findings
  · obtain ⟨b', htries⟩ := h
    rw [← List.reverse_reverse failures, List.map_reverse]
    exact ((List.reverse_perm _).append_left patched).trans htries.perm

theorem sublist (h : Handles fs rules path findings patched failures) :
    (failures.map Failure.finding).Sublist findings.reverse := by
  unfold Handles at h
  split at h
  · obtain ⟨-, rfl⟩ := h
    rw [List.map_map]
    exact (List.map_id _).symm ▸ .refl _
  · obtain ⟨b', htries⟩ := h
    rw [← List.reverse_reverse failures, List.map_reverse]
    exact htries.sublist.reverse

end Handles

theorem exists_handles (fs : FileSystem) (rules : Rules) (group : String × List Finding) :
    ∃ patched failures, Handles fs rules group.1 group.2 patched failures ∧
      ∀ p, (planStep fs rules p group).applied = p.applied + patched.length ∧
        (planStep fs rules p group).failures = p.failures ++ failures := by
  unfold Handles planStep planFile
  cases LineBuffer.read fs (Path.ofText group.1) with
  | error e => exact ⟨[], _, ⟨rfl, rfl⟩, fun p ↦ ⟨rfl, rfl⟩⟩
  | ok b =>
    obtain ⟨patched, htries, happlied⟩ := exists_tries rules b group.2
    exact ⟨patched, _, ⟨_, htries⟩, fun p ↦ ⟨congrArg (p.applied + ·) happlied, rfl⟩⟩

theorem plan_handles (fs : FileSystem) (rules : Rules) (found : List Finding) :
    ∃ (patchedIn : String × List Finding → List Finding)
      (failuresIn : String × List Finding → List Failure),
      (∀ group, Handles fs rules group.1 group.2 (patchedIn group) (failuresIn group)) ∧
        (plan fs rules found).applied = ((byPath found).flatMap patchedIn).length ∧
        (plan fs rules found).failures = (byPath found).flatMap failuresIn := by
  choose patchedIn failuresIn hhandles hstep using exists_handles fs rules
  have hfold (groups : List (String × List Finding)) (p : Plan) :
      (groups.foldl (planStep fs rules) p).applied =
          p.applied + (groups.flatMap patchedIn).length ∧
        (groups.foldl (planStep fs rules) p).failures =
          p.failures ++ groups.flatMap failuresIn := by
    induction groups generalizing p with
    | nil => simp
    | cons group rest ih =>
      obtain ⟨happlied, hfailures⟩ := ih (planStep fs rules p group)
      obtain ⟨hfirst, hthese⟩ := hstep group p
      rw [List.foldl_cons, happlied, hfailures, hfirst, hthese]
      simp [Nat.add_assoc]
  obtain ⟨happlied, hfailures⟩ := hfold (byPath found) {}
  exact ⟨patchedIn, failuresIn, hhandles, happlied.trans (Nat.zero_add _), hfailures⟩

theorem flatMap_eq_of_nodup {α κ : Type} [DecidableEq κ] {keys : List κ} (hnodup : keys.Nodup)
    {out : κ → List α} {k : κ} (hother : ∀ j ∈ keys, j ≠ k → out j = [])
    (hk : k ∉ keys → out k = []) : keys.flatMap out = out k := by
  by_cases hmem : k ∈ keys
  · obtain ⟨before, after, rfl⟩ := List.append_of_mem hmem
    obtain ⟨-, hafter, hdisjoint⟩ := List.nodup_append.1 hnodup
    have hbefore : before.flatMap out = [] := List.flatMap_eq_nil_iff.2 fun j hj ↦
      hother j (List.mem_append_left _ hj) (hdisjoint j hj k List.mem_cons_self)
    have hbehind : after.flatMap out = [] := List.flatMap_eq_nil_iff.2 fun j hj ↦
      hother j (List.mem_append_right _ (List.mem_cons_of_mem _ hj)) fun h ↦
        (List.nodup_cons.1 hafter).1 (h ▸ hj)
    rw [List.flatMap_append, List.flatMap_cons, hbefore, hbehind, List.nil_append,
      List.append_nil]
  · rw [hk hmem]
    exact List.flatMap_eq_nil_iff.2 fun j hj ↦ hother j hj fun h ↦ hmem (h ▸ hj)

theorem filter_flatMap_byPath {α : Type} {key : α → String}
    {out : String × List Finding → List α}
    (hkey : ∀ group, ∀ x ∈ out group, ∃ f ∈ group.2, f.path = key x) (path : String) :
    ((byPath found).flatMap out).filter (key · == path) =
      out (path, Order.sortBy laterFirst (onPath found path)) := by
  let group (path : String) := (path, Order.sortBy laterFirst (onPath found path))
  have hpath {p : String} {x : α} (hx : x ∈ out (group p)) : key x = p := by
    obtain ⟨f, hf, hx⟩ := hkey _ x hx
    rw [← hx]
    exact (mem_onPath.1 ((Order.mem_sortBy laterFirst).1 hf)).2
  have hall {p : String} : (out (group p)).filter (key · == p) = out (group p) :=
    List.filter_eq_self.2 fun x hx ↦ beq_iff_eq.2 (hpath hx)
  have hnone {p : String} (hp : p ≠ path) : (out (group p)).filter (key · == path) = [] :=
    List.filter_eq_nil_iff.2 fun x hx he ↦ hp ((hpath hx).symm.trans (beq_iff_eq.1 he))
  have hnodup := nodup_byPath found
  rw [fst_byPath] at hnodup
  rw [byPath, List.flatMap_map, List.filter_flatMap]
  refine (flatMap_eq_of_nodup (k := path) hnodup (fun p _ ↦ hnone) fun hnot ↦ ?_).trans hall
  rw [Order.mem_sortBy, Order.mem_firstOccurrences, List.mem_map] at hnot
  refine List.filter_eq_nil_iff.2 fun x hx _ ↦ ?_
  obtain ⟨f, hf, -⟩ := hkey _ x hx
  obtain ⟨hf, hfpath⟩ := mem_onPath.1 ((Order.mem_sortBy laterFirst).1 hf)
  exact hnot ⟨f, hf, hfpath⟩

theorem pairwise_ascends_reverse (found : List Finding) (path : String) :
    (Order.sortBy laterFirst (onPath found path)).reverse.Pairwise Ascends := by
  have hsorted := Order.pairwise_sortBy isTotal_laterFirst (onPath found path)
  refine (List.pairwise_reverse.2 hsorted).imp_of_mem fun {f g} hf hg hfg ↦ .inr ⟨?_, ?_⟩
  · have hpath {f : Finding} (hf : f ∈ (Order.sortBy laterFirst (onPath found path)).reverse) :
        f.path = path :=
      (mem_onPath.1 ((Order.mem_sortBy laterFirst).1 (List.mem_reverse.1 hf))).2
    exact (hpath hf).trans (hpath hg).symm
  · simp only [laterFirst, Bool.or_eq_true, Bool.and_eq_true, decide_eq_true_eq, beq_iff_eq] at hfg
    omega

theorem pairwise_ascends_byPath {out : String × List Finding → List Finding}
    (hout : ∀ group, (out group).Sublist group.2.reverse) :
    ((byPath found).flatMap out).Pairwise Ascends := by
  have hpath {path : String} {f : Finding}
      (hf : f ∈ out (path, Order.sortBy laterFirst (onPath found path))) : f.path = path :=
    (mem_onPath.1 ((Order.mem_sortBy laterFirst).1 (List.mem_reverse.1 ((hout _).mem hf)))).2
  rw [byPath, List.flatMap_map, List.pairwise_flatMap]
  refine ⟨fun path _ ↦ (pairwise_ascends_reverse found path).sublist (hout _), ?_⟩
  refine (Order.pairwise_sortBy_firstOccurrences (found.map Finding.path)).imp ?_
  intro path other hlt f hf g hg
  rw [← hpath hf, ← hpath hg] at hlt
  exact .inl hlt

/-- A plan accounts for each finding once, as patched or as a failure. -/
theorem plan_accounts (fs : FileSystem) (rules : Rules) (found : List Finding) :
    ∃ patched, (plan fs rules found).applied = patched.length ∧
      (patched ++ (plan fs rules found).failures.map Failure.finding).Perm found ∧
      ∀ path, Handles fs rules path (Order.sortBy laterFirst (onPath found path))
        (onPath patched path)
        ((plan fs rules found).failures.filter (·.finding.path == path)) := by
  obtain ⟨patchedIn, failuresIn, hhandles, happlied, hfailures⟩ := plan_handles fs rules found
  have hpatchedIn (group : String × List Finding) (f : Finding) (hf : f ∈ patchedIn group) :
      ∃ g ∈ group.2, g.path = f.path :=
    ⟨f, (hhandles group).perm.mem_iff.1 (List.mem_append_left _ hf), rfl⟩
  have hfailuresIn (group : String × List Finding) (failure : Failure)
      (hfailure : failure ∈ failuresIn group) : ∃ g ∈ group.2, g.path = failure.finding.path := by
    have hmem := (hhandles group).sublist.mem (List.mem_map_of_mem hfailure)
    exact ⟨failure.finding, List.mem_reverse.1 hmem, rfl⟩
  refine ⟨(byPath found).flatMap patchedIn, happlied, ?_, fun path ↦ ?_⟩
  · rw [hfailures, List.map_flatMap]
    refine (List.flatMap_append_perm _ _ _).trans ?_
    exact (List.Perm.flatMap_left _ fun group _ ↦ (hhandles group).perm).trans
      (perm_flatMap_byPath _)
  · have hpatchedOn : onPath ((byPath found).flatMap patchedIn) path = _ :=
      filter_flatMap_byPath hpatchedIn path
    rw [hfailures, filter_flatMap_byPath hfailuresIn, hpatchedOn]
    exact hhandles (path, _)

theorem plan_ascends (fs : FileSystem) (rules : Rules) (found : List Finding) :
    ((plan fs rules found).failures.map Failure.finding).Pairwise Ascends := by
  obtain ⟨_, failuresIn, hhandles, -, hfailures⟩ := plan_handles fs rules found
  rw [hfailures, List.map_flatMap]
  exact pairwise_ascends_byPath fun group ↦ (hhandles group).sublist

end Plan

section Apply

variable {device : String → FileSystem.Device} {s : Store} {w w' : World} {tool : String}
  {rules : Rules} {dryRun : Bool} {summary : Summary}

theorem summary_of_applyWith (h : applyWith device s w tool rules dryRun = (.ok summary, w')) :
    collect s w tool = .ok (findingsOf s w tool, summary.clean) ∧
      summary.applied = (plan w.files rules (findingsOf s w tool)).applied ∧
      summary.failures = (plan w.files rules (findingsOf s w tool)).failures := by
  obtain ⟨e, -, happly⟩ | ⟨clean, hcollect, -, happly⟩ | ⟨rfl, hclean, hall⟩ :=
    applyWith_cases device s w tool rules dryRun
  · cases happly.symm.trans h
  · cases happly.symm.trans h
    exact ⟨hcollect, rfl, rfl⟩
  · rw [applyWith_eq hclean hall] at h
    split at h
    · cases h
    · cases h
      rw [plan_eq hall]
      exact ⟨collect_eq_ok.2 ⟨rfl, hclean⟩, rfl, rfl⟩

/-- A rewrite that gives a summary accounts for each finding of the tool once, as patched or as a
failure. The failures are in the order of their places, the findings of every file are all tried
unless it cannot be read, and the replay is as clean as any other. -/
theorem applyWith_accounts (h : applyWith device s w tool rules dryRun = (.ok summary, w')) :
    (∃ patched, summary.applied = patched.length ∧
      (patched ++ summary.failures.map Failure.finding).Perm (findingsOf s w tool) ∧
      ∀ path, Handles w.files rules path
        (Order.sortBy laterFirst (onPath (findingsOf s w tool) path)) (onPath patched path)
        (summary.failures.filter (·.finding.path == path))) ∧
      summary.applied + summary.failures.length = (findingsOf s w tool).length ∧
      (summary.failures.map Failure.finding).Pairwise Ascends ∧
      ∀ {β : Type} (callback : β → Finding → β × Replay.Flow) (b : β),
        (Replay.scan s w callback b).failure = none ∧
          (Replay.scan s w callback b).clean = summary.clean := by
  obtain ⟨hcollect, happlied, hfailures⟩ := summary_of_applyWith h
  obtain ⟨patched, hlength, hperm, hhandles⟩ :=
    plan_accounts w.files rules (findingsOf s w tool)
  rw [← hfailures] at hperm hhandles
  rw [← happlied] at hlength
  refine ⟨⟨patched, hlength, hperm, hhandles⟩, ?_, ?_, fun callback b ↦
    scan_of_collect hcollect callback b⟩
  · rw [hlength, ← hperm.length_eq, List.length_append, List.length_map]
  · rw [hfailures]
    exact plan_ascends _ _ _

end Apply

def halfReadable : World :=
  .single
    { files := [⟨1, "/a", .integer 0, .integer 8⟩, ⟨2, "/b", .integer 0, .integer 8⟩]
      reports := [⟨⟨.integer 1, .integer 1, "t", "foo("⟩, .integer 1⟩,
        ⟨⟨.integer 1, .integer 3, "t", "foo("⟩, .integer 1⟩,
        ⟨⟨.integer 1, .integer 5, "t", "baz("⟩, .integer 1⟩,
        ⟨⟨.integer 1, .integer 1, "t", "foo("⟩, .integer 2⟩] }
    { entries := [("a", 0o644), ("b", 0o000)].map fun (name, mode) ↦
        ([Utf8.encode name],
          .file { content := Utf8.encode "foo baz\n", modified := {}, mode }) }

theorem halfReadable_accounted : ∃ summary patched,
    applyWith (fun _ ↦ .sound) (.single .keepAll) halfReadable "t" ⟨[("foo", "bar")]⟩ false =
        (.ok summary, halfReadable) ∧
      summary.applied = 1 ∧ summary.failures.length = 3 ∧ patched.length = 1 ∧
      (patched ++ summary.failures.map Failure.finding).Perm
        (findingsOf (.single .keepAll) halfReadable "t") ∧
      (summary.failures.map Failure.finding).Pairwise Ascends ∧
      summary.failures.filter (·.finding.path == "/b") =
        [⟨⟨⟨1, 1, "t", "foo("⟩, "/b"⟩, .unreadable .permissionDenied, none⟩] := by
  obtain ⟨summary, hsummary⟩ : ∃ summary : Summary,
      summary = { applied := 1
                  failures :=
                    [⟨⟨⟨1, 3, "t", "foo("⟩, "/a"⟩, .patch (.mismatch 1 3 "foo"),
                        some (Utf8.encode "foo baz")⟩,
                      ⟨⟨⟨1, 5, "t", "baz("⟩, "/a"⟩, .noRule "baz", none⟩,
                      ⟨⟨⟨1, 1, "t", "foo("⟩, "/b"⟩, .unreadable .permissionDenied, none⟩] } :=
    ⟨_, rfl⟩
  have hresult : applyWith (fun _ ↦ .sound) (.single .keepAll) halfReadable "t"
      ⟨[("foo", "bar")]⟩ false = (.ok summary, halfReadable) := by rw [hsummary]; rfl
  obtain ⟨⟨patched, hpatched, hperm, hfiles⟩, -, hordered, -⟩ := applyWith_accounts hresult
  have hunreadable := (hfiles "/b").2
  refine ⟨summary, patched, hresult, ?_, ?_, ?_, hperm, hordered, hunreadable⟩
  · rw [hsummary]
  · rw [hsummary]; rfl
  · rw [← hpatched, hsummary]

end FindingStore.Rewrite
