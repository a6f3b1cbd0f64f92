import FindingStore.Proofs.Rewrite.Accounting

namespace FindingStore.Rewrite

section Patch

variable {rules : Rules} {b b' : LineBuffer} {f : Finding} {findings patched : List Finding}
  {failure : Failure} {refused : List Failure} {text : Bytes}

theorem line?_of_patchFinding (h : patchFinding rules b f = .error failure)
    (hsource : failure.sourceLine = some text) : b.line? f.line = some text := by
  unfold patchFinding at h
  split at h
  · cases h
    cases hsource
  · obtain ⟨e, -, rfl⟩ := mapError_eq_error.1 h
    exact hsource

theorem Tries.exists_of_mem (h : Tries rules b findings b' patched refused)
    (hfailure : failure ∈ refused) :
    ∃ before after b₁ patched₁ refused₁, findings = before ++ failure.finding :: after ∧
      Tries rules b before b₁ patched₁ refused₁ ∧
      patchFinding rules b₁ failure.finding = .error failure := by
  induction h with
  | done => cases hfailure
  | patched hf h ih =>
    obtain ⟨before, after, b₁, patched₁, refused₁, rfl, htries, hrefused⟩ := ih hfailure
    exact ⟨_ :: before, after, b₁, _, refused₁, rfl, .patched hf htries, hrefused⟩
  | @refused b b' f rest patched failure' refused hf h ih =>
    rcases List.mem_cons.1 hfailure with rfl | hfailure
    · obtain rfl := finding_of_patchFinding hf
      exact ⟨[], rest, b, [], [], rfl, .done b, hf⟩
    · obtain ⟨before, after, b₁, patched₁, refused₁, rfl, htries, hrefused⟩ := ih hfailure
      exact ⟨f :: before, after, b₁, patched₁, _, rfl, .refused hf htries, hrefused⟩

/-- The line of a buffer in the end is the line in the beginning with the edits of the findings
that were patched. -/
theorem Tries.line? (hrules : rules.IsProper) (h : Tries rules b findings b' patched refused)
    {n : Nat} (htext : b'.line? n = some text) :
    ∃ line, b.line? n = some line ∧
      (editsOn rules patched n).foldlM Edit.run? line = some text ∧
      ∀ f ∈ patched, spelling f ≠ [] := by
  obtain ⟨hready, hcount, hlines⟩ := (foldlM_patchFinding_eq_ok hrules).1 h.foldlM_patched
  have hsome : (b.line? n).isSome := by
    rw [LineBuffer.isSome_line?, ← hcount, ← LineBuffer.isSome_line?, htext]
    rfl
  obtain ⟨line, hline⟩ := Option.isSome_iff_exists.1 hsome
  obtain ⟨text', htext', hrun⟩ := hlines n line hline
  cases htext.symm.trans htext'
  exact ⟨line, hline, hrun, fun f hf ↦ spelling_ne_nil hrules (hready f hf).rule⟩

end Patch

/-- What a failure shows: the line of the file with the replacements of those earlier findings that
could be patched. -/
structure Shows (fs : FileSystem) (rules : Rules) (findings : List Finding) (f : Finding)
    (text content line : Bytes) (earlier : List Finding) : Prop where
  content_eq : fs.read (Path.ofText f.path) = .ok content
  line_eq : (LineBuffer.ofBytes content).line? f.line = some line
  tried : ∃ before after b refused, findings = before ++ f :: after ∧
    Tries rules (LineBuffer.ofBytes content) before b earlier refused
  replaced : (editsOn rules earlier f.line).foldlM Edit.run? line = some text
  kept : text.take (f.column - 1) = line.take (f.column - 1)

variable {device : String → FileSystem.Device} {fs : FileSystem} {s : Store} {w w' : World}
  {tool path : String} {rules : Rules} {dryRun : Bool} {summary : Summary} {failure : Failure}
  {found patched : List Finding} {failures : List Failure} {text : Bytes}

theorem Handles.shows (hrules : rules.IsProper)
    (h : Handles fs rules path (Order.sortBy laterFirst (onPath found path)) patched failures)
    (hfailure : failure ∈ failures) (hsource : failure.sourceLine = some text) :
    ∃ content line earlier, Shows fs rules (Order.sortBy laterFirst (onPath found path))
      failure.finding text content line earlier := by
  unfold Handles at h
  split at h
  · obtain ⟨-, rfl⟩ := h
    obtain ⟨f, -, rfl⟩ := List.mem_map.1 hfailure
    cases hsource
  · next b hread =>
    obtain ⟨b', htries⟩ := h
    obtain ⟨before, after, b₁, earlier, refused, hsplit, hbefore, hrefused⟩ :=
      htries.exists_of_mem (List.mem_reverse.2 hfailure)
    obtain ⟨content, hcontent, rfl⟩ := map_eq_ok.1 hread
    obtain ⟨line, hline, hrun, hspelling⟩ :=
      hbefore.line? hrules (line?_of_patchFinding hrefused hsource)
    have hmem : failure.finding ∈ Order.sortBy laterFirst (onPath found path) :=
      hsplit ▸ List.mem_append_right _ List.mem_cons_self
    have hpath := (mem_onPath.1 ((Order.mem_sortBy laterFirst).1 hmem)).2
    have hsorted := Order.pairwise_sortBy isTotal_laterFirst (onPath found path)
    rw [hsplit] at hsorted
    have hlater {g : Finding} (hg : g ∈ earlier) : laterFirst g failure.finding = true :=
      (List.pairwise_append.1 hsorted).2.2 g
        (hbefore.perm.mem_iff.1 (List.mem_append_left _ hg)) _ List.mem_cons_self
    refine ⟨content, line, earlier, hpath ▸ hcontent, hline,
      ⟨before, after, b₁, refused, hsplit, hbefore⟩, hrun, Edit.take_foldlM_run? hrun ?_⟩
    intro e he
    obtain ⟨g, hg, hgline, rfl⟩ := mem_editsOn.1 he
    exact ⟨hspelling g hg, start_le_of_laterFirst (hlater hg) hgline⟩

theorem world_of_failure (h : applyWith device s w tool rules dryRun = (.ok summary, w'))
    (hfailure : failure ∈ summary.failures) : w' = w := by
  obtain ⟨e, -, happly⟩ | ⟨clean, -, -, happly⟩ | ⟨rfl, hclean, hall⟩ :=
    applyWith_cases device s w tool rules dryRun
  · cases happly.symm.trans h
  · cases happly.symm.trans h
    rfl
  · rw [applyWith_eq hclean hall] at h
    split at h
    · cases h
    · cases h
      cases hfailure

/-- A line that is shown with a failure is the line of the file, which has not changed, with the
replacements made in it before the finding was tried. They lie behind the finding, and the line is
shown as it is in the file where there are none. -/
theorem failure_shows_patched_line {pairs : List String} (hrules : Rules.parse pairs = .ok rules)
    (h : applyWith device s w tool rules dryRun = (.ok summary, w'))
    (hfailure : failure ∈ summary.failures) (hsource : failure.sourceLine = some text) :
    w' = w ∧ ∃ content line earlier,
      Shows w'.files rules
        (Order.sortBy laterFirst (onPath (findingsOf s w tool) failure.finding.path))
        failure.finding text content line earlier ∧
      ((∀ f ∈ earlier, f.line ≠ failure.finding.line) → text = line) := by
  obtain rfl := world_of_failure h hfailure
  obtain ⟨-, -, hfailures⟩ := summary_of_applyWith h
  obtain ⟨patched, -, -, hhandles⟩ := plan_accounts w'.files rules (findingsOf s w' tool)
  rw [hfailures] at hfailure
  obtain ⟨content, line, earlier, hshows⟩ :=
    (hhandles failure.finding.path).shows (Rules.isProper_of_parse hrules)
      (List.mem_filter.2 ⟨hfailure, beq_self_eq_true _⟩) hsource
  refine ⟨rfl, content, line, earlier, hshows, fun hother ↦ ?_⟩
  have hnone : editsOn rules earlier failure.finding.line = [] :=
    List.eq_nil_iff_forall_not_mem.2 fun e he ↦ by
      obtain ⟨g, hg, hgline, -⟩ := mem_editsOn.1 he
      exact hother g hg hgline
  have hrun := hshows.replaced
  rw [hnone] at hrun
  exact (Option.some.inj hrun).symm

def misnamed : World :=
  .reporting (Utf8.encode "foo foo\n") [⟨1, 1, "t", "bar("⟩, ⟨1, 5, "t", "foo("⟩]

def renamed : Rules := ⟨[("foo", "quux"), ("bar", "baz")]⟩

/-- The failure shows a line that no file holds. -/
theorem misnamed_shown : ∃ summary failure,
    apply (.single .keepAll) misnamed "t" renamed false =
        (.ok summary, (Store.single .keepAll).look misnamed) ∧
      summary.failures = [failure] ∧ failure.finding = ⟨⟨1, 1, "t", "bar("⟩, "/file"⟩ ∧
      failure.sourceLine = some (Utf8.encode "foo quux") ∧
      ((Store.single .keepAll).look misnamed).files.read (Path.ofText "/file") =
        .ok (Utf8.encode "foo foo\n") ∧
      (LineBuffer.ofBytes (Utf8.encode "foo foo\n")).line? 1 = some (Utf8.encode "foo foo") :=
  ⟨_, _, rfl, rfl, rfl, rfl, rfl, rfl⟩

theorem misnamed_patched_behind : ∃ summary earlier,
    applyWith (fun _ ↦ .sound) (.single .keepAll) misnamed "t" renamed false =
        (.ok summary, misnamed) ∧
      Shows misnamed.files renamed
        [⟨⟨1, 5, "t", "foo("⟩, "/file"⟩, ⟨⟨1, 1, "t", "bar("⟩, "/file"⟩]
        ⟨⟨1, 1, "t", "bar("⟩, "/file"⟩ (Utf8.encode "foo quux") (Utf8.encode "foo foo\n")
        (Utf8.encode "foo foo") earlier := by
  have hrules : Rules.parse ["foo=quux", "bar=baz"] = .ok renamed := rfl
  have hresult : applyWith (fun _ ↦ .sound) (.single .keepAll) misnamed "t" renamed false =
      (.ok
        { applied := 1
          failures := [⟨⟨⟨1, 1, "t", "bar("⟩, "/file"⟩, .patch (.mismatch 1 1 "bar"),
            some (Utf8.encode "foo quux")⟩] }, misnamed) := rfl
  obtain ⟨-, content, line, earlier, hshows, -⟩ :=
    failure_shows_patched_line hrules hresult List.mem_cons_self rfl
  obtain rfl : Utf8.encode "foo foo\n" = content := Except.ok.inj hshows.content_eq
  obtain rfl : Utf8.encode "foo foo" = line := Option.some.inj hshows.line_eq
  exact ⟨_, earlier, hresult, hshows⟩

end FindingStore.Rewrite
