import FindingStore.Proofs.Rewrite.Planning
import FindingStore.Proofs.World.Hosting

namespace FindingStore.Rewrite

def Covers (f : Finding) (line column : Nat) : Prop :=
  f.line = line ∧ f.column ≤ column ∧ column < f.column + (spelling f).length

/-- The findings on a file name what stands where they point, and no byte is in the spans of
two. -/
structure Protects (content : Bytes) (findings : List Finding) : Prop where
  names : ∀ f ∈ findings, Names content f
  once : findings.Pairwise fun f g ↦ ¬∃ line column, Covers f line column ∧ Covers g line column

variable {device : String → FileSystem.Device} {s : Store} {w : World} {tool : String}
  {rules : Rules} {f g : Finding}

theorem not_covers_iff_apart (hpath : f.path = g.path) (hf : spelling f ≠ [])
    (hg : spelling g ≠ []) :
    (¬∃ line column, Covers f line column ∧ Covers g line column) ↔ Apart f g := by
  have hfpos := List.length_pos_iff.2 hf
  have hgpos := List.length_pos_iff.2 hg
  constructor
  · intro h _ hline
    apply Classical.byContradiction
    intro hover
    rcases Nat.le_total f.column g.column with hle | hle
    · exact h ⟨f.line, g.column, ⟨rfl, hle, by omega⟩, ⟨hline.symm, Nat.le_refl _, by omega⟩⟩
    · exact h ⟨f.line, f.column, ⟨rfl, Nat.le_refl _, by omega⟩, ⟨hline.symm, hle, by omega⟩⟩
  · rintro h ⟨line, column, ⟨hfline, hf⟩, ⟨hgline, hg⟩⟩
    have := h hpath (hfline.trans hgline.symm)
    omega

/-- A rewrite that succeeds protects the text of a file that it writes exactly if no two of the
findings on it overlap; and a finding that overlaps no other always names what it has pointed at. -/
theorem protects_iff_apart {pairs : List String} {summary : Summary} {path : String}
    (hrules : Rules.parse pairs = .ok rules)
    (h : (applyWith device s w tool rules false).1 = .ok summary) (hs : summary.succeeded = true)
    (hpath : path ∈ summary.written) :
    let findings := onPath (findingsOf s w tool) path
    ∃ content, w.files.read (Path.ofText path) = .ok content ∧
      (Protects content findings ↔ findings.Pairwise Apart) ∧
      ∀ f ∈ findings, (∀ g ∈ findings.erase f, Apart g f) → Names content f := by
  intro findings
  have hproper := Rules.isProper_of_parse hrules
  obtain ⟨hall, hwritten⟩ := isPatched_of_succeeded h hs
  rw [hwritten] at hpath
  obtain ⟨group, hgroup, rfl⟩ := List.mem_map.1 hpath
  obtain ⟨content, hread, hfold⟩ := hall group hgroup
  rw [(mem_byPath.1 hgroup).2] at hfold
  have hpaths : ∀ f ∈ findings, f.path = group.1 := fun f hf ↦ (mem_onPath.1 hf).2
  have hspelling {f : Finding} (hf : f ∈ findings) : spelling f ≠ [] :=
    spelling_ne_nil hproper
      (((foldlM_patchFinding_eq_ok hproper).1 hfold).1 f ((Order.mem_sortBy _).2 hf)).rule
  have hlocal : ∀ f ∈ findings, (∀ g ∈ findings.erase f, Apart g f) → Names content f :=
    fun f hf hapart ↦ names_of_patched hproper hpaths hfold hf hapart
  have honce : findings.Pairwise (fun f g ↦ ¬∃ line column, Covers f line column ∧
      Covers g line column) ↔ findings.Pairwise Apart := by
    refine List.Pairwise.iff_of_mem fun {f g} hf hg ↦ ?_
    have hpath := (hpaths f hf).trans (hpaths g hg).symm
    exact not_covers_iff_apart hpath (hspelling hf) (hspelling hg)
  refine ⟨content, hread, ⟨fun hp ↦ honce.1 hp.once, fun hapart ↦ ⟨fun f hf ↦ ?_, honce.2 hapart⟩⟩,
    hlocal⟩
  refine hlocal f hf fun g hg ↦ Apart.symm ?_
  have hperm := (List.perm_cons_erase hf).pairwise hapart fun h ↦ h.symm
  exact (List.pairwise_cons.1 hperm).1 g hg

def chain : Rules := ⟨[("foo", "bar"), ("bar", "baz")]⟩

def overlapping : World :=
  .reporting (Utf8.encode "foo(x)\n") [⟨1, 1, "t", "foo("⟩, ⟨1, 1, "t", "bar("⟩]

theorem overlapping_rewritten_twice :
    (apply (.single .keepAll) overlapping "t" chain false).1 =
        .ok { applied := 2, written := ["/file"] } ∧
      overlapping.files.read (Path.ofText "/file") = .ok (Utf8.encode "foo(x)\n") ∧
      (apply (.single .keepAll) overlapping "t" chain false).2.files.read (Path.ofText "/file") =
        .ok (Utf8.encode "baz(x)\n") ∧
      ¬Protects (Utf8.encode "foo(x)\n")
        (onPath (findingsOf (.single .keepAll) overlapping "t") "/file") := by
  refine ⟨rfl, rfl, rfl, fun hprotects ↦ ?_⟩
  have hfindings : onPath (findingsOf (.single .keepAll) overlapping "t") "/file" =
      [⟨⟨1, 1, "t", "foo("⟩, "/file"⟩, ⟨⟨1, 1, "t", "bar("⟩, "/file"⟩] := rfl
  obtain ⟨-, text, htext, hprefix⟩ :=
    hprotects.names ⟨⟨1, 1, "t", "bar("⟩, "/file"⟩ (by rw [hfindings]; simp)
  obtain rfl : Utf8.encode "foo(x)" = text := Option.some.inj htext
  rw [spelling] at hprefix
  exact absurd hprefix (by decide)

def adjacent : World :=
  .reporting (Utf8.encode "foobar\n") [⟨1, 1, "t", "foo("⟩, ⟨1, 4, "t", "bar("⟩]

theorem adjacent_protected :
    Protects (Utf8.encode "foobar\n")
      (onPath (findingsOf (.single .keepAll) adjacent "t") "/file") := by
  have hfindings : onPath (findingsOf (.single .keepAll) adjacent "t") "/file" =
      [⟨⟨1, 1, "t", "foo("⟩, "/file"⟩, ⟨⟨1, 4, "t", "bar("⟩, "/file"⟩] := rfl
  have hrules : Rules.parse ["foo=bar", "bar=baz"] = .ok chain := rfl
  have hdone : (applyWith (fun _ ↦ .sound) (.single .keepAll) adjacent "t" chain false).1 =
      .ok { applied := 2, written := ["/file"] } := rfl
  obtain ⟨content, hread, hprotects, -⟩ :=
    protects_iff_apart hrules hdone rfl (List.mem_cons_self : "/file" ∈ ["/file"])
  obtain rfl : Utf8.encode "foobar\n" = content := Except.ok.inj hread
  rw [hprotects, hfindings, List.pairwise_pair]
  intro _ _
  rw [spelling]
  exact .inl (by decide)

end FindingStore.Rewrite
