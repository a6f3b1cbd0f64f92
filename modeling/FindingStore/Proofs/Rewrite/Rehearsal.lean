import FindingStore.Proofs.Rewrite.Writing
import FindingStore.Proofs.World.Looking

namespace FindingStore.Rewrite

variable {device : String → FileSystem.Device} {fs fs' : FileSystem} {s : Store} {w v : World}
  {tool : String} {rules : Rules}

theorem exists_of_writeAll_error {buffers : List (String × LineBuffer)} {e : RewriteError}
    (h : writeAll device fs buffers = (.error e, fs')) :
    ∃ path ∈ buffers.map Prod.fst, ∃ e', e = .write path e' := by
  induction buffers generalizing fs with
  | nil => cases h
  | cons first rest ih =>
    unfold writeAll at h
    split at h
    · cases h
      exact ⟨_, List.mem_cons_self, _, rfl⟩
    · obtain ⟨path, hpath, e', he⟩ := ih h
      exact ⟨path, List.mem_cons_of_mem _ hpath, e', he⟩

structure IsTargets (s : Store) (w : World) (tool : String) (paths : List String) : Prop where
  ascending : paths.Pairwise fun p q ↦ Utf8.encode p < Utf8.encode q
  mem (path : String) : path ∈ paths ↔ ∃ f ∈ s.findings w, f.tool = tool ∧ f.path = path

theorem isTargets_byPath (s : Store) (w : World) (tool : String) :
    IsTargets s w tool ((byPath (findingsOf s w tool)).map Prod.fst) := by
  rw [fst_byPath]
  refine ⟨Order.pairwise_sortBy_firstOccurrences _, fun path ↦ ?_⟩
  simp only [Order.mem_sortBy, Order.mem_firstOccurrences, findingsOf, List.mem_map,
    List.mem_filter, beq_iff_eq, and_assoc]

/-- How the result of a run follows from that of a dry run in the same world. -/
def Foretells (s : Store) (w : World) (tool : String) :
    Except RewriteError Summary → Except RewriteError Summary × World → Prop
  | .error e, real => real = (.error e, w)
  | .ok summary, real =>
    if summary.succeeded then
      ∃ paths, IsTargets s w tool paths ∧
        (real.1 = .ok { summary with written := paths } ∨
          ∃ path ∈ paths, ∃ e, real.1 = .error (.write path e))
    else real = (.ok summary, w)

/-- If the findings of a tool can all be patched, a run gets as far as the files let it. -/
theorem foretells_of_succeeded (device : String → FileSystem.Device) (hclean : s.IsClean w)
    (hall : ∀ group ∈ byPath (findingsOf s w tool), IsPatched w.files rules group) :
    Foretells s w tool (.ok { applied := (findingsOf s w tool).length })
      (applyWith device s w tool rules false) := by
  refine ⟨_, isTargets_byPath s w tool, ?_⟩
  rw [applyWith_eq hclean hall]
  split
  · next e files hwrite =>
    obtain ⟨path, hpath, e', rfl⟩ := exists_of_writeAll_error hwrite
    rw [List.map_map] at hpath
    exact .inr ⟨path, hpath, e', rfl⟩
  · exact .inl rfl

theorem foretells_applyWith (device : String → FileSystem.Device) (s : Store) (w : World)
    (tool : String) (rules : Rules) :
    ∃ result, (∀ device, applyWith device s w tool rules true = (result, w)) ∧
      Foretells s w tool result (applyWith device s w tool rules false) := by
  rcases hcollect : collect s w tool with e | ⟨found, clean⟩
  · exact ⟨_, fun _ ↦ applyWith_of_error hcollect, applyWith_of_error hcollect⟩
  · refine ⟨_, fun _ ↦ applyWith_of_stop hcollect (.inl rfl), ?_⟩
    cases hsucceeded : (tried w.files rules found clean).succeeded with
    | false =>
      simp only [Foretells, hsucceeded, Bool.false_eq_true, if_false]
      exact applyWith_of_stop hcollect (.inr hsucceeded)
    | true =>
      simp only [Summary.succeeded, tried, Bool.and_eq_true, List.isEmpty_iff] at hsucceeded
      obtain ⟨rfl, hfailures⟩ := hsucceeded
      obtain ⟨rfl, hclean⟩ := collect_eq_ok.1 hcollect
      have hall := isPatched_of_plan hfailures
      rw [tried, plan_eq hall]
      exact foretells_of_succeeded device hclean hall

/-- A dry run leaves the tables and the files alone, and it says what the run does in its place: it
gives the same error or the same summary of what has failed, or it replaces the files of all paths
with a finding of the tool and counts the same, unless one of them cannot be written. -/
theorem dry_run_predicts (device : String → FileSystem.Device) (s : Store) (w : World)
    (tool : String) (rules : Rules) :
    let v := s.look w
    ∃ result, apply s w tool rules true = (result, v) ∧
      (w.files.Spares s.database →
        (∀ home, s.access.residence = .file home → w.IsSettled s.database home) →
        (v.database s.database).Agrees (w.database s.database) ∧
          ∀ l, (∀ home c, s.access.residence = .file home → ¬home.companion c <+: l) →
            w.files.Alike v.files l) ∧
      Foretells s v tool result (applyWith device s v tool rules false) := by
  intro v
  obtain ⟨result, hdry, hforetells⟩ := foretells_applyWith device s v tool rules
  exact ⟨result, hdry _, s.look_leaves, hforetells⟩

theorem pair_isSettled : pair.IsSettled 0 [Utf8.encode "store"] := by
  intro husers
  exact absurd (husers { stored := .bare, users := [0] } rfl) (by decide)

theorem pair_spares : pair.files.Spares 0 := by
  intro l f hmem hdatabase
  obtain ⟨name, -, he⟩ := List.mem_map.1 hmem
  cases he
  cases hdatabase

theorem pair_foretold :
    let v := (Store.single .keepAll).look pair
    (apply (.single .keepAll) pair "t" fooToBar true).1 = .ok { applied := 2 } ∧
      (v.database 0).Agrees (pair.database 0) ∧
      pair.files.Alike v.files [Utf8.encode "a"] ∧
      ∃ paths, IsTargets (.single .keepAll) v "t" paths ∧ ∃ path ∈ paths, ∃ e,
        (applyWith keepingSecond (.single .keepAll) v "t" fooToBar false).1 =
          .error (.write path e) := by
  intro v
  obtain ⟨result, hdry, hleaves, hforetells⟩ :=
    dry_run_predicts keepingSecond (.single .keepAll) pair "t" fooToBar
  obtain ⟨hagrees, halike⟩ := hleaves pair_spares fun home hhome ↦ by
    cases hhome
    exact pair_isSettled
  have hresult : (apply (.single .keepAll) pair "t" fooToBar true).1 = .ok { applied := 2 } := by
    decide +kernel
  have hfails : (applyWith keepingSecond (.single .keepAll) v "t" fooToBar false).1 =
      .error (.write "/b" .permissionDenied) := by decide +kernel
  obtain rfl : result = .ok { applied := 2 } := by rw [← hresult, hdry]
  refine ⟨hresult, hagrees, halike _ fun home c hhome ↦ ?_, ?_⟩
  · cases hhome
    cases c <;> decide
  · obtain ⟨paths, hpaths, hrun | hrun⟩ := hforetells
    · rw [hfails] at hrun
      cases hrun
    · exact ⟨paths, hpaths, hrun⟩

end FindingStore.Rewrite
