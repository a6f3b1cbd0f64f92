import Mathlib.Data.List.Basic
import Mathlib.Data.List.Induction
import FindingStore.FileSystem.Update
import FindingStore.Proofs.FileSystem.Walk

namespace FindingStore

namespace FileSystem

structure Leads (fs : FileSystem) (l : Location) : Prop where
  names : ∀ n ∈ l, IsName n
  above {k : Location} {n : Bytes} : k ++ [n] <+: l → fs.isDirectory k = true

variable {fs fs' : FileSystem} {here k l : Location} {names : List Bytes} {n : Bytes} {e : Entry}

theorem isDirectory_iff : fs.isDirectory l = true ↔ ∃ t, fs.lookup l = some (.directory t) := by
  unfold isDirectory
  split
  · next t ht => exact iff_of_true rfl ⟨t, ht⟩
  · next hnone => exact iff_of_false nofun fun ⟨t, ht⟩ ↦ hnone t ht

theorem isSome_of_isDirectory (h : fs.isDirectory l = true) : (fs.lookup l).isSome := by
  obtain ⟨t, ht⟩ := isDirectory_iff.1 h
  rw [ht, Option.isSome_some]

theorem IsTree.isSome_of_prefix (h : fs.IsTree) (hkl : k <+: l) (hl : (fs.lookup l).isSome) :
    (fs.lookup k).isSome := by
  obtain ⟨t, rfl⟩ := hkl
  induction t using List.reverseRecOn with
  | nil => rwa [List.append_nil] at hl
  | append_singleton t n ih =>
    rw [← List.append_assoc] at hl
    exact ih (isSome_of_isDirectory (h.parents hl))

theorem IsTree.leads (h : fs.IsTree) (hl : (fs.lookup l).isSome) : fs.Leads l where
  names := h.names hl
  above hkn := h.parents (h.isSome_of_prefix hkn hl)

theorem IsTree.lookup_eq_none (h : fs.IsTree) (hk : fs.isDirectory k = false) (hkl : k <+: l)
    (hne : l ≠ k) : fs.lookup l = none := by
  apply Option.not_isSome_iff_eq_none.1
  intro hl
  obtain ⟨t, rfl⟩ := hkl
  cases t with
  | nil => exact hne (List.append_nil k)
  | cons n rest =>
    have habove := (h.leads hl).above (k := k) (n := n) ⟨rest, by simp⟩
    rw [hk] at habove
    cases habove

theorem Leads.of_prefix (h : fs.Leads l) (hkl : k <+: l) : fs.Leads k where
  names n hn := h.names n (hkl.subset hn)
  above hkn := h.above (hkn.trans hkl)

theorem Leads.advance (h : fs.Leads (here ++ names)) (he : fs.lookup (here ++ names) = some e)
    (hlink : ∀ target, e ≠ .link target) :
    fs.advance .target here names = .entry (here ++ names) := by
  induction names generalizing here with
  | nil => rw [FileSystem.advance, List.append_nil]
  | cons n rest ih =>
    have hsplit : here ++ n :: rest = here ++ [n] ++ rest := by simp
    have hn : IsName n := h.names n (by simp)
    have hhere : fs.isDirectory here = true := h.above (n := n) ⟨rest, hsplit.symm⟩
    rw [hsplit] at h he ⊢
    have hnext := ih h he
    have hstop : ¬(n = [] ∨ n = [Path.dot]) := by simp [hn.nonempty, hn.dot]
    rw [FileSystem.advance]
    simp only [hhere, hstop, hn.dotdot, Nat.not_lt.2 hn.length, Bool.not_true, Bool.false_eq_true,
      if_false, reduceCtorEq, false_and]
    cases rest with
    | nil =>
      rw [List.append_nil] at he
      rw [he]
      cases e with
      | link target => exact absurd rfl (hlink target)
      | directory t => exact hnext
      | file f => exact hnext
    | cons m rest =>
      obtain ⟨t, ht⟩ := isDirectory_iff.1 (h.above (k := here ++ [n]) (n := m) ⟨rest, by simp⟩)
      rw [ht]
      exact hnext

theorem Leads.advance_root (h : fs.Leads l) (he : fs.lookup l = some e)
    (hlink : ∀ target, e ≠ .link target) :
    fs.advance .target [] ([] :: l) = .entry l := by
  have hroot : fs.isDirectory [] = true := by rw [isDirectory, lookup_root]
  have hadvance : fs.advance .target [] ([] ++ l) = .entry ([] ++ l) := h.advance he hlink
  rw [advance_cons_of_not_moves rfl hroot]
  exact hadvance

theorem Leads.walk_toPath (h : fs.Leads l) (he : fs.lookup l = some e)
    (hlink : ∀ target, e ≠ .link target) (links : Nat) :
    fs.walk .target links [] (Path.names l.toPath) = .ok (.entry l) := by
  have hnames : fs.advance .target [] (Path.names l.toPath) = .entry l := by
    by_cases hl : l = []
    · subst hl
      have hempty : Path.names (Location.toPath []) = [[], []] := by decide
      have hroot : fs.isDirectory [] = true := by rw [isDirectory, lookup_root]
      rw [hempty, advance_cons_of_not_moves rfl hroot, advance_cons_of_not_moves rfl hroot,
        FileSystem.advance]
    · rw [Location.names_toPath hl fun n hn ↦ (h.names n hn).slash, h.advance_root he hlink]
  unfold walk
  simp only [hnames]

theorem zero_not_mem_toPath (h : ∀ n ∈ l, 0 ∉ n) : 0 ∉ l.toPath := by
  unfold Location.toPath
  split
  · decide
  · simp only [List.mem_flatMap, List.mem_cons, not_exists, not_and, not_or]
    exact fun n hn ↦ ⟨by decide, h n hn⟩

theorem isAbsolute_toPath (l : Location) : Path.isAbsolute l.toPath = true := by
  cases l <;> rfl

theorem origin_toPath (fs : FileSystem) (l : Location) : fs.origin l.toPath = [] := by
  rw [origin, isAbsolute_toPath, if_pos rfl]

theorem toPath_ne_nil (l : Location) : l.toPath ≠ [] := by
  cases l <;> simp [Location.toPath]

theorem Leads.follow_toPath (h : fs.Leads l) (he : fs.lookup l = some e)
    (hlink : ∀ target, e ≠ .link target) (hlength : l.toPath.length < maxPath) :
    fs.follow l.toPath = .ok l := by
  have hzero : l.toPath.contains 0 = false := by
    simpa using zero_not_mem_toPath fun n hn ↦ (h.names n hn).nul
  have hempty : l.toPath.isEmpty = false := by simpa using toPath_ne_nil l
  simp only [follow, place, search, hzero, hempty, Nat.not_le.2 hlength, origin_toPath,
    h.walk_toPath he hlink, decide_false, Bool.and_false, Bool.false_eq_true, if_false]
  rfl

theorem walk_of_follow {p : Path} (h : fs.follow p = .ok k) :
    fs.walk .target maxLinks (fs.origin p) (Path.names p) = .ok (.entry k) := by
  unfold follow place at h
  split at h
  · cases h
  · exact walk_of_search h

theorem follow_of_canonicalize {p : Path} (h : fs.canonicalize p = .ok l)
    (hk : fs.follow p = .ok k) : k = l :=
  Place.entry.inj (Except.ok.inj ((walk_of_follow hk).symm.trans (canonicalize_eq_ok h)))

end FileSystem

end FindingStore
