import FindingStore.Proofs.FileSystem.Companion
import FindingStore.Proofs.FileSystem.Identity
import FindingStore.Proofs.FileSystem.Stability

namespace FindingStore

def Location.isAside (home l : Location) : Bool :=
  l != home &&
    [Companion.journal, .log, .index, .lock].all fun c ↦ !(home.companion c).isPrefixOf l

theorem Location.isAside_iff {home l : Location} :
    home.isAside l = true ↔ l ≠ home ∧ ∀ c, ¬home.companion c <+: l := by
  simp only [isAside, Bool.and_eq_true, bne_iff_ne, List.all_eq_true, Bool.not_eq_true',
    Bool.eq_false_iff, ne_eq, List.isPrefixOf_iff_prefix]
  refine and_congr_right fun _ ↦ ⟨fun h c ↦ h c ?_, fun h c _ ↦ h c⟩
  cases c <;> decide

namespace FileSystem

variable {fs fs' : FileSystem} {home l : Location} {f : File} {p : Path}

/-- The files as if that of a database and what stands beside it were not there. -/
def without (fs : FileSystem) (home : Location) : FileSystem :=
  { fs with entries := fs.entries.filter fun e ↦ home.isAside e.1 }

theorem lookup_without (hl : home.isAside l = true) : (fs.without home).lookup l = fs.lookup l := by
  simp only [lookup, without, lookup_filter_of_kept home.isAside hl]

theorem isAside_of_isSome (h : ((fs.without home).lookup l).isSome) :
    l = [] ∨ home.isAside l = true := by
  by_cases hroot : l = []
  · exact .inl hroot
  · refine .inr ((Bool.eq_false_or_eq_true _).resolve_right fun hl ↦ ?_)
    simp only [lookup, without, if_neg hroot, lookup_filter_of_dropped home.isAside hl] at h
    cases h

theorem alike_of_without (halike : ∀ l, home.isAside l = true → fs.Alike fs' l)
    (h : ((fs.without home).lookup l).isSome) : (fs.without home).Alike fs' l := by
  rcases isAside_of_isSome h with rfl | hl
  · rw [Alike, lookup_root, lookup_root]
  · exact Alike.trans (.of_eq (lookup_without hl).symm) (halike l hl)

/-- A path from the root leads to a file, and it would without the files of a database. -/
def LeadsAside (fs : FileSystem) (home : Location) (p : Path) : Prop :=
  Path.isAbsolute p = true ∧ ∃ l f, (fs.without home).canonicalize p = .ok l ∧
    (fs.without home).lookup l = some (.file f)

theorem canonicalize_congr (hp : Path.isAbsolute p = true) (h : fs.canonicalize p = .ok l)
    (hkept : ∀ k, (fs.lookup k).isSome → fs.Alike fs' k) : fs'.canonicalize p = .ok l := by
  obtain ⟨hsearch, hlength⟩ := search_of_canonicalize h
  have horigin : fs'.origin p = fs.origin p := by simp [origin, hp]
  have hwalk := ((walk_eq_ok_iff.1 (walk_of_search hsearch)).extend hkept).walk_eq
  unfold search at hsearch
  split at hsearch
  · cases hsearch
  · next hzero =>
    split at hsearch
    · cases hsearch
    · next hempty =>
      simp only [canonicalize, search, if_neg hzero, if_neg hempty, horigin, hwalk]
      simp only [Except.bind, bind, entryPlace, Nat.not_le.2 hlength, if_false]

theorem resolve_of_file (h : fs.canonicalize p = .ok l) (hf : fs.lookup l = some (.file f)) :
    Identity.resolve fs p =
      ⟨Path.display l.toPath, f.modified.wholeSeconds, f.content.length⟩ := by
  simp only [Identity.resolve, Identity.resolve?, h, bind, Except.bind, entryAt, hf]
  rfl

theorem LeadsAside.stays (h : fs.LeadsAside home p)
    (halike : ∀ l, home.isAside l = true → fs.Alike fs' l) :
    fs'.LeadsAside home p ∧ fs'.resolved? p = fs.resolved? p := by
  obtain ⟨habsolute, l, f, hl, hf⟩ := h
  have hreaches (fs' : FileSystem) (halike : ∀ l, home.isAside l = true → fs.Alike fs' l) :
      fs'.canonicalize p = .ok l ∧ fs'.lookup l = some (.file f) :=
    ⟨canonicalize_congr habsolute hl fun k ↦ alike_of_without halike,
      (alike_of_without halike (by rw [hf]; rfl)).lookup_file hf⟩
  obtain ⟨hc, hg⟩ := hreaches fs fun _ _ ↦ rfl
  obtain ⟨hc', hg'⟩ := hreaches fs' halike
  obtain ⟨hc₀, hg₀⟩ := hreaches (fs'.without home) fun k hk ↦
    (halike k hk).trans (.of_eq (lookup_without hk))
  refine ⟨⟨habsolute, l, f, hc₀, hg₀⟩, ?_⟩
  rw [resolved?, resolved?, resolve_of_file hc' hg', resolve_of_file hc hg]

end FileSystem

end FindingStore
