import FindingStore.Proofs.FileSystem.Identity
import FindingStore.Proofs.FileSystem.Stability

namespace FindingStore.FileSystem

variable {fs : FileSystem} {here l : Location} {names : List Bytes} {p : Path} {i : Identity}

def IsNoLink (fs : FileSystem) (l : Location) : Prop := ∀ target, fs.lookup l ≠ some (.link target)

theorem isNoLink_of_isDirectory (h : fs.isDirectory l = true) : fs.IsNoLink l := by
  obtain ⟨t, ht⟩ := isDirectory_iff.1 h
  intro target hl
  rw [ht] at hl
  cases hl

theorem IsTree.isDirectory_dropLast (hfs : fs.IsTree) (h : fs.isDirectory l = true) :
    fs.isDirectory l.dropLast = true := by
  rcases List.eq_nil_or_concat l with rfl | ⟨k, n, rfl⟩
  · exact h
  · rw [List.concat_eq_append, List.dropLast_concat]
    rw [List.concat_eq_append] at h
    exact hfs.parents (isSome_of_isDirectory h)

theorem names_ne_nil (p : Path) : Path.names p ≠ [] := List.splitOn_ne_nil Path.slash p

theorem Walks.isNoLink (hfs : fs.IsTree) {links : Nat} (h : fs.Walks links here names l)
    (hhere : names = [] → fs.IsNoLink here) : fs.IsNoLink l := by
  induction h with
  | stop => exact hhere rfl
  | stay hdirectory _ _ ih => exact ih fun _ ↦ isNoLink_of_isDirectory hdirectory
  | up hdirectory _ ih =>
    exact ih fun _ ↦ isNoLink_of_isDirectory (hfs.isDirectory_dropLast hdirectory)
  | enter _ _ _ _ he hlink _ ih =>
    exact ih fun _ target htarget ↦ hlink target (Option.some.inj (he.symm.trans htarget))
  | @follow _ _ _ _ rest target _ _ _ _ _ _ ih =>
    exact ih fun hnil ↦ absurd hnil (List.append_ne_nil_of_left_ne_nil (names_ne_nil target) rest)

theorem canonicalize_toPath (hfs : fs.IsTree) (h : fs.canonicalize p = .ok l)
    (hl : (fs.lookup l).isSome = true) : fs.canonicalize l.toPath = .ok l := by
  obtain ⟨hsearch, hlength⟩ := search_of_canonicalize h
  have hlink := (walk_eq_ok_iff.1 (walk_of_search hsearch)).isNoLink hfs
    fun hnil ↦ absurd hnil (names_ne_nil p)
  obtain ⟨e, he⟩ := Option.isSome_iff_exists.1 hl
  have hleads := hfs.leads hl
  have hzero : l.toPath.contains 0 = false := by
    simpa using zero_not_mem_toPath fun n hn ↦ (hleads.names n hn).nul
  have hempty : l.toPath.isEmpty = false := by simpa using toPath_ne_nil l
  have hwalk := hleads.walk_toPath he (fun target hlink' ↦ hlink target (he.trans (by rw [hlink'])))
    maxLinks
  simp only [canonicalize, search, hzero, hempty, origin_toPath, hwalk, Bool.false_eq_true,
    if_false]
  simp only [Except.bind, bind, entryPlace, Nat.not_le.2 hlength, if_false]

/-- The canonical path of a file is resolved to the identity of the file. -/
theorem resolved?_path (hfs : fs.IsTree) (hp : fs.FindsText p) (hi : fs.resolved? p = some i) :
    fs.resolved? (Path.ofText i.path) = some i := by
  obtain ⟨l, e, hl, he, rfl⟩ := exists_place_of_resolved? hi
  obtain ⟨k, s, hk, hks⟩ := hp
  obtain rfl : l = k := Except.ok.inj (hl.symm.trans hk)
  have hpath : Path.ofText (Identity.ofEntry fs l e).path = l.toPath := by
    rw [path_ofEntry, hks]
    simp only [Path.display, Path.ofText, Utf8.decodeLossy_encode]
  have hcanonical : fs.canonicalize l.toPath = .ok l :=
    canonicalize_toPath hfs hl (by rw [he]; rfl)
  rw [hpath, ← hi]
  exact resolved?_congr (hcanonical.trans hl.symm)

end FindingStore.FileSystem
