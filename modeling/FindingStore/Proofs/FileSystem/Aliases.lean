import FindingStore.Proofs.FileSystem.Canonical
import FindingStore.Proofs.FileSystem.Naming

namespace FindingStore

namespace FileSystem

variable {fs : FileSystem} {here l m : Location} {names : List Bytes} {links : Nat} {p q : Path}
  {s t : String} {e : Entry}

def Reaches (fs : FileSystem) (p : Path) (l : Location) : Prop :=
  0 ∉ p ∧ p ≠ [] ∧ fs.Walks maxLinks (fs.origin p) (Path.names p) l

theorem search_eq_entry_iff : fs.search .target p = .ok (.entry l) ↔ fs.Reaches p l := by
  rw [Reaches, ← walk_eq_ok_iff]
  by_cases hzero : 0 ∈ p
  · simp [search, hzero]
  · by_cases hempty : p = []
    · simp [search, hempty]
    · simp [search, hzero, hempty]

theorem canonicalize_eq_ok_iff :
    fs.canonicalize p = .ok l ↔ fs.Reaches p l ∧ l.toPath.length < maxPath := by
  constructor
  · intro h
    obtain ⟨hsearch, hlength⟩ := search_of_canonicalize h
    exact ⟨search_eq_entry_iff.1 (bind_entryPlace_eq_ok.1 hsearch), hlength⟩
  · intro ⟨hreaches, hlength⟩
    apply bind_eq_ok.2
    refine ⟨l, bind_entryPlace_eq_ok.2 (search_eq_entry_iff.2 hreaches), ?_⟩
    rw [if_neg (Nat.not_le.2 hlength)]

theorem Reaches.unique (hl : fs.Reaches p l) (hm : fs.Reaches p m) : l = m :=
  hl.2.2.unique hm.2.2

theorem Walks.isSome (hfs : fs.IsTree) (h : fs.Walks links here names l)
    (hhere : names = [] → (fs.lookup here).isSome) : (fs.lookup l).isSome := by
  induction h with
  | stop => exact hhere rfl
  | stay hdirectory _ _ ih =>
    apply ih
    intro _
    exact isSome_of_isDirectory hdirectory
  | up hdirectory _ ih =>
    apply ih
    intro _
    exact isSome_of_isDirectory (hfs.isDirectory_dropLast hdirectory)
  | enter _ _ _ _ he _ _ ih =>
    apply ih
    intro _
    rw [he, Option.isSome_some]
  | @follow _ _ _ _ rest target _ _ _ _ _ _ ih =>
    apply ih
    intro hnil
    exact absurd hnil (List.append_ne_nil_of_left_ne_nil (names_ne_nil target) rest)

theorem Reaches.isSome (hfs : fs.IsTree) (h : fs.Reaches p l) : (fs.lookup l).isSome := by
  apply h.2.2.isSome hfs
  intro hnil
  exact absurd hnil (names_ne_nil p)

theorem Reaches.isNoLink (hfs : fs.IsTree) (h : fs.Reaches p l) : fs.IsNoLink l := by
  apply h.2.2.isNoLink hfs
  intro hnil
  exact absurd hnil (names_ne_nil p)

/-- Nothing on the way to an entry is a link, nor is the entry, if a path comes to it. -/
theorem Reaches.isNoLink_of_prefix (hfs : fs.IsTree) (h : fs.Reaches p l) {k : Location}
    (hk : k <+: l) : fs.IsNoLink k := by
  obtain ⟨rest, rfl⟩ := hk
  cases rest with
  | nil =>
    rw [List.append_nil] at h
    exact h.isNoLink hfs
  | cons n rest =>
    apply isNoLink_of_isDirectory
    exact (hfs.leads (h.isSome hfs)).above (n := n) ⟨rest, by simp⟩

theorem resolve_of_canonicalize (hl : fs.canonicalize p = .ok l) (he : fs.lookup l = some e) :
    Identity.resolve fs p = Identity.ofEntry fs l e := by
  simp only [Identity.resolve, Identity.resolve?, hl, entryAt, he, bind, Except.bind,
    Except.toOption, Option.getD_some]

theorem resolve_of_not_canonicalize (h : ∀ l, fs.canonicalize p ≠ .ok l) :
    Identity.resolve fs p = {} := by
  cases hc : fs.canonicalize p with
  | ok l => exact absurd hc (h l)
  | error e =>
    simp only [Identity.resolve, Identity.resolve?, hc, bind, Except.bind, Except.toOption,
      Option.getD_none]

/-- A path that goes from the root to a place by the names that lead there, none of which is empty,
stands for a directory or its parent, or is the name of a link. -/
structure GoesStraight (fs : FileSystem) (p : Path) (l : Location) : Prop where
  absolute : Path.isAbsolute p = true
  names : Path.names p = [] :: if l = [] then [[]] else l
  plain : ∀ n ∈ l, n ≠ [] ∧ n ≠ [Path.dot] ∧ n ≠ [Path.dot, Path.dot]
  noLink : ∀ k, k <+: l → fs.IsNoLink k

theorem Reaches.goesStraight (hfs : fs.IsTree) (h : fs.Reaches p l) :
    fs.GoesStraight l.toPath l where
  absolute := isAbsolute_toPath l
  names := by
    split
    · next hroot =>
      subst hroot
      decide
    · next hroot =>
      apply Location.names_toPath hroot
      intro n hn
      exact (hfs.names (h.isSome hfs) n hn).slash
  plain n hn :=
    have hname := hfs.names (h.isSome hfs) n hn
    ⟨hname.nonempty, hname.dot, hname.dotdot⟩
  noLink _ hk := h.isNoLink_of_prefix hfs hk

theorem path_resolve (hfs : fs.IsTree) (hl : fs.canonicalize p = .ok l)
    (hs : l.toPath = Path.ofText s) : (Identity.resolve fs p).path = s := by
  obtain ⟨e, he⟩ := Option.isSome_iff_exists.1 ((canonicalize_eq_ok_iff.1 hl).1.isSome hfs)
  rw [resolve_of_canonicalize hl he, path_ofEntry, hs]
  simp only [Path.display, Path.ofText, Utf8.decodeLossy_encode]

theorem ofText_ne_empty (hs : l.toPath = Path.ofText s) : s ≠ "" := by
  intro hempty
  apply toPath_ne_nil l
  rw [hs, hempty]
  rfl

/-- Paths that come to the same entry are resolved alike, and no others are. -/
theorem agrees_resolve_iff (hfs : fs.IsTree) (hl : fs.canonicalize p = .ok l)
    (hs : l.toPath = Path.ofText s) (hm : fs.Reaches q m) (ht : m.toPath = Path.ofText t) :
    (Identity.resolve fs p).agrees (Identity.resolve fs q) = true ↔ m = l := by
  obtain ⟨hreaches, hlength⟩ := canonicalize_eq_ok_iff.1 hl
  constructor
  · intro hagrees
    have hpath : s = (Identity.resolve fs q).path := by
      rw [← path_resolve hfs hl hs]
      simp only [Identity.agrees, Bool.and_eq_true, beq_iff_eq] at hagrees
      exact hagrees.1.1
    by_cases hlong : m.toPath.length < maxPath
    · have hq := canonicalize_eq_ok_iff.2 ⟨hm, hlong⟩
      rw [path_resolve hfs hq ht] at hpath
      apply Location.toPath_injective (hfs.names (hm.isSome hfs)) (hfs.names (hreaches.isSome hfs))
      rw [hs, ht, hpath]
    · -- the canonical path is too long to be written
      have hnone : ∀ k, fs.canonicalize q ≠ .ok k := by
        intro k hk
        obtain ⟨hk, hshort⟩ := canonicalize_eq_ok_iff.1 hk
        rw [hk.unique hm] at hshort
        exact hlong hshort
      rw [resolve_of_not_canonicalize hnone] at hpath
      exact absurd hpath (ofText_ne_empty hs)
  · intro he
    subst he
    have hq := canonicalize_eq_ok_iff.2 ⟨hm, hlength⟩
    have hsame : Identity.resolve fs p = Identity.resolve fs q := by
      rw [Identity.resolve, Identity.resolve, Identity.resolve?, Identity.resolve?, hl, hq]
    rw [hsame]
    simp [Identity.agrees]

/-- In every file system, a path that leads to a place whose path is text is resolved to the
identity of what stands there; its canonical path goes straight to the place and is resolved to the
same; and a path that comes to some place has the same identity exactly if the places are the
same. -/
theorem canonical_path_identifies (hfs : fs.IsTree) (hl : fs.canonicalize p = .ok l)
    (hs : l.toPath = Path.ofText s) :
    let i := Identity.resolve fs p
    (∃ e, fs.lookup l = some e ∧ i = Identity.ofEntry fs l e) ∧
      Path.ofText i.path = l.toPath ∧ i.isValid = true ∧
      fs.GoesStraight (Path.ofText i.path) l ∧
      Identity.resolve fs (Path.ofText i.path) = i ∧
      ∀ q m t, fs.Reaches q m → m.toPath = Path.ofText t →
        (i.agrees (Identity.resolve fs q) = true ↔ m = l) := by
  intro i
  have hreaches := (canonicalize_eq_ok_iff.1 hl).1
  obtain ⟨e, he⟩ := Option.isSome_iff_exists.1 (hreaches.isSome hfs)
  have hi : i = Identity.ofEntry fs l e := resolve_of_canonicalize hl he
  have hpath : i.path = s := path_resolve hfs hl hs
  have hagain : fs.canonicalize (Path.ofText i.path) = .ok l := by
    rw [hpath, ← hs]
    exact canonicalize_toPath hfs hl (hreaches.isSome hfs)
  refine ⟨⟨e, he, hi⟩, ?_, ?_, ?_, ?_, ?_⟩
  · rw [hpath, hs]
  · simpa [Identity.isValid, hpath] using ofText_ne_empty hs
  · rw [hpath, ← hs]
    exact hreaches.goesStraight hfs
  · rw [resolve_of_canonicalize hagain he, hi]
  · intro q m t hm ht
    exact agrees_resolve_iff hfs hl hs hm ht

def winding : FileSystem where
  entries :=
    [(["d"].map Utf8.encode, .directory {}),
      (["d", "f"].map Utf8.encode, .file { content := [0x78], modified := {}, mode := 0o644 }),
      (["d", "up"].map Utf8.encode, .link (Utf8.encode "../by")),
      (["by"].map Utf8.encode, .link (Utf8.encode "./d/")),
      (["loop"].map Utf8.encode, .link (Utf8.encode "loop"))]
  workingDirectory := ["d"].map Utf8.encode

theorem winding_isTree : winding.IsTree := by
  apply isTree_of_entries
  decide

theorem winding_identifies :
    let l := ["d", "f"].map Utf8.encode
    let i := Identity.resolve winding (Path.ofText "up/./f")
    winding.IsTree ∧ winding.canonicalize (Path.ofText "up/./f") = .ok l ∧
      Location.toPath l = Path.ofText "/d/f" ∧ i.path = "/d/f" ∧
      Identity.resolve winding (Path.ofText i.path) = i ∧
      i.agrees (Identity.resolve winding (Path.ofText "/by//f")) = true ∧
      i.agrees (Identity.resolve winding (Path.ofText "up")) = false := by
  intro l i
  have hl : winding.canonicalize (Path.ofText "up/./f") = .ok l := by decide +kernel
  have htext : Location.toPath l = Path.ofText "/d/f" := by decide
  have hby : winding.canonicalize (Path.ofText "/by//f") = .ok l := by decide +kernel
  have hup : winding.canonicalize (Path.ofText "up") = .ok (["d"].map Utf8.encode) := by
    decide +kernel
  obtain ⟨-, -, -, -, hagain, hagrees⟩ := canonical_path_identifies winding_isTree hl htext
  have hother : ¬ i.agrees (Identity.resolve winding (Path.ofText "up")) = true := by
    rw [hagrees _ _ "/d" (canonicalize_eq_ok_iff.1 hup).1 (by decide)]
    decide
  refine ⟨winding_isTree, hl, htext, path_resolve winding_isTree hl htext, hagain, ?_, ?_⟩
  · exact (hagrees _ _ _ (canonicalize_eq_ok_iff.1 hby).1 htext).2 rfl
  · simpa using hother

end FileSystem

end FindingStore
