import FindingStore.Identity
import FindingStore.Proofs.FileSystem.Walk
import FindingStore.Proofs.Text.Utf8

namespace FindingStore

namespace FileSystem

def FindsText (fs : FileSystem) (p : Path) : Prop :=
  ∃ l s, fs.canonicalize p = .ok l ∧ l.toPath = Path.ofText s

def resolved? (fs : FileSystem) (p : Path) : Option Identity :=
  if (Identity.resolve fs p).isValid then some (Identity.resolve fs p) else none

variable {fs : FileSystem} {p q : Path} {i j : Identity}

theorem resolved?_eq_some :
    fs.resolved? p = some i ↔ Identity.resolve fs p = i ∧ i.isValid = true := by
  unfold resolved?
  split
  · next h => exact ⟨fun he ↦ by cases he; exact ⟨rfl, h⟩, fun he ↦ by rw [he.1]⟩
  · next h => exact ⟨nofun, fun he ↦ by rw [he.1] at h; exact absurd he.2 h⟩

theorem resolved?_congr (h : fs.canonicalize p = fs.canonicalize q) :
    fs.resolved? p = fs.resolved? q := by
  have hresolve : Identity.resolve fs p = Identity.resolve fs q := by
    rw [Identity.resolve, Identity.resolve, Identity.resolve?, Identity.resolve?, h]
  rw [resolved?, resolved?, hresolve]

theorem exists_place_of_resolved? (h : fs.resolved? p = some i) :
    ∃ l e, fs.canonicalize p = .ok l ∧ fs.lookup l = some e ∧ i = Identity.ofEntry fs l e := by
  obtain ⟨hresolve, hvalid⟩ := resolved?_eq_some.1 h
  unfold Identity.resolve Identity.resolve? at hresolve
  cases hc : fs.canonicalize p with
  | error e =>
    rw [hc] at hresolve
    subst hresolve
    cases hvalid
  | ok l =>
    rw [hc] at hresolve
    cases he : fs.lookup l with
    | none =>
      simp only [bind, Except.bind, entryAt, he] at hresolve
      subst hresolve
      cases hvalid
    | some e =>
      simp only [bind, Except.bind, entryAt, he] at hresolve
      exact ⟨l, e, rfl, he, hresolve.symm⟩

theorem path_ofEntry (fs : FileSystem) (l : Location) (e : Entry) :
    (Identity.ofEntry fs l e).path = Path.display l.toPath := by
  cases e <;> rfl

/-- Paths that lead to the same text lead to the same place. -/
theorem resolved?_eq_of_path_eq (hfs : fs.IsTree) (hp : fs.FindsText p) (hq : fs.FindsText q)
    (hi : fs.resolved? p = some i) (hj : fs.resolved? q = some j) (h : i.path = j.path) :
    i = j := by
  obtain ⟨k, e, hk, hke, rfl⟩ := exists_place_of_resolved? hi
  obtain ⟨l, e', hl, hle, rfl⟩ := exists_place_of_resolved? hj
  obtain ⟨k', s, hk', hks⟩ := hp
  obtain ⟨l', s', hl', hls⟩ := hq
  obtain rfl : k = k' := Except.ok.inj (hk.symm.trans hk')
  obtain rfl : l = l' := Except.ok.inj (hl.symm.trans hl')
  rw [path_ofEntry, path_ofEntry, hks, hls] at h
  have hs : s = s' := by
    simpa only [Path.display, Path.ofText, Utf8.decodeLossy_encode] using h
  have hkl : k = l := by
    refine Location.toPath_injective (hfs.names ?_) (hfs.names ?_) (by rw [hks, hls, hs])
    · rw [hke]
      rfl
    · rw [hle]
      rfl
  subst hkl
  rw [hke] at hle
  cases hle
  rfl

theorem resolved?_eq_of_parts_eq (hparts : Path.parts p = Path.parts q) (hp : fs.FindsText p)
    (hj : fs.resolved? q = some j) : fs.resolved? p = some j := by
  obtain ⟨l, e, hl, -, -⟩ := exists_place_of_resolved? hj
  obtain ⟨k, s, hk, -⟩ := hp
  have hkl : k = l := canonicalize_eq_of_parts_eq hparts hk hl
  rw [← hj]
  exact resolved?_congr (hk.trans (hkl ▸ hl.symm))

section Now

variable (fs : FileSystem) (now : Timestamp)

theorem advance_withNow (purpose : Purpose) (here : Location) (names : List Bytes) :
    advance { fs with now } purpose here names = fs.advance purpose here names := by
  induction names generalizing here with
  | nil => rfl
  | cons n rest ih =>
    unfold advance
    simp only [ih]
    rfl

theorem walk_withNow (purpose : Purpose) (links : Nat) (here : Location) (names : List Bytes) :
    walk { fs with now } purpose links here names = fs.walk purpose links here names := by
  induction links generalizing here names with
  | zero =>
    unfold walk
    rw [advance_withNow]
    cases fs.advance purpose here names <;> rfl
  | succ links ih =>
    unfold walk
    rw [advance_withNow]
    cases fs.advance purpose here names with
    | link directory target rest => exact ih _ _
    | entry | vacancy | failed => rfl

theorem resolved?_withNow (p : Path) : resolved? { fs with now } p = fs.resolved? p := by
  have hcanonicalize : canonicalize { fs with now } p = fs.canonicalize p := by
    unfold canonicalize search
    rw [walk_withNow]
    rfl
  have hresolve : Identity.resolve { fs with now } p = Identity.resolve fs p := by
    unfold Identity.resolve Identity.resolve?
    rw [hcanonicalize]
    rfl
  rw [resolved?, resolved?, hresolve]

end Now

end FileSystem

end FindingStore
