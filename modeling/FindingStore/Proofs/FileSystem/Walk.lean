import Mathlib.Tactic.MkIffOfInductiveProp
import FindingStore.FileSystem.Resolve
import FindingStore.Proofs.Outcome
import FindingStore.Proofs.Text.Split

namespace FindingStore

@[mk_iff]
structure IsName (n : Bytes) : Prop where
  nonempty : n ≠ []
  slash : Path.slash ∉ n
  nul : 0 ∉ n
  dot : n ≠ [Path.dot]
  dotdot : n ≠ [Path.dot, Path.dot]
  length : n.length ≤ FileSystem.maxName

instance (n : Bytes) : Decidable (IsName n) := decidable_of_iff _ (isName_iff n).symm

/-- Entries stand in directories, under proper names. -/
structure FileSystem.IsTree (fs : FileSystem) : Prop where
  names {l : Location} : (fs.lookup l).isSome → ∀ n ∈ l, IsName n
  parents {l : Location} {n : Bytes} : (fs.lookup (l ++ [n])).isSome → fs.isDirectory l = true

def FileSystem.single (content : Bytes) : FileSystem where
  entries := [([Utf8.encode "file"], .file { content, modified := {}, mode := 0o644 })]

/-- A file system is a tree if every entry has proper names and stands in a directory. -/
theorem FileSystem.isTree_of_entries {fs : FileSystem}
    (h : ∀ e ∈ fs.entries, (∀ n ∈ e.1, IsName n) ∧ fs.isDirectory e.1.dropLast = true) :
    fs.IsTree := by
  have hlookup {l : Location} (hl : (fs.lookup l).isSome) : l = [] ∨ ∃ e, (l, e) ∈ fs.entries := by
    unfold FileSystem.lookup at hl
    split at hl
    · next hroot => exact .inl hroot
    · obtain ⟨e, he⟩ := Option.isSome_iff_exists.1 hl
      obtain ⟨before, after, hentries, -⟩ := List.lookup_eq_some_iff.1 he
      exact .inr ⟨e, by simp [hentries]⟩
  constructor
  · intro l hl n hn
    rcases hlookup hl with rfl | ⟨e, he⟩
    · cases hn
    · exact (h _ he).1 n hn
  · intro l n hl
    rcases hlookup hl with hroot | ⟨e, he⟩
    · simp at hroot
    · simpa using (h _ he).2

theorem FileSystem.single_isTree (content : Bytes) : (single content).IsTree := by
  apply isTree_of_entries
  intro e he
  rw [single, List.mem_singleton] at he
  subst he
  refine ⟨?_, rfl⟩
  intro n hn
  rw [List.mem_singleton.1 hn]
  decide

namespace Path

def moves (n : Bytes) : Bool := !n.isEmpty && n != [dot]

theorem moves_eq_false {n : Bytes} : moves n = false ↔ n = [] ∨ n = [dot] := by
  rw [moves, Bool.and_eq_false_iff]
  simp

theorem moves_of_parts_eq {p q : Path} (h : parts p = parts q) :
    isAbsolute p = isAbsolute q ∧ (names p).filter moves = (names q).filter moves := by
  have hnot (r : Path) : [dot] ∉ (names r).filter moves := by simp [moves]
  have hcons {r : Path} {ns : List Bytes} (hr : (names r).filter moves = [dot] :: ns) : False :=
    hnot r (hr ▸ List.mem_cons_self)
  have hparts (r : Path) : parts r = ⟨isAbsolute r, if isAbsolute r then (names r).filter moves
      else if (names r).head? == some [dot] then [dot] :: (names r).filter moves
      else (names r).filter moves⟩ := by
    unfold parts
    cases isAbsolute r
    · cases (names r).head? == some [dot] <;> rfl
    · rfl
  rw [hparts p, hparts q, Parts.mk.injEq] at h
  obtain ⟨habsolute, hnames⟩ := h
  refine ⟨habsolute, ?_⟩
  rw [habsolute] at hnames
  by_cases hq : isAbsolute q = true
  · simpa only [hq, if_true] using hnames
  · simp only [hq, Bool.false_eq_true, if_false] at hnames
    split at hnames <;> split at hnames
    · exact (List.cons.inj hnames).2
    · exact (hcons hnames.symm).elim
    · exact (hcons hnames).elim
    · exact hnames

end Path

namespace Location

theorem names_toPath {l : Location} (hl : l ≠ []) (h : ∀ n ∈ l, Path.slash ∉ n) :
    Path.names l.toPath = [] :: l := by
  have hpath : l.toPath = [Path.slash].intercalate ([] :: l) := by
    rw [toPath, if_neg (by simpa using hl)]
    exact flatMap_cons_eq_intercalate Path.slash l
  rw [Path.names, hpath, List.splitOn_intercalate Path.slash (by simpa using h) (by simp)]

theorem toPath_injective {k l : Location} (hk : ∀ n ∈ k, IsName n) (hl : ∀ n ∈ l, IsName n)
    (h : k.toPath = l.toPath) : k = l := by
  have hroot : Path.names (toPath []) = [[], []] := by decide
  have hempty {m : Location} (hm : ∀ n ∈ m, IsName n) : [[], []] ≠ ([] : Bytes) :: m := by
    rintro ⟨⟩
    exact (hm [] List.mem_cons_self).nonempty rfl
  have hnames := congrArg Path.names h
  by_cases hk0 : k = []
  · by_cases hl0 : l = []
    · rw [hk0, hl0]
    · rw [hk0, hroot, names_toPath hl0 fun n hn ↦ (hl n hn).slash] at hnames
      exact (hempty hl hnames).elim
  · rw [names_toPath hk0 fun n hn ↦ (hk n hn).slash] at hnames
    by_cases hl0 : l = []
    · rw [hl0, hroot] at hnames
      exact (hempty hk hnames.symm).elim
    · rw [names_toPath hl0 fun n hn ↦ (hl n hn).slash] at hnames
      exact (List.cons.inj hnames).2

end Location

namespace FileSystem

variable {fs : FileSystem} {here k l directory : Location} {names ns rest : List Bytes}
  {target : Path}

theorem advance_cons_of_not_moves {n : Bytes} (h : Path.moves n = false)
    (hd : fs.isDirectory here = true) (purpose : Purpose) :
    fs.advance purpose here (n :: names) = fs.advance purpose here names := by
  rw [advance]
  simp [hd, Path.moves_eq_false.1 h]

/-- A walk that comes to an entry or to a link does so as well without the names that do not move
it. -/
theorem advance_filter (h : (∃ l, fs.advance .target here names = .entry l) ∨
      ∃ d t r, fs.advance .target here names = .link d t r) :
    fs.advance .target here (names.filter Path.moves) =
      match fs.advance .target here names with
      | .link d t r => .link d t (r.filter Path.moves)
      | stop => stop := by
  induction names generalizing here with
  | nil => rfl
  | cons n names ih =>
    by_cases hd : fs.isDirectory here = true
    · cases hm : Path.moves n with
      | false =>
        rw [advance_cons_of_not_moves hm hd] at h ⊢
        rw [List.filter_cons_of_neg (by simp [hm])]
        exact ih h
      | true =>
        have hn : ¬(n = [] ∨ n = [Path.dot]) := fun hn ↦ by
          rw [Path.moves_eq_false.2 hn] at hm
          cases hm
        rw [List.filter_cons_of_pos hm]
        simp only [advance, hd, hn, if_false, Bool.not_true, Bool.false_eq_true, reduceCtorEq,
          false_and] at h ⊢
        split
        · next hup => exact ih (by simpa only [hup, if_true] using h)
        · next hup =>
          simp only [hup, if_false] at h
          split
          · rfl
          · next hlong =>
            simp only [hlong, if_false] at h
            cases hlookup : fs.lookup (here ++ [n]) with
            | none =>
              simp only [hlookup] at h
              split at h <;> simp at h
            | some e =>
              simp only [hlookup] at h
              cases e with
              | link target => simp
              | directory t => exact ih h
              | file f => exact ih h
    · simp [advance, hd] at h

theorem advance_filter_entry (h : fs.advance .target here names = .entry l) :
    fs.advance .target here (names.filter Path.moves) = .entry l := by
  rw [advance_filter (.inl ⟨l, h⟩), h]

theorem advance_filter_link (h : fs.advance .target here names = .link directory target rest) :
    fs.advance .target here (names.filter Path.moves) =
      .link directory target (rest.filter Path.moves) := by
  rw [advance_filter (.inr ⟨directory, target, rest, h⟩), h]

theorem walk_eq_entry {purpose : Purpose} {links : Nat}
    (h : fs.walk purpose links here names = .ok (.entry l)) :
    fs.advance purpose here names = .entry l ∨
      ∃ directory target rest left, links = left + 1 ∧
        fs.advance purpose here names = .link directory target rest ∧
        fs.walk purpose left (if Path.isAbsolute target then [] else directory)
          (Path.names target ++ rest) = .ok (.entry l) := by
  unfold walk at h
  split at h
  · next l' hs =>
    cases h
    exact .inl hs
  · cases h
  · cases h
  · cases h
  · next directory target rest left hs => exact .inr ⟨_, _, _, left, rfl, hs, h⟩

theorem walk_eq_of_moves {links : Nat} (hsame : names.filter Path.moves = ns.filter Path.moves)
    (hk : fs.walk .target links here names = .ok (.entry k))
    (hl : fs.walk .target links here ns = .ok (.entry l)) : k = l := by
  induction links generalizing here names ns with
  | zero =>
    obtain hk | ⟨_, _, _, _, h, -⟩ := walk_eq_entry hk
    · obtain hl | ⟨_, _, _, _, h, -⟩ := walk_eq_entry hl
      · have h := (advance_filter_entry hk).symm.trans (hsame ▸ advance_filter_entry hl)
        exact Stop.entry.inj h
      · cases h
    · cases h
  | succ links ih =>
    obtain hk | ⟨d, t, r, _, ⟨⟩, hk, hwalk⟩ := walk_eq_entry hk <;>
      obtain hl | ⟨d', t', r', _, ⟨⟩, hl, hwalk'⟩ := walk_eq_entry hl
    · have h := (advance_filter_entry hk).symm.trans (hsame ▸ advance_filter_entry hl)
      exact Stop.entry.inj h
    · have h := (advance_filter_entry hk).symm.trans (hsame ▸ advance_filter_link hl)
      cases h
    · have h := (advance_filter_link hk).symm.trans (hsame ▸ advance_filter_entry hl)
      cases h
    · -- both pass the same link, and what follows it moves alike
      have h := (advance_filter_link hk).symm.trans (hsame ▸ advance_filter_link hl)
      obtain ⟨rfl, rfl, hrest⟩ := Stop.link.inj h
      exact ih (by rw [List.filter_append, List.filter_append, hrest]) hwalk hwalk'

theorem walk_of_search {p : Path} (h : (fs.search .target p).bind entryPlace = .ok l) :
    fs.walk .target maxLinks (fs.origin p) (Path.names p) = .ok (.entry l) := by
  obtain ⟨place, hsearch, hplace⟩ := bind_eq_ok.1 h
  unfold search at hsearch
  split at hsearch
  · cases hsearch
  · split at hsearch
    · cases hsearch
    · cases place with
      | entry k =>
        cases hplace
        exact hsearch
      | vacancy k => cases hplace

theorem search_of_canonicalize {p : Path} (h : fs.canonicalize p = .ok l) :
    (fs.search .target p).bind entryPlace = .ok l ∧ l.toPath.length < maxPath := by
  obtain ⟨k, hk, hlength⟩ := bind_eq_ok.1 h
  split at hlength
  · cases hlength
  · next hlt =>
    cases hlength
    exact ⟨hk, Nat.not_le.1 hlt⟩

theorem canonicalize_eq_ok {p : Path} (h : fs.canonicalize p = .ok l) :
    fs.walk .target maxLinks (fs.origin p) (Path.names p) = .ok (.entry l) :=
  walk_of_search (search_of_canonicalize h).1

/-- Two spellings of a path that both lead somewhere lead to the same place. -/
theorem canonicalize_eq_of_parts_eq {p q : Path} (hparts : Path.parts p = Path.parts q)
    (hp : fs.canonicalize p = .ok k) (hq : fs.canonicalize q = .ok l) : k = l := by
  obtain ⟨habsolute, hmoves⟩ := Path.moves_of_parts_eq hparts
  have hp := canonicalize_eq_ok hp
  have hq := canonicalize_eq_ok hq
  rw [origin, habsolute] at hp
  exact walk_eq_of_moves hmoves hp hq

end FileSystem

end FindingStore
