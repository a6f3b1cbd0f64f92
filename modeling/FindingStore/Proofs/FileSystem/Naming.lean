import Mathlib.Data.List.TakeWhile
import FindingStore.Proofs.FileSystem.Stability

namespace FindingStore.FileSystem

variable {fs fs' : FileSystem} {here k l parent : Location} {names : List Bytes} {name : Bytes}
  {links : Nat} {p q target : Path} {closed : Bool} {s : Slot}

def Denotes (fs : FileSystem) (p : Path) (l : Location) : Prop :=
  ∃ parent name closed, fs.slot p = .ok ⟨parent, some name, closed⟩ ∧ l = parent ++ [name]

theorem Denotes.unique (hk : fs.Denotes p k) (hl : fs.Denotes p l) : k = l := by
  obtain ⟨parent, name, closed, hk, rfl⟩ := hk
  obtain ⟨parent', name', closed', hl, rfl⟩ := hl
  cases hk.symm.trans hl
  rfl

theorem bind_entryPlace_eq_ok {x : Except IoError Place} :
    x.bind entryPlace = .ok l ↔ x = .ok (.entry l) := by
  rcases x with e | k | k <;> simp [Except.bind, entryPlace]

theorem follow_eq_ok_iff : fs.follow p = .ok l ↔
    0 ∉ p ∧ p ≠ [] ∧ p.length < maxPath ∧
      fs.Walks maxLinks (fs.origin p) (Path.names p) l := by
  rw [follow, bind_entryPlace_eq_ok, ← walk_eq_ok_iff]
  by_cases hzero : 0 ∈ p
  · simp [place, search, hzero]
  · by_cases hempty : p = []
    · simp [place, search, hempty, maxPath]
    · by_cases hlength : p.length < maxPath
      · simp [place, search, hzero, hempty, hlength, Nat.not_le.2 hlength]
      · simp [place, hzero, hlength, Nat.not_lt.1 hlength]

theorem stat_eq_ok_iff {e : Entry} :
    fs.stat p = .ok e ↔ ∃ l, fs.follow p = .ok l ∧ fs.lookup l = some e := by
  have hentry (l : Location) : fs.entryAt l = .ok e ↔ fs.lookup l = some e := by
    unfold entryAt
    rcases fs.lookup l with _ | e' <;> simp
  simp only [stat, bind_eq_ok, hentry]

theorem slot_eq_ok_iff : fs.slot p = .ok ⟨parent, some name, closed⟩ ↔
    0 ∉ p ∧ p ≠ [] ∧ p.length < maxPath ∧ ∃ before,
      (Path.names p).reverse.dropWhile List.isEmpty = name :: before ∧
        fs.Walks maxLinks (fs.origin p) before.reverse parent ∧ fs.isDirectory parent = true ∧
        name ≠ [Path.dot] ∧ name ≠ [Path.dot, Path.dot] ∧ name.length ≤ maxName ∧
        (p.getLast? == some Path.slash) = closed := by
  by_cases hzero : 0 ∈ p
  · simp [slot, hzero]
  by_cases hempty : p = []
  · simp [slot, hempty]
  by_cases hlength : p.length < maxPath
  · cases hnames : (Path.names p).reverse.dropWhile List.isEmpty with
    | nil => simp [slot, hzero, hempty, hnames, Nat.not_le.2 hlength]
    | cons n before =>
      simp only [slot, List.contains_eq_mem, decide_eq_true_eq, List.isEmpty_iff, hzero, hempty,
        hnames, Nat.not_le.2 hlength, if_false, bind_eq_ok, bind_entryPlace_eq_ok, walk_eq_ok_iff]
      constructor
      · rintro ⟨k, hk, h⟩
        split at h
        · cases h
        · next hdirectory =>
          split at h
          · cases h
          · next hdots =>
            split at h
            · cases h
            · next hname =>
              cases h
              rw [not_or] at hdots
              exact ⟨not_false, hempty, hlength, before, rfl, hk, by simpa using hdirectory,
                hdots.1, hdots.2, Nat.not_lt.1 hname, rfl⟩
      · rintro ⟨-, -, -, _, ⟨⟩, hk, hdirectory, hdot, hdotdot, hname, rfl⟩
        refine ⟨parent, hk, ?_⟩
        simp [hdirectory, hdot, hdotdot, Nat.not_lt.2 hname]
  · simp [slot, hzero, hempty, hlength, Nat.not_lt.1 hlength]

theorem slot_eq_ok (h : fs.slot p = .ok ⟨parent, some name, closed⟩) :
    fs.isDirectory parent = true ∧ IsName name ∧ ∃ before trailing,
      Path.names p = before ++ name :: trailing ∧ (∀ n ∈ trailing, n = []) ∧
        fs.Walks maxLinks (fs.origin p) before parent := by
  obtain ⟨hzero, -, -, before, hnames, hwalk, hparent, hdot, hdotdot, hlength, -⟩ :=
    slot_eq_ok_iff.1 h
  have hsplit := (Path.names p).reverse.takeWhile_append_dropWhile (p := List.isEmpty)
  rw [hnames, ← List.reverse_inj, List.reverse_reverse, List.reverse_append, List.reverse_cons,
    List.append_assoc, List.singleton_append] at hsplit
  have hmem : name ∈ Path.names p := List.mem_reverse.1
    ((List.dropWhile_sublist List.isEmpty).subset (hnames ▸ List.mem_cons_self))
  have hempty := List.head?_dropWhile_not List.isEmpty (Path.names p).reverse
  rw [hnames] at hempty
  refine ⟨hparent, ⟨List.isEmpty_eq_false_iff.1 hempty, not_mem_of_mem_splitOn hmem,
    fun h ↦ ?_, hdot, hdotdot, hlength⟩, before.reverse, _, hsplit.symm, fun n hn ↦ ?_, hwalk⟩
  · exact hzero (mem_of_mem_splitOn hmem h)
  · simpa using List.mem_takeWhile_imp (List.mem_reverse.1 hn)

theorem Denotes.exists_eq (h : fs.Denotes p l) :
    ∃ parent name, l = parent ++ [name] ∧ fs.isDirectory parent = true ∧ IsName name := by
  obtain ⟨parent, name, closed, hslot, rfl⟩ := h
  obtain ⟨hparent, hname, -⟩ := slot_eq_ok hslot
  exact ⟨parent, name, rfl, hparent, hname⟩

structure IsPlain (n : Bytes) : Prop where
  nonempty : n ≠ []
  dot : n ≠ [Path.dot]
  dotdot : n ≠ [Path.dot, Path.dot]
  slash : Path.slash ∉ n

theorem isPlain_of_isName (h : IsName name) : IsPlain name :=
  ⟨h.nonempty, h.dot, h.dotdot, h.slash⟩

theorem Leads.eq_of_denotes {directory : Location} {n : Bytes} (h : fs.Leads directory)
    (hdirectory : fs.isDirectory directory = true) (hn : IsPlain n)
    (hl : fs.Denotes (Location.toPath (directory ++ [n])) l) : l = directory ++ [n] := by
  obtain ⟨parent, name, closed, hslot, rfl⟩ := hl
  obtain ⟨-, -, before, trailing, hnames, hempty, hwalk⟩ := slot_eq_ok hslot
  rw [Location.names_toPath (by simp) fun m hm ↦ ?_] at hnames
  · have htrailing : trailing = [] := by
      rcases List.eq_nil_or_concat' trailing with hnil | ⟨trailing, m, rfl⟩
      · exact hnil
      · have hlast := congrArg List.getLast? hnames
        rw [← List.cons_append, ← List.cons_append, ← List.append_assoc, List.getLast?_concat,
          List.getLast?_concat] at hlast
        exact absurd ((Option.some.inj hlast).trans (hempty m (by simp))) hn.nonempty
    subst htrailing
    rw [← List.cons_append] at hnames
    obtain ⟨rfl, hname⟩ := List.append_inj' hnames rfl
    obtain ⟨date, hdate⟩ := isDirectory_iff.1 hdirectory
    have hroot : fs.walk .target maxLinks [] ([] :: directory) = .ok (.entry directory) := by
      unfold walk
      rw [h.advance_root hdate fun _ h ↦ by cases h]
    rw [origin_toPath] at hwalk
    rw [hwalk.unique (walk_eq_ok_iff.1 hroot), List.cons.inj hname |>.1]
  · rcases List.mem_append.1 hm with hm | hm
    · exact (h.names m hm).slash
    · exact List.mem_singleton.1 hm ▸ hn.slash

theorem SameWays.slot_iff (h : fs.SameWays fs') :
    fs'.slot p = .ok ⟨parent, some name, closed⟩ ↔ fs.slot p = .ok ⟨parent, some name, closed⟩ := by
  rw [slot_eq_ok_iff, slot_eq_ok_iff, h.origin]
  constructor
  · rintro ⟨hzero, hempty, hlength, before, hnames, hwalk, hparent, hname⟩
    exact ⟨hzero, hempty, hlength, before, hnames, h.of_walks hwalk hparent,
      (h.isDirectory parent).symm.trans hparent, hname⟩
  · rintro ⟨hzero, hempty, hlength, before, hnames, hwalk, hparent, hname⟩
    exact ⟨hzero, hempty, hlength, before, hnames, h.walks hwalk hparent,
      (h.isDirectory parent).trans hparent, hname⟩

theorem SameWays.denotes_iff (h : fs.SameWays fs') : fs'.Denotes p l ↔ fs.Denotes p l := by
  simp only [Denotes, h.slot_iff]

def NamesNoWay (fs : FileSystem) (p : Path) : Prop :=
  ∀ parent name closed target, fs.slot p = .ok ⟨parent, some name, closed⟩ →
    fs.lookup (parent ++ [name]) = some (.link target) → fs.IsDeadEnd parent target

theorem SameWays.namesNoWay (h : fs.SameWays fs') (hp : fs.NamesNoWay p) : fs'.NamesNoWay p := by
  intro parent name closed target hslot hlink
  exact h.isDeadEnd_iff.2 (hp _ _ _ _ (h.slot_iff.1 hslot) (h.of_link hlink))

theorem Walks.eq_of_empty (hempty : ∀ n ∈ names, n = []) (h : fs.Walks links here names l) :
    l = here := by
  induction h with
  | stop => rfl
  | stay _ _ _ ih => exact ih fun n hn ↦ hempty n (List.mem_cons_of_mem _ hn)
  | up _ _ _ => exact absurd (hempty _ List.mem_cons_self) (by simp)
  | enter _ hn _ _ _ _ _ _ =>
    rw [hempty _ List.mem_cons_self] at hn
    cases hn
  | follow _ hn _ _ _ _ _ =>
    rw [hempty _ List.mem_cons_self] at hn
    cases hn

/-- A link at the place that a path names leads where the path leads. -/
theorem walks_target (hslot : fs.slot p = .ok ⟨parent, some name, closed⟩)
    (hlink : fs.lookup (parent ++ [name]) = some (.link target))
    (hwalk : fs.Walks links (fs.origin p) (Path.names p) l) :
    ∃ left,
      fs.Walks left (if Path.isAbsolute target then [] else parent) (Path.names target) l := by
  obtain ⟨-, hname, before, trailing, hnames, hempty, hbefore⟩ := slot_eq_ok hslot
  rw [hnames] at hwalk
  obtain ⟨k, left, hk, hwalk⟩ := hwalk.of_append
  obtain rfl := hk.unique hbefore
  cases hwalk with
  | stay _ hn _ =>
    rcases Path.moves_eq_false.1 hn with hn | hn
    · exact absurd hn hname.nonempty
    · exact absurd hn hname.dot
  | up _ _ => exact absurd rfl hname.dotdot
  | enter _ _ _ _ he hnone _ =>
    rw [hlink] at he
    cases he
    exact absurd rfl (hnone target)
  | follow _ _ _ _ he hrest =>
    rw [hlink] at he
    cases he
    obtain ⟨m, left, hm, hrest⟩ := hrest.of_append
    obtain rfl := hrest.eq_of_empty hempty
    exact ⟨_, hm⟩

theorem namesNoWay_of_follow (hfollow : fs.follow p = .ok l) (hl : fs.isDirectory l = false) :
    fs.NamesNoWay p := by
  intro parent name closed target hslot hlink links d hd
  obtain ⟨-, -, -, hwalk⟩ := follow_eq_ok_iff.1 hfollow
  obtain ⟨left, htarget⟩ := walks_target hslot hlink hwalk
  rwa [hd.unique htarget]

/-- A file may be put at the place that a path names, unless a directory is reached there. -/
theorem Denotes.sameWays {g : File} (hl : fs.Denotes p l) (hp : fs.NamesNoWay p)
    (hworking : fs'.workingDirectory = fs.workingDirectory) (hfile : fs.isDirectory l = false)
    (hg : fs'.lookup l = some (.file g)) (halike : ∀ k ≠ l, fs.Alike fs' k) : fs.SameWays fs' := by
  obtain ⟨parent, name, closed, hslot, rfl⟩ := hl
  exact .of_alike hworking hfile (fun target ↦ hp _ _ _ target hslot) hg halike

theorem IsTree.of_replaced {g : File} (h : fs.IsTree) (hl : fs.Denotes p l)
    (hfile : fs.isDirectory l = false) (hg : fs'.lookup l = some (.file g))
    (halike : ∀ k ≠ l, fs.Alike fs' k) : fs'.IsTree := by
  obtain ⟨parent, name, rfl, hparent, hname⟩ := hl.exists_eq
  have hdirectory (k : Location) : fs'.isDirectory k = fs.isDirectory k := by
    by_cases hk : k = parent ++ [name]
    · rw [hk, hfile, FileSystem.isDirectory, hg]
    · exact (halike k hk).isDirectory
  constructor
  · intro k hk
    by_cases hkl : k = parent ++ [name]
    · subst hkl
      intro n hn
      rcases List.mem_append.1 hn with hn | hn
      · exact h.names (isSome_of_isDirectory hparent) n hn
      · exact List.mem_singleton.1 hn ▸ hname
    · exact h.names ((halike k hkl).isSome.symm.trans hk)
  · intro k n hk
    rw [hdirectory]
    by_cases hkl : k ++ [n] = parent ++ [name]
    · exact (List.append_inj' hkl rfl).1 ▸ hparent
    · exact h.parents ((halike _ hkl).isSome.symm.trans hk)

end FindingStore.FileSystem
