import Mathlib.Data.List.Infix
import FindingStore.Proofs.FileSystem.Aliases
import FindingStore.Store.Basic

namespace FindingStore

namespace FileSystem

variable {fs : FileSystem} {here d k l : Location} {names rest : List Bytes} {n : Bytes}
  {links : Nat} {e : Entry} {p : Path}

theorem walks_stay_iff (hhere : fs.isDirectory here = true) (hn : Path.moves n = false) :
    fs.Walks links here (n :: rest) l ↔ fs.Walks links here rest l := by
  constructor
  · intro h
    cases h with
    | stay _ _ hrest => exact hrest
    | up _ _ => exact absurd hn (by decide)
    | enter _ hmoves _ _ _ _ _ => exact absurd (hmoves.symm.trans hn) (by decide)
    | follow _ hmoves _ _ _ _ => exact absurd (hmoves.symm.trans hn) (by decide)
  · intro h
    exact .stay hhere hn h

theorem walks_enter_iff (hhere : fs.isDirectory here = true) (hn : IsName n)
    (he : fs.lookup (here ++ [n]) = some e) (hlink : ∀ target, e ≠ .link target) :
    fs.Walks links here (n :: rest) l ↔ fs.Walks links (here ++ [n]) rest l := by
  have hmoves : Path.moves n = true := by
    rw [moves_iff, not_or]
    exact ⟨hn.nonempty, hn.dot⟩
  constructor
  · intro h
    cases h with
    | stay _ hstays _ => exact absurd (hmoves.symm.trans hstays) (by decide)
    | up _ _ => exact absurd rfl hn.dotdot
    | enter _ _ _ _ _ _ hrest => exact hrest
    | follow _ _ _ _ ht _ => exact absurd (Option.some.inj (he.symm.trans ht)) (hlink _)
  · intro h
    exact .enter hhere hmoves hn.dotdot hn.length he hlink h

theorem Leads.walks_iff (h : fs.Leads (here ++ names)) (he : fs.lookup (here ++ names) = some e)
    (hlink : ∀ target, e ≠ .link target) :
    fs.Walks links here (names ++ rest) l ↔ fs.Walks links (here ++ names) rest l := by
  induction names generalizing here with
  | nil => rw [List.nil_append, List.append_nil]
  | cons n names ih =>
    have hsplit : here ++ n :: names = here ++ [n] ++ names := by simp
    have hn : IsName n := h.names n (by simp)
    have hhere : fs.isDirectory here = true := h.above (n := n) ⟨names, hsplit.symm⟩
    rw [hsplit] at h he ⊢
    rw [List.cons_append, ← ih h he]
    cases names with
    | nil =>
      rw [List.append_nil] at he
      exact walks_enter_iff hhere hn he hlink
    | cons m names =>
      obtain ⟨t, ht⟩ := isDirectory_iff.1 (h.above (k := here ++ [n]) (n := m) ⟨names, by simp⟩)
      exact walks_enter_iff hhere hn ht nofun

theorem Leads.follow_name_iff (h : fs.Leads d) (hd : fs.lookup d = some e)
    (hlink : ∀ target, e ≠ .link target) (hn : IsName n) :
    fs.follow (Location.toPath (d ++ [n])) = .ok l ↔
      (Location.toPath (d ++ [n])).length < maxPath ∧ fs.Walks maxLinks d [n] l := by
  have hnames : ∀ m ∈ d ++ [n], IsName m := by
    intro m hm
    rcases List.mem_append.1 hm with hm | hm
    · exact h.names m hm
    · rwa [List.mem_singleton.1 hm]
  have hroot : fs.isDirectory [] = true := by rw [isDirectory, lookup_root]
  have hwalks : fs.Walks maxLinks [] ([] :: (d ++ [n])) l ↔ fs.Walks maxLinks d [n] l := by
    have hleads : fs.Leads ([] ++ d) := h
    rw [walks_stay_iff hroot rfl]
    exact hleads.walks_iff hd hlink
  rw [follow_eq_ok_iff, origin_toPath,
    Location.names_toPath (by simp) fun m hm ↦ (hnames m hm).slash, hwalks]
  constructor
  · intro h
    exact h.2.2
  · intro h
    exact ⟨zero_not_mem_toPath fun m hm ↦ (hnames m hm).nul, toPath_ne_nil _, h⟩

theorem isFile_eq_true_iff :
    fs.isFile p = true ↔ ∃ l f, fs.follow p = .ok l ∧ fs.lookup l = some (.file f) := by
  have hstat : fs.isFile p = true ↔ ∃ f, fs.stat p = .ok (.file f) := by
    unfold isFile
    split
    · next f hf => exact iff_of_true rfl ⟨f, hf⟩
    · next hnone => exact iff_of_false nofun fun ⟨f, hf⟩ ↦ hnone f hf
  simp only [hstat, stat_eq_ok_iff]
  exact exists_comm

def storeIn (d : Location) : Path := Path.join (Location.toPath d) (Path.ofText storeFileName)

def HoldsStore (fs : FileSystem) (d : Location) : Prop :=
  ∃ l f, fs.follow (storeIn d) = .ok l ∧ fs.lookup l = some (.file f)

/-- The deepest place with a store among a place and those above it. -/
structure IsNearest (fs : FileSystem) (l d : Location) : Prop where
  above : d <+: l
  holds : fs.HoldsStore d
  deepest : ∀ k, k <+: l → fs.HoldsStore k → k <+: d

theorem isName_storeFileName : IsName (Path.ofText storeFileName) := by decide

theorem storeIn_eq (hd : ∀ n ∈ d, IsName n) :
    storeIn d = Location.toPath (d ++ [Path.ofText storeFileName]) := by
  have hrelative : Path.isAbsolute (Path.ofText storeFileName) = false := by decide
  rcases List.eq_nil_or_concat' d with rfl | ⟨k, n, rfl⟩
  · decide
  · have hn : IsName n := hd n (by simp)
    have hlast : n.getLast? ≠ some Path.slash := by
      intro hslash
      exact hn.slash (List.mem_of_getLast? hslash)
    have hpath : Location.toPath (k ++ [n]) = k.flatMap (Path.slash :: ·) ++ Path.slash :: n := by
      simp [Location.toPath]
    have hend : (Location.toPath (k ++ [n])).getLast? ≠ some Path.slash := by
      rw [hpath, List.getLast?_append, List.getLast?_cons, Option.some_or]
      intro hslash
      cases hgot : n.getLast? with
      | none => exact hn.nonempty (List.getLast?_eq_none_iff.1 hgot)
      | some b =>
        rw [hgot] at hslash
        exact hlast (hgot.trans hslash)
    have hempty : (Location.toPath (k ++ [n])).isEmpty = false := by
      simpa using toPath_ne_nil (k ++ [n])
    simp only [storeIn, Path.join, hrelative, hempty, beq_eq_false_iff_ne.2 hend, Bool.or_false,
      Bool.false_eq_true, if_false]
    simp [Location.toPath]

/-- What a directory holds by the name of a store depends on where the name leads from there. -/
theorem holdsStore_iff (hfs : fs.IsTree) (hd : fs.lookup d = some e)
    (hlink : ∀ target, e ≠ .link target) :
    fs.HoldsStore d ↔ (storeIn d).length < maxPath ∧
      ∃ l f, fs.Walks maxLinks d [Path.ofText storeFileName] l ∧ fs.lookup l = some (.file f) := by
  have hleads : fs.Leads d := hfs.leads (by rw [hd, Option.isSome_some])
  simp only [HoldsStore, storeIn_eq hleads.names,
    hleads.follow_name_iff hd hlink isName_storeFileName]
  constructor
  · intro ⟨l, f, ⟨hlength, hl⟩, hf⟩
    exact ⟨hlength, l, f, hl, hf⟩
  · intro ⟨hlength, l, f, hl, hf⟩
    exact ⟨l, f, ⟨hlength, hl⟩, hf⟩

theorem HoldsStore.isDirectory (hfs : fs.IsTree) (hd : fs.lookup d = some e)
    (hlink : ∀ target, e ≠ .link target) (h : fs.HoldsStore d) : fs.isDirectory d = true := by
  obtain ⟨-, l, f, hl, -⟩ := (holdsStore_iff hfs hd hlink).1 h
  cases hl with
  | stay hhere _ _ => exact hhere
  | enter hhere _ _ _ _ _ _ => exact hhere
  | follow hhere _ _ _ _ _ => exact hhere

theorem IsNearest.unique (hd : fs.IsNearest l d) (hk : fs.IsNearest l k) : d = k := by
  apply (hk.deepest d hd.above hd.holds).eq_of_length_le
  exact (hd.deepest k hk.above hk.holds).length_le

theorem isNearest_dropLast_iff (h : ¬ fs.HoldsStore l) :
    fs.IsNearest l d ↔ fs.IsNearest l.dropLast d := by
  rcases List.eq_nil_or_concat' l with rfl | ⟨m, n, rfl⟩
  · rfl
  · rw [List.dropLast_concat]
    constructor
    · intro hd
      refine ⟨?_, hd.holds, ?_⟩
      · rcases List.prefix_concat_iff.1 hd.above with heq | habove
        · rw [heq] at hd
          exact absurd hd.holds h
        · exact habove
      · intro k hk hholds
        exact hd.deepest k (hk.trans (List.prefix_append m [n])) hholds
    · intro hd
      refine ⟨hd.above.trans (List.prefix_append m [n]), hd.holds, ?_⟩
      intro k hk hholds
      rcases List.prefix_concat_iff.1 hk with heq | habove
      · rw [heq] at hholds
        exact absurd hholds h
      · exact hd.deepest k habove hholds

end FileSystem

namespace Store

open FileSystem

variable {fs : FileSystem} {d l : Location} {n : Bytes} {start : Path}

theorem ancestors_nil : ancestors [] = [[]] := rfl

theorem ancestors_concat (l : Location) (n : Bytes) :
    ancestors (l ++ [n]) = (l ++ [n]) :: ancestors l := by
  simp [ancestors, List.range_succ_eq_map, Function.comp_def]

theorem mem_ancestors : d ∈ ancestors l ↔ d <+: l := by
  induction l using List.reverseRecOn with
  | nil => simp [ancestors_nil]
  | append_singleton l n ih => rw [ancestors_concat, List.mem_cons, ih, List.prefix_concat_iff]

theorem find?_ancestors_eq_some_iff {holds : Location → Bool} :
    (ancestors l).find? holds = some d ↔
      d <+: l ∧ holds d = true ∧ ∀ k, k <+: l → holds k = true → k <+: d := by
  induction l using List.reverseRecOn with
  | nil =>
    rw [ancestors_nil, List.find?_singleton]
    constructor
    · intro h
      split at h
      · next hroot =>
        cases h
        exact ⟨List.prefix_refl _, hroot, fun k hk _ ↦ hk⟩
      · cases h
    · intro ⟨hd, hholds, _⟩
      rw [List.prefix_nil.1 hd] at hholds ⊢
      rw [if_pos hholds]
  | append_singleton l n ih =>
    rw [ancestors_concat, List.find?_cons]
    split
    · next hhere =>
      constructor
      · intro h
        cases h
        exact ⟨List.prefix_refl _, hhere, fun k hk _ ↦ hk⟩
      · intro ⟨hd, _, hdeepest⟩
        have hback := hdeepest (l ++ [n]) (List.prefix_refl _) hhere
        rw [hback.eq_of_length_le hd.length_le]
    · next hhere =>
      rw [ih]
      have hproper {k : Location} (hk : k <+: l ++ [n]) (hholds : holds k = true) : k <+: l := by
        rcases List.prefix_concat_iff.1 hk with rfl | habove
        · cases hhere.symm.trans hholds
        · exact habove
      constructor
      · intro ⟨hd, hholds, hdeepest⟩
        refine ⟨hd.trans (List.prefix_append l [n]), hholds, ?_⟩
        intro k hk hkholds
        exact hdeepest k (hproper hk hkholds) hkholds
      · intro ⟨hd, hholds, hdeepest⟩
        refine ⟨hproper hd hholds, hholds, ?_⟩
        intro k hk hkholds
        exact hdeepest k (hk.trans (List.prefix_append l [n])) hkholds

theorem locate_of_canonicalize (hl : fs.canonicalize start = .ok l) :
    locate fs start = ((ancestors l).find? fun d ↦ fs.isFile (storeIn d)).elim
      (.error (.notFound l.toPath)) fun d ↦ .ok (storeIn d) := by
  have hfind : ((ancestors l).map storeIn).find? fs.isFile =
      ((ancestors l).find? fun d ↦ fs.isFile (storeIn d)).map storeIn := List.find?_map
  unfold locate
  rw [hl]
  dsimp only
  cases hnearest : (ancestors l).find? fun d ↦ fs.isFile (storeIn d) with
  | some d =>
    rw [hnearest] at hfind
    split
    · next p hp => exact congrArg Except.ok (Option.some.inj (hp.symm.trans hfind))
    · next hnone => cases hnone.symm.trans hfind
  | none =>
    rw [hnearest] at hfind
    split
    · next p hp => cases hp.symm.trans hfind
    · rfl

theorem nearest?_eq_some_iff :
    ((ancestors l).find? fun d ↦ fs.isFile (storeIn d)) = some d ↔ fs.IsNearest l d := by
  rw [find?_ancestors_eq_some_iff]
  simp only [isFile_eq_true_iff]
  constructor
  · intro ⟨habove, hholds, hdeepest⟩
    exact ⟨habove, hholds, hdeepest⟩
  · intro h
    exact ⟨h.above, h.holds, h.deepest⟩

theorem nearest?_eq_none_iff :
    ((ancestors l).find? fun d ↦ fs.isFile (storeIn d)) = none ↔
      ∀ d, d <+: l → ¬ fs.HoldsStore d := by
  simp only [List.find?_eq_none, mem_ancestors, isFile_eq_true_iff, HoldsStore]

/-- What the search for a store from a path comes to. -/
inductive Finds (fs : FileSystem) (start : Path) : Except StoreError Path → Prop
  | store {l d : Location} (hl : fs.canonicalize start = .ok l) (hd : fs.IsNearest l d) :
      Finds fs start (.ok (storeIn d))
  | nothing {l : Location} (hl : fs.canonicalize start = .ok l)
      (hnone : ∀ d, d <+: l → ¬ fs.HoldsStore d) : Finds fs start (.error (.notFound l.toPath))
  | nowhere {e : IoError} (he : fs.canonicalize start = .error e) :
      Finds fs start (.error (.cannotResolve start e))

theorem finds_locate (fs : FileSystem) (start : Path) : Finds fs start (locate fs start) := by
  cases hl : fs.canonicalize start with
  | error e =>
    simp only [locate, hl]
    exact .nowhere hl
  | ok l =>
    rw [locate_of_canonicalize hl]
    cases hd : (ancestors l).find? fun d ↦ fs.isFile (storeIn d) with
    | some d => exact .store hl (nearest?_eq_some_iff.1 hd)
    | none => exact .nothing hl (nearest?_eq_none_iff.1 hd)

theorem Finds.unique {r r' : Except StoreError Path} (h : Finds fs start r)
    (h' : Finds fs start r') : r = r' := by
  cases h with
  | store hl hd =>
    cases h' with
    | store hl' hd' =>
      cases hl.symm.trans hl'
      rw [hd.unique hd']
    | nothing hl' hnone =>
      cases hl.symm.trans hl'
      exact absurd hd.holds (hnone _ hd.above)
    | nowhere he => cases hl.symm.trans he
  | nothing hl hnone =>
    cases h' with
    | store hl' hd =>
      cases hl.symm.trans hl'
      exact absurd hd.holds (hnone _ hd.above)
    | nothing hl' _ =>
      cases hl.symm.trans hl'
      rfl
    | nowhere he => cases hl.symm.trans he
  | nowhere he =>
    cases h' with
    | store hl _ => cases hl.symm.trans he
    | nothing hl _ => cases hl.symm.trans he
    | nowhere he' =>
      cases he.symm.trans he'
      rfl

theorem locate_eq_iff {r : Except StoreError Path} : locate fs start = r ↔ Finds fs start r := by
  constructor
  · intro h
    rw [← h]
    exact finds_locate fs start
  · intro h
    exact (finds_locate fs start).unique h

/-- In every file system, the search from a path comes to the deepest directory with a store among
the place where the path leads and those above it; if there is none, it names that place; and it
fails only if the path leads nowhere. A directory has a store if the name of a store leads from
there to a file. From a file the search starts in its directory, and from a link where its target
leads. -/
theorem locate_finds_nearest (hfs : fs.IsTree) (start : Path) :
    (∀ r, locate fs start = r ↔ Finds fs start r) ∧
      ∀ l, fs.canonicalize start = .ok l →
        (∀ d, d <+: l → (fs.HoldsStore d ↔ (storeIn d).length < maxPath ∧
          ∃ k f, fs.Walks maxLinks d [Path.ofText storeFileName] k ∧
            fs.lookup k = some (.file f))) ∧
        (fs.isDirectory l = false → ∀ d, fs.IsNearest l d ↔ fs.IsNearest l.dropLast d) ∧
        ∀ parent n closed target, fs.slot start = .ok ⟨parent, some n, closed⟩ →
          fs.lookup (parent ++ [n]) = some (.link target) →
          ∃ links, fs.Walks links (if Path.isAbsolute target then [] else parent)
            (Path.names target) l := by
  refine ⟨fun r ↦ locate_eq_iff, ?_⟩
  intro l hl
  have hreaches := (canonicalize_eq_ok_iff.1 hl).1
  have hplace {d : Location} (hd : d <+: l) :
      ∃ e, fs.lookup d = some e ∧ ∀ target, e ≠ .link target := by
    obtain ⟨e, he⟩ := Option.isSome_iff_exists.1 (hfs.isSome_of_prefix hd (hreaches.isSome hfs))
    refine ⟨e, he, ?_⟩
    intro target hlink
    rw [hlink] at he
    exact hreaches.isNoLink_of_prefix hfs hd target he
  refine ⟨?_, ?_, ?_⟩
  · intro d hd
    obtain ⟨e, he, hlink⟩ := hplace hd
    exact holdsStore_iff hfs he hlink
  · intro hfile d
    obtain ⟨e, he, hlink⟩ := hplace (List.prefix_refl l)
    apply isNearest_dropLast_iff
    intro hholds
    rw [hholds.isDirectory hfs he hlink] at hfile
    cases hfile
  · intro parent n closed target hslot hlink
    exact walks_target hslot hlink hreaches.2.2

def nested : FileSystem where
  entries :=
    [(["a"].map Utf8.encode, .directory {}),
      (["a", "findstore.sqlite"].map Utf8.encode, .link (Utf8.encode "../x")),
      (["a", "b"].map Utf8.encode, .directory {}),
      (["a", "b", "findstore.sqlite"].map Utf8.encode, .link (Utf8.encode "findstore.sqlite")),
      (["a", "b", "c"].map Utf8.encode, .directory {}),
      (["a", "b", "c", "findstore.sqlite"].map Utf8.encode, .directory {}),
      (["a", "b", "c", "f"].map Utf8.encode, .file { modified := {}, mode := 0o644 }),
      (["s"].map Utf8.encode, .link (Utf8.encode "a/b/c/f")),
      (["x"].map Utf8.encode, .file { modified := {}, mode := 0o644 }),
      (["findstore.sqlite"].map Utf8.encode, .file { modified := {}, mode := 0o644 })]

theorem nested_isTree : nested.IsTree := by
  apply isTree_of_entries
  decide

theorem nested_found :
    let start := Path.ofText "/s"
    let l := ["a", "b", "c", "f"].map Utf8.encode
    nested.IsTree ∧ nested.canonicalize start = .ok l ∧
      locate nested start = .ok (Path.ofText "/a/findstore.sqlite") ∧
      nested.isDirectory l = false ∧ nested.IsNearest l.dropLast (["a"].map Utf8.encode) ∧
      nested.HoldsStore (["a"].map Utf8.encode) ∧
      ∃ links, nested.Walks links [] (Path.names (Utf8.encode "a/b/c/f")) l := by
  intro start l
  have hl : nested.canonicalize start = .ok l := by decide +kernel
  have hfile : nested.isDirectory l = false := by decide
  have hslot : nested.slot start = .ok ⟨[], some (Utf8.encode "s"), false⟩ := by decide +kernel
  have hlink : nested.lookup [Utf8.encode "s"] = some (.link (Utf8.encode "a/b/c/f")) := by
    decide +kernel
  have hnearest : nested.IsNearest l (["a"].map Utf8.encode) :=
    nearest?_eq_some_iff.1 (by decide +kernel)
  obtain ⟨hfinds, hplaces⟩ := locate_finds_nearest nested_isTree start
  obtain ⟨hholds, habove, htarget⟩ := hplaces l hl
  refine ⟨nested_isTree, hl, ?_, hfile, ?_, ?_, ?_⟩
  · have hpath : storeIn (["a"].map Utf8.encode) = Path.ofText "/a/findstore.sqlite" := by decide
    rw [← hpath]
    exact (hfinds _).2 (.store hl hnearest)
  · exact (habove hfile _).1 hnearest
  · have hprefix : ["a"].map Utf8.encode <+: l := by decide
    obtain ⟨hlength, hwalk⟩ := (hholds _ hprefix).1 hnearest.holds
    exact (hholds _ hprefix).2 ⟨hlength, hwalk⟩
  · exact htarget _ _ _ _ hslot hlink

end Store

end FindingStore
