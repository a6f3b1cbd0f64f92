import FindingStore.Proofs.FileSystem.Leading

namespace FindingStore

def Entry.undated : Entry → Entry
  | .directory d => .directory { d with modified := {} }
  | e => e

namespace FileSystem

/-- The same stands at a place, the date of a directory apart. -/
def Alike (fs fs' : FileSystem) (l : Location) : Prop :=
  (fs'.lookup l).map Entry.undated = (fs.lookup l).map Entry.undated

variable {fs fs' fs'' : FileSystem} {here directory k l m parent : Location}
  {names ns rest : List Bytes} {n name : Bytes} {e : Entry} {f g : File} {links links' : Nat}
  {p target : Path}

section Alike

theorem Alike.of_eq (h : fs'.lookup l = fs.lookup l) : fs.Alike fs' l :=
  congrArg (Option.map Entry.undated) h

theorem Alike.trans (h : fs.Alike fs' l) (h' : fs'.Alike fs'' l) : fs.Alike fs'' l :=
  Eq.trans h' h

theorem Alike.isSome (h : fs.Alike fs' l) : (fs'.lookup l).isSome = (fs.lookup l).isSome := by
  simpa using congrArg Option.isSome h

theorem Alike.symm (h : fs.Alike fs' l) : fs'.Alike fs l := Eq.symm h

theorem Alike.lookup_directory (h : fs.Alike fs' l) {d : Directory}
    (hd : fs.lookup l = some (.directory d)) :
    ∃ d', fs'.lookup l = some (.directory d') ∧ d'.mode = d.mode := by
  rw [Alike, hd] at h
  obtain ⟨e, he, hundated⟩ := Option.map_eq_some_iff.1 h
  cases e with
  | directory d' => exact ⟨d', he, congrArg Entry.mode hundated⟩
  | file g => cases hundated
  | link target => cases hundated

theorem Alike.isDirectory (h : fs.Alike fs' l) : fs'.isDirectory l = fs.isDirectory l := by
  rw [Bool.eq_iff_iff, isDirectory_iff, isDirectory_iff]
  constructor
  · intro ⟨d, hd⟩
    obtain ⟨d', hd', -⟩ := h.symm.lookup_directory hd
    exact ⟨d', hd'⟩
  · intro ⟨d, hd⟩
    obtain ⟨d', hd', -⟩ := h.lookup_directory hd
    exact ⟨d', hd'⟩

theorem Alike.lookup_file (h : fs.Alike fs' l) (hf : fs.lookup l = some (.file f)) :
    fs'.lookup l = some (.file f) := by
  rw [Alike, hf] at h
  obtain ⟨e, he, hundated⟩ := Option.map_eq_some_iff.1 h
  cases e with
  | file g => exact he.trans (congrArg some hundated)
  | directory t => cases hundated
  | link target => cases hundated

theorem Alike.lookup_link (h : fs.Alike fs' l) (ht : fs.lookup l = some (.link target)) :
    fs'.lookup l = some (.link target) := by
  rw [Alike, ht] at h
  obtain ⟨e, he, hundated⟩ := Option.map_eq_some_iff.1 h
  cases e with
  | link target' => exact he.trans (congrArg some hundated)
  | directory t => cases hundated
  | file g => cases hundated

theorem Alike.lookup_none (h : fs.Alike fs' l) (hl : fs.lookup l = none) : fs'.lookup l = none := by
  simpa [Alike, hl] using h

theorem Alike.mode (h : fs.Alike fs' l) (he : fs.lookup l = some e) :
    ∃ e', fs'.lookup l = some e' ∧ e'.mode = e.mode := by
  cases e with
  | directory d =>
    obtain ⟨d', hd', hmode⟩ := h.lookup_directory he
    exact ⟨_, hd', hmode⟩
  | file f => exact ⟨_, h.lookup_file he, rfl⟩
  | link target => exact ⟨_, h.lookup_link he, rfl⟩

theorem Leads.alike (h : fs.Leads l) (ha : ∀ k, k <+: l → k ≠ l → fs.Alike fs' k) :
    fs'.Leads l where
  names := h.names
  above {k n} hkn := by
    have hk : k <+: l := (List.prefix_append k [n]).trans hkn
    have hne : k ≠ l := by
      rintro rfl
      have := hkn.length_le
      simp only [List.length_append, List.length_singleton] at this
      omega
    rw [(ha k hk hne).isDirectory]
    exact h.above hkn

theorem alike_touchDirectory (fs : FileSystem) (l k : Location) :
    fs.Alike (fs.touchDirectory l) k := by
  by_cases hk : k = l
  · subst hk
    unfold touchDirectory
    split
    · next t hl =>
      split
      · rfl
      · next hempty =>
        rw [Alike, lookup_insert_self _ (by simpa using hempty), hl]
        rfl
    · rfl
  · exact .of_eq (fs.lookup_touchDirectory_of_ne hk)

theorem alike_addEntry (hk : k ≠ l) (e : Entry) : fs.Alike (fs.addEntry l e) k :=
  Alike.trans (.of_eq (fs.lookup_insert_of_ne hk e)) (alike_touchDirectory _ _ _)

end Alike

section Walks

inductive Walks (fs : FileSystem) : Nat → Location → List Bytes → Location → Prop
  | stop {links : Nat} {here : Location} : Walks fs links here [] here
  | stay {links : Nat} {here l : Location} {n : Bytes} {rest : List Bytes}
      (hhere : fs.isDirectory here = true) (hn : Path.moves n = false)
      (hrest : Walks fs links here rest l) : Walks fs links here (n :: rest) l
  | up {links : Nat} {here l : Location} {rest : List Bytes}
      (hhere : fs.isDirectory here = true) (hrest : Walks fs links here.dropLast rest l) :
      Walks fs links here ([Path.dot, Path.dot] :: rest) l
  | enter {links : Nat} {here l : Location} {n : Bytes} {rest : List Bytes} {e : Entry}
      (hhere : fs.isDirectory here = true) (hn : Path.moves n = true)
      (hup : n ≠ [Path.dot, Path.dot]) (hlength : n.length ≤ maxName)
      (he : fs.lookup (here ++ [n]) = some e) (hlink : ∀ target, e ≠ .link target)
      (hrest : Walks fs links (here ++ [n]) rest l) : Walks fs links here (n :: rest) l
  | follow {links : Nat} {here l : Location} {n : Bytes} {rest : List Bytes} {target : Path}
      (hhere : fs.isDirectory here = true) (hn : Path.moves n = true)
      (hup : n ≠ [Path.dot, Path.dot]) (hlength : n.length ≤ maxName)
      (he : fs.lookup (here ++ [n]) = some (.link target))
      (hrest : Walks fs links (if Path.isAbsolute target then [] else here)
        (Path.names target ++ rest) l) : Walks fs (links + 1) here (n :: rest) l

theorem moves_iff : Path.moves n = true ↔ ¬(n = [] ∨ n = [Path.dot]) := by
  rw [← Path.moves_eq_false, Bool.not_eq_false]

theorem advance_up (hhere : fs.isDirectory here = true) :
    fs.advance .target here ([Path.dot, Path.dot] :: rest) =
      fs.advance .target here.dropLast rest := by
  rw [advance]
  simp [hhere]

theorem advance_enter (hhere : fs.isDirectory here = true) (hn : Path.moves n = true)
    (hup : n ≠ [Path.dot, Path.dot]) (hlength : n.length ≤ maxName) :
    fs.advance .target here (n :: rest) =
      match fs.lookup (here ++ [n]) with
      | none => if rest.isEmpty then .vacancy (here ++ [n]) else .failed .notFound
      | some (.link target) => .link here target rest
      | some _ => fs.advance .target (here ++ [n]) rest := by
  rw [advance]
  simp only [hhere, moves_iff.1 hn, hup, Nat.not_lt.2 hlength, Bool.not_true, Bool.false_eq_true,
    reduceCtorEq, false_and, if_false]
  rcases fs.lookup (here ++ [n]) with _ | (t | f | target)
  · rfl
  · rfl
  · rfl
  · simp

theorem walk_congr {links : Nat}
    (h : fs.advance .target here names = fs.advance .target k ns) :
    fs.walk .target links here names = fs.walk .target links k ns := by
  unfold walk
  rw [h]

theorem Walks.walk_eq (h : fs.Walks links here names l) :
    fs.walk .target links here names = .ok (.entry l) := by
  induction h with
  | stop =>
    unfold walk
    rw [advance]
  | stay hhere hn _ ih => exact (walk_congr (advance_cons_of_not_moves hn hhere _)).trans ih
  | up hhere _ ih => exact (walk_congr (advance_up hhere)).trans ih
  | @enter _ here _ n rest e hhere hn hup hlength he hlink _ ih =>
    refine (walk_congr ?_).trans ih
    rw [advance_enter hhere hn hup hlength, he]
    cases e with
    | link target => exact absurd rfl (hlink target)
    | directory t => rfl
    | file f => rfl
  | follow hhere hn hup hlength he _ ih =>
    unfold walk
    rw [advance_enter hhere hn hup hlength, he]
    exact ih

def Reached (fs : FileSystem) (here : Location) (names : List Bytes) : Stop → Prop
  | .entry l => ∀ links, fs.Walks links here names l
  | .link directory target rest => ∀ links l,
    fs.Walks links (if Path.isAbsolute target then [] else directory)
      (Path.names target ++ rest) l → fs.Walks (links + 1) here names l
  | _ => True

theorem Reached.imp {s : Stop} (h : fs.Reached k ns s)
    (hstep : ∀ links l, fs.Walks links k ns l → fs.Walks links here names l) :
    fs.Reached here names s := by
  cases s with
  | entry l => exact fun links ↦ hstep _ _ (h links)
  | link directory target rest => exact fun links l hl ↦ hstep _ _ (h links l hl)
  | vacancy l => trivial
  | failed e => trivial

theorem reached_advance (fs : FileSystem) (here : Location) (names : List Bytes) :
    fs.Reached here names (fs.advance .target here names) := by
  induction names generalizing here with
  | nil =>
    rw [advance]
    exact fun links ↦ .stop
  | cons n rest ih =>
    by_cases hhere : fs.isDirectory here = true
    · by_cases hn : Path.moves n = true
      · by_cases hup : n = [Path.dot, Path.dot]
        · subst hup
          rw [advance_up hhere]
          exact (ih _).imp fun _ _ ↦ .up hhere
        · by_cases hlength : n.length ≤ maxName
          · rw [advance_enter hhere hn hup hlength]
            have henter {e : Entry} (he : fs.lookup (here ++ [n]) = some e)
                (hlink : ∀ target, e ≠ .link target) :
                fs.Reached here (n :: rest) (fs.advance .target (here ++ [n]) rest) :=
              (ih _).imp fun _ _ ↦ .enter hhere hn hup hlength he hlink
            cases he : fs.lookup (here ++ [n]) with
            | none =>
              dsimp only
              split <;> trivial
            | some e =>
              cases e with
              | link target => exact fun links l ↦ .follow hhere hn hup hlength he
              | directory t => exact henter he fun _ h ↦ by cases h
              | file f => exact henter he fun _ h ↦ by cases h
          · rw [advance]
            simp [hhere, moves_iff.1 hn, hup, Nat.lt_of_not_le hlength, Reached]
      · rw [advance_cons_of_not_moves (by simpa using hn) hhere]
        exact (ih _).imp fun _ _ ↦ .stay hhere (by simpa using hn)
    · rw [advance]
      simp [hhere, Reached]

theorem walk_eq_ok_iff :
    fs.walk .target links here names = .ok (.entry l) ↔ fs.Walks links here names l := by
  refine ⟨fun h ↦ ?_, Walks.walk_eq⟩
  induction links generalizing here names with
  | zero =>
    obtain h | ⟨_, _, _, _, h, -⟩ := walk_eq_entry h
    · have hreached := reached_advance fs here names
      rw [h] at hreached
      exact hreached 0
    · cases h
  | succ links ih =>
    have hreached := reached_advance fs here names
    obtain h | ⟨directory, target, rest, _, ⟨⟩, h, hwalk⟩ := walk_eq_entry h
    · rw [h] at hreached
      exact hreached _
    · rw [h] at hreached
      exact hreached _ _ (ih hwalk)

theorem Walks.mono (h : fs.Walks links here names l) (hle : links ≤ links') :
    fs.Walks links' here names l := by
  induction h generalizing links' with
  | stop => exact .stop
  | stay hhere hn _ ih => exact .stay hhere hn (ih hle)
  | up hhere _ ih => exact .up hhere (ih hle)
  | enter hhere hn hup hlength he hlink _ ih =>
    exact .enter hhere hn hup hlength he hlink (ih hle)
  | follow hhere hn hup hlength he _ ih =>
    obtain ⟨left, rfl⟩ := Nat.exists_eq_add_one_of_ne_zero (n := links') (by omega)
    exact .follow hhere hn hup hlength he (ih (by omega))

theorem Walks.unique (h : fs.Walks links here names l) (h' : fs.Walks links' here names m) :
    l = m := by
  have h := (h.mono (Nat.le_max_left links links')).walk_eq
  have h' := (h'.mono (Nat.le_max_right links links')).walk_eq
  exact Place.entry.inj (Except.ok.inj (h.symm.trans h'))

theorem Walks.isDirectory (h : fs.Walks links here names l) (hl : fs.isDirectory l = true) :
    fs.isDirectory here = true := by
  cases h with
  | stop => exact hl
  | stay hhere _ _ => exact hhere
  | up hhere _ => exact hhere
  | enter hhere _ _ _ _ _ _ => exact hhere
  | follow hhere _ _ _ _ _ => exact hhere

theorem Walks.of_append (h : fs.Walks links here (names ++ rest) l) :
    ∃ m links', fs.Walks links here names m ∧ fs.Walks links' m rest l := by
  generalize hall : names ++ rest = all at h
  induction h generalizing names with
  | stop =>
    obtain ⟨rfl, rfl⟩ := List.append_eq_nil_iff.1 hall
    exact ⟨_, 0, .stop, .stop⟩
  | stay hhere hn hwalk ih =>
    obtain ⟨rfl, rfl⟩ | ⟨ns, rfl, rfl⟩ := List.append_eq_cons_iff.1 hall
    · exact ⟨_, _, .stop, .stay hhere hn hwalk⟩
    · obtain ⟨m, left, hm, hl⟩ := ih rfl
      exact ⟨m, left, .stay hhere hn hm, hl⟩
  | up hhere hwalk ih =>
    obtain ⟨rfl, rfl⟩ | ⟨ns, rfl, rfl⟩ := List.append_eq_cons_iff.1 hall
    · exact ⟨_, _, .stop, .up hhere hwalk⟩
    · obtain ⟨m, left, hm, hl⟩ := ih rfl
      exact ⟨m, left, .up hhere hm, hl⟩
  | enter hhere hn hup hlength he hlink hwalk ih =>
    obtain ⟨rfl, rfl⟩ | ⟨ns, rfl, rfl⟩ := List.append_eq_cons_iff.1 hall
    · exact ⟨_, _, .stop, .enter hhere hn hup hlength he hlink hwalk⟩
    · obtain ⟨m, left, hm, hl⟩ := ih rfl
      exact ⟨m, left, .enter hhere hn hup hlength he hlink hm, hl⟩
  | @follow _ _ _ _ _ target hhere hn hup hlength he hwalk ih =>
    obtain ⟨rfl, rfl⟩ | ⟨ns, rfl, rfl⟩ := List.append_eq_cons_iff.1 hall
    · exact ⟨_, _, .stop, .follow hhere hn hup hlength he hwalk⟩
    · -- the names of the target come before the names that are left
      obtain ⟨m, left, hm, hl⟩ := @ih (Path.names target ++ ns) (List.append_assoc _ _ _)
      exact ⟨m, left, .follow hhere hn hup hlength he hm, hl⟩

theorem Walks.extend (h : fs.Walks links here names l)
    (hkept : ∀ k, (fs.lookup k).isSome → fs.Alike fs' k) : fs'.Walks links here names l := by
  have hdirectory {k : Location} (hk : fs.isDirectory k = true) : fs'.isDirectory k = true := by
    rw [(hkept k (isSome_of_isDirectory hk)).isDirectory, hk]
  induction h with
  | stop => exact .stop
  | stay hhere hn _ ih => exact .stay (hdirectory hhere) hn ih
  | up hhere _ ih => exact .up (hdirectory hhere) ih
  | @enter _ here _ n _ e hhere hn hup hlength he hlink _ ih =>
    have halike := hkept (here ++ [n]) (by rw [he]; rfl)
    cases e with
    | link target => exact absurd rfl (hlink target)
    | directory t =>
      obtain ⟨t', ht', -⟩ := halike.lookup_directory he
      exact .enter (hdirectory hhere) hn hup hlength ht' nofun ih
    | file f =>
      exact .enter (hdirectory hhere) hn hup hlength (halike.lookup_file he) nofun ih
  | @follow _ here _ n _ target hhere hn hup hlength he _ ih =>
    have halike := hkept (here ++ [n]) (by rw [he]; rfl)
    exact .follow (hdirectory hhere) hn hup hlength (halike.lookup_link he) ih

/-- A file that has appeared adds no walks to places other than its own. -/
theorem Walks.of_appeared (h : fs'.Walks links here names l) (hfree : fs.lookup m = none)
    (hg : fs'.lookup m = some (.file g)) (halike : ∀ k ≠ m, fs.Alike fs' k) :
    fs.Walks links here names l ∨ l = m := by
  have hdirectory {k : Location} (hk : fs'.isDirectory k = true) : fs.isDirectory k = true := by
    have hkm : k ≠ m := by
      rintro rfl
      rw [FileSystem.isDirectory, hg] at hk
      cases hk
    rw [← (halike k hkm).isDirectory, hk]
  induction h with
  | stop => exact .inl .stop
  | stay hhere hn _ ih => exact ih.imp_left (.stay (hdirectory hhere) hn)
  | up hhere _ ih => exact ih.imp_left (.up (hdirectory hhere))
  | @enter _ here _ n _ e hhere hn hup hlength he hlink hrest ih =>
    by_cases hm : here ++ [n] = m
    · -- the walk goes on from a file, where it can only stop
      subst hm
      have hnone : fs'.isDirectory (here ++ [n]) = false := by
        rw [FileSystem.isDirectory, hg]
      cases hrest with
      | stop => exact .inr rfl
      | stay hhere | up hhere | enter hhere | follow hhere =>
        rw [hnone] at hhere
        cases hhere
    · obtain ⟨e', he', hlink'⟩ : ∃ e', fs.lookup (here ++ [n]) = some e' ∧
          ∀ target, e' ≠ .link target := by
        cases e with
        | link target => exact absurd rfl (hlink target)
        | directory d =>
          obtain ⟨d', hd', -⟩ := (halike _ hm).symm.lookup_directory he
          exact ⟨_, hd', by simp⟩
        | file f => exact ⟨_, (halike _ hm).symm.lookup_file he, hlink⟩
      exact ih.imp_left (.enter (hdirectory hhere) hn hup hlength he' hlink')
  | @follow _ here _ n _ target hhere hn hup hlength he _ ih =>
    have hm : here ++ [n] ≠ m := by
      rintro rfl
      rw [hg] at he
      cases he
    exact ih.imp_left
      (.follow (hdirectory hhere) hn hup hlength ((halike _ hm).symm.lookup_link he))

end Walks

section SameWays

def IsDeadEnd (fs : FileSystem) (directory : Location) (target : Path) : Prop :=
  ∀ links l, fs.Walks links (if Path.isAbsolute target then [] else directory)
    (Path.names target) l → fs.isDirectory l = false

/-- The directories are the same, and so are the links that lead to them. -/
structure SameWays (fs fs' : FileSystem) : Prop where
  workingDirectory : fs'.workingDirectory = fs.workingDirectory
  isDirectory (k : Location) : fs'.isDirectory k = fs.isDirectory k
  of_link {k : Location} {n : Bytes} {target : Path}
    (h : fs'.lookup (k ++ [n]) = some (.link target)) : fs.lookup (k ++ [n]) = some (.link target)
  link {k : Location} {n : Bytes} {target : Path} (h : fs.lookup (k ++ [n]) = some (.link target)) :
    fs'.lookup (k ++ [n]) = some (.link target) ∨ fs.IsDeadEnd k target

theorem SameWays.origin (h : fs.SameWays fs') (p : Path) : fs'.origin p = fs.origin p := by
  rw [FileSystem.origin, FileSystem.origin, h.workingDirectory]

theorem SameWays.walks (h : fs.SameWays fs') (hwalk : fs.Walks links here names l)
    (hl : fs.isDirectory l = true) : fs'.Walks links here names l := by
  have hdirectory {k : Location} (hk : fs.isDirectory k = true) : fs'.isDirectory k = true :=
    (h.isDirectory k).trans hk
  induction hwalk with
  | stop => exact .stop
  | stay hhere hn _ ih => exact .stay (hdirectory hhere) hn (ih hl)
  | up hhere _ ih => exact .up (hdirectory hhere) (ih hl)
  | enter hhere hn hup hlength _ _ hrest ih =>
    obtain ⟨t, ht⟩ := isDirectory_iff.1 (hdirectory (hrest.isDirectory hl))
    exact .enter (hdirectory hhere) hn hup hlength ht nofun (ih hl)
  | follow hhere hn hup hlength he hrest ih =>
    obtain he' | hdead := h.link he
    · exact .follow (hdirectory hhere) hn hup hlength he' (ih hl)
    · -- the walk goes on from where the link leads, which is no directory
      obtain ⟨m, left, hm, hml⟩ := hrest.of_append
      have hm := hdead _ m hm
      rw [hml.isDirectory hl] at hm
      cases hm

theorem SameWays.of_walks (h : fs.SameWays fs') (hwalk : fs'.Walks links here names l)
    (hl : fs'.isDirectory l = true) : fs.Walks links here names l := by
  have hdirectory {k : Location} (hk : fs'.isDirectory k = true) : fs.isDirectory k = true :=
    (h.isDirectory k).symm.trans hk
  induction hwalk with
  | stop => exact .stop
  | stay hhere hn _ ih => exact .stay (hdirectory hhere) hn (ih hl)
  | up hhere _ ih => exact .up (hdirectory hhere) (ih hl)
  | enter hhere hn hup hlength _ _ hrest ih =>
    obtain ⟨t, ht⟩ := isDirectory_iff.1 (hdirectory (hrest.isDirectory hl))
    exact .enter (hdirectory hhere) hn hup hlength ht nofun (ih hl)
  | follow hhere hn hup hlength he _ ih =>
    exact .follow (hdirectory hhere) hn hup hlength (h.of_link he) (ih hl)

theorem SameWays.isDeadEnd_iff (h : fs.SameWays fs') :
    fs'.IsDeadEnd k target ↔ fs.IsDeadEnd k target := by
  constructor
  · intro hdead links l hwalk
    by_contra hl
    rw [Bool.not_eq_false] at hl
    have hdead := hdead links l (h.walks hwalk hl)
    rw [h.isDirectory, hl] at hdead
    cases hdead
  · intro hdead links l hwalk
    by_contra hl
    rw [Bool.not_eq_false] at hl
    have hdead := hdead links l (h.of_walks hwalk hl)
    rw [← h.isDirectory, hl] at hdead
    cases hdead

/-- A file may be put where no directory is and where no link leads to one. -/
theorem SameWays.of_alike (hworking : fs'.workingDirectory = fs.workingDirectory)
    (hl : fs.isDirectory (parent ++ [name]) = false)
    (hdead : ∀ target, fs.lookup (parent ++ [name]) = some (.link target) →
      fs.IsDeadEnd parent target)
    (hg : fs'.lookup (parent ++ [name]) = some (.file g))
    (halike : ∀ k ≠ parent ++ [name], fs.Alike fs' k) : fs.SameWays fs' where
  workingDirectory := hworking
  isDirectory k := by
    by_cases hk : k = parent ++ [name]
    · rw [hk, hl, FileSystem.isDirectory, hg]
    · exact (halike k hk).isDirectory
  of_link {k n target} hlink := by
    by_cases hk : k ++ [n] = parent ++ [name]
    · rw [hk, hg] at hlink
      cases hlink
    · exact (halike _ hk).symm.lookup_link hlink
  link {k n target} hlink := by
    by_cases hk : k ++ [n] = parent ++ [name]
    · obtain ⟨rfl, -⟩ := List.append_inj' hk rfl
      exact .inr (hdead target (hk ▸ hlink))
    · exact .inl ((halike _ hk).lookup_link hlink)

end SameWays

end FileSystem

end FindingStore
