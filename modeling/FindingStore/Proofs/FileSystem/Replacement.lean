import FindingStore.FileSystem.Replace
import FindingStore.Proofs.FileSystem.Naming
import FindingStore.Proofs.Text.Units

namespace FindingStore.FileSystem

variable {fs fs' : FileSystem} {k l source target directory : Location} {name chunk : Bytes}
  {f g : File} {p q : Path}

section TemporaryName

theorem not_mem_temporaryName {b : UInt8} (hb : b.toNat < 0x30) (hdot : b ≠ Path.dot)
    (h : b ∉ name) (n : Nat) : b ∉ temporaryName name n := by
  intro hmem
  obtain ⟨c, hc, hcode⟩ := Utf8.mem_of_mem_ofChars (by omega) hmem
  have hdigits : c ∉ sixDigits n := by
    intro hc
    have hdigit : c.isDigit = true := by
      rw [sixDigits, List.leftpad, List.mem_append] at hc
      rcases hc with hc | hc
      · rw [List.eq_of_mem_replicate hc]
        decide
      · exact Nat.isDigit_of_mem_toDigits (by decide) (by decide) hc
    simp only [Char.isDigit, Bool.and_eq_true, decide_eq_true_eq, UInt32.le_iff_toNat_le] at hdigit
    have hlow : 48 ≤ c.toNat := hdigit.1
    omega
  have hshown : c ∉ Utf8.shownChars name := fun hc ↦
    h (Utf8.mem_of_mem_shownChars (by omega) hcode hc)
  have hletter {d : Char} (hd : 0x30 ≤ d.toNat) : c ≠ d := by
    rintro rfl
    omega
  have hpoint : c ≠ '.' := by
    rintro rfl
    exact hdot (UInt8.toNat_inj.1 hcode.symm)
  simp only [List.mem_append, List.mem_cons, List.not_mem_nil, or_false, hdigits, hshown, hpoint,
    hletter (d := 'n') (by decide), hletter (d := 'e') (by decide),
    hletter (d := 'w') (by decide)] at hc

theorem slash_not_mem_temporaryName (h : Path.slash ∉ name) (n : Nat) :
    Path.slash ∉ temporaryName name n :=
  not_mem_temporaryName (by decide) (by decide) h n

theorem getLast?_temporaryName (name : Bytes) (n : Nat) :
    (temporaryName name n).getLast? = some 0x77 := by
  have hend : Utf8.ofChars ['.', 'n', 'e', 'w'] = [0x2E, 0x6E, 0x65, 0x77] := by decide
  have happend (cs ds : List Char) : Utf8.ofChars (cs ++ ds) = Utf8.ofChars cs ++ Utf8.ofChars ds :=
    List.flatMap_append
  rw [temporaryName, happend, hend, List.getLast?_append_of_ne_nil _ (by simp)]
  rfl

theorem not_dots_temporaryName (name : Bytes) (n : Nat) : temporaryName name n ≠ [] ∧
    temporaryName name n ≠ [Path.dot] ∧ temporaryName name n ≠ [Path.dot, Path.dot] := by
  have hlast := getLast?_temporaryName name n
  refine ⟨?_, ?_, ?_⟩ <;> intro h <;> rw [h] at hlast <;> exact absurd hlast (by decide)

end TemporaryName

section Move

theorem lookup_map_key {g : Location → Location} {entries : List (Location × Entry)}
    (h : ∀ e ∈ entries, g e.1 = k ↔ e.1 = l) :
    (entries.map fun (l, e) ↦ (g l, e)).lookup k = entries.lookup l := by
  induction entries with
  | nil => rfl
  | cons e rest ih =>
    obtain ⟨hfirst, hrest⟩ := List.forall_mem_cons.1 h
    obtain ⟨m, e⟩ := e
    have hsame : (k == g m) = (l == m) := by
      rw [Bool.eq_iff_iff, beq_iff_eq, beq_iff_eq, eq_comm, hfirst, eq_comm]
    simp only [List.map_cons, List.lookup_cons, hsame, ih hrest]

theorem lookup_eq_none_of_forall {entries : List (Location × Entry)}
    (h : ∀ e ∈ entries, e.1 ≠ k) : entries.lookup k = none := by
  induction entries with
  | nil => rfl
  | cons e rest ih =>
    obtain ⟨hfirst, hrest⟩ := List.forall_mem_cons.1 h
    rw [List.lookup_cons, beq_eq_false_iff_ne.2 hfirst.symm, ih hrest]

theorem lookup_eq (fs : FileSystem) (hl : l ≠ []) : fs.lookup l = fs.entries.lookup l := if_neg hl

def IsLeaf (fs : FileSystem) (l : Location) : Prop :=
  l ≠ [] ∧ ∀ k, l <+: k → k ≠ l → fs.lookup k = none

theorem IsLeaf.eq_of_mem (h : fs.IsLeaf l) {e : Location × Entry} (he : e ∈ fs.entries)
    (hl : l <+: e.1) : e.1 = l := by
  apply Classical.byContradiction
  intro hne
  have hnone := h.2 e.1 hl hne
  have hnil : e.1 ≠ [] := fun hnil ↦ h.1 (List.prefix_nil.1 (hnil ▸ hl))
  rw [fs.lookup_eq hnil, List.lookup_eq_none_iff] at hnone
  simpa using hnone e he

theorem prefix_of_eq (h : target = l) : target <+: l := h ▸ List.prefix_refl target

theorem isPrefixOf_eq_false : target.isPrefixOf l = false ↔ ¬target <+: l := by
  rw [← List.isPrefixOf_iff_prefix, Bool.not_eq_true]

def moved (source target l : Location) : Location :=
  if source.isPrefixOf l then target ++ l.drop source.length else l

theorem entries_move (fs : FileSystem) (source target : Location) :
    (fs.move source target).entries =
      (fs.eraseTree target).entries.map fun (l, e) ↦ (moved source target l, e) := rfl

theorem not_prefix_of_mem_eraseTree {e : Location × Entry}
    (he : e ∈ (fs.eraseTree target).entries) : e ∈ fs.entries ∧ ¬target <+: e.1 := by
  obtain ⟨he, hkept⟩ := List.mem_filter.1 he
  exact ⟨he, isPrefixOf_eq_false.1 (by simpa using hkept)⟩

theorem lookup_eraseTree_outside (hl : ¬target <+: l) :
    (fs.eraseTree target).entries.lookup l = fs.entries.lookup l :=
  lookup_filter_of_kept (fun l ↦ !target.isPrefixOf l) (by rw [isPrefixOf_eq_false.2 hl]; rfl)
    fs.entries

theorem lookup_eraseTree_inside (hl : target <+: l) :
    (fs.eraseTree target).entries.lookup l = none :=
  lookup_filter_of_dropped (fun l ↦ !target.isPrefixOf l)
    (by rw [List.isPrefixOf_iff_prefix.2 hl]; rfl) fs.entries

theorem IsLeaf.moved_eq (hs : fs.IsLeaf source) {e : Location × Entry} (he : e ∈ fs.entries) :
    moved source target e.1 = if e.1 = source then target else e.1 := by
  simp only [moved, List.isPrefixOf_iff_prefix]
  by_cases hprefix : source <+: e.1
  · rw [if_pos hprefix, hs.eq_of_mem he hprefix, if_pos rfl, List.drop_length, List.append_nil]
  · rw [if_neg hprefix, if_neg fun h ↦ hprefix (prefix_of_eq (Eq.symm h))]

theorem lookup_move_target (hs : fs.IsLeaf source) (ht : target ≠ []) (hst : ¬target <+: source) :
    (fs.move source target).lookup target = fs.lookup source := by
  rw [lookup_eq _ ht, lookup_eq _ hs.1, entries_move, ← lookup_eraseTree_outside hst]
  refine lookup_map_key fun e he ↦ ?_
  obtain ⟨he, hkept⟩ := not_prefix_of_mem_eraseTree he
  rw [hs.moved_eq he]
  split
  · next h => simp [h]
  · next h => exact iff_of_false (fun h' ↦ hkept (prefix_of_eq h'.symm)) h

theorem lookup_move_source (hs : fs.IsLeaf source) (hst : ¬target <+: source) :
    (fs.move source target).lookup source = none := by
  rw [lookup_eq _ hs.1, entries_move]
  refine lookup_eq_none_of_forall fun e he ↦ ?_
  obtain ⟨⟨l, e⟩, hmem, rfl⟩ := List.mem_map.1 he
  have hl : moved source target l = if l = source then target else l :=
    hs.moved_eq (not_prefix_of_mem_eraseTree hmem).1
  dsimp only
  rw [hl]
  split
  · exact fun h ↦ hst (prefix_of_eq h)
  · next h => exact h

theorem lookup_move_of_ne (hs : fs.IsLeaf source) (ht : fs.IsLeaf target) (hk : k ≠ target)
    (hk' : k ≠ source) : (fs.move source target).lookup k = fs.lookup k := by
  by_cases hnil : k = []
  · rw [hnil, lookup_root, lookup_root]
  · have hsame : (fs.move source target).entries.lookup k =
        (fs.eraseTree target).entries.lookup k := by
      rw [entries_move]
      refine lookup_map_key fun e he ↦ ?_
      rw [hs.moved_eq (not_prefix_of_mem_eraseTree he).1]
      split
      · next h => exact iff_of_false (Ne.symm hk) fun h' ↦ hk' (h'.symm.trans h)
      · exact Iff.rfl
    rw [lookup_eq _ hnil, hsame]
    by_cases hprefix : target <+: k
    · rw [lookup_eraseTree_inside hprefix, ht.2 k hprefix hk]
    · rw [lookup_eraseTree_outside hprefix, ← fs.lookup_eq hnil]

theorem lookup_move (hs : fs.IsLeaf source) (ht : fs.IsLeaf target) (hst : ¬target <+: source)
    (k : Location) : (fs.move source target).lookup k =
      if k = target then fs.lookup source
      else if k = source then none
      else fs.lookup k := by
  split
  · next hk => rw [hk, lookup_move_target hs ht.1 hst]
  · next hk =>
    split
    · next hk' => rw [hk', lookup_move_source hs hst]
    · next hk' => exact lookup_move_of_ne hs ht hk hk'

end Move

section Replace

variable {device : Device} {chunks : List Bytes} {t : Location} {made : FileSystem}

theorem lookup_setMode (hf : fs.lookup t = some (.file f)) (ht : t ≠ []) (mode : Nat) :
    (fs.setMode t mode).lookup t = some (.file { f with mode }) ∧
      ∀ k ≠ t, (fs.setMode t mode).lookup k = fs.lookup k := by
  have hset : fs.setMode t mode = fs.insert t (.file { f with mode }) := by
    simp only [setMode, fileAt?_eq_some.2 hf]
  rw [hset]
  exact ⟨fs.lookup_insert_self ht _, fun k hk ↦ fs.lookup_insert_of_ne hk _⟩

theorem lookup_appendTo (hf : fs.lookup t = some (.file f)) (ht : t ≠ []) (chunk : Bytes) :
    (fs.appendTo t chunk).lookup t =
        some (.file { f with content := f.content ++ chunk, modified := fs.now }) ∧
      ∀ k ≠ t, (fs.appendTo t chunk).lookup k = fs.lookup k := by
  have happend : fs.appendTo t chunk =
      fs.insert t (.file { f with content := f.content ++ chunk, modified := fs.now }) := by
    simp only [appendTo, fileAt?_eq_some.2 hf]
  rw [happend]
  exact ⟨fs.lookup_insert_self ht _, fun k hk ↦ fs.lookup_insert_of_ne hk _⟩

section WorkingDirectory

theorem workingDirectory_touchDirectory (fs : FileSystem) (l : Location) :
    (fs.touchDirectory l).workingDirectory = fs.workingDirectory := by
  unfold touchDirectory
  split
  · split <;> rfl
  · rfl

theorem workingDirectory_addEntry (fs : FileSystem) (l : Location) (e : Entry) :
    (fs.addEntry l e).workingDirectory = fs.workingDirectory :=
  workingDirectory_touchDirectory _ _

theorem workingDirectory_dropEntry (fs : FileSystem) (l : Location) :
    (fs.dropEntry l).workingDirectory = fs.workingDirectory :=
  workingDirectory_touchDirectory _ _

theorem workingDirectory_appendTo (fs : FileSystem) (l : Location) (chunk : Bytes) :
    (fs.appendTo l chunk).workingDirectory = fs.workingDirectory := by
  unfold appendTo
  split <;> rfl

theorem workingDirectory_setMode (fs : FileSystem) (l : Location) (mode : Nat) :
    (fs.setMode l mode).workingDirectory = fs.workingDirectory := by
  unfold setMode
  split <;> rfl

end WorkingDirectory

theorem appendAll_eq_ok {index : Nat} (h : appendAll device t index fs chunks = .ok fs')
    (hf : fs.lookup t = some (.file f)) (ht : t ≠ []) :
    (∃ g, fs'.lookup t = some (.file g) ∧ g.content = f.content ++ chunks.flatten ∧
      g.mode = f.mode) ∧
      (∀ k ≠ t, fs'.lookup k = fs.lookup k) ∧ fs'.workingDirectory = fs.workingDirectory := by
  induction chunks generalizing fs f index with
  | nil =>
    cases h
    exact ⟨⟨f, hf, (List.append_nil _).symm, rfl⟩, fun _ _ ↦ rfl, rfl⟩
  | cons chunk rest ih =>
    unfold appendAll at h
    split at h
    · cases h
    · obtain ⟨hself, hother⟩ := lookup_appendTo hf ht chunk
      obtain ⟨⟨g, hg, hcontent, hmode⟩, hrest, hworking⟩ := ih h hself
      refine ⟨⟨g, hg, ?_, hmode⟩, fun k hk ↦ (hrest k hk).trans (hother k hk),
        hworking.trans (workingDirectory_appendTo fs t chunk)⟩
      rw [hcontent, List.flatten_cons, List.append_assoc]

theorem appendAll_granted {index i : Nat} (h : appendAll device t index fs chunks = .ok fs')
    (hi : i < chunks.length) : device (.append (index + i)) = none := by
  induction chunks generalizing fs index i with
  | nil => cases hi
  | cons chunk rest ih =>
    unfold appendAll at h
    split at h
    · cases h
    · next hfirst =>
      cases i with
      | zero => exact hfirst
      | succ i =>
        have hrest := ih h (Nat.lt_of_succ_lt_succ hi)
        rwa [Nat.add_right_comm] at hrest

def modeOr (fs : FileSystem) (p : Path) (mode : Nat) : Nat :=
  match fs.stat p with
  | .ok e => e.mode
  | .error _ => mode

theorem modeOr_of_ok {e : Entry} (h : fs.stat p = .ok e) (mode : Nat) :
    fs.modeOr p mode = e.mode := by
  rw [modeOr, h]

theorem modeOr_of_error {e : IoError} (h : fs.stat p = .error e) (mode : Nat) :
    fs.modeOr p mode = mode := by
  rw [modeOr, h]

theorem sync_eq_ok (h : sync device fs = .ok fs') : device .sync = none ∧ fs = fs' := by
  unfold sync at h
  split at h
  · cases h
  · next hgrant => exact ⟨hgrant, Except.ok.inj h⟩

theorem rename_of_persist (h : persist device fs l p = .ok fs') :
    device .rename = none ∧ fs.rename l.toPath p = .ok fs' := by
  unfold persist at h
  split at h
  · cases h
  · next hgrant => exact ⟨hgrant, h⟩

theorem copyMode_eq_ok (h : copyMode device fs p t = .ok fs') (hg : fs.lookup t = some (.file g))
    (ht : t ≠ []) :
    fs'.lookup t = some (.file { g with mode := fs.modeOr p g.mode }) ∧
      (∀ k ≠ t, fs'.lookup k = fs.lookup k) ∧ fs'.workingDirectory = fs.workingDirectory := by
  unfold copyMode at h
  split at h
  · next e hstat =>
    split at h
    · cases h
    · cases h
      obtain ⟨hself, hother⟩ := lookup_setMode hg ht e.mode
      rw [modeOr_of_ok hstat]
      exact ⟨hself, hother, workingDirectory_setMode fs t e.mode⟩
  · next hstat =>
    cases h
    rw [modeOr_of_error hstat]
    exact ⟨hg, fun _ _ ↦ rfl, rfl⟩

theorem isPlain_temporaryName (h : Path.slash ∉ name) (n : Nat) :
    IsPlain (temporaryName name n) := by
  obtain ⟨hnonempty, hdot, hdotdot⟩ := not_dots_temporaryName name n
  exact ⟨hnonempty, hdot, hdotdot, slash_not_mem_temporaryName h n⟩

theorem slash_not_mem_fileName (p : Path) : Path.slash ∉ (Path.fileName? p).getD [] := by
  unfold Path.fileName?
  split
  · next n hn =>
    split
    · exact List.not_mem_nil
    · next hdots =>
      have hmem := List.mem_of_getLast? hn
      rw [not_or] at hdots
      have hname : n ∈ Path.names p := by
        unfold Path.parts at hmem
        dsimp only at hmem
        split at hmem
        · exact List.mem_of_mem_filter hmem
        · split at hmem
          · exact List.mem_of_mem_filter ((List.mem_cons.1 hmem).resolve_left hdots.2)
          · exact List.mem_of_mem_filter hmem
      exact not_mem_of_mem_splitOn hname
  · exact List.not_mem_nil

theorem createTemporary_eq_ok (h : fs.createTemporary p = .ok (t, made)) :
    ∃ directory n, IsPlain n ∧ t = directory ++ [n] ∧ fs.isDirectory directory = true ∧
      fs.lookup t = none ∧
      made = fs.addEntry t (.file { modified := fs.now, mode := privateMode }) := by
  unfold createTemporary at h
  dsimp only at h
  split at h
  · cases h
  · split at h
    · cases h
    · obtain ⟨directory, -, h⟩ := bind_eq_ok.1 h
      split at h
      · cases h
      · next hdirectory =>
        split at h
        · cases h
        · split at h
          · cases h
          · next n hfound =>
            cases h
            obtain ⟨i, -, rfl⟩ := List.mem_map.1 (List.mem_of_find?_eq_some hfound)
            have hfree := List.find?_some hfound
            exact ⟨directory, _, isPlain_temporaryName (slash_not_mem_fileName p) i, rfl,
              by simpa using hdirectory, by simpa using hfree, rfl⟩

/-- What is renamed takes the place of something that is no directory and not above it, unless it
has the name already. -/
theorem rename_eq_ok (h : fs.rename q p = .ok fs') :
    ∃ source target, fs.Denotes q source ∧ fs.Denotes p target ∧
      fs'.workingDirectory = fs.workingDirectory ∧
      (source = target ∧ fs' = fs ∨
        source ≠ target ∧ ¬target <+: source ∧ fs.replaceError? source target = none ∧
          ∀ k, (fs.move source target).Alike fs' k) := by
  obtain ⟨old, hold, h⟩ := bind_eq_ok.1 h
  obtain ⟨new, hnew, h⟩ := bind_eq_ok.1 h
  obtain ⟨oldParent, oldName, oldClosed⟩ := old
  obtain ⟨newParent, newName, newClosed⟩ := new
  split at h
  · next oldName newName hname hname' =>
    cases hname
    cases hname'
    refine ⟨oldParent ++ [oldName], newParent ++ [newName], ⟨_, _, _, hold, rfl⟩,
      ⟨_, _, _, hnew, rfl⟩, ?_⟩
    dsimp only at h
    split at h
    · cases h
    · split at h
      · cases h
      · split at h
        · cases h
        · split at h
          · cases h
          · next habove =>
            split at h
            · next hsame =>
              cases h
              exact ⟨rfl, .inl ⟨hsame, rfl⟩⟩
            · next hne =>
              split at h
              · cases h
              · next hreplace =>
                cases h
                refine ⟨?_, .inr ⟨hne, fun hprefix ↦ ?_, hreplace, fun k ↦ ?_⟩⟩
                · rw [workingDirectory_touchDirectory, workingDirectory_touchDirectory]
                  rfl
                · rcases List.prefix_concat_iff.1 hprefix with he | hp
                  · exact hne he.symm
                  · exact habove (List.isPrefixOf_iff_prefix.2 hp)
                · exact (alike_touchDirectory _ _ k).trans (alike_touchDirectory _ _ k)
  · cases h

section Temporary

variable {n : Bytes} (hfs : fs.IsTree) (hdirectory : fs.isDirectory directory = true)
  (hn : IsPlain n) (hfree : fs.lookup (directory ++ [n]) = none)
  (hworking : made.workingDirectory = fs.workingDirectory)
  (hmade : ∀ k ≠ directory ++ [n], fs.Alike made k)
  (hg : made.lookup (directory ++ [n]) = some (.file g))

include hfree hworking hmade hg in
theorem sameWays_of_free : fs.SameWays made := by
  refine .of_alike hworking (by rw [isDirectory, hfree]) (fun target hlink ↦ ?_) hg hmade
  rw [hfree] at hlink
  cases hlink

include hfs hdirectory hn hmade in
theorem eq_of_denotes_toPath (h : made.Denotes (Location.toPath (directory ++ [n])) source) :
    source = directory ++ [n] := by
  have hother {k : Location} (hk : k <+: directory) : k ≠ directory ++ [n] := by
    rintro rfl
    have := hk.length_le
    simp only [List.length_append, List.length_singleton] at this
    omega
  have hleads : made.Leads directory :=
    (hfs.leads (isSome_of_isDirectory hdirectory)).alike fun k hk _ ↦ hmade k (hother hk)
  have hdirectory : made.isDirectory directory = true :=
    (hmade directory (hother List.prefix_rfl)).isDirectory.trans hdirectory
  exact hleads.eq_of_denotes hdirectory hn h

include hfs hdirectory hn hfree hworking hmade hg

theorem persist_eq_ok (h : persist device made (directory ++ [n]) p = .ok fs') :
    ∃ l, fs.Denotes p l ∧ fs.isDirectory l = false ∧ fs'.lookup l = some (.file g) ∧
      (∀ k ≠ l, fs.Alike fs' k) ∧ fs'.workingDirectory = fs.workingDirectory := by
  have hsame := sameWays_of_free hfree hworking hmade hg
  obtain ⟨-, hrename⟩ := rename_of_persist h
  obtain ⟨source, target, hsource, htarget, hworking', hcases⟩ := rename_eq_ok hrename
  obtain rfl := eq_of_denotes_toPath hfs hdirectory hn hmade hsource
  refine ⟨target, hsame.denotes_iff.1 htarget, ?_⟩
  obtain ⟨rfl, rfl⟩ | ⟨hne, habove, hreplace, halike⟩ := hcases
  · -- the path names the temporary file itself
    exact ⟨by rw [isDirectory, hfree], hg, hmade, hworking⟩
  · have hfile : made.isDirectory (directory ++ [n]) = false := by rw [isDirectory, hg]
    have htarget' : made.isDirectory target = false := by
      unfold replaceError? at hreplace
      rw [hfile] at hreplace
      unfold isDirectory
      split
      · next date hdate =>
        rw [hdate] at hreplace
        cases hreplace
      · rfl
    have hempty : fs.isDirectory target = false := (hsame.isDirectory target).symm.trans htarget'
    have hleaf : made.IsLeaf (directory ++ [n]) := by
      refine ⟨by simp, fun k hk hkn ↦ (hmade k hkn).lookup_none ?_⟩
      exact hfs.lookup_eq_none (by rw [isDirectory, hfree]) hk hkn
    have hleaf' : made.IsLeaf target := by
      obtain ⟨parent, name, rfl, -⟩ := htarget.exists_eq
      refine ⟨by simp, fun k hk hkn ↦ (hmade k ?_).lookup_none (hfs.lookup_eq_none hempty hk hkn)⟩
      rintro rfl
      exact habove hk
    have hmove := lookup_move hleaf hleaf' habove
    refine ⟨hempty, (halike target).lookup_file (by rw [hmove, if_pos rfl, hg]), fun k hk ↦ ?_,
      hworking'.trans hworking⟩
    refine Alike.trans ?_ (halike k)
    rw [Alike, hmove, if_neg hk]
    split
    · next hkn => rw [hkn, hfree]
    · next hkn => exact hmade k hkn

omit hfs hdirectory hn hg in
theorem stat_of_free {e : Entry} (h : fs.stat p = .ok e) :
    ∃ e', made.stat p = .ok e' ∧ e'.mode = e.mode := by
  obtain ⟨l, hfollow, hl⟩ := stat_eq_ok_iff.1 h
  obtain ⟨hzero, hempty, hlength, hwalk⟩ := follow_eq_ok_iff.1 hfollow
  have hkept (k : Location) (hk : (fs.lookup k).isSome) : fs.Alike made k := by
    refine hmade k ?_
    rintro rfl
    rw [hfree] at hk
    cases hk
  obtain ⟨e', he', hmode⟩ := (hkept l (by rw [hl]; rfl)).mode hl
  refine ⟨e', stat_eq_ok_iff.2 ⟨l, follow_eq_ok_iff.2 ⟨hzero, hempty, hlength, ?_⟩, he'⟩, hmode⟩
  rw [origin, hworking]
  exact hwalk.extend hkept

omit hfs hdirectory hn in
theorem modeOr_of_free (p : Path) : made.modeOr p g.mode = fs.modeOr p g.mode := by
  cases hstat : fs.stat p with
  | ok e =>
    obtain ⟨e', hstat', hmode⟩ := stat_of_free hfree hworking hmade hstat
    rw [modeOr_of_ok hstat, modeOr_of_ok hstat', hmode]
  | error err =>
    cases hstat' : made.stat p with
    | error err' => rw [modeOr_of_error hstat, modeOr_of_error hstat']
    | ok e =>
      obtain ⟨l, hfollow, hl⟩ := stat_eq_ok_iff.1 hstat'
      obtain ⟨hzero, hempty, hlength, hwalk⟩ := follow_eq_ok_iff.1 hfollow
      rw [origin, hworking] at hwalk
      have hl' : l = directory ++ [n] := by
        by_contra hne
        have hwalk := (hwalk.of_appeared hfree hg hmade).resolve_right hne
        obtain ⟨e', he', -⟩ := (hmade l hne).symm.mode hl
        have hok : fs.stat p = .ok e' :=
          stat_eq_ok_iff.2 ⟨l, follow_eq_ok_iff.2 ⟨hzero, hempty, hlength, hwalk⟩, he'⟩
        rw [hstat] at hok
        cases hok
      subst hl'
      obtain rfl := Option.some.inj (hl.symm.trans hg)
      rw [modeOr_of_error hstat, modeOr_of_ok hstat', Entry.mode]

theorem fillAndRename_eq_ok
    (h : fillAndRename device made (directory ++ [n]) p chunks = .ok fs') :
    ∃ l g', fs.Denotes p l ∧ fs.isDirectory l = false ∧ fs'.lookup l = some (.file g') ∧
      g'.content = g.content ++ chunks.flatten ∧
      g'.mode = fs.modeOr p g.mode ∧
      (∀ k ≠ l, fs.Alike fs' k) ∧ fs'.workingDirectory = fs.workingDirectory := by
  obtain ⟨filled, hfilled, h⟩ := bind_eq_ok.1 h
  obtain ⟨synced, hsynced, h⟩ := bind_eq_ok.1 h
  obtain ⟨-, rfl⟩ := sync_eq_ok hsynced
  obtain ⟨permitted, hpermitted, h⟩ := bind_eq_ok.1 h
  obtain ⟨⟨grown, hgrown, hcontent, hmode⟩, hfill, hfillWorking⟩ :=
    appendAll_eq_ok hfilled hg (by simp)
  obtain ⟨hself, hpermit, hpermitWorking⟩ := copyMode_eq_ok hpermitted hgrown (by simp)
  have hfillWorking := hfillWorking.trans hworking
  have halike (k : Location) (hk : k ≠ directory ++ [n]) : fs.Alike filled k :=
    (hmade k hk).trans (.of_eq (hfill k hk))
  obtain ⟨l, hl, hempty, hdone, hother, hdoneWorking⟩ :=
    persist_eq_ok hfs hdirectory hn hfree (hpermitWorking.trans hfillWorking)
      (fun k hk ↦ (halike k hk).trans (.of_eq (hpermit k hk))) hself h
  refine ⟨l, _, hl, hempty, hdone, hcontent, ?_, hother, hdoneWorking⟩
  rw [← hmode]
  exact modeOr_of_free hfree hfillWorking halike hgrown p

end Temporary

/-- A file that has been replaced stands at the place that the path names. It has the new content
and the permissions of what the path led to, and everything else is as it was. -/
theorem replaceFile_eq_ok (hfs : fs.IsTree) (h : fs.replaceFile device p chunks = (.ok (), fs')) :
    ∃ l g, fs.Denotes p l ∧ fs.isDirectory l = false ∧ fs'.lookup l = some (.file g) ∧
      g.content = chunks.flatten ∧ g.mode = fs.modeOr p privateMode ∧
      (∀ k ≠ l, fs.Alike fs' k) ∧ fs'.workingDirectory = fs.workingDirectory := by
  unfold replaceFile at h
  split at h
  · cases h
  · split at h
    · cases h
    · next t made hmade =>
      obtain ⟨directory, n, hn, rfl, hdirectory, hfree, rfl⟩ := createTemporary_eq_ok hmade
      split at h
      · next done hdone =>
        cases h
        exact fillAndRename_eq_ok hfs hdirectory hn hfree (workingDirectory_addEntry _ _ _)
          (fun k hk ↦ alike_addEntry hk _) (fs.lookup_addEntry_self (by simp) _) hdone
      · cases h

def replaceSteps (fs : FileSystem) (p : Path) (count : Nat) : List ReplaceStep :=
  .create :: (List.range count).map .append ++ .sync ::
    (if (fs.stat p).isOk then [.permit] else []) ++ [.rename]

theorem permit_granted {e : Entry} (h : copyMode device fs p t = .ok fs')
    (hstat : fs.stat p = .ok e) : device .permit = none := by
  unfold copyMode at h
  rw [hstat] at h
  cases hpermit : device .permit with
  | none => rfl
  | some e =>
    rw [hpermit] at h
    cases h

/-- No step has been refused where a path could be replaced. -/
theorem replaceFile_granted (h : fs.replaceFile device p chunks = (.ok (), fs'))
    {step : ReplaceStep} (hstep : step ∈ fs.replaceSteps p chunks.length) : device step = none := by
  unfold replaceFile at h
  split at h
  · cases h
  · next hcreate =>
    split at h
    · cases h
    · next t made hmade =>
      obtain ⟨directory, n, hn, rfl, hdirectory, hfree, rfl⟩ := createTemporary_eq_ok hmade
      split at h
      · next done hdone =>
        obtain ⟨filled, hfilled, hdone⟩ := bind_eq_ok.1 hdone
        obtain ⟨synced, hsynced, hdone⟩ := bind_eq_ok.1 hdone
        obtain ⟨permitted, hpermitted, hdone⟩ := bind_eq_ok.1 hdone
        obtain ⟨hrename, -⟩ := rename_of_persist hdone
        obtain ⟨hsync, rfl⟩ := sync_eq_ok hsynced
        obtain ⟨-, hfill, hworking⟩ := appendAll_eq_ok hfilled
          (fs.lookup_addEntry_self (by simp) _) (by simp)
        have hpermit {e : Entry} (he : fs.stat p = .ok e) : device .permit = none := by
          obtain ⟨e', he', -⟩ := stat_of_free hfree
            (hworking.trans (workingDirectory_addEntry _ _ _))
            (fun k hk ↦ (alike_addEntry hk _).trans (.of_eq (hfill k hk))) he
          exact permit_granted hpermitted he'
        simp only [replaceSteps, List.cons_append, List.append_assoc, List.mem_cons,
          List.mem_append, List.mem_map, List.mem_range, List.not_mem_nil, or_false] at hstep
        obtain rfl | ⟨i, hi, rfl⟩ | rfl | hstep | rfl := hstep
        · exact hcreate
        · have happend := appendAll_granted hfilled hi
          rwa [Nat.zero_add] at happend
        · exact hsync
        · cases hstat : fs.stat p with
          | error e =>
            rw [hstat] at hstep
            cases hstep
          | ok e =>
            rw [hstat] at hstep
            rw [List.mem_singleton.1 hstep]
            exact hpermit hstat
        · exact hrename
      · cases h

theorem alike_dropEntry_addEntry (hfs : fs.IsTree) (hl : l ≠ []) (hfree : fs.lookup l = none)
    (e : Entry) (k : Location) : fs.Alike ((fs.addEntry l e).dropEntry l) k := by
  refine Alike.trans ?_ (alike_touchDirectory _ _ k)
  by_cases hk : l <+: k
  · have hnil : k ≠ [] := fun hk' ↦ hl (List.prefix_nil.1 (hk' ▸ hk))
    have hgone : ((fs.addEntry l e).eraseTree l).lookup k = none := by
      rw [lookup_eq _ hnil]
      exact lookup_filter_of_dropped (fun m ↦ !l.isPrefixOf m)
        (by rw [List.isPrefixOf_iff_prefix.2 hk]; rfl) _
    have hnone : fs.lookup k = none := by
      by_cases hkl : k = l
      · exact hkl ▸ hfree
      · exact hfs.lookup_eq_none (by rw [isDirectory, hfree]) hk hkl
    rw [Alike, hgone, hnone]
  · have hkept : ((fs.addEntry l e).eraseTree l).lookup k = (fs.addEntry l e).lookup k := by
      by_cases hnil : k = []
      · rw [hnil, lookup_root, lookup_root]
      · rw [lookup_eq _ hnil, lookup_eq _ hnil]
        exact lookup_filter_of_kept (fun m ↦ !l.isPrefixOf m)
          (by rw [isPrefixOf_eq_false.2 hk]; rfl) _
    exact (alike_addEntry (fun hkl ↦ hk (prefix_of_eq hkl.symm)) e).trans (.of_eq hkept)

/-- A file that could not be replaced has not been changed, and neither has anything else. -/
theorem replaceFile_error {e : IoError} (hfs : fs.IsTree)
    (h : fs.replaceFile device p chunks = (.error e, fs')) :
    (∀ k, fs.Alike fs' k) ∧ fs'.workingDirectory = fs.workingDirectory := by
  unfold replaceFile at h
  split at h
  · cases h
    exact ⟨fun _ ↦ rfl, rfl⟩
  · split at h
    · cases h
      exact ⟨fun _ ↦ rfl, rfl⟩
    · next t made hmade =>
      obtain ⟨directory, n, -, rfl, -, hfree, rfl⟩ := createTemporary_eq_ok hmade
      split at h
      · cases h
      · cases h
        exact ⟨alike_dropEntry_addEntry hfs (by simp) hfree _,
          (workingDirectory_dropEntry _ _).trans (workingDirectory_addEntry _ _ _)⟩

end Replace

end FindingStore.FileSystem
