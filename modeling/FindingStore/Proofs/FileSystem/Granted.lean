import Mathlib.Data.List.Nodup
import Mathlib.Data.List.Perm.Subperm
import FindingStore.Proofs.FileSystem.Replacement

namespace FindingStore.FileSystem

variable {fs : FileSystem} {parent : Location} {name : Bytes}

section TemporaryName

theorem sixDigits_injective : Function.Injective sixDigits := by
  have hvalue (n : Nat) : Nat.ofDigitChars 10 (sixDigits n) 0 = n := by
    rw [sixDigits, List.leftpad, Nat.ofDigitChars_append, Nat.ofDigitChars_replicate_zero,
      Nat.mul_zero, Nat.ofDigitChars_ten_toDigits]
  intro m n h
  rw [← hvalue m, h, hvalue]

theorem temporaryName_injective (name : Bytes) : Function.Injective (temporaryName name) := by
  intro m n h
  have hchars := Utf8.ofChars_injective h
  rw [List.append_cancel_right_eq] at hchars
  exact sixDigits_injective (List.append_cancel_left hchars)

/-- There are more temporary names than entries, so that one of them is free. -/
theorem exists_freeName? (fs : FileSystem) (directory : Location) (name : Bytes) :
    ∃ n ≤ fs.entries.length, fs.freeName? directory name = some (temporaryName name n) := by
  cases hfree : fs.freeName? directory name with
  | some found =>
    obtain ⟨n, hn, rfl⟩ := List.mem_map.1 (List.mem_of_find?_eq_some hfree)
    exact ⟨n, Nat.le_of_lt_succ (List.mem_range.1 hn), rfl⟩
  | none =>
    let places := (List.range (fs.entries.length + 1)).map fun n ↦
      directory ++ [temporaryName name n]
    have hdistinct : places.Nodup := by
      refine List.Nodup.map (fun m n h ↦ temporaryName_injective name ?_) List.nodup_range
      exact List.singleton_injective (List.append_cancel_left h)
    have htaken : places ⊆ fs.entries.map Prod.fst := by
      intro l hl
      obtain ⟨n, hn, rfl⟩ := List.mem_map.1 hl
      have hsome := List.find?_eq_none.1 hfree (temporaryName name n) (List.mem_map_of_mem hn)
      rw [lookup_eq _ (by simp), Option.isNone_iff_eq_none] at hsome
      by_contra hnone
      refine hsome (lookup_eq_none_of_forall fun e he heq ↦ ?_)
      exact hnone (heq ▸ List.mem_map_of_mem he)
    have hlength := (List.subperm_of_subset hdistinct htaken).length_le
    simp only [places, List.length_map, List.length_range] at hlength
    omega

end TemporaryName

/-- A file may stand at a place, and a temporary one beside it. -/
structure HasRoom (fs : FileSystem) (parent : Location) (name : Bytes) : Prop where
  directory : fs.isDirectory parent = true
  replaceable : fs.isDirectory (parent ++ [name]) = false
  isName : IsName name
  path : (Location.toPath (parent ++ [name])).length < maxPath
  temporary {n : Nat} : n ≤ fs.entries.length → (temporaryName name n).length ≤ maxName ∧
    (Location.toPath (parent ++ [temporaryName name n])).length < maxPath

section Paths

theorem toPath_concat (l : Location) (n : Bytes) :
    Location.toPath (l ++ [n]) = l.flatMap (Path.slash :: ·) ++ Path.slash :: n := by
  simp [Location.toPath]

theorem length_toPath_lt (l : Location) (hn : name ≠ []) :
    l.toPath.length < (Location.toPath (l ++ [name])).length := by
  have hpos := List.length_pos_iff.2 hn
  rw [toPath_concat]
  cases l with
  | nil =>
    simp [Location.toPath]
    omega
  | cons n l => simp [Location.toPath]

theorem length_join_toPath_le (l : Location) (n : Bytes) :
    (Path.join l.toPath n).length ≤ (Location.toPath (l ++ [n])).length := by
  rw [toPath_concat]
  cases l with
  | nil =>
    unfold Path.join
    split <;> simp [Location.toPath]
  | cons m l =>
    unfold Path.join
    split
    · simp only [List.length_append, List.length_cons]
      omega
    · split <;> simp [Location.toPath]

variable (hparent : ∀ n ∈ parent, IsName n) (hname : IsName name)

include hparent hname

theorem isName_of_mem_concat : ∀ n ∈ parent ++ [name], IsName n := by
  intro n hn
  rcases List.mem_append.1 hn with hn | hn
  · exact hparent n hn
  · exact List.mem_singleton.1 hn ▸ hname

theorem parts_toPath :
    Path.parts (Location.toPath (parent ++ [name])) = ⟨true, parent ++ [name]⟩ := by
  have hall := isName_of_mem_concat hparent hname
  have hkept : (parent ++ [name]).filter (fun n ↦ !n.isEmpty && n != [Path.dot]) =
      parent ++ [name] :=
    List.filter_eq_self.2 fun n hn ↦ by simp [(hall n hn).nonempty, (hall n hn).dot]
  rw [Path.parts, if_pos (isAbsolute_toPath _),
    Location.names_toPath (by simp) fun n hn ↦ (hall n hn).slash, List.filter_cons]
  simp only [List.isEmpty_nil, Bool.not_true, Bool.false_and, Bool.false_eq_true, if_false, hkept]

theorem directory_toPath : Path.directory (Location.toPath (parent ++ [name])) = parent.toPath := by
  unfold Path.directory
  rw [parts_toPath hparent hname]
  cases parent with
  | nil => rfl
  | cons n rest =>
    have hpath : Location.toPath (n :: rest) = [Path.slash].intercalate ([] :: n :: rest) :=
      flatMap_cons_eq_intercalate Path.slash (n :: rest)
    have hlast : (n :: rest ++ [name]).dropLast = n :: rest := List.dropLast_concat
    rw [hpath, List.intercalate_cons_cons]
    simp only [List.cons_append] at hlast ⊢
    rw [hlast]
    rfl

theorem fileName?_toPath : Path.fileName? (Location.toPath (parent ++ [name])) = some name := by
  rw [Path.fileName?, parts_toPath hparent hname]
  simp [hname.dot, hname.dotdot]

end Paths

theorem slot_toPath (hfs : fs.IsTree) (hdirectory : fs.isDirectory parent = true)
    (hname : IsName name) (hlength : (Location.toPath (parent ++ [name])).length < maxPath) :
    fs.slot (Location.toPath (parent ++ [name])) = .ok ⟨parent, some name, false⟩ := by
  have hleads : fs.Leads parent := hfs.leads (isSome_of_isDirectory hdirectory)
  have hall := isName_of_mem_concat hleads.names hname
  have hnames : Path.names (Location.toPath (parent ++ [name])) = [] :: (parent ++ [name]) :=
    Location.names_toPath (by simp) fun n hn ↦ (hall n hn).slash
  have hzero := zero_not_mem_toPath fun n hn ↦ (hall n hn).nul
  refine slot_eq_ok_iff.2 ⟨hzero, toPath_ne_nil _, hlength, ([] :: parent).reverse, ?_, ?_,
    hdirectory, hname.dot, hname.dotdot, hname.length, ?_⟩
  · have hsome : name.isEmpty = false := List.isEmpty_eq_false_iff.2 hname.nonempty
    rw [hnames, ← List.cons_append, List.reverse_append, List.reverse_singleton,
      List.singleton_append, List.dropWhile_cons_of_neg (by simp [hsome])]
  · obtain ⟨date, hdate⟩ := isDirectory_iff.1 hdirectory
    rw [List.reverse_reverse, origin_toPath]
    refine walk_eq_ok_iff.1 ?_
    unfold walk
    rw [hleads.advance_root hdate fun _ h ↦ by cases h]
  · rw [beq_eq_false_iff_ne, toPath_concat, List.getLast?_append_of_ne_nil _ (by simp),
      List.getLast?_cons_of_ne_nil hname.nonempty]
    exact fun hlast ↦ hname.slash (List.mem_of_getLast? hlast)

theorem isName_temporaryName (h : IsName name) {n : Nat}
    (hlength : (temporaryName name n).length ≤ maxName) : IsName (temporaryName name n) := by
  obtain ⟨hnonempty, hdot, hdotdot⟩ := not_dots_temporaryName name n
  exact ⟨hnonempty, slash_not_mem_temporaryName h.slash n,
    not_mem_temporaryName (by decide) (by decide) h.nul n, hdot, hdotdot, hlength⟩

theorem HasRoom.createTemporary (hfs : fs.IsTree) (h : fs.HasRoom parent name) :
    ∃ n ≤ fs.entries.length, fs.lookup (parent ++ [temporaryName name n]) = none ∧
      fs.createTemporary (Location.toPath (parent ++ [name])) =
        .ok (parent ++ [temporaryName name n], fs.addEntry (parent ++ [temporaryName name n])
          (.file { modified := fs.now, mode := privateMode })) := by
  have hleads : fs.Leads parent := hfs.leads (isSome_of_isDirectory h.directory)
  obtain ⟨n, hn, hfree⟩ := exists_freeName? fs parent name
  refine ⟨n, hn, by simpa using List.find?_some hfree, ?_⟩
  have hzero : (Location.toPath (parent ++ [name])).contains 0 = false := by
    simpa using zero_not_mem_toPath fun n hn ↦ (isName_of_mem_concat hleads.names h.isName n hn).nul
  obtain ⟨hname, hpath⟩ := h.temporary (Nat.zero_le _)
  have hfull : (Path.join (Path.join fs.workingDirectory.toPath parent.toPath)
      (temporaryName name 0)).length < maxPath := by
    have hjoin : Path.join fs.workingDirectory.toPath parent.toPath = parent.toPath :=
      if_pos (isAbsolute_toPath parent)
    rw [hjoin]
    exact Nat.lt_of_le_of_lt (length_join_toPath_le _ _) hpath
  obtain ⟨date, hdate⟩ := isDirectory_iff.1 h.directory
  have hfollow : fs.follow parent.toPath = .ok parent := by
    refine hleads.follow_toPath hdate (fun _ h ↦ by cases h) ?_
    exact Nat.lt_trans (length_toPath_lt parent h.isName.nonempty) h.path
  unfold FileSystem.createTemporary
  simp only [fileName?_toPath hleads.names h.isName, directory_toPath hleads.names h.isName, hzero,
    Nat.not_le.2 hfull, hfollow, h.directory, Nat.not_lt.2 hname, hfree, Option.getD_some,
    Bool.false_eq_true, if_false, Bool.not_true, bind, Except.bind]

theorem exists_appendAll (fs : FileSystem) (l : Location) (index : Nat) (chunks : List Bytes) :
    ∃ fs', appendAll .sound l index fs chunks = .ok fs' := by
  induction chunks generalizing fs index with
  | nil => exact ⟨fs, rfl⟩
  | cons chunk rest ih => exact ih (fs.appendTo l chunk) (index + 1)

theorem exists_copyMode (fs : FileSystem) (p : Path) (l : Location) :
    ∃ fs', copyMode .sound fs p l = .ok fs' := by
  unfold copyMode
  split
  · exact ⟨_, rfl⟩
  · exact ⟨_, rfl⟩

/-- A file can be given another name in its directory, unless a directory has that name. -/
theorem exists_rename {p q : Path} {f : File} {other : Bytes}
    (hp : fs.slot p = .ok ⟨parent, some other, false⟩)
    (hq : fs.slot q = .ok ⟨parent, some name, false⟩)
    (hfile : fs.lookup (parent ++ [other]) = some (.file f))
    (hvacant : fs.isDirectory (parent ++ [name]) = false) : ∃ fs', fs.rename p q = .ok fs' := by
  have hsource : fs.isDirectory (parent ++ [other]) = false := by rw [isDirectory, hfile]
  have habove (n : Bytes) : (parent ++ [n]).isPrefixOf parent = false := by
    refine isPrefixOf_eq_false.2 fun h ↦ ?_
    have hlength := h.length_le
    simp only [List.length_append, List.length_singleton] at hlength
    omega
  have hreplace : fs.replaceError? (parent ++ [other]) (parent ++ [name]) = none := by
    unfold replaceError?
    rw [hsource]
    cases htarget : fs.lookup (parent ++ [name]) with
    | none => rfl
    | some e =>
      cases e with
      | directory d => rw [isDirectory, htarget] at hvacant; cases hvacant
      | file g => rfl
      | link target => rfl
  simp only [rename, hp, hq, hfile, hsource, habove, hreplace, bind, Except.bind,
    Option.isNone_some, Bool.or_self, Bool.and_false, Bool.false_eq_true, if_false]
  split
  · exact ⟨fs, rfl⟩
  · exact ⟨_, rfl⟩

/-- If the device refuses nothing, a file is replaced where there is room. -/
theorem HasRoom.replaceFile (hfs : fs.IsTree) (h : fs.HasRoom parent name) (chunks : List Bytes) :
    ∃ fs', fs.replaceFile .sound (Location.toPath (parent ++ [name])) chunks = (.ok (), fs') := by
  obtain ⟨n, hn, hfree, hcreate⟩ := h.createTemporary hfs
  obtain ⟨hlength, hpath⟩ := h.temporary hn
  have htemporary := isName_temporaryName h.isName hlength
  generalize hl : parent ++ [temporaryName name n] = l at hfree hcreate
  have hnil : l ≠ [] := by
    rw [← hl]
    exact List.append_ne_nil_of_right_ne_nil _ (List.cons_ne_nil _ _)
  have hmade := fs.lookup_addEntry_self hnil (.file { modified := fs.now, mode := privateMode })
  obtain ⟨filled, hfilled⟩ := exists_appendAll (fs.addEntry l _) l 0 chunks
  obtain ⟨permitted, hpermitted⟩ :=
    exists_copyMode filled (Location.toPath (parent ++ [name])) l
  obtain ⟨⟨f, hf, -, -⟩, hfillOthers, hfillWorking⟩ := appendAll_eq_ok hfilled hmade hnil
  obtain ⟨hf, hothers, hworking⟩ := copyMode_eq_ok hpermitted hf hnil
  have halike (k : Location) (hk : k ≠ l) : fs.Alike permitted k :=
    (alike_addEntry hk _).trans (.of_eq ((hothers k hk).trans (hfillOthers k hk)))
  have hworking := (hworking.trans hfillWorking).trans (workingDirectory_addEntry fs l _)
  -- the temporary file has come to its place, and nothing else has changed
  subst hl
  have hsame : fs.SameWays permitted := sameWays_of_free hfree hworking halike hf
  have hold := hsame.slot_iff.2 (slot_toPath hfs h.directory htemporary hpath)
  have hnew := hsame.slot_iff.2 (slot_toPath hfs h.directory h.isName h.path)
  have hvacant := (hsame.isDirectory _).trans h.replaceable
  obtain ⟨done, hdone⟩ := exists_rename hold hnew hf hvacant
  refine ⟨done, ?_⟩
  have hgrant (step : ReplaceStep) : Device.sound step = none := rfl
  simp only [FileSystem.replaceFile, hgrant, hcreate, fillAndRename, hfilled, sync, hpermitted,
    persist, bind, Except.bind, hdone]

end FindingStore.FileSystem
