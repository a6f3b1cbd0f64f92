import FindingStore.FileSystem.Companion

namespace FindingStore

namespace Location

variable {l : Location} {c c' : Companion}

theorem companion_ne (l : Location) (c : Companion) : l.companion c ≠ l := by
  intro h
  have hsuffix : c.suffix ≠ [] := by cases c <;> decide
  rcases List.eq_nil_or_concat l with rfl | ⟨before, name, rfl⟩
  · simp [companion] at h
  · simp only [companion, List.concat_eq_append, List.dropLast_concat, List.getLast?_concat,
      Option.getD_some, List.append_cancel_left_eq, List.cons.injEq, and_true] at h
    exact hsuffix (List.append_right_eq_self.1 h)

theorem companion_injective (h : l.companion c = l.companion c') : c = c' := by
  simp only [companion, List.append_cancel_left_eq, List.cons.injEq, and_true] at h
  cases c <;> cases c' <;> first | rfl | exact absurd h (by decide)

theorem companion_ne_nil (l : Location) (c : Companion) : l.companion c ≠ [] := by
  simp [companion]

theorem length_le_companion (l : Location) (c c' : Companion) :
    l.length ≤ (l.companion c).length ∧ (l.companion c').length ≤ (l.companion c).length := by
  simp only [companion, List.length_append, List.length_dropLast, List.length_singleton]
  omega

end Location

namespace FileSystem

variable {fs : FileSystem} {k l : Location} {e : Entry} {f : File}

theorem mem_of_fileAt? (h : fs.fileAt? l = some f) : (l, .file f) ∈ fs.entries := by
  have hlookup := fileAt?_eq_some.1 h
  unfold lookup at hlookup
  split at hlookup
  · cases hlookup
  · obtain ⟨before, after, hentries, -⟩ := List.lookup_eq_some_iff.1 hlookup
    rw [hentries]
    exact List.mem_append_right _ List.mem_cons_self

theorem fileAt?_congr {fs' : FileSystem} (h : fs'.lookup l = fs.lookup l) :
    fs'.fileAt? l = fs.fileAt? l ∧ fs'.isDirectory l = fs.isDirectory l := by
  simp only [fileAt?, isDirectory, h, and_self]

theorem fileAt?_touchDirectory (fs : FileSystem) (k l : Location) :
    (fs.touchDirectory k).fileAt? l = fs.fileAt? l ∧
      (fs.touchDirectory k).isDirectory l = fs.isDirectory l := by
  by_cases h : l = k
  · subst h
    unfold touchDirectory
    split
    · next t ht =>
      split
      · exact ⟨rfl, rfl⟩
      · next hl =>
        have hl : l ≠ [] := by simpa using hl
        simp [fileAt?, isDirectory, fs.lookup_insert_self hl, ht]
    · exact ⟨rfl, rfl⟩
  · exact fileAt?_congr (fs.lookup_touchDirectory_of_ne h)

theorem mem_insert_file (h : (l, .file f) ∈ (fs.insert k e).entries) :
    l = k ∧ e = .file f ∨ (l, .file f) ∈ fs.entries := by
  rcases List.mem_cons.1 h with he | h
  · cases he
    exact .inl ⟨rfl, rfl⟩
  · exact .inr (List.mem_filter.1 h).1

theorem mem_touchDirectory_file (h : (l, .file f) ∈ (fs.touchDirectory k).entries) :
    (l, .file f) ∈ fs.entries := by
  unfold touchDirectory at h
  split at h
  · split at h
    · exact h
    · rcases mem_insert_file h with ⟨-, he⟩ | h
      · cases he
      · exact h
  · exact h

theorem lookup_eraseTree (hne : k ≠ l) (hlength : k.length ≤ l.length) :
    (fs.eraseTree l).lookup k = fs.lookup k := by
  have hkeep : (!l.isPrefixOf k) = true := by
    rw [Bool.not_eq_true', Bool.eq_false_iff, Ne, List.isPrefixOf_iff_prefix]
    exact fun hle ↦ hne (hle.eq_of_length_le hlength).symm
  simp only [lookup, eraseTree, lookup_filter_of_kept (fun m ↦ !l.isPrefixOf m) hkeep]

theorem fileAt?_dropEntry (hne : k ≠ l) (hlength : k.length ≤ l.length) :
    (fs.dropEntry l).fileAt? k = fs.fileAt? k ∧
      (fs.dropEntry l).isDirectory k = fs.isDirectory k := by
  obtain ⟨hfile, hdirectory⟩ := (fs.eraseTree l).fileAt?_touchDirectory l.dropLast k
  obtain ⟨hfile', hdirectory'⟩ := fileAt?_congr (fs.lookup_eraseTree hne hlength)
  exact ⟨hfile.trans hfile', hdirectory.trans hdirectory'⟩

theorem lookup_eraseTree_self (hl : l ≠ []) : (fs.eraseTree l).lookup l = none := by
  have hdrop : (!l.isPrefixOf l) = false := by simp
  simp only [lookup, eraseTree, if_neg hl,
    lookup_filter_of_dropped (fun m ↦ !l.isPrefixOf m) hdrop]

theorem fileAt?_dropEntry_self (hl : l ≠ []) :
    (fs.dropEntry l).fileAt? l = none ∧ (fs.dropEntry l).isDirectory l = false := by
  obtain ⟨hfile, hdirectory⟩ := (fs.eraseTree l).fileAt?_touchDirectory l.dropLast l
  rw [dropEntry, hfile, hdirectory, fileAt?, isDirectory, fs.lookup_eraseTree_self hl]
  exact ⟨rfl, rfl⟩

theorem mem_of_findFile? {p : File → Bool} (h : fs.findFile? p = some (l, f)) :
    (l, .file f) ∈ fs.entries ∧ p f = true := by
  obtain ⟨⟨k, e⟩, hmem, he⟩ := List.exists_of_findSome?_eq_some h
  cases e with
  | directory t => cases he
  | link target => cases he
  | file g =>
    obtain ⟨hp, hg⟩ := Option.ite_none_right_eq_some.1 he
    cases hg
    exact ⟨hmem, hp⟩

/-- The file of a database is in its place, nobody else has written it, and its log and the index
of the log can be kept beside it. Logs are kept nowhere else. -/
structure Houses (fs : FileSystem) (n : Nat) (home : Location) : Prop where
  file : ∃ f, fs.fileAt? home = some f ∧ f.database = some n
  database {l : Location} {f : File} : (l, .file f) ∈ fs.entries → f.database = some n →
    l = home ∧ f.isRewritten = false ∧ f.isReadable = true ∧ f.isWritable = true
  log {l : Location} {f : File} : (l, .file f) ∈ fs.entries → f.log.isSome →
    l = home.companion .log
  index : fs.isDirectory (home.companion .index) = false

variable {n number : Nat} {home : Location} {c : Companion}

theorem houses_of_all (hfile : (fs.fileAt? home).any (·.database == some n) = true)
    (hall : fs.entries.all (fun (l, e) ↦ match e with
      | .file f => decide ((f.database = some n →
          l = home ∧ f.isRewritten = false ∧ f.isReadable = true ∧ f.isWritable = true) ∧
        (f.log.isSome = true → l = home.companion .log))
      | _ => true) = true)
    (hindex : fs.isDirectory (home.companion .index) = false) : fs.Houses n home := by
  have hentry {l : Location} {f : File} (hmem : (l, Entry.file f) ∈ fs.entries) :
      (f.database = some n →
          l = home ∧ f.isRewritten = false ∧ f.isReadable = true ∧ f.isWritable = true) ∧
        (f.log.isSome = true → l = home.companion .log) :=
    of_decide_eq_true (List.all_eq_true.1 hall _ hmem)
  obtain ⟨f, hf, hn⟩ := (Option.any_eq_true _ _).1 hfile
  exact ⟨⟨f, hf, beq_iff_eq.1 hn⟩, fun hmem ↦ (hentry hmem).1, fun hmem ↦ (hentry hmem).2, hindex⟩

namespace Houses

theorem touchDirectory (h : fs.Houses n home) (l : Location) :
    (fs.touchDirectory l).Houses n home where
  file := by
    obtain ⟨f, hf, hn⟩ := h.file
    exact ⟨f, (fs.fileAt?_touchDirectory l home).1.trans hf, hn⟩
  database hmem := h.database (mem_touchDirectory_file hmem)
  log hmem := h.log (mem_touchDirectory_file hmem)
  index := (fs.fileAt?_touchDirectory l _).2.trans h.index

theorem insert (h : fs.Houses n home) (hl : l ≠ home) (hl' : l ≠ []) (hn : f.database ≠ some n)
    (hlog : f.log.isSome → l = home.companion .log) :
    (fs.insert l (.file f)).Houses n home where
  file := by
    obtain ⟨g, hg, hn⟩ := h.file
    exact ⟨g, (fileAt?_congr (fs.lookup_insert_of_ne hl.symm _)).1.trans hg, hn⟩
  database hmem hd := by
    rcases mem_insert_file hmem with ⟨-, he⟩ | hmem
    · cases he
      exact absurd hd hn
    · exact h.database hmem hd
  log hmem hg := by
    rcases mem_insert_file hmem with ⟨rfl, he⟩ | hmem
    · cases he
      exact hlog hg
    · exact h.log hmem hg
  index := by
    by_cases hindex : home.companion .index = l
    · rw [hindex, isDirectory, fs.lookup_insert_self hl']
    · exact (fileAt?_congr (fs.lookup_insert_of_ne hindex _)).2.trans h.index

theorem replace (h : fs.Houses n home) (hhome : home ≠ []) (hn : f.database = some n)
    (hclean : f.isRewritten = false ∧ f.isReadable = true ∧ f.isWritable = true)
    (hlog : f.log = none) : (fs.insert home (.file f)).Houses n home where
  file := ⟨f, fileAt?_eq_some.2 (fs.lookup_insert_self hhome _), hn⟩
  database hmem hd := by
    rcases mem_insert_file hmem with ⟨rfl, he⟩ | hmem
    · cases he
      exact ⟨rfl, hclean⟩
    · exact h.database hmem hd
  log hmem hg := by
    rcases mem_insert_file hmem with ⟨rfl, he⟩ | hmem
    · cases he
      rw [hlog] at hg
      cases hg
    · exact h.log hmem hg
  index := (fileAt?_congr (fs.lookup_insert_of_ne (home.companion_ne .index) _)).2.trans h.index

theorem home_ne_nil (h : fs.Houses n home) : home ≠ [] := by
  rintro rfl
  obtain ⟨f, hf, -⟩ := h.file
  cases fileAt?_eq_some.1 hf

theorem provide (h : fs.Houses n home) (c : Companion) (content : Bytes) (mode : Nat) :
    (fs.provide (home.companion c) content mode).Houses n home := by
  unfold FileSystem.provide
  split
  · exact h
  · have hinsert := h.insert (f := { modified := fs.now, mode, content })
      (home.companion_ne c) (home.companion_ne_nil c) (by simp) (by simp)
    exact hinsert.touchDirectory _

theorem discard (h : fs.Houses n home) (c : Companion) :
    (fs.discard (home.companion c)).Houses n home := by
  unfold FileSystem.discard
  split
  · exact h
  · have hmem {l : Location} {f : File}
        (hf : (l, .file f) ∈ (fs.dropEntry (home.companion c)).entries) :
        (l, .file f) ∈ fs.entries := (List.mem_filter.1 (mem_touchDirectory_file hf)).1
    obtain ⟨f, hf, hn⟩ := h.file
    refine ⟨⟨f, ?_, hn⟩, fun hf ↦ h.database (hmem hf), fun hf ↦ h.log (hmem hf), ?_⟩
    · have hlength := (home.length_le_companion c c).1
      exact (fileAt?_dropEntry (home.companion_ne c).symm hlength).1.trans hf
    · by_cases hc : Companion.index = c
      · subst hc
        exact (fs.fileAt?_dropEntry_self (home.companion_ne_nil .index)).2
      · refine (fileAt?_dropEntry ?_ (home.length_le_companion c _).2).2.trans h.index
        exact fun he ↦ hc (Location.companion_injective he)

theorem keepLog (h : fs.Houses n home) (number : Nat) :
    (fs.keepLog (home.companion .log) number).Houses n home := by
  unfold FileSystem.keepLog
  split
  · next f hf =>
    refine h.insert (home.companion_ne .log) (home.companion_ne_nil .log) ?_ fun _ ↦ rfl
    exact fun hn ↦ home.companion_ne .log (h.database (mem_of_fileAt? hf) hn).1
  · exact h

end Houses

theorem Houses.fillLog (h : fs.Houses n home) (number : Nat) :
    (fs.fillLog number).Houses n home := by
  unfold FileSystem.fillLog
  split
  · next l f hf =>
    obtain ⟨hmem, hp⟩ := mem_of_findFile? hf
    have hlog : f.log = some number := by simpa using hp
    obtain rfl : l = home.companion .log := h.log hmem (by rw [hlog]; rfl)
    refine h.insert (home.companion_ne .log) (home.companion_ne_nil .log) ?_ fun _ ↦ rfl
    exact fun hn ↦ home.companion_ne .log (h.database hmem hn).1
  · exact h

section LogAt

theorem logAt?_congr {fs' : FileSystem} (h : fs'.fileAt? l = fs.fileAt? l) :
    fs'.logAt? l = fs.logAt? l := by
  rw [logAt?, logAt?, h]

theorem fileAt?_provide_of_ne (fs : FileSystem) (hne : k ≠ l) (content : Bytes) (mode : Nat) :
    (fs.provide l content mode).fileAt? k = fs.fileAt? k := by
  unfold provide
  split
  · rfl
  · rw [addEntry, (fileAt?_touchDirectory _ _ _).1]
    exact (fileAt?_congr (fs.lookup_insert_of_ne hne _)).1

theorem logAt?_provide (fs : FileSystem) (home : Location) (c : Companion) (content : Bytes)
    (mode : Nat) : (fs.provide (home.companion c) content mode).logAt? (home.companion .log) =
      fs.logAt? (home.companion .log) := by
  by_cases hc : Companion.log = c
  · subst hc
    unfold provide
    split
    · rfl
    · next hnone =>
      have hnone : fs.lookup (home.companion .log) = none := by simpa using hnone
      have hnew := fs.lookup_insert_self (home.companion_ne_nil .log)
        (.file { content, modified := fs.now, mode })
      rw [addEntry, logAt?_congr (fileAt?_touchDirectory _ _ _).1]
      simp [logAt?, fileAt?, hnew, hnone]
  · refine logAt?_congr (fs.fileAt?_provide_of_ne ?_ content mode)
    exact fun he ↦ hc (Location.companion_injective he)

theorem logAt?_discard (fs : FileSystem) (home : Location) (hc : c ≠ .log) :
    (fs.discard (home.companion c)).logAt? (home.companion .log) =
      fs.logAt? (home.companion .log) := by
  unfold discard
  split
  · rfl
  · refine logAt?_congr (fileAt?_dropEntry ?_ (home.length_le_companion c _).2).1
    exact fun he ↦ hc (Location.companion_injective he).symm

theorem logAt?_discard_self (hl : l ≠ []) : (fs.discard l).logAt? l = none := by
  unfold discard logAt?
  split
  · next h =>
    have hnone : fs.fileAt? l = none := by
      unfold fileAt?
      split
      · next f hf => simp [hf, isDirectory] at h
      · rfl
    rw [hnone]
    rfl
  · rw [(fileAt?_dropEntry_self hl).1]
    rfl

theorem logAt?_keepLog (hl : l ≠ []) (h : (fs.fileAt? l).isSome) (number : Nat) :
    (fs.keepLog l number).logAt? l = some number := by
  obtain ⟨f, hf⟩ := Option.isSome_iff_exists.1 h
  unfold keepLog
  rw [hf]
  simp [logAt?, fileAt?, fs.lookup_insert_self hl]

theorem Houses.logAt?_fillLog (h : fs.Houses n home)
    (hlog : fs.logAt? (home.companion .log) = some number) :
    (fs.fillLog number).logAt? (home.companion .log) = some number := by
  unfold FileSystem.fillLog
  split
  · next l f hf =>
    obtain ⟨hmem, hp⟩ := mem_of_findFile? hf
    have hnumber : f.log = some number := by simpa using hp
    obtain rfl : l = home.companion .log := h.log hmem (by rw [hnumber]; rfl)
    simp [logAt?, fileAt?, fs.lookup_insert_self (home.companion_ne_nil .log), hnumber]
  · exact hlog

theorem isSome_fileAt?_provide {home : Location} (h : fs.admitsFile (home.companion c) = true)
    (content : Bytes) (mode : Nat) :
    ((fs.provide (home.companion c) content mode).fileAt? (home.companion c)).isSome := by
  unfold provide
  split
  · next hsome =>
    unfold admitsFile at h
    unfold fileAt?
    cases hl : fs.lookup (home.companion c) with
    | none => simp [hl] at hsome
    | some e =>
      rw [hl] at h
      cases e with
      | file f => rfl
      | directory t => simp at h
      | link target => simp at h
  · rw [addEntry, (fileAt?_touchDirectory _ _ _).1, fileAt?,
      fs.lookup_insert_self (home.companion_ne_nil c)]
    rfl

end LogAt

end FileSystem

end FindingStore
