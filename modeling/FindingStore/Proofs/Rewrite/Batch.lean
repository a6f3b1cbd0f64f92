import FindingStore.Proofs.FileSystem.Replacement
import FindingStore.Proofs.Rewrite.Planning
import FindingStore.Proofs.World.Hosting

namespace FindingStore.Rewrite

variable {device : String → FileSystem.Device} {fs fs' : FileSystem}
  {buffers : List (String × LineBuffer)}

structure IsFileAt (fs : FileSystem) (path : String) (l : Location) (f : File) : Prop where
  toPath : l.toPath = Path.ofText path
  length : l.toPath.length < FileSystem.maxPath
  file : fs.lookup l = some (.file f)

theorem write_eq_ok {b : LineBuffer} {path : String} {l : Location} {f : File} (hfs : fs.IsTree)
    (hplace : IsFileAt fs path l f)
    (h : b.write (device path) fs (Path.ofText path) = (.ok (), fs')) :
    fs'.IsTree ∧
      (∃ g, fs'.lookup l = some (.file g) ∧ g.content = b.toBytes ∧ g.mode = f.mode) ∧
      ∀ k ≠ l, fs.Alike fs' k := by
  obtain ⟨hpath, hlength, hf⟩ := hplace
  rcases List.eq_nil_or_concat' l with rfl | ⟨directory, name, rfl⟩
  · rw [fs.lookup_root] at hf
    cases hf
  · rw [← hpath] at h
    have hsome : (fs.lookup (directory ++ [name])).isSome := by rw [hf]; rfl
    have hleads := hfs.leads hsome
    obtain ⟨l, g, hl, hempty, hg, hcontent, hmode, halike, -⟩ := FileSystem.replaceFile_eq_ok hfs h
    obtain rfl := (hleads.of_prefix (List.prefix_append _ _)).eq_of_denotes (hfs.parents hsome)
      (FileSystem.isPlain_of_isName (hleads.names name (by simp))) hl
    have hstat : fs.stat (Location.toPath (directory ++ [name])) = .ok (.file f) :=
      FileSystem.stat_eq_ok_iff.2 ⟨_, hleads.follow_toPath hf nofun hlength, hf⟩
    rw [FileSystem.modeOr_of_ok hstat] at hmode
    exact ⟨hfs.of_replaced hl hempty hg halike, ⟨g, hg, hcontent, hmode⟩, halike⟩

/-- Files that have all been written have the contents of their buffers, and everything else is as
it was. -/
theorem writeAll_eq_ok (hfs : fs.IsTree) (hnodup : (buffers.map Prod.fst).Nodup)
    (hplaces : ∀ e ∈ buffers, ∃ l f, IsFileAt fs e.1 l f)
    (h : writeAll device fs buffers = (.ok (), fs')) :
    (∀ e ∈ buffers, ∀ l f, IsFileAt fs e.1 l f →
      ∃ g, fs'.lookup l = some (.file g) ∧ g.content = e.2.toBytes ∧ g.mode = f.mode) ∧
      ∀ k : Location, (∀ e ∈ buffers, k.toPath ≠ Path.ofText e.1) → fs.Alike fs' k := by
  induction buffers generalizing fs with
  | nil =>
    cases h
    exact ⟨nofun, fun k _ ↦ rfl⟩
  | cons e rest ih =>
    obtain ⟨path, b⟩ := e
    obtain ⟨hfirst, hrest⟩ := List.forall_mem_cons.1 hplaces
    obtain ⟨hnew, hnodup⟩ := List.nodup_cons.1 hnodup
    obtain ⟨l, f, hplace⟩ := hfirst
    unfold writeAll at h
    split at h
    · cases h
    · next next hwrite =>
      obtain ⟨htree, ⟨g, hg, hcontent, hmode⟩, halike⟩ := write_eq_ok hfs hplace hwrite
      have hother {e : String × LineBuffer} (he : e ∈ rest) : Path.ofText path ≠ Path.ofText e.1 :=
        fun hp ↦ hnew (List.mem_map.2 ⟨e, he, (Utf8.encode_injective hp).symm⟩)
      have hstays {e : String × LineBuffer} (he : e ∈ rest) {k : Location} {f : File}
          (hk : IsFileAt fs e.1 k f) : IsFileAt next e.1 k f := by
        have hkl : k ≠ l := fun hkl ↦ hother he (hplace.toPath.symm.trans (hkl ▸ hk.toPath))
        exact ⟨hk.toPath, hk.length, (halike k hkl).lookup_file hk.file⟩
      have hplaces : ∀ e ∈ rest, ∃ k f, IsFileAt next e.1 k f := by
        intro e he
        obtain ⟨k, f, hk⟩ := hrest e he
        exact ⟨k, f, hstays he hk⟩
      obtain ⟨hwritten, hkept⟩ := ih htree hnodup hplaces h
      refine ⟨List.forall_mem_cons.2 ⟨fun k f' hk ↦ ?_, fun e he k f' hk ↦ ?_⟩, fun k hk ↦ ?_⟩
      · have hkl : k = l := Location.toPath_injective (hfs.names (by rw [hk.file]; rfl))
          (hfs.names (by rw [hplace.file]; rfl)) (hk.toPath.trans hplace.toPath.symm)
        subst hkl
        cases hplace.file.symm.trans hk.file
        have hsame := hkept k fun e he ↦ hk.toPath ▸ hother he
        exact ⟨g, hsame.lookup_file hg, hcontent, hmode⟩
      · exact hwritten e he k f' (hstays he hk)
      · obtain ⟨hkpath, hkrest⟩ := List.forall_mem_cons.1 hk
        have hkl : k ≠ l := fun hkl ↦ hkpath (hkl ▸ hplace.toPath)
        exact (halike k hkl).trans (hkept k hkrest)

theorem writeAll_error {e : RewriteError} (h : writeAll device fs buffers = (.error e, fs')) :
    ∃ path e', e = .write path e' := by
  induction buffers generalizing fs with
  | nil => cases h
  | cons first rest ih =>
    unfold writeAll at h
    split at h
    · cases h
      exact ⟨_, _, rfl⟩
    · exact ih h

/-- A finding on a file that lies where its path says and that holds the identifier, for which
there is a rule. -/
structure Points (fs : FileSystem) (rules : Rules) (f : Finding) : Prop where
  canonical : ∃ l, fs.canonicalize (Path.ofText f.path) = .ok l ∧ l.toPath = Path.ofText f.path
  rule : (rules.get? (nameOf f)).isSome
  names : ∃ content, fs.read (Path.ofText f.path) = .ok content ∧ Names content f

variable {rules : Rules} {f : Finding} {content : Bytes}

theorem isFileAt_of_read {path : String} {l : Location}
    (hl : fs.canonicalize (Path.ofText path) = .ok l) (hpath : l.toPath = Path.ofText path)
    (hread : fs.read (Path.ofText path) = .ok content) :
    ∃ file, IsFileAt fs path l file ∧ file.content = content := by
  obtain ⟨e, hstat, hread⟩ := bind_eq_ok.1 hread
  obtain ⟨k, hfollow, hentry⟩ := bind_eq_ok.1 hstat
  obtain rfl := FileSystem.follow_of_canonicalize hl hfollow
  unfold FileSystem.entryAt at hentry
  split at hentry
  · next hlookup =>
    cases hentry
    cases e with
    | directory t => cases hread
    | link target => cases hread
    | file f =>
      dsimp only at hread
      split at hread
      · cases hread
        exact ⟨f, ⟨hpath, (FileSystem.search_of_canonicalize hl).2, hlookup⟩, rfl⟩
      · cases hread
  · cases hentry

/-- The findings on a file that point at what they name are patched as if at once. -/
theorem isPatched_of_points {found : List Finding} (hrules : rules.IsProper)
    (hpoints : ∀ f ∈ found, Points fs rules f) (hapart : found.Pairwise Apart)
    {group : String × List Finding} (hgroup : group ∈ byPath found) :
    IsPatched fs rules group ∧ ∃ l file, IsFileAt fs group.1 l file ∧
      (edited fs rules group).toBytes =
        (substitution rules (onPath found group.1)).apply (LineBuffer.closed file.content) := by
  obtain ⟨path, findings⟩ := group
  obtain ⟨⟨f, hf, hfpath⟩, hsorted⟩ := mem_byPath.1 hgroup
  dsimp only at hfpath hsorted
  subst hfpath hsorted
  obtain ⟨⟨l, hl, hpath⟩, -, content, hread, -⟩ := hpoints f hf
  obtain ⟨file, hfile, rfl⟩ := isFileAt_of_read hl hpath hread
  have hnames : ∀ g ∈ onPath found f.path,
      (rules.get? (nameOf g)).isSome ∧ Names file.content g := by
    intro g hg
    obtain ⟨hg, hgpath⟩ := mem_onPath.1 hg
    obtain ⟨-, hrule, content, hgread, hgnames⟩ := hpoints g hg
    rw [hgpath, hread] at hgread
    cases hgread
    exact ⟨hrule, hgnames⟩
  obtain ⟨b, hfold, hbytes⟩ := patches_at_once hrules (fun g hg ↦ (mem_onPath.1 hg).2)
    (hapart.filter _) hnames
  have hedited : edited fs rules (f.path, Order.sortBy laterFirst (onPath found f.path)) = b :=
    edited_eq hread hfold
  exact ⟨⟨_, hread, hedited ▸ hfold⟩, l, file, hfile, hedited ▸ hbytes⟩

variable {s : Store} {w : World} {tool : String}

/-- A rewrite whose files can be written replaces every span at once, and nothing else. -/
theorem applyWith_substitutes {pairs : List String} (hrules : Rules.parse pairs = .ok rules)
    (hclean : s.IsClean w) (hfs : w.files.IsTree)
    (hpoints : ∀ f ∈ findingsOf s w tool, Points w.files rules f)
    (hapart : (findingsOf s w tool).Pairwise Apart)
    (hwrites : ∀ path e, (applyWith device s w tool rules false).1 ≠ .error (.write path e)) :
    ∃ summary files, applyWith device s w tool rules false = (.ok summary, { w with files }) ∧
      summary.succeeded = true ∧ summary.applied = (findingsOf s w tool).length ∧
      summary.failures = [] ∧
      (∀ f ∈ findingsOf s w tool, ∃ l old new, l.toPath = Path.ofText f.path ∧
        w.files.lookup l = some (.file old) ∧ files.lookup l = some (.file new) ∧
        new.content = (substitution rules (onPath (findingsOf s w tool) f.path)).apply
          (LineBuffer.closed old.content) ∧ new.mode = old.mode) ∧
      ∀ l : Location, (∀ f ∈ findingsOf s w tool, l.toPath ≠ Path.ofText f.path) →
        w.files.Alike files l := by
  have hgroups {group : String × List Finding} (hgroup : group ∈ byPath (findingsOf s w tool)) :=
    isPatched_of_points (Rules.isProper_of_parse hrules) hpoints hapart hgroup
  rw [applyWith_eq hclean fun group hgroup ↦ (hgroups hgroup).1] at hwrites ⊢
  cases hwrite : writeAll device w.files ((byPath (findingsOf s w tool)).map
      fun group ↦ (group.1, edited w.files rules group)) with
  | mk result files =>
    rw [hwrite] at hwrites
    cases result with
    | error e =>
      obtain ⟨path, e, rfl⟩ := writeAll_error hwrite
      exact absurd rfl (hwrites path e)
    | ok _ =>
      have hplaces : ∀ e ∈ (byPath (findingsOf s w tool)).map
          fun group ↦ (group.1, edited w.files rules group), ∃ l f, IsFileAt w.files e.1 l f := by
        intro e he
        obtain ⟨group, hgroup, rfl⟩ := List.mem_map.1 he
        obtain ⟨-, l, f, hf, -⟩ := hgroups hgroup
        exact ⟨l, f, hf⟩
      have hnodup : (((byPath (findingsOf s w tool)).map
          fun group ↦ (group.1, edited w.files rules group)).map Prod.fst).Nodup := by
        rw [List.map_map]
        exact nodup_byPath _
      obtain ⟨hwritten, hkept⟩ := writeAll_eq_ok hfs hnodup hplaces hwrite
      refine ⟨_, files, rfl, rfl, rfl, rfl, fun f hf ↦ ?_, fun l hl ↦ hkept l fun e he ↦ ?_⟩
      · have hgroup : (f.path, Order.sortBy laterFirst (onPath (findingsOf s w tool) f.path)) ∈
            byPath (findingsOf s w tool) := mem_byPath.2 ⟨⟨f, hf, rfl⟩, rfl⟩
        obtain ⟨-, l, old, hold, hbytes⟩ := hgroups hgroup
        obtain ⟨new, hnew, hcontent, hmode⟩ :=
          hwritten _ (List.mem_map_of_mem hgroup) l old hold
        exact ⟨l, old, new, hold.toPath, hold.file, hnew, hcontent.trans hbytes, hmode⟩
      · obtain ⟨group, hgroup, rfl⟩ := List.mem_map.1 he
        obtain ⟨⟨f, hf, hpath⟩, -⟩ := mem_byPath.1 hgroup
        exact hpath ▸ hl f hf

def swap : Rules := ⟨[("foo", "bar"), ("bar", "foo")]⟩

def nested : World :=
  .reporting (Utf8.encode "foo(bar)") [⟨1, 1, "t", "foo("⟩, ⟨1, 5, "t", "bar("⟩]

theorem nested_swapped : ∃ summary files,
    applyWith (fun _ ↦ .sound) (.single .keepAll) nested "t" swap false =
        (.ok summary, { nested with files }) ∧ summary.applied = 2 ∧
      ∃ new, files.lookup [Utf8.encode "file"] = some (.file new) ∧
        new.content = Utf8.encode "bar(foo)\n" := by
  have hfindings : findingsOf (.single .keepAll) nested "t" =
      [⟨⟨1, 1, "t", "foo("⟩, "/file"⟩, ⟨⟨1, 5, "t", "bar("⟩, "/file"⟩] := rfl
  have hclean : (Store.single .keepAll).IsClean nested := by
    have hitems : Replay.items ((Store.single .keepAll).reads nested) ⟨["/file"], []⟩ =
      [.ok (.finding ⟨⟨1, 1, "t", "foo("⟩, "/file"⟩),
        .ok (.finding ⟨⟨1, 5, "t", "bar("⟩, "/file"⟩)] := rfl
    exact ⟨⟨["/file"], []⟩, rfl, by simp [hitems, finding?]⟩
  have htree : nested.files.IsTree := FileSystem.single_isTree _
  have hpoints : ∀ f ∈ findingsOf (.single .keepAll) nested "t", Points nested.files swap f := by
    rw [hfindings]
    refine List.forall_mem_cons.2 ⟨?_, List.forall_mem_cons.2 ⟨?_, List.forall_mem_nil _⟩⟩ <;>
      refine ⟨⟨[Utf8.encode "file"], rfl, rfl⟩, rfl, Utf8.encode "foo(bar)", rfl, by decide,
        Utf8.encode "foo(bar)", rfl, ?_⟩ <;>
      rw [spelling] <;> decide
  have hapart : (findingsOf (.single .keepAll) nested "t").Pairwise Apart := by
    rw [hfindings, List.pairwise_pair]
    intro _ _
    rw [spelling]
    exact .inl (by decide)
  have hrules : Rules.parse ["foo=bar", "bar=foo"] = .ok swap := rfl
  have hdone : (applyWith (fun _ ↦ .sound) (.single .keepAll) nested "t" swap false).1 =
      .ok { applied := 2, written := ["/file"] } := rfl
  have hwrites : ∀ path e,
      (applyWith (fun _ ↦ .sound) (.single .keepAll) nested "t" swap false).1 ≠
        .error (.write path e) := by
    intro path e
    rw [hdone]
    simp
  obtain ⟨summary, files, hresult, -, happlied, -, hfiles, -⟩ :=
    applyWith_substitutes hrules hclean htree hpoints hapart hwrites
  obtain ⟨l, old, new, hl, hold, hnew, hcontent, -⟩ := hfiles _ (hfindings ▸ List.mem_cons_self)
  obtain rfl : l = [Utf8.encode "file"] :=
    Location.toPath_injective (htree.names (by rw [hold]; rfl)) (htree.names (by rfl)) hl
  refine ⟨summary, files, hresult, happlied, new, hnew, ?_⟩
  have hold : old.content = Utf8.encode "foo(bar)" := by
    cases hold
    rfl
  rw [hcontent, hold, hfindings]
  unfold substitution
  simp only [edit, spelling]
  decide

end FindingStore.Rewrite
