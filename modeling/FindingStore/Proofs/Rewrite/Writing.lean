import FindingStore.Proofs.Rewrite.Batch

namespace FindingStore.Rewrite

variable {device : String → FileSystem.Device} {fs fs' next : FileSystem}
  {buffers rest : List (String × LineBuffer)} {path : String} {b : LineBuffer}

/-- Files have been written one after the other: each path names a place, which holds what was
written to it last, and everything else is as it was. -/
structure Written (fs fs' : FileSystem) (buffers : List (String × LineBuffer)) : Prop where
  named : ∀ e ∈ buffers, ∃ l, fs.Denotes (Path.ofText e.1) l
  content (before after : List (String × LineBuffer)) {path : String} {b : LineBuffer}
    {l : Location} (h : buffers = before ++ (path, b) :: after)
    (hl : fs.Denotes (Path.ofText path) l)
    (hafter : ∀ e ∈ after, ¬fs.Denotes (Path.ofText e.1) l) :
    ∃ f, fs'.lookup l = some (.file f) ∧ f.content = b.toBytes
  kept {l : Location} (h : ∀ e ∈ buffers, ¬fs.Denotes (Path.ofText e.1) l) : fs.Alike fs' l

theorem Written.nil (h : ∀ l, fs.Alike fs' l) : Written fs fs' [] where
  named := nofun
  content _ _ _ _ _ h := by simp at h
  kept _ := h _

theorem Written.cons {l : Location} {g : File} (hl : fs.Denotes (Path.ofText path) l)
    (hsame : fs.SameWays next) (hg : next.lookup l = some (.file g))
    (hcontent : g.content = b.toBytes) (halike : ∀ k ≠ l, fs.Alike next k)
    (h : Written next fs' rest) : Written fs fs' ((path, b) :: rest) where
  named := by
    refine List.forall_mem_cons.2 ⟨⟨l, hl⟩, fun e he ↦ ?_⟩
    obtain ⟨k, hk⟩ := h.named e he
    exact ⟨k, hsame.denotes_iff.1 hk⟩
  content before after path' b' k hsplit hk hafter := by
    have hafter : ∀ e ∈ after, ¬next.Denotes (Path.ofText e.1) k :=
      fun e he hdenotes ↦ hafter e he (hsame.denotes_iff.1 hdenotes)
    cases before with
    | nil =>
      -- nothing that is written later reaches the place
      cases hsplit
      obtain rfl := hl.unique hk
      exact ⟨g, (h.kept hafter).lookup_file hg, hcontent⟩
    | cons first before =>
      obtain ⟨rfl, rfl⟩ := List.cons.inj hsplit
      exact h.content before after rfl (hsame.denotes_iff.2 hk) hafter
  kept {k} hk := by
    obtain ⟨hfirst, hrest⟩ := List.forall_mem_cons.1 hk
    have hkl : k ≠ l := fun hkl ↦ hfirst (hkl ▸ hl)
    exact (halike k hkl).trans (h.kept fun e he hdenotes ↦
      hrest e he (hsame.denotes_iff.1 hdenotes))

/-- Writing goes on up to the first file that cannot be written, which stays as it is. -/
theorem writeAll_stops {result : Except RewriteError Unit} (hfs : fs.IsTree)
    (hways : ∀ e ∈ buffers, fs.NamesNoWay (Path.ofText e.1))
    (h : writeAll device fs buffers = (result, fs')) :
    match result with
    | .ok () => Written fs fs' buffers
    | .error e => ∃ done path b rest e', buffers = done ++ (path, b) :: rest ∧
        e = .write path e' ∧ Written fs fs' done := by
  -- the paths name the same places after each replacement, as no way to a directory is cut off
  induction buffers generalizing fs with
  | nil =>
    cases h
    exact .nil fun _ ↦ rfl
  | cons first rest ih =>
    obtain ⟨path, b⟩ := first
    obtain ⟨hway, hways⟩ := List.forall_mem_cons.1 hways
    unfold writeAll at h
    split at h
    · next e next hwrite =>
      cases h
      exact ⟨[], path, b, rest, e, rfl, rfl, .nil (FileSystem.replaceFile_error hfs hwrite).1⟩
    · next next hwrite =>
      obtain ⟨l, g, hl, hempty, hg, hcontent, -, halike, hworking⟩ :=
        FileSystem.replaceFile_eq_ok hfs hwrite
      have hsame := hl.sameWays hway hworking hempty hg halike
      have hbytes : g.content = b.toBytes := hcontent
      have hrest := ih (hfs.of_replaced hl hempty hg halike)
        (fun e he ↦ hsame.namesNoWay (hways e he)) h
      cases result with
      | ok _ => exact hrest.cons hl hsame hg hbytes halike
      | error e =>
        obtain ⟨done, path', b', rest', e', rfl, rfl, hdone⟩ := hrest
        exact ⟨(path, b) :: done, path', b', rest', e', rfl, rfl,
          hdone.cons hl hsame hg hbytes halike⟩

variable {rules : Rules} {group : String × List Finding}

theorem IsPatched.namesNoWay (h : IsPatched fs rules group) :
    fs.NamesNoWay (Path.ofText group.1) := by
  obtain ⟨content, hread, -⟩ := h
  obtain ⟨e, hstat, hread⟩ := bind_eq_ok.1 hread
  obtain ⟨l, hfollow, hl⟩ := FileSystem.stat_eq_ok_iff.1 hstat
  refine FileSystem.namesNoWay_of_follow hfollow ?_
  cases e with
  | directory t => cases hread
  | link target => rw [FileSystem.isDirectory, hl]
  | file f => rw [FileSystem.isDirectory, hl]

def precedes (path : String) (group : String × List Finding) : Bool :=
  textLe group.1 path && group.1 != path

theorem filter_precedes {found : List Finding} {done rest : List (String × List Finding)}
    (h : byPath found = done ++ group :: rest) :
    (byPath found).filter (precedes group.1) = done := by
  have hsorted : ((byPath found).map Prod.fst).Pairwise (textLe · · = true) := by
    rw [fst_byPath]
    exact Order.pairwise_sortBy isLinear_textLe.toIsTotal _
  have hnodup := nodup_byPath found
  rw [h, List.map_append, List.map_cons] at hsorted hnodup
  obtain ⟨-, hbehind, hbefore⟩ := List.pairwise_append.1 hsorted
  obtain ⟨-, -, hdisjoint⟩ := List.nodup_append.1 hnodup
  have hdone : ∀ g ∈ done, precedes group.1 g = true := by
    intro g hg
    have hg := List.mem_map_of_mem (f := Prod.fst) hg
    rw [precedes, hbefore _ hg _ List.mem_cons_self, Bool.true_and, bne_iff_ne]
    exact hdisjoint _ hg _ List.mem_cons_self
  have hrest : ∀ g ∈ group :: rest, ¬precedes group.1 g = true := by
    refine List.forall_mem_cons.2 ⟨by simp [precedes], fun g hg ↦ ?_⟩
    have hle := (List.pairwise_cons.1 hbehind).1 _ (List.mem_map_of_mem (f := Prod.fst) hg)
    simp only [precedes, Bool.and_eq_true, bne_iff_ne, not_and, not_not]
    exact fun hge ↦ isLinear_textLe.antisymm hge hle
  rw [h, List.filter_append, List.filter_eq_self.2 hdone, List.filter_eq_nil_iff.2 hrest,
    List.append_nil]

/-- The files of some paths have been replaced by their patched lines, and nothing else in the
world has changed. -/
structure Replaced (rules : Rules) (w w' : World) (groups : List (String × List Finding)) :
    Prop where
  patched : ∀ group ∈ groups, IsPatched w.files rules group
  written : Written w.files w'.files
    (groups.map fun group ↦ (group.1, edited w.files rules group))
  rest : w' = { w with files := w'.files }

variable {s : Store} {w : World} {tool : String} {dryRun : Bool}

/-- A rewrite changes nothing, or it replaces the files that it lists, or those of the paths before
the one that could not be written. -/
theorem applyWith_replaces_in_order {result : Except RewriteError Summary} {w' : World}
    (hfs : w.files.IsTree) (h : applyWith device s w tool rules dryRun = (result, w')) :
    match result with
    | .error (.store _) => w' = w
    | .error (.write path _) => dryRun = false ∧ s.IsClean w ∧
        (∃ f ∈ findingsOf s w tool, f.path = path) ∧
        Replaced rules w w' ((byPath (findingsOf s w tool)).filter (precedes path))
    | .ok summary =>
      (summary.written = [] → w' = w) ∧
      (summary.written ≠ [] → dryRun = false ∧ s.IsClean w ∧ summary.failures = [] ∧
        summary.written = (byPath (findingsOf s w tool)).map Prod.fst ∧
        Replaced rules w w' (byPath (findingsOf s w tool))) := by
  obtain ⟨e, -, happly⟩ | ⟨clean, -, -, happly⟩ | ⟨rfl, hclean, hall⟩ :=
    applyWith_cases device s w tool rules dryRun
  · cases happly.symm.trans h
    rfl
  · cases happly.symm.trans h
    exact ⟨fun _ ↦ rfl, fun h ↦ absurd rfl h⟩
  · have hways : ∀ e ∈ (byPath (findingsOf s w tool)).map
        fun group ↦ (group.1, edited w.files rules group),
        w.files.NamesNoWay (Path.ofText e.1) := by
      intro e he
      obtain ⟨group, hgroup, rfl⟩ := List.mem_map.1 he
      exact (hall group hgroup).namesNoWay
    rw [applyWith_eq hclean hall] at h
    split at h
    · next e files hwrite =>
      cases h
      obtain ⟨done', path, b, rest', e', hsplit, rfl, hdone⟩ := writeAll_stops hfs hways hwrite
      obtain ⟨done, behind, hgroups, rfl, hbehind⟩ := List.map_eq_append_iff.1 hsplit
      obtain ⟨group, rest, rfl, hgroup, -⟩ := List.map_eq_cons_iff.1 hbehind
      obtain rfl : group.1 = path := congrArg Prod.fst hgroup
      have hmem : group ∈ byPath (findingsOf s w tool) := by
        rw [hgroups]
        exact List.mem_append_right _ List.mem_cons_self
      refine ⟨rfl, hclean, (mem_byPath.1 hmem).1, fun g hg ↦ ?_, ?_, rfl⟩
      · exact hall g (List.mem_of_mem_filter hg)
      · rw [filter_precedes hgroups]
        exact hdone
    · next files hwrite =>
      cases h
      have hwritten := writeAll_stops hfs hways hwrite
      refine ⟨fun hnone ↦ ?_, fun _ ↦ ⟨rfl, hclean, rfl, rfl, hall, hwritten, rfl⟩⟩
      have hnil : byPath (findingsOf s w tool) = [] := by simpa using hnone
      rw [hnil] at hwrite
      cases hwrite
      rfl

def pair : World :=
  .single
    { files := [⟨1, "/a", .integer 0, .integer 7⟩, ⟨2, "/b", .integer 0, .integer 7⟩]
      reports := [⟨⟨.integer 1, .integer 1, "t", "foo("⟩, .integer 1⟩,
        ⟨⟨.integer 1, .integer 1, "t", "foo("⟩, .integer 2⟩] }
    { entries := ["a", "b"].map fun name ↦
        ([Utf8.encode name],
          .file { content := Utf8.encode "foo(x)\n", modified := {}, mode := 0o644 }) }

theorem pair_isTree : pair.files.IsTree := by
  apply FileSystem.isTree_of_entries
  decide

def fooToBar : Rules := ⟨[("foo", "bar")]⟩

def keepingSecond : String → FileSystem.Device := fun path step ↦
  if path = "/b" ∧ step = .rename then some .permissionDenied else none

/-- The rewrite has failed, and a file is no longer what it was. -/
theorem pair_partly_replaced :
    (applyWith keepingSecond (.single .keepAll) pair "t" fooToBar false).1 =
        .error (.write "/b" .permissionDenied) ∧
      pair.files.read (Path.ofText "/a") = .ok (Utf8.encode "foo(x)\n") ∧
      (applyWith keepingSecond (.single .keepAll) pair "t" fooToBar false).2.files.read
        (Path.ofText "/a") = .ok (Utf8.encode "bar(x)\n") :=
  ⟨rfl, rfl, rfl⟩

theorem pair_replaced_before_failure : ∃ w',
    applyWith keepingSecond (.single .keepAll) pair "t" fooToBar false =
        (.error (.write "/b" .permissionDenied), w') ∧
      (∃ f, w'.files.lookup [Utf8.encode "a"] = some (.file f) ∧
        f.content = Utf8.encode "bar(x)\n") ∧
      pair.files.Alike w'.files [Utf8.encode "b"] := by
  obtain ⟨w', hresult⟩ : ∃ w', applyWith keepingSecond (.single .keepAll) pair "t" fooToBar false =
      (.error (.write "/b" .permissionDenied), w') := ⟨_, rfl⟩
  have hreplaced : Replaced fooToBar pair w'
      ((byPath (findingsOf (.single .keepAll) pair "t")).filter (precedes "/b")) :=
    (applyWith_replaces_in_order pair_isTree hresult).2.2.2
  have hgroups : (byPath (findingsOf (.single .keepAll) pair "t")).filter (precedes "/b") =
      [("/a", [⟨⟨1, 1, "t", "foo("⟩, "/a"⟩])] := rfl
  rw [hgroups] at hreplaced
  have hfirst : pair.files.Denotes (Path.ofText "/a") [Utf8.encode "a"] := ⟨[], _, _, rfl, rfl⟩
  have hbytes : (edited pair.files fooToBar ("/a", [⟨⟨1, 1, "t", "foo("⟩, "/a"⟩])).toBytes =
      Utf8.encode "bar(x)\n" := rfl
  obtain ⟨f, hf, hcontent⟩ := hreplaced.written.content [] [] rfl hfirst nofun
  refine ⟨w', hresult, ⟨f, hf, hcontent.trans hbytes⟩, hreplaced.written.kept ?_⟩
  intro e he hdenotes
  rw [List.mem_singleton.1 he] at hdenotes
  exact absurd (hfirst.unique hdenotes) (by decide)

end FindingStore.Rewrite
