import FindingStore.Proofs.Ledger.Commit
import FindingStore.Proofs.Ledger.Sightings
import FindingStore.Proofs.Ledger.Spelling

namespace FindingStore

namespace Sightings

variable {fs : FileSystem} {paths : List Path} {seen : Sightings} {p : Path} {i j : Identity}

def Current (fs : FileSystem) (paths : List Path) (seen : Sightings) : Prop :=
  ∀ e ∈ seen, ∃ q ∈ paths, Path.parts q = e.1 ∧ fs.resolved? q = some e.2

theorem Current.see (h : Current fs paths seen) (p : Path) :
    Current fs (paths ++ [p]) (seen.see fs p) := by
  have hearlier : Current fs (paths ++ [p]) seen := fun e he ↦ by
    obtain ⟨q, hq, hrest⟩ := h e he
    exact ⟨q, List.mem_append_left _ hq, hrest⟩
  unfold Sightings.see
  split
  · exact hearlier
  · intro e he
    rcases List.mem_append.1 he with he | he
    · exact hearlier e he
    · obtain ⟨i, hi, rfl⟩ := Option.map_eq_some_iff.1 (Option.mem_toList.1 he)
      exact ⟨p, List.mem_append_right _ (List.mem_singleton_self p), rfl, hi⟩

theorem Current.path_of_kept (h : Current fs paths seen) (hi : fs.resolved? p = some i)
    (hj : seen.kept (Path.parts p) = some j) :
    j.path = i.path ∧ ∃ q ∈ paths, fs.resolved? q = some j := by
  obtain ⟨k, hlookup, hmet⟩ := Option.bind_eq_some_iff.1 hj
  obtain ⟨before, after, rfl, -⟩ := List.lookup_eq_some_iff.1 hlookup
  obtain ⟨q, -, hparts, hq⟩ := h (Path.parts p, k) (by simp)
  have hresolves {p : Path} {i : Identity} (hi : fs.resolved? p = some i) :
      Ledger.resolves fs p = true := by
    rw [Ledger.resolves, hi]
    rfl
  have hki : k = i := Option.some.inj (hq.symm.trans
    ((Ledger.resolved?_eq_of_spelled hparts (hresolves hq) (hresolves hi)).trans hi))
  obtain ⟨e, he, rfl⟩ := Option.map_eq_some_iff.1 hmet
  obtain ⟨r, hr, -, hresolved⟩ := h e (List.mem_of_find?_eq_some he)
  exact ⟨(path_of_met hmet).trans (congrArg Identity.path hki), r, hr, hresolved⟩

end Sightings

namespace Ledger

variable {fs : FileSystem} {l : Ledger} {p q : Path} {i j : Identity} {t : Tables}

def Call.path : Call → Path
  | .record path _ | .mark path => path

def during (fs : FileSystem) (calls : List Call) : List TimedCall := calls.map (TimedCall.mk fs)

theorem current_during (fs : FileSystem) (calls : List Call) :
    Sightings.Current fs (calls.map Call.path) (Sightings.of (during fs calls)) := by
  induction calls using List.reverseRecOn with
  | nil => exact fun e he ↦ nomatch he
  | append_singleton calls c ih =>
    have hof : Sightings.of (during fs (calls ++ [c])) =
        (Sightings.of (during fs calls)).take ⟨fs, c⟩ := by
      rw [during, List.map_append]
      exact of_append _ _
    rw [hof, List.map_append]
    cases c with
    | record p remark => exact ih.see p
    | mark p =>
      intro e he
      obtain ⟨q, hq, hrest⟩ := ih e he
      exact ⟨q, List.mem_append_left _ hq, hrest⟩

theorem extends_during (error : Option String) (fs : FileSystem) (calls : List Call) (c : Call)
    (more : List Call) : ((after { error } (during fs calls)).take ⟨fs, c⟩).Extends
      (after { error } (during fs (calls ++ c :: more))) := by
  have hsplit : after { error } (during fs (calls ++ c :: more)) =
      ((after { error } (during fs calls)).take ⟨fs, c⟩).after (during fs more) := by
    simp only [during, after, List.map_append, List.map_cons, List.foldl_append, List.foldl_cons]
  rw [hsplit]
  exact (((recalls_after error (during fs calls)).take ⟨fs, c⟩).1.after (during fs more)).2

/-- A call that records a remark on a path that leads somewhere stages it on a pending file that is
displayed like the one the path leads to. -/
theorem record_during (error : Option String) (fs : FileSystem) (calls : List Call)
    (hi : fs.resolved? p = some i) (remark : Remark) :
    let r := (after { error } (during fs calls)).record fs p remark
    r.1 = .ok () ∧ ∃ n j, { remark with file := n } ∈ r.2.staged ∧ r.2.identityAt n = some j ∧
      j.path = i.path ∧ ∃ q ∈ calls.map Call.path ++ [p], fs.resolved? q = some j := by
  intro r
  obtain ⟨-, -, ⟨-, hnone, -⟩ | ⟨hok, n, j, hstaged, hkept, hat⟩⟩ :=
    (recalls_after error (during fs calls)).record fs p remark
  · cases hnone.symm.trans hi
  · obtain ⟨hpath, hq⟩ := ((current_during fs calls).see p).path_of_kept hi hkept
    refine ⟨hok, n, j, ?_, hat, hpath, hq⟩
    rw [hstaged]
    exact List.mem_append_right _ (List.mem_singleton_self _)

structure StagedAs (l : Ledger) (f : RunFinding) (i : Identity) : Prop where
  staged : f ∈ l.staged
  identity : l.identityAt f.file = some i

theorem StagedAs.extends {l' : Ledger} {f : RunFinding} (h : l.StagedAs f i) (hl : l.Extends l') :
    l'.StagedAs f i := ⟨hl.staged.subset h.staged, hl.identityAt h.identity⟩

structure LandsOn (t u : Tables) (remark : Remark) (i : Identity) (row : FileRow) : Prop where
  mem : row ∈ u.files
  isNew : t.nextId ≤ row.id
  carries : row.carries i = true
  report : remark.report row.id ∈ u.reports

theorem Sound.landsOn (h : l.Sound) (t : Tables) (retention : Retention) {f : RunFinding}
    (hf : l.StagedAs f i) :
    ∃ row, row.id = t.rowId l.files f.file ∧
      LandsOn t (t.land retention l.files l.staged) f.toRemark i row := by
  obtain ⟨file, hfile, hrow, hreport⟩ := h.report_of_staged t hf.staged
  have hidentity : file.identity = i := by
    have hi := hf.identity
    rw [identityAt, hfile] at hi
    exact Option.some.inj hi
  exact ⟨_, rfl, List.mem_append_right _ hrow, Tables.nextId_le_rowId _ _,
    RunFile.carries_row.2 hidentity, List.mem_append_right _ hreport⟩

/-- Staged findings have the same row if their files are displayed alike. -/
theorem Sound.rowId_eq_iff (h : l.Sound) {f g : RunFinding} (hf : l.StagedAs f i)
    (hg : l.StagedAs g j) :
    t.rowId l.files f.file = t.rowId l.files g.file ↔ i.path = j.path := by
  obtain ⟨file, hfile, hfdue⟩ := Tables.isDue_of_staged (t := t) h hf.staged
  obtain ⟨other, hother, hgdue⟩ := Tables.isDue_of_staged (t := t) h hg.staged
  have hi := hf.identity
  have hj := hg.identity
  rw [identityAt, hfile] at hi
  rw [identityAt, hother] at hj
  obtain rfl := Option.some.inj hi
  obtain rfl := Option.some.inj hj
  constructor
  · intro hid
    have hn := Tables.rowId_injective hfile hfdue hother hgdue hid
    rw [hn] at hfile
    rw [Option.some.inj (hfile.symm.trans hother)]
  · intro hpath
    rw [h.index_unique hfile hother hpath]

theorem path_of_resolved? {k : Location} (hp : fs.canonicalize p = .ok k)
    (hi : fs.resolved? p = some i) : i.path = Path.display k.toPath := by
  obtain ⟨l, e, hl, -, rfl⟩ := FileSystem.exists_place_of_resolved? hi
  obtain rfl : k = l := Except.ok.inj (hp.symm.trans hl)
  exact FileSystem.path_ofEntry fs k e

theorem display_eq_iff {k m : Location} (hp : fs.canonicalize p = .ok k)
    (hq : fs.canonicalize q = .ok m) (hptext : fs.FindsText p) (hqtext : fs.FindsText q) :
    Path.display k.toPath = Path.display m.toPath ↔ k.toPath = m.toPath := by
  obtain ⟨k', x, hk', hx⟩ := hptext
  obtain ⟨m', y, hm', hy⟩ := hqtext
  obtain rfl : k = k' := Except.ok.inj (hp.symm.trans hk')
  obtain rfl : m = m' := Except.ok.inj (hq.symm.trans hm')
  refine ⟨fun h ↦ ?_, congrArg Path.display⟩
  rw [hx, hy, Path.display, Path.display, Path.ofText, Path.ofText, Utf8.decodeLossy_encode,
    Utf8.decodeLossy_encode] at h
  rw [hx, hy, h]

open World in
/-- In a run over files that stay as they are, two calls whose paths lead somewhere both record
their remarks, on the same row if and only if the canonical paths are displayed alike. If all paths
of the run lead to paths of text, the rows are the same if and only if the canonical paths are, and
each carries the identity of its file. -/
theorem records_share_row_iff {s : Store} {w : World} (ha : s.access.IsOrdinary)
    (hw : w.Awaits s.database s.access t) (error : Option String) {k m : Location}
    (hp : fs.canonicalize p = .ok k) (hq : fs.canonicalize q = .ok m)
    (hi : fs.resolved? p = some i) (hj : fs.resolved? q = some j)
    (before between rest : List Call) (a b : Remark) (source : Retry.Source)
    (faults : List (Option SqlError)) :
    let calls := before ++ .record p a :: between
    let c := (after { error } (during fs (calls ++ .record q b :: rest))).commitOver fs s
      s.connection.failing source (faults, w)
    ((after { error } (during fs before)).record fs p a).1 = .ok () ∧
      ((after { error } (during fs calls)).record fs q b).1 = .ok () ∧
      ∀ counts, c.result = .ok counts →
      ∃ u i' j' row row', c.state.2.Awaits s.database s.access u ∧
        LandsOn t u a i' row ∧ LandsOn t u b j' row' ∧
        i'.path = Path.display k.toPath ∧ j'.path = Path.display m.toPath ∧
        (row.id = row'.id ↔ Path.display k.toPath = Path.display m.toPath) ∧
        (fs.IsTree → (∀ c ∈ calls ++ [.record q b],
            (fs.resolved? c.path).isSome → fs.FindsText c.path) →
          i' = i ∧ j' = j ∧ (row.id = row'.id ↔ k.toPath = m.toPath)) := by
  intro calls c
  obtain ⟨hfirst, n, i', hstaged, hat, hipath, p', hp', hpi⟩ := record_during error fs before hi a
  obtain ⟨hsecond, n', j', hstaged', hat', hjpath, q', hq', hqj⟩ :=
    record_during error fs calls hj b
  refine ⟨hfirst, hsecond, fun counts hresult ↦ ?_⟩
  let l := after { error } (during fs (calls ++ .record q b :: rest))
  let run := l.resolveMarks fs
  have hextends := extends_during error fs calls (.record q b) rest
  have hrun : l.Extends run := ((recalls_after error _).resolveMarks fs).2
  have hbetween := extends_during error fs before (.record p a) between
  have hrecord := ((recalls_after error (during fs calls)).record fs q b).2.1
  have hstagedAs : run.StagedAs { a with file := n } i' :=
    StagedAs.extends ⟨hstaged, hat⟩ ((hbetween.trans hrecord).trans (hextends.trans hrun))
  have hstagedAs' : run.StagedAs { b with file := n' } j' :=
    StagedAs.extends ⟨hstaged', hat'⟩ (hextends.trans hrun)
  have hsound : run.Sound := ((recalls_after error _).resolveMarks fs).1.sound
  obtain ⟨-, hlands, -⟩ :=
    awaits_commitOver (recalls_after error _).sound ha hw fs source faults
  obtain ⟨-, hawaits⟩ := hlands counts hresult
  obtain ⟨row, hrow, hlandsOn⟩ := hsound.landsOn t s.retention hstagedAs
  obtain ⟨row', hrow', hlandsOn'⟩ := hsound.landsOn t s.retention hstagedAs'
  have hsame : row.id = row'.id ↔ Path.display k.toPath = Path.display m.toPath := by
    rw [hrow, hrow', hsound.rowId_eq_iff hstagedAs hstagedAs', hipath, hjpath,
      path_of_resolved? hp hi, path_of_resolved? hq hj]
  refine ⟨_, i', j', row, row', hawaits, hlandsOn, hlandsOn',
    hipath.trans (path_of_resolved? hp hi), hjpath.trans (path_of_resolved? hq hj), hsame,
    fun hfs htext ↦ ?_⟩
  -- every path that has been looked up is one of the calls
  have hfinds {r : Path} {x : Identity} (hr : r ∈ calls.map Call.path ++ [q])
      (hx : fs.resolved? r = some x) : fs.FindsText r := by
    have hmem : r ∈ (calls ++ [Call.record q b]).map Call.path := by simpa [Call.path] using hr
    obtain ⟨c, hc, rfl⟩ := List.mem_map.1 hmem
    exact htext c hc (Option.isSome_of_eq_some hx)
  have hpmem : p ∈ calls.map Call.path ++ [q] := by simp [calls, Call.path]
  have hqmem : q ∈ calls.map Call.path ++ [q] := by simp
  have hp'mem : p' ∈ calls.map Call.path ++ [q] := by
    rcases List.mem_append.1 hp' with hp' | hp'
    · simp [calls, hp']
    · rwa [List.mem_singleton.1 hp']
  refine ⟨?_, ?_, hsame.trans (display_eq_iff hp hq (hfinds hpmem hi) (hfinds hqmem hj))⟩
  · exact FileSystem.resolved?_eq_of_path_eq hfs (hfinds hp'mem hpi) (hfinds hpmem hi) hpi hi hipath
  · exact FileSystem.resolved?_eq_of_path_eq hfs (hfinds hq' hqj) (hfinds hqmem hj) hqj hj hjpath

def twoFiles (x y : UInt8) : FileSystem :=
  { entries := [([[x]], .file { modified := {}, mode := 0o644 }),
      ([[y]], .file { content := [0x61], modified := {}, mode := 0o644 })] }

theorem twoFiles_spares (x y : UInt8) : (twoFiles x y).Spares 0 := by
  intro l f hmem hdatabase
  simp only [twoFiles, List.mem_cons, Prod.mk.injEq, Entry.file.injEq, List.not_mem_nil,
    or_false] at hmem
  rcases hmem with ⟨-, rfl⟩ | ⟨-, rfl⟩ <;> cases hdatabase

def commitOfTwo (x y : UInt8) : Committed (List (Option SqlError) × World) :=
  (after {} (during (twoFiles x y) [.record [Path.slash, x] ⟨1, 1, "t", "first"⟩,
    .record [Path.slash, y] ⟨1, 1, "t", "second"⟩])).commitOver (twoFiles x y) (.single .keepAll)
      (Store.single .keepAll).connection.failing {} ([], .single {} (twoFiles x y))

theorem lettered_have_own_rows : ∃ u row row',
    (commitOfTwo 0x61 0x62).state.2.Awaits 0 (Store.single .keepAll).access u ∧
      LandsOn {} u ⟨1, 1, "t", "first"⟩ ⟨"/a", 0, 0⟩ row ∧
      LandsOn {} u ⟨1, 1, "t", "second"⟩ ⟨"/b", 0, 1⟩ row' ∧ row.id ≠ row'.id := by
  have htree : (twoFiles 0x61 0x62).IsTree := by
    apply FileSystem.isTree_of_entries
    decide
  have htext : ∀ c ∈ [Call.record [Path.slash, 0x61] ⟨1, 1, "t", "first"⟩,
      .record [Path.slash, 0x62] ⟨1, 1, "t", "second"⟩],
      ((twoFiles 0x61 0x62).resolved? c.path).isSome →
        (twoFiles 0x61 0x62).FindsText c.path := by
    refine List.forall_mem_cons.2 ⟨fun _ ↦ ?_, List.forall_mem_cons.2 ⟨fun _ ↦ ?_, nofun⟩⟩
    · exact ⟨[[0x61]], "/a", rfl, rfl⟩
    · exact ⟨[[0x62]], "/b", rfl, rfl⟩
  have hp : (twoFiles 0x61 0x62).canonicalize [Path.slash, 0x61] = .ok [[0x61]] := rfl
  have hq : (twoFiles 0x61 0x62).canonicalize [Path.slash, 0x62] = .ok [[0x62]] := rfl
  have hi : (twoFiles 0x61 0x62).resolved? [Path.slash, 0x61] = some ⟨"/a", 0, 0⟩ := rfl
  have hj : (twoFiles 0x61 0x62).resolved? [Path.slash, 0x62] = some ⟨"/b", 0, 1⟩ := rfl
  have hresult : (commitOfTwo 0x61 0x62).result = .ok { files := 2, findings := 2 } := by
    decide +kernel
  unfold commitOfTwo at hresult ⊢
  obtain ⟨-, -, hcommit⟩ := records_share_row_iff (Store.single_isOrdinary .keepAll)
    ((World.single_idle (t := {}) (twoFiles_spares 0x61 0x62)).awaits rfl) none hp hq hi hj [] []
    [] ⟨1, 1, "t", "first"⟩ ⟨1, 1, "t", "second"⟩ {} []
  obtain ⟨u, i, j, row, row', hawaits, hrow, hrow', -, -, -, hrows⟩ := hcommit _ hresult
  obtain ⟨rfl, rfl, hsame⟩ := hrows htree htext
  exact ⟨u, row, row', hawaits, hrow, hrow', fun h ↦ absurd (hsame.1 h) (by decide)⟩

/-- The names of the files are no text. What is found in the second file lands on the row of the
first. -/
theorem unlettered_share_row :
    (twoFiles 0xFE 0xFF).canonicalize [Path.slash, 0xFE] = .ok [[0xFE]] ∧
      (twoFiles 0xFE 0xFF).canonicalize [Path.slash, 0xFF] = .ok [[0xFF]] ∧
      Location.toPath [[0xFE]] ≠ Location.toPath [[0xFF]] ∧
      (commitOfTwo 0xFE 0xFF).result = .ok { files := 1, findings := 2 } ∧
      ((commitOfTwo 0xFE 0xFF).state.2.database 0).contents = .tables
        { files := [⟨1, "/\uFFFD", .integer 0, .integer 0⟩]
          reports := [Remark.report ⟨1, 1, "t", "first"⟩ 1,
            Remark.report ⟨1, 1, "t", "second"⟩ 1] } :=
  ⟨rfl, rfl, by decide, rfl, rfl⟩

end Ledger

end FindingStore
