import Mathlib.Data.List.Basic
import FindingStore.Proofs.FileSystem.Identity
import FindingStore.Proofs.Ledger.Memory

namespace FindingStore

namespace Ledger

inductive Call
  | record (path : Path) (remark : Remark)
  | mark (path : Path)
  deriving DecidableEq, Repr

def Call.remark? (fs : FileSystem) : Call → Option (Identity × Remark)
  | .record path remark => (fs.resolved? path).map fun i ↦ (i, remark)
  | .mark _ => none

def Call.marked? : Call → Option Path
  | .record _ _ => none
  | .mark path => some path

end Ledger

def Run.of (fs : FileSystem) (calls : List Ledger.Call) : Run where
  remarks := calls.filterMap (Ledger.Call.remark? fs)
  marked := (calls.filterMap Ledger.Call.marked?).filterMap fs.resolved?

namespace Ledger

/-- The pending files of a ledger, as its indices find them, are those to which paths lead that
the ledger has seen. -/
structure Indexes (fs : FileSystem) (seen : Path → Prop) (l : Ledger) : Prop where
  sound : l.Sound
  found {f : RunFile} : f ∈ l.files →
    ∃ p, seen p ∧ fs.FindsText p ∧ fs.resolved? p = some f.identity
  aliases {parts : Path.Parts} {n : Nat} : l.aliases.lookup parts = some n →
    ∃ p f, seen p ∧ Path.parts p = parts ∧ l.files[n]? = some f ∧
      fs.resolved? p = some f.identity

variable {fs : FileSystem} {seen : Path → Prop} {l l' : Ledger} {path : Path} {n : Nat}

theorem Indexes.mono (h : l.Indexes fs seen) {more : Path → Prop} (hmore : ∀ p, seen p → more p) :
    l.Indexes fs more where
  sound := h.sound
  found hf := by
    obtain ⟨p, hp, hrest⟩ := h.found hf
    exact ⟨p, hmore p hp, hrest⟩
  aliases hn := by
    obtain ⟨p, f, hp, hrest⟩ := h.aliases hn
    exact ⟨p, f, hmore p hp, hrest⟩

structure Finds (fs : FileSystem) (path : Path) (l : Ledger) (n : Nat) (l' : Ledger) : Prop where
  files : l'.files = l.files ∧ n < l.files.length ∨
    n = l.files.length ∧
      ∃ i, l'.files = l.files ++ [{ identity := i }] ∧ fs.resolved? path = some i
  identity {i : Identity} : fs.resolved? path = some i →
    ∃ f, l'.files[n]? = some f ∧ f.identity = i

theorem Indexes.enter (h : l.Indexes fs seen) (hfs : fs.IsTree) (hseen : seen path)
    (hpath : fs.FindsText path) {i : Identity} (hi : fs.resolved? path = some i) :
    (l.enter i).2.Indexes fs seen ∧ l.Finds fs path (l.enter i).1 (l.enter i).2 := by
  cases hn : l.canonical.lookup i.path with
  | some n =>
    obtain ⟨f, hf, hfpath⟩ := h.sound.canonical hn
    obtain ⟨p, -, hp, hpi⟩ := h.found (List.mem_of_getElem? hf)
    rw [enter_of_some hn]
    refine ⟨h, ⟨.inl ⟨rfl, (List.getElem?_eq_some_iff.1 hf).1⟩, fun hj ↦ ?_⟩⟩
    rw [hi] at hj
    cases hj
    exact ⟨f, hf, FileSystem.resolved?_eq_of_path_eq hfs hp hpath hpi hi hfpath⟩
  | none =>
    rw [enter_of_none hn]
    refine ⟨⟨h.sound.added hn, fun hf ↦ ?_, fun hparts ↦ ?_⟩,
      ⟨.inr ⟨rfl, i, rfl, hi⟩, fun hj ↦ ?_⟩⟩
    · rcases List.mem_append.1 hf with hf | hf
      · exact h.found hf
      · rw [List.mem_singleton.1 hf]
        exact ⟨path, hseen, hpath, hi⟩
    · obtain ⟨p, f, hp, hpparts, hf, hpi⟩ := h.aliases hparts
      exact ⟨p, f, hp, hpparts, getElem?_files_added.2 (.inl hf), hpi⟩
    · rw [hi] at hj
      cases hj
      exact ⟨{ identity := i }, getElem?_files_added.2 (.inr ⟨rfl, rfl⟩), rfl⟩

theorem Indexes.pending (h : l.Indexes fs seen) (hfs : fs.IsTree) (hseen : seen path)
    (hpath : ∀ i, fs.resolved? path = some i → fs.FindsText path)
    (hp : l.pending fs path = .ok (n, l')) :
    l'.Indexes fs seen ∧ l.Finds fs path n l' := by
  have hsound := (h.sound.pending hp).1
  rcases pending_eq_ok hp with ⟨hn, rfl⟩ | ⟨-, i, hi, rfl, rfl⟩
  · obtain ⟨p, f, -, hparts, hf, hpi⟩ := h.aliases hn
    refine ⟨h, ⟨.inl ⟨rfl, (List.getElem?_eq_some_iff.1 hf).1⟩, fun hi ↦ ⟨f, hf, ?_⟩⟩⟩
    have hsame := FileSystem.resolved?_eq_of_parts_eq hparts.symm (hpath _ hi) hpi
    exact Option.some.inj (hsame.symm.trans hi)
  · obtain ⟨hindexes, hfinds⟩ := h.enter hfs hseen (hpath i hi) hi
    obtain ⟨f, hf, hidentity⟩ := hfinds.identity hi
    refine ⟨⟨hsound, hindexes.found, fun hparts ↦ ?_⟩, hfinds.files, hfinds.identity⟩
    simp only [called, List.lookup_cons] at hparts
    split at hparts
    · next heq =>
      cases hparts
      exact ⟨path, f, hseen, (beq_iff_eq.1 heq).symm, hf, hidentity ▸ hi⟩
    · exact hindexes.aliases hparts

theorem Indexes.resolved_of_pending (h : l.Indexes fs seen) (hpath : fs.FindsText path)
    (hp : l.pending fs path = .ok (n, l')) : ∃ i, fs.resolved? path = some i := by
  rcases pending_eq_ok hp with ⟨hn, rfl⟩ | ⟨-, i, hi, -⟩
  · obtain ⟨p, f, -, hparts, -, hpi⟩ := h.aliases hn
    exact ⟨_, FileSystem.resolved?_eq_of_parts_eq hparts.symm hpath hpi⟩
  · exact ⟨i, hi⟩

theorem mem_modify {files : List RunFile} {change : RunFile → RunFile} {f : RunFile} :
    f ∈ files.modify n change ↔
      ∃ k g, files[k]? = some g ∧ f = if n = k then change g else g := by
  rw [List.mem_iff_getElem?]
  constructor
  · rintro ⟨k, hk⟩
    rw [List.getElem?_modify] at hk
    obtain ⟨g, hg, rfl⟩ := Option.map_eq_some_iff.1 hk
    exact ⟨k, g, hg, rfl⟩
  · rintro ⟨k, g, hg, rfl⟩
    exact ⟨k, by rw [List.getElem?_modify, hg]; rfl⟩

theorem Indexes.setFile (h : l.Indexes fs seen) (hsound : l'.Sound) {change : RunFile → RunFile}
    (hc : ∀ f, (change f).identity = f.identity) (hf : l'.files = l.files.modify n change)
    (ha : l'.aliases = l.aliases) : l'.Indexes fs seen where
  sound := hsound
  found hmem := by
    rw [hf] at hmem
    obtain ⟨k, g, hg, rfl⟩ := mem_modify.1 hmem
    obtain ⟨p, hp⟩ := h.found (List.mem_of_getElem? hg)
    refine ⟨p, ?_⟩
    split
    · rwa [hc]
    · exact hp
  aliases hparts := by
    rw [ha] at hparts
    obtain ⟨p, g, hp, hpparts, hg, hpi⟩ := h.aliases hparts
    refine ⟨p, _, hp, hpparts, by rw [hf, List.getElem?_modify, hg]; rfl, ?_⟩
    split
    · rwa [hc]
    · exact hpi

def said (files : List RunFile) (f : RunFinding) : Identity × Remark :=
  ((files[f.file]?.map RunFile.identity).getD {}, f.toRemark)

theorem said_congr {files more : List RunFile} {staged : List RunFinding}
    (h : ∀ f ∈ staged,
      files[f.file]?.map RunFile.identity = more[f.file]?.map RunFile.identity) :
    staged.map (said files) = staged.map (said more) :=
  List.map_congr_left fun f hf ↦ by rw [said, said, h f hf]

theorem map_identity_getElem?_modify (files : List RunFile) {change : RunFile → RunFile}
    (hc : ∀ f, (change f).identity = f.identity) (k : Nat) :
    (files.modify n change)[k]?.map RunFile.identity = files[k]?.map RunFile.identity := by
  rw [← List.getElem?_map, ← List.getElem?_map, map_identity_modify files n hc]

def Visits (calls : List Call) (resolved : List Path) (p : Path) : Prop :=
  (∃ remark, .record p remark ∈ calls) ∨ p ∈ resolved

/-- A ledger that has taken some calls and has resolved some of the marked paths. -/
structure Traces (fs : FileSystem) (calls : List Call) (resolved : List Path) (l : Ledger) :
    Prop where
  indexes : l.Indexes fs (Visits calls resolved)
  remarks : calls.filterMap (Call.remark? fs) = l.staged.map (said l.files)
  scope {f : RunFile} : f ∈ l.files →
    f.hasFindings = true ∨ f.identity ∈ resolved.filterMap fs.resolved?
  marked {i : Identity} : i ∈ resolved.filterMap fs.resolved? →
    ∃ f ∈ l.files, f.identity = i ∧ f.marked = true

variable {calls : List Call} {resolved : List Path} {remark : Remark}

theorem Visits.append (h : Visits calls resolved path) (call : Call) :
    Visits (calls ++ [call]) resolved path :=
  h.imp_left fun ⟨remark, hp⟩ ↦ ⟨remark, List.mem_append_left _ hp⟩

theorem Traces.empty (fs : FileSystem) (error : Option String) :
    Traces fs [] [] { error } where
  indexes := ⟨.empty error, nofun, nofun⟩
  remarks := rfl
  scope h := nomatch h
  marked h := nomatch h

theorem Finds.getElem?_eq (h : l.Finds fs path n l') {k : Nat} (hk : k < l.files.length) :
    l'.files[k]? = l.files[k]? := by
  rcases h.files with ⟨hf, -⟩ | ⟨-, i, hf, -⟩
  · rw [hf]
  · rw [hf, List.getElem?_append_left hk]

theorem Finds.said_eq (h : l.Finds fs path n l') (hsound : l.Sound) {change : RunFile → RunFile}
    (hc : ∀ f, (change f).identity = f.identity) :
    l.staged.map (said (l'.files.modify n change)) = l.staged.map (said l.files) :=
  said_congr fun f hf ↦ by
    rw [map_identity_getElem?_modify l'.files hc, h.getElem?_eq (hsound.staged hf)]

theorem Finds.mem_or_eq (h : l.Finds fs path n l') {k : Nat} {g : RunFile}
    (hg : l'.files[k]? = some g) :
    l.files[k]? = some g ∨ n = k ∧ fs.resolved? path = some g.identity := by
  rcases h.files with ⟨hf, -⟩ | ⟨hn, i, hf, hi⟩
  · exact .inl (hf ▸ hg)
  · rw [hf] at hg
    rcases getElem?_files_added.1 hg with hold | ⟨hk, rfl⟩
    · exact .inl hold
    · exact .inr ⟨hn.trans hk.symm, hi⟩

theorem Traces.record (h : l.Traces fs calls []) (hfs : fs.IsTree) (hpath : fs.FindsText path)
    (hr : (l.record fs path remark).1 = .ok ()) :
    (l.record fs path remark).2.Traces fs (calls ++ [.record path remark]) [] := by
  have hsound := h.indexes.sound.record fs path remark
  cases hp : l.pending fs path with
  | error e =>
    rw [record_of_error hp] at hr
    cases hr
  | ok r =>
    obtain ⟨n, l'⟩ := r
    rw [record_of_ok hp] at hsound ⊢
    obtain ⟨i, hi⟩ := h.indexes.resolved_of_pending hpath hp
    have hvisits : Visits (calls ++ [.record path remark]) [] path :=
      .inl ⟨remark, List.mem_append_right _ (List.mem_singleton_self _)⟩
    obtain ⟨hindexes, hfinds⟩ := (h.indexes.mono fun _ hp ↦ hp.append _).pending hfs
      hvisits (fun _ _ ↦ hpath) hp
    obtain ⟨f, hf, rfl⟩ := hfinds.identity hi
    refine ⟨hindexes.setFile hsound RunFile.identity_withFindings rfl rfl, ?_, ?_,
      fun hmem ↦ nomatch hmem⟩
    · have hnew : said (l'.files.modify n RunFile.withFindings) ⟨remark, n⟩ =
          (f.identity, remark) := by
        rw [said, map_identity_getElem?_modify l'.files RunFile.identity_withFindings, hf]
        rfl
      have hold := hfinds.said_eq h.indexes.sound RunFile.identity_withFindings
      rw [List.filterMap_append, h.remarks, ← hold]
      change _ = (l'.staged ++ [RunFinding.mk remark n]).map
        (said (l'.files.modify n RunFile.withFindings))
      rw [(buffers_pending hp).1, List.map_append, List.map_singleton, hnew]
      simp [Call.remark?, hi]
    · intro g hg
      obtain ⟨k, g', hg', rfl⟩ := mem_modify.1 hg
      by_cases hk : n = k
      · exact .inl (by rw [if_pos hk]; rfl)
      · rw [if_neg hk]
        rcases hfinds.mem_or_eq hg' with hold | ⟨hk', -⟩
        · exact h.scope (List.mem_of_getElem? hold)
        · exact absurd hk' hk

theorem Traces.resolveMark (h : l.Traces fs calls resolved) (hfs : fs.IsTree)
    (hpath : ∀ i, fs.resolved? path = some i → fs.FindsText path) :
    (l.resolveMark fs path).Traces fs calls (resolved ++ [path]) := by
  have hseen : ∀ p, Visits calls resolved p → Visits calls (resolved ++ [path]) p := by
    rintro p (hp | hp)
    · exact .inl hp
    · exact .inr (List.mem_append_left _ hp)
  have hvisits : Visits calls (resolved ++ [path]) path :=
    .inr (List.mem_append_right _ (List.mem_singleton_self _))
  have hsound := h.indexes.sound.resolveMark fs path
  have hold := h.indexes.mono hseen
  have hmarked (i : Identity) : i ∈ (resolved ++ [path]).filterMap fs.resolved? ↔
      i ∈ resolved.filterMap fs.resolved? ∨ fs.resolved? path = some i := by
    rw [List.filterMap_append, List.mem_append]
    simp
  cases hp : l.pending fs path with
  | error e =>
    rw [resolveMark_of_error hp] at hsound ⊢
    have hnone := (pending_eq_error hp).2.2
    refine ⟨⟨hsound, hold.found, hold.aliases⟩, h.remarks, fun hf ↦ ?_, fun hi ↦ ?_⟩
    · rw [hmarked]
      exact (h.scope hf).imp_right .inl
    · rw [hmarked, hnone] at hi
      exact h.marked (hi.resolve_right nofun)
  | ok r =>
    obtain ⟨n, l'⟩ := r
    rw [resolveMark_of_ok hp] at hsound ⊢
    obtain ⟨hindexes, hfinds⟩ := hold.pending hfs hvisits hpath hp
    refine ⟨hindexes.setFile hsound RunFile.identity_inScope rfl rfl, ?_, fun hf ↦ ?_,
      fun hi ↦ ?_⟩
    · rw [h.remarks, ← hfinds.said_eq h.indexes.sound RunFile.identity_inScope]
      exact congrArg (List.map _) (buffers_pending hp).1.symm
    · obtain ⟨k, g, hg, rfl⟩ := mem_modify.1 hf
      have hscope : g.hasFindings = true ∨
          g.identity ∈ (resolved ++ [path]).filterMap fs.resolved? := by
        rw [hmarked]
        rcases hfinds.mem_or_eq hg with hmem | ⟨-, hi⟩
        · exact (h.scope (List.mem_of_getElem? hmem)).imp_right .inl
        · exact .inr (.inr hi)
      split
      · exact hscope
      · exact hscope
    · rcases (hmarked _).1 hi with hi | hi
      · -- a file that was marked stays marked
        obtain ⟨f, hf, rfl, hfmarked⟩ := h.marked hi
        obtain ⟨k, hk⟩ := List.getElem?_of_mem hf
        have hk' := (hfinds.getElem?_eq (List.getElem?_eq_some_iff.1 hk).1).trans hk
        refine ⟨_, mem_modify.2 ⟨k, f, hk', rfl⟩, ?_⟩
        split
        · exact ⟨rfl, rfl⟩
        · exact ⟨rfl, hfmarked⟩
      · obtain ⟨f, hf, rfl⟩ := hfinds.identity hi
        exact ⟨_, mem_modify.2 ⟨n, f, hf, rfl⟩, by rw [if_pos rfl]; rfl, by rw [if_pos rfl]; rfl⟩

theorem Traces.congr (h : l.Traces fs calls resolved) (hf : l'.files = l.files)
    (hc : l'.canonical = l.canonical) (ha : l'.aliases = l.aliases) (hs : l'.staged = l.staged) :
    l'.Traces fs calls resolved := by
  have hsound := h.indexes.sound.congr hf hc ha hs
  obtain ⟨files, canonical, aliases, staged, marks, error⟩ := l'
  cases hf
  cases hc
  cases ha
  cases hs
  exact ⟨⟨hsound, h.indexes.found, h.indexes.aliases⟩, h.remarks, h.scope, h.marked⟩

theorem Traces.mark (h : l.Traces fs calls []) (path : Path) :
    (l.mark path).Traces fs (calls ++ [.mark path]) [] := by
  have hsame : (l.mark path).Traces fs calls [] := h.congr rfl rfl rfl rfl
  refine ⟨hsame.indexes.mono fun _ hp ↦ hp.append _, ?_, hsame.scope, hsame.marked⟩
  rw [List.filterMap_append, hsame.remarks]
  exact List.append_nil _

/-- When the marks have been resolved, a ledger says what its calls say. -/
theorem Traces.resolveMarks (h : l.Traces fs calls []) (hfs : fs.IsTree)
    (hmarks : l.marks = calls.filterMap Call.marked?)
    (hpaths : ∀ p ∈ l.marks, ∀ i, fs.resolved? p = some i → fs.FindsText p) :
    (l.resolveMarks fs).Says (Run.of fs calls) := by
  have hall : (l.resolveMarks fs).Traces fs calls l.marks := by
    have hstart : Traces fs calls [] { l with marks := [] } := h.congr rfl rfl rfl rfl
    have hfold : ∀ (paths resolved : List Path) (start : Ledger), start.Traces fs calls resolved →
        (∀ p ∈ paths, ∀ i, fs.resolved? p = some i → fs.FindsText p) →
        (paths.foldl (Ledger.resolveMark fs) start).Traces fs calls (resolved ++ paths) := by
      intro paths
      induction paths with
      | nil =>
        intro resolved start hstart _
        rwa [List.append_nil]
      | cons p rest ih =>
        intro resolved start hstart hpaths
        have hstep := hstart.resolveMark hfs (hpaths p List.mem_cons_self)
        have := ih _ _ hstep fun q hq ↦ hpaths q (List.mem_cons_of_mem _ hq)
        rwa [List.append_assoc] at this
    exact hfold l.marks [] _ hstart hpaths
  rw [hmarks] at hall
  exact ⟨hall.remarks, hall.marked, hall.scope⟩

/-- The recorded paths of a run lead where they led before. -/
def Unmoved (fs fs' : FileSystem) (calls : List Call) : Prop :=
  ∀ path remark, .record path remark ∈ calls → fs'.canonicalize path = fs.canonicalize path ∧
    fs'.resolved? path = fs.resolved? path

/-- As long as its recorded paths lead where they led, a ledger does not notice changes of the
files. -/
theorem Traces.unmoved (h : l.Traces fs calls []) {fs' : FileSystem}
    (hunmoved : Unmoved fs fs' calls) : l.Traces fs' calls [] := by
  have hsame {p : Path} (hp : Visits calls [] p) :
      fs'.canonicalize p = fs.canonicalize p ∧ fs'.resolved? p = fs.resolved? p := by
    rcases hp with ⟨remark, hp⟩ | hp
    · exact hunmoved p remark hp
    · cases hp
  refine ⟨⟨h.indexes.sound, fun hf ↦ ?_, fun hparts ↦ ?_⟩, ?_, h.scope, fun hi ↦ nomatch hi⟩
  · obtain ⟨p, hp, ⟨k, s, hk, hks⟩, hi⟩ := h.indexes.found hf
    obtain ⟨hcanonical, hresolved⟩ := hsame hp
    exact ⟨p, hp, ⟨k, s, hcanonical.trans hk, hks⟩, hresolved.trans hi⟩
  · obtain ⟨p, f, hp, hpparts, hf, hi⟩ := h.indexes.aliases hparts
    exact ⟨p, f, hp, hpparts, hf, (hsame hp).2.trans hi⟩
  · rw [← h.remarks]
    apply List.filterMap_congr
    intro call hcall
    cases call with
    | mark path => rfl
    | record path remark => simp only [Call.remark?, (hunmoved path remark hcall).2]

end Ledger

end FindingStore
