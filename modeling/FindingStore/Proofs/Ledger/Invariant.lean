import FindingStore.Proofs.Ledger.Steps

namespace FindingStore.Ledger

/-- Ledgers that calls lead to, whatever the files and the store are at each of them. -/
inductive Reachable : Ledger → Prop
  | empty : Reachable {}
  | record {l : Ledger} (fs : FileSystem) (path : Path) (remark : Remark) :
      Reachable l → Reachable (l.record fs path remark).2
  | mark {l : Ledger} (path : Path) : Reachable l → Reachable (l.mark path)
  | commit {l : Ledger} {σ : Type} (fs : FileSystem) (s : Store) (conn : Connection σ)
      (source : Retry.Source) (state : σ) :
      Reachable l → Reachable (l.commitOver fs s conn source state).ledger

def IsStaged (l : Ledger) (n : Nat) : Prop := ∃ f ∈ l.staged, f.file = n

structure Sound (l : Ledger) : Prop where
  nodup : (l.files.map (·.identity.path)).Nodup
  canonical {path : String} {n : Nat} : l.canonical.lookup path = some n →
    ∃ f, l.files[n]? = some f ∧ f.identity.path = path
  entered {f : RunFile} : f ∈ l.files → (l.canonical.lookup f.identity.path).isSome
  aliases {parts : Path.Parts} {n : Nat} : l.aliases.lookup parts = some n → n < l.files.length
  staged {f : RunFinding} : f ∈ l.staged → f.file < l.files.length
  hasFindings {n : Nat} {f : RunFile} : l.files[n]? = some f → (f.hasFindings ↔ l.IsStaged n)

theorem Sound.empty (error : Option String) : Sound { error } where
  nodup := .nil
  canonical h := nomatch h
  entered h := nomatch h
  aliases h := nomatch h
  staged h := nomatch h
  hasFindings h := nomatch h

theorem Sound.congr {l l' : Ledger} (h : l.Sound) (hf : l'.files = l.files)
    (hc : l'.canonical = l.canonical) (ha : l'.aliases = l.aliases) (hs : l'.staged = l.staged) :
    l'.Sound := by
  obtain ⟨files, canonical, aliases, staged, marks, error⟩ := l'
  cases hf
  cases hc
  cases ha
  cases hs
  exact ⟨h.nodup, h.canonical, h.entered, h.aliases, h.staged, h.hasFindings⟩

variable {l : Ledger}

theorem Sound.added (h : l.Sound) {i : Identity} (hnew : l.canonical.lookup i.path = none) :
    (l.added i).Sound where
  nodup := by
    simp only [Ledger.added, List.map_append, List.map_cons, List.map_nil]
    refine List.nodup_append.2 ⟨h.nodup, by simp, ?_⟩
    rintro p hp q hq rfl
    obtain ⟨f, hf, rfl⟩ := List.mem_map.1 hp
    have hentered := h.entered hf
    rw [List.mem_singleton.1 hq, hnew] at hentered
    cases hentered
  canonical {path n} hlookup := by
    simp only [Ledger.added, List.lookup_cons] at hlookup
    split at hlookup
    · next he =>
      cases hlookup
      exact ⟨{ identity := i }, getElem?_files_added.2 (.inr ⟨rfl, rfl⟩), (beq_iff_eq.1 he).symm⟩
    · obtain ⟨f, hf, hpath⟩ := h.canonical hlookup
      exact ⟨f, getElem?_files_added.2 (.inl hf), hpath⟩
  entered {f} hf := by
    simp only [Ledger.added, List.lookup_cons]
    split
    · rfl
    · next hne =>
      rcases List.mem_append.1 hf with hf | hf
      · exact h.entered hf
      · rw [List.mem_singleton.1 hf, beq_self_eq_true] at hne
        cases hne
  aliases hlookup := Nat.lt_trans (h.aliases hlookup) l.length_files_added
  staged hf := Nat.lt_trans (h.staged hf) l.length_files_added
  hasFindings {n f} hf := by
    rcases getElem?_files_added.1 hf with hf | ⟨rfl, rfl⟩
    · exact h.hasFindings hf
    · -- no finding is staged on a file before it is pending
      refine iff_of_false Bool.false_ne_true ?_
      rintro ⟨g, hg, hfile⟩
      exact absurd hfile (Nat.ne_of_lt (h.staged hg))

theorem Sound.enter (h : l.Sound) (i : Identity) :
    (l.enter i).2.Sound ∧ (l.enter i).1 < (l.enter i).2.files.length := by
  cases hlookup : l.canonical.lookup i.path with
  | some n =>
    obtain ⟨f, hf, -⟩ := h.canonical hlookup
    rw [enter_of_some hlookup]
    exact ⟨h, (List.getElem?_eq_some_iff.1 hf).1⟩
  | none =>
    rw [enter_of_none hlookup]
    exact ⟨h.added hlookup, l.length_files_added⟩

theorem buffers_enter (l : Ledger) (i : Identity) :
    (l.enter i).2.aliases = l.aliases ∧ (l.enter i).2.staged = l.staged ∧
      (l.enter i).2.marks = l.marks ∧ (l.enter i).2.error = l.error := by
  cases hlookup : l.canonical.lookup i.path with
  | some n =>
    rw [enter_of_some hlookup]
    exact ⟨rfl, rfl, rfl, rfl⟩
  | none =>
    rw [enter_of_none hlookup]
    exact ⟨rfl, rfl, rfl, rfl⟩

theorem buffers_pending {fs : FileSystem} {path : Path} {n : Nat} {l' : Ledger}
    (hp : l.pending fs path = .ok (n, l')) :
    l'.staged = l.staged ∧ l'.marks = l.marks ∧ l'.error = l.error := by
  rcases pending_eq_ok hp with ⟨-, rfl⟩ | ⟨-, i, -, -, rfl⟩
  · exact ⟨rfl, rfl, rfl⟩
  · exact (l.buffers_enter i).2

theorem buffers_record {fs : FileSystem} {path : Path} {remark : Remark}
    (h : (l.record fs path remark).1 = .ok ()) :
    ∃ n, (l.record fs path remark).2.staged = l.staged ++ [{ remark with file := n }] ∧
      (l.record fs path remark).2.marks = l.marks := by
  cases hp : l.pending fs path with
  | error e =>
    rw [record_of_error hp] at h
    cases h
  | ok r =>
    obtain ⟨n, l'⟩ := r
    obtain ⟨hstaged, hmarks, -⟩ := buffers_pending hp
    rw [record_of_ok hp]
    exact ⟨n, congrArg (· ++ _) hstaged, hmarks⟩

theorem record_error {fs : FileSystem} {path : Path} {remark : Remark} {e : LedgerError}
    (h : (l.record fs path remark).1 = .error e) : (l.record fs path remark).2 = l.fail e := by
  cases hp : l.pending fs path with
  | error e' =>
    rw [record_of_error hp] at h ⊢
    cases h
    rfl
  | ok r =>
    rw [record_of_ok hp] at h
    cases h

theorem marks_record (l : Ledger) (fs : FileSystem) (p : Path) (remark : Remark) :
    (l.record fs p remark).2.marks = l.marks := by
  cases hr : (l.record fs p remark).1 with
  | error e =>
    rw [record_error hr]
    rfl
  | ok _ =>
    obtain ⟨n, -, hmarks⟩ := buffers_record hr
    exact hmarks

theorem buffers_resolveMark (l : Ledger) (fs : FileSystem) (path : Path) :
    (l.resolveMark fs path).staged = l.staged ∧ (l.resolveMark fs path).marks = l.marks := by
  cases hp : l.pending fs path with
  | error e =>
    rw [resolveMark_of_error hp]
    exact ⟨rfl, rfl⟩
  | ok r =>
    obtain ⟨hstaged, hmarks, -⟩ := buffers_pending hp
    rw [resolveMark_of_ok hp]
    exact ⟨hstaged, hmarks⟩

theorem buffers_foldl_resolveMark (l : Ledger) (fs : FileSystem) (paths : List Path) :
    (paths.foldl (Ledger.resolveMark fs) l).staged = l.staged ∧
      (paths.foldl (Ledger.resolveMark fs) l).marks = l.marks := by
  induction paths generalizing l with
  | nil => exact ⟨rfl, rfl⟩
  | cons path rest ih =>
    obtain ⟨hstaged, hmarks⟩ := l.buffers_resolveMark fs path
    obtain ⟨hstaged', hmarks'⟩ := ih (l.resolveMark fs path)
    exact ⟨hstaged'.trans hstaged, hmarks'.trans hmarks⟩

theorem staged_resolveMarks (l : Ledger) (fs : FileSystem) :
    (l.resolveMarks fs).staged = l.staged :=
  (buffers_foldl_resolveMark { l with marks := [] } fs l.marks).1

theorem marks_resolveMarks (l : Ledger) (fs : FileSystem) : (l.resolveMarks fs).marks = [] :=
  (buffers_foldl_resolveMark { l with marks := [] } fs l.marks).2

theorem Sound.pending (h : l.Sound) {fs : FileSystem} {path : Path} {n : Nat} {l' : Ledger}
    (hp : l.pending fs path = .ok (n, l')) : l'.Sound ∧ n < l'.files.length := by
  rcases pending_eq_ok hp with ⟨hn, rfl⟩ | ⟨-, i, -, rfl, rfl⟩
  · exact ⟨h, h.aliases hn⟩
  · obtain ⟨hsound, hlt⟩ := h.enter i
    refine ⟨⟨hsound.nodup, hsound.canonical, hsound.entered, fun {parts n} hlookup ↦ ?_,
      hsound.staged, hsound.hasFindings⟩, hlt⟩
    simp only [called, List.lookup_cons] at hlookup
    split at hlookup
    · cases hlookup
      exact hlt
    · exact hsound.aliases hlookup

theorem map_identity_modify (files : List RunFile) (n : Nat) {change : RunFile → RunFile}
    (hc : ∀ f, (change f).identity = f.identity) :
    (files.modify n change).map RunFile.identity = files.map RunFile.identity := by
  apply List.ext_getElem?
  intro k
  simp only [List.getElem?_map, List.getElem?_modify]
  cases files[k]? with
  | none => rfl
  | some f =>
    simp only [Option.map_some]
    split <;> simp [hc]

theorem Sound.setFile (h : l.Sound) (n : Nat) (change : RunFile → RunFile)
    (more : List RunFinding) (hc : ∀ f, (change f).identity = f.identity)
    (hmore : ∀ f ∈ more, f.file < l.files.length)
    (hfindings : ∀ k f, l.files[k]? = some f →
      ((if n = k then change f else f).hasFindings ↔ f.hasFindings ∨ ∃ g ∈ more, g.file = k)) :
    Sound { l.setFile n change with staged := l.staged ++ more } := by
  have hidentities := map_identity_modify l.files n hc
  have hpaths : (l.files.modify n change).map (·.identity.path) =
      l.files.map (·.identity.path) := by
    have hmap := congrArg (List.map Identity.path) hidentities
    simpa only [List.map_map, Function.comp_def] using hmap
  refine ⟨?_, ?_, ?_, ?_, ?_, ?_⟩ <;> dsimp only [Ledger.setFile]
  · rw [hpaths]
    exact h.nodup
  · intro path k hk
    obtain ⟨f, hf, hpath⟩ := h.canonical hk
    refine ⟨if n = k then change f else f, by simp [List.getElem?_modify, hf], ?_⟩
    split
    · rw [hc, hpath]
    · exact hpath
  · intro f hf
    have hmem : f.identity.path ∈ (l.files.modify n change).map (·.identity.path) :=
      List.mem_map.2 ⟨f, hf, rfl⟩
    rw [hpaths] at hmem
    obtain ⟨g, hg, hpath⟩ := List.mem_map.1 hmem
    rw [← hpath]
    exact h.entered hg
  · intro parts k hk
    simpa using h.aliases hk
  · intro f hf
    simp only [List.length_modify]
    rcases List.mem_append.1 hf with hf | hf
    · exact h.staged hf
    · exact hmore f hf
  · intro k f hf
    rw [List.getElem?_modify] at hf
    obtain ⟨g, hg, rfl⟩ := Option.map_eq_some_iff.1 hf
    rw [hfindings k g hg, h.hasFindings hg]
    simp only [IsStaged, List.mem_append, or_and_right, exists_or]

theorem Sound.record (h : l.Sound) (fs : FileSystem) (path : Path) (remark : Remark) :
    (l.record fs path remark).2.Sound := by
  cases hp : l.pending fs path with
  | error e =>
    rw [record_of_error hp]
    exact h.congr rfl rfl rfl rfl
  | ok r =>
    obtain ⟨n, l'⟩ := r
    obtain ⟨hsound, hlt⟩ := h.pending hp
    rw [record_of_ok hp]
    refine hsound.setFile n _ _ RunFile.identity_withFindings (by simpa using hlt) ?_
    intro k f _
    by_cases hk : n = k <;> simp [hk, RunFile.withFindings]

theorem Sound.resolveMark (h : l.Sound) (fs : FileSystem) (path : Path) :
    (l.resolveMark fs path).Sound := by
  cases hp : l.pending fs path with
  | error e =>
    rw [resolveMark_of_error hp]
    exact h.congr rfl rfl rfl rfl
  | ok r =>
    obtain ⟨n, l'⟩ := r
    obtain ⟨hsound, -⟩ := h.pending hp
    have hset := hsound.setFile n _ [] RunFile.identity_inScope (by simp)
      (fun k f _ ↦ by by_cases hk : n = k <;> simp [hk, RunFile.inScope])
    rw [resolveMark_of_ok hp]
    exact hset.congr rfl rfl rfl (List.append_nil _).symm

theorem Sound.resolveMarks (h : l.Sound) (fs : FileSystem) : (l.resolveMarks fs).Sound := by
  have hstart : Sound { l with marks := [] } := h.congr rfl rfl rfl rfl
  unfold Ledger.resolveMarks
  generalize { l with marks := [] } = start at hstart
  induction l.marks generalizing start with
  | nil => exact hstart
  | cons path rest ih => exact ih _ (hstart.resolveMark fs path)

/-- After a commit the buffers are empty, and the text of the error of a commit that fails is
kept. -/
theorem ledger_commitOver {σ : Type} (l : Ledger) (fs : FileSystem) (s : Store)
    (conn : Connection σ) (source : Retry.Source) (state : σ) :
    ∃ error, (l.commitOver fs s conn source state).ledger = { error } ∧
      ∀ e, (l.commitOver fs s conn source state).result = .error e → error = some e.message := by
  unfold commitOver
  dsimp only
  split
  · exact ⟨_, rfl, fun e he ↦ nomatch he⟩
  · refine ⟨_, rfl, ?_⟩
    rintro _ ⟨⟩
    rfl

theorem store_commitOver {σ : Type} (l : Ledger) (fs : FileSystem) (s : Store)
    (conn : Connection σ) (source : Retry.Source) (state : σ) :
    ∃ lastError, (l.commitOver fs s conn source state).store = { s with lastError } := by
  have hstore (work : Unit → Work Unit CommitCounts) :
      ∃ lastError, (s.transactOver conn source work () state).2.1 = { s with lastError } := by
    unfold Store.transactOver
    dsimp only
    split <;> exact ⟨_, rfl⟩
  unfold commitOver
  dsimp only
  split <;> exact hstore _

theorem Reachable.sound (h : l.Reachable) : l.Sound := by
  induction h with
  | empty => exact .empty none
  | record fs path remark _ ih => exact ih.record fs path remark
  | mark path _ ih => exact ih.congr rfl rfl rfl rfl
  | @commit l σ fs s conn source state _ _ =>
    obtain ⟨error, hl, -⟩ := l.ledger_commitOver fs s conn source state
    exact hl ▸ .empty error

end FindingStore.Ledger
