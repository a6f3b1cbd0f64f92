import Mathlib.Data.List.Induction
import FindingStore.Proofs.FileSystem.Identity
import FindingStore.Proofs.Ledger.Trace

namespace FindingStore

structure Ledger.TimedCall where
  files : FileSystem
  call : Ledger.Call

/-- The spellings of a run that led somewhere, each with what it first led to. -/
abbrev Sightings := List (Path.Parts × Identity)

namespace Sightings

def met (seen : Sightings) (path : String) : Option Identity :=
  (seen.find? (·.2.path == path)).map Prod.snd

/-- What a run takes a spelling for: the file that it first led to, as that file was met first. -/
def kept (seen : Sightings) (parts : Path.Parts) : Option Identity :=
  (seen.lookup parts).bind fun i ↦ seen.met i.path

/-- A path is looked up unless its spelling has led somewhere before. -/
def see (seen : Sightings) (fs : FileSystem) (p : Path) : Sightings :=
  if (seen.lookup (Path.parts p)).isSome then seen
  else seen ++ ((fs.resolved? p).map fun i ↦ (Path.parts p, i)).toList

def take (seen : Sightings) (c : Ledger.TimedCall) : Sightings :=
  match c.call with
  | .record p _ => seen.see c.files p
  | .mark _ => seen

def of (calls : List Ledger.TimedCall) : Sightings := calls.foldl take []

def atCommit (calls : List Ledger.TimedCall) (fs : FileSystem) : Sightings :=
  (calls.filterMap (·.call.marked?)).foldl (·.see fs) (of calls)

variable {seen : Sightings} {parts : Path.Parts} {path : String} {i : Identity} {fs : FileSystem}
  {p : Path}

theorem path_of_met (h : seen.met path = some i) : i.path = path := by
  obtain ⟨entry, hentry, rfl⟩ := Option.map_eq_some_iff.1 h
  simpa using List.find?_some hentry

theorem isSome_met (h : seen.lookup parts = some i) : (seen.met i.path).isSome = true := by
  obtain ⟨before, rest, rfl, -⟩ := List.lookup_eq_some_iff.1 h
  simp [met]

theorem isSome_kept (seen : Sightings) (parts : Path.Parts) :
    (seen.kept parts).isSome = (seen.lookup parts).isSome := by
  unfold kept
  cases h : seen.lookup parts with
  | none => rfl
  | some i => exact isSome_met h

theorem met_append (seen : Sightings) (parts : Path.Parts) (i : Identity) (path : String) :
    Sightings.met (seen ++ [(parts, i)]) path =
      (seen.met path).or (if i.path = path then some i else none) := by
  rw [met, List.find?_append, met]
  cases seen.find? (·.2.path == path) with
  | some entry => rfl
  | none => by_cases h : i.path = path <;> simp [h]

theorem kept_append_of_ne (seen : Sightings) {parts parts' : Path.Parts} (h : parts' ≠ parts)
    (i : Identity) : Sightings.kept (seen ++ [(parts, i)]) parts' = seen.kept parts' := by
  have hlast : List.lookup parts' [(parts, i)] = none := by
    rw [List.lookup_cons, beq_eq_false_iff_ne.2 h]
    rfl
  rw [kept, List.lookup_append, hlast, Option.or_none, kept]
  cases hj : seen.lookup parts' with
  | none => rfl
  | some j =>
    rw [Option.bind_some, Option.bind_some, met_append, Option.or_of_isSome (isSome_met hj)]

theorem see_of_lookup (h : seen.lookup (Path.parts p) = some i) : seen.see fs p = seen := by
  rw [see, h]
  rfl

theorem see_of_resolved? (h : seen.lookup (Path.parts p) = none) (hi : fs.resolved? p = some i) :
    seen.see fs p = seen ++ [(Path.parts p, i)] := by
  rw [see, h, hi]
  rfl

theorem kept_see_of_met_eq_none (h : seen.lookup (Path.parts p) = none)
    (hi : fs.resolved? p = some i) (hmet : seen.met i.path = none) :
    (seen.see fs p).kept (Path.parts p) = some i := by
  have hlookup : (seen ++ [(Path.parts p, i)]).lookup (Path.parts p) = some i := by
    rw [List.lookup_append, h]
    simp
  rw [see_of_resolved? h hi, kept, hlookup, Option.bind_some, met_append, hmet, if_pos rfl]
  rfl

theorem lookup_see_of_lookup (h : seen.lookup parts = some i) (fs : FileSystem) (p : Path) :
    (seen.see fs p).lookup parts = some i := by
  unfold see
  split
  · exact h
  · rw [List.lookup_append, h]
    rfl

theorem met_see_of_met (h : seen.met path = some i) (fs : FileSystem) (p : Path) :
    (seen.see fs p).met path = some i := by
  unfold see
  split
  · exact h
  · cases fs.resolved? p with
    | none => exact (congrArg (Sightings.met · path) (List.append_nil seen)).trans h
    | some j => exact (met_append seen _ j path).trans (by rw [h]; rfl)

/-- What a spelling has been taken for, it is taken for later in the run. -/
theorem kept_see_of_kept (h : seen.kept parts = some i) (fs : FileSystem) (p : Path) :
    (seen.see fs p).kept parts = some i := by
  obtain ⟨j, hj, hi⟩ := Option.bind_eq_some_iff.1 h
  rw [kept, lookup_see_of_lookup hj, Option.bind_some, met_see_of_met hi]

theorem kept_foldl_see_of_kept (h : seen.kept parts = some i) (fs : FileSystem)
    (paths : List Path) : Sightings.kept (paths.foldl (·.see fs) seen) parts = some i := by
  induction paths generalizing seen with
  | nil => exact h
  | cons p rest ih => exact ih (kept_see_of_kept h fs p)

theorem isSome_lookup_see (h : fs.resolved? p = some i) :
    ((seen.see fs p).lookup (Path.parts p)).isSome = true := by
  cases hlookup : seen.lookup (Path.parts p) with
  | some j => rw [lookup_see_of_lookup hlookup]; rfl
  | none =>
    rw [see_of_resolved? hlookup h, List.lookup_append, hlookup]
    simp

theorem isSome_kept_atCommit {calls : List Ledger.TimedCall}
    (hp : p ∈ calls.filterMap (·.call.marked?)) (hi : fs.resolved? p = some i) :
    ((atCommit calls fs).kept (Path.parts p)).isSome = true := by
  have hfold : ∀ (paths : List Path) (seen : Sightings), p ∈ paths →
      (Sightings.kept (paths.foldl (·.see fs) seen) (Path.parts p)).isSome = true := by
    intro paths
    induction paths with
    | nil => exact fun _ hmem ↦ nomatch hmem
    | cons q rest ih =>
      intro seen hmem
      rcases List.mem_cons.1 hmem with rfl | hmem
      · have hkept := isSome_kept (seen.see fs p) (Path.parts p)
        rw [isSome_lookup_see hi] at hkept
        obtain ⟨j, hj⟩ := Option.isSome_iff_exists.1 hkept
        rw [List.foldl_cons, kept_foldl_see_of_kept hj]
        rfl
      · exact ih _ hmem
  exact hfold _ _ hp

theorem see_of_not_resolved? (h : fs.resolved? p = none) : seen.see fs p = seen := by
  rw [see, h]
  split
  · rfl
  · exact List.append_nil _

end Sightings

namespace Ledger

def identityAt (l : Ledger) (n : Nat) : Option Identity := l.files[n]?.map RunFile.identity

structure Extends (l l' : Ledger) : Prop where
  staged : l.staged <+: l'.staged
  identityAt {n : Nat} {i : Identity} : l.identityAt n = some i → l'.identityAt n = some i

variable {l l' l'' : Ledger} {fs : FileSystem} {p : Path} {n : Nat} {i : Identity}
  {seen : Sightings} {remark : Remark}

theorem Extends.refl (l : Ledger) : l.Extends l := ⟨List.prefix_rfl, id⟩

theorem Extends.trans (h : l.Extends l') (h' : l'.Extends l'') : l.Extends l'' :=
  ⟨h.staged.trans h'.staged, fun hi ↦ h'.identityAt (h.identityAt hi)⟩

theorem isSome_identityAt : (l.identityAt n).isSome = true ↔ n < l.files.length := by
  simp [identityAt]

/-- The indices of a ledger are the memory of a run. -/
structure Recalls (l : Ledger) (seen : Sightings) : Prop where
  sound : l.Sound
  met (path : String) : (l.canonical.lookup path).bind l.identityAt = seen.met path
  kept (parts : Path.Parts) : (l.aliases.lookup parts).bind l.identityAt = seen.kept parts

theorem Recalls.empty (error : Option String) : Recalls { error } [] where
  sound := .empty error
  met _ := rfl
  kept _ := rfl

theorem Recalls.isSome_lookup (h : l.Recalls seen) (parts : Path.Parts) :
    (l.aliases.lookup parts).isSome = (seen.lookup parts).isSome := by
  rw [← seen.isSome_kept, ← h.kept]
  cases hn : l.aliases.lookup parts with
  | none => rfl
  | some n =>
    rw [Option.bind_some, isSome_identityAt.2 (h.sound.aliases hn)]
    rfl

theorem Recalls.congr (h : l.Recalls seen) (hsound : l'.Sound) (hc : l'.canonical = l.canonical)
    (ha : l'.aliases = l.aliases) (hf : ∀ n, l'.identityAt n = l.identityAt n) :
    l'.Recalls seen := by
  have hsame : l'.identityAt = l.identityAt := funext hf
  refine ⟨hsound, fun path ↦ ?_, fun parts ↦ ?_⟩
  · rw [hc, hsame, h.met]
  · rw [ha, hsame, h.kept]

theorem Recalls.enter (h : l.Recalls seen) (parts : Path.Parts) (i : Identity) :
    (l.enter i).2.identityAt (l.enter i).1 = Sightings.met (seen ++ [(parts, i)]) i.path ∧
      (∀ path, ((l.enter i).2.canonical.lookup path).bind (l.enter i).2.identityAt =
        Sightings.met (seen ++ [(parts, i)]) path) ∧
      l.Extends (l.enter i).2 := by
  simp only [Sightings.met_append]
  have hmet := h.met i.path
  cases hn : l.canonical.lookup i.path with
  | some n =>
    rw [hn, Option.bind_some] at hmet
    obtain ⟨f, hf, -⟩ := h.sound.canonical hn
    have hsome : l.identityAt n = some f.identity := by rw [identityAt, hf, Option.map_some]
    rw [enter_of_some hn]
    refine ⟨?_, fun path ↦ ?_, .refl l⟩
    · rw [← hmet, hsome]
      rfl
    · by_cases hpath : i.path = path
      · subst hpath
        rw [← hmet, hsome, hn, Option.bind_some, hsome]
        rfl
      · rw [h.met, if_neg hpath, Option.or_none]
  | none =>
    rw [hn, Option.bind_none] at hmet
    have hextends {n : Nat} {j : Identity} (hj : l.identityAt n = some j) :
        (l.added i).identityAt n = some j := by
      obtain ⟨f, hf, rfl⟩ := Option.map_eq_some_iff.1 hj
      rw [identityAt, getElem?_files_added.2 (.inl hf), Option.map_some]
    have hlast : (l.added i).identityAt l.files.length = some i := by
      rw [identityAt, getElem?_files_added.2 (.inr ⟨rfl, rfl⟩), Option.map_some]
    rw [enter_of_none hn]
    refine ⟨?_, fun path ↦ ?_, ⟨List.prefix_rfl, hextends⟩⟩
    · rw [← hmet, if_pos trivial]
      exact hlast
    · rw [added, List.lookup_cons, ← added]
      by_cases hpath : i.path = path
      · subst hpath
        rw [← hmet, if_pos rfl, beq_self_eq_true]
        exact hlast
      · rw [if_neg hpath, Option.or_none, ← h.met, beq_eq_false_iff_ne.2 (Ne.symm hpath)]
        cases hk : l.canonical.lookup path with
        | none => rfl
        | some k =>
          obtain ⟨f, hf, -⟩ := h.sound.canonical hk
          have hsome : l.identityAt k = some f.identity := by rw [identityAt, hf, Option.map_some]
          exact (hextends hsome).trans hsome.symm

theorem Recalls.pending_error (h : l.Recalls seen) {e : LedgerError}
    (hp : l.pending fs p = .error e) :
    e = .fileNotFound p ∧ fs.resolved? p = none ∧ seen.lookup (Path.parts p) = none := by
  obtain ⟨he, hn, hnone⟩ := pending_eq_error hp
  have hlookup := h.isSome_lookup (Path.parts p)
  rw [hn] at hlookup
  exact ⟨he, hnone, by simpa using hlookup.symm⟩

theorem Recalls.pending (h : l.Recalls seen) (hp : l.pending fs p = .ok (n, l')) :
    l'.Recalls (seen.see fs p) ∧ l.Extends l' ∧
      ∃ i, (seen.see fs p).kept (Path.parts p) = some i ∧ l'.identityAt n = some i := by
  obtain ⟨hsound, hlt⟩ := h.sound.pending hp
  have hlookup := h.isSome_lookup (Path.parts p)
  have hkept := h.kept (Path.parts p)
  obtain ⟨i, hi⟩ := Option.isSome_iff_exists.1 (isSome_identityAt.2 hlt)
  rcases pending_eq_ok hp with ⟨hn, rfl⟩ | ⟨hn, j, hj, rfl, rfl⟩
  · rw [hn] at hlookup hkept
    obtain ⟨j, hj⟩ := Option.isSome_iff_exists.1 hlookup.symm
    rw [Sightings.see_of_lookup hj]
    exact ⟨h, .refl _, i, hkept.symm.trans hi, hi⟩
  · rw [hn] at hlookup
    have hnone : seen.lookup (Path.parts p) = none := by simpa using hlookup.symm
    obtain ⟨hat, hmet, hextends⟩ := h.enter (Path.parts p) j
    rw [Sightings.see_of_resolved? hnone hj]
    replace hi : (l.enter j).2.identityAt (l.enter j).1 = some i := hi
    have hspelt : Sightings.kept (seen ++ [(Path.parts p, j)]) (Path.parts p) = some i := by
      rw [Sightings.kept, List.lookup_append, hnone]
      simpa [← hat] using hi
    refine ⟨⟨hsound, hmet, fun parts ↦ ?_⟩, ⟨hextends.staged, hextends.identityAt⟩, i, hspelt, hi⟩
    rw [called, List.lookup_cons, ← called]
    by_cases hparts : parts = Path.parts p
    · subst hparts
      rw [hspelt, beq_self_eq_true]
      exact hi
    · rw [beq_eq_false_iff_ne.2 hparts, (l.buffers_enter j).1,
        Sightings.kept_append_of_ne seen hparts, ← h.kept]
      cases hk : l.aliases.lookup parts with
      | none => rfl
      | some k =>
        obtain ⟨m, hm⟩ := Option.isSome_iff_exists.1 (isSome_identityAt.2 (h.sound.aliases hk))
        exact (hextends.identityAt hm).trans hm.symm

theorem Recalls.setFile (h : l.Recalls seen) (hsound : l'.Sound) {change : RunFile → RunFile}
    (hc : ∀ f, (change f).identity = f.identity) (hf : l'.files = l.files.modify n change)
    (hcanonical : l'.canonical = l.canonical) (ha : l'.aliases = l.aliases) :
    l'.Recalls seen ∧ ∀ k, l'.identityAt k = l.identityAt k := by
  have hsame (k : Nat) : l'.identityAt k = l.identityAt k := by
    rw [identityAt, hf]
    exact map_identity_getElem?_modify l.files hc k
  exact ⟨h.congr hsound hcanonical ha hsame, hsame⟩

theorem Recalls.record (h : l.Recalls seen) (fs : FileSystem) (p : Path) (remark : Remark) :
    (l.record fs p remark).2.Recalls (seen.see fs p) ∧ l.Extends (l.record fs p remark).2 ∧
      ((l.record fs p remark).1 = .error (.fileNotFound p) ∧ fs.resolved? p = none ∧
          seen.lookup (Path.parts p) = none ∨
        (l.record fs p remark).1 = .ok () ∧
          ∃ n i, (l.record fs p remark).2.staged = l.staged ++ [{ remark with file := n }] ∧
            (seen.see fs p).kept (Path.parts p) = some i ∧
            (l.record fs p remark).2.identityAt n = some i) := by
  have hsound := h.sound.record fs p remark
  cases hp : l.pending fs p with
  | error e =>
    rw [record_of_error hp] at hsound ⊢
    obtain ⟨rfl, hnone, hlookup⟩ := h.pending_error hp
    rw [Sightings.see_of_not_resolved? hnone]
    exact ⟨h.congr hsound rfl rfl fun _ ↦ rfl, ⟨List.prefix_rfl, id⟩, .inl ⟨rfl, hnone, hlookup⟩⟩
  | ok r =>
    obtain ⟨n, l'⟩ := r
    rw [record_of_ok hp] at hsound ⊢
    obtain ⟨hrecalls, hextends, i, hi, hat⟩ := h.pending hp
    obtain ⟨hrecalls, hsame⟩ :=
      hrecalls.setFile hsound RunFile.identity_withFindings rfl rfl rfl
    refine ⟨hrecalls, ⟨?_, fun hj ↦ ?_⟩, .inr ⟨rfl, n, i, ?_, hi, ?_⟩⟩
    · exact hextends.staged.trans (List.prefix_append _ _)
    · exact (hsame _).trans (hextends.identityAt hj)
    · exact congrArg (· ++ _) (buffers_pending hp).1
    · exact (hsame n).trans hat

theorem Recalls.resolveMark (h : l.Recalls seen) (fs : FileSystem) (p : Path) :
    (l.resolveMark fs p).Recalls (seen.see fs p) ∧ l.Extends (l.resolveMark fs p) := by
  have hsound := h.sound.resolveMark fs p
  cases hp : l.pending fs p with
  | error e =>
    rw [resolveMark_of_error hp] at hsound ⊢
    rw [Sightings.see_of_not_resolved? (h.pending_error hp).2.1]
    exact ⟨h.congr hsound rfl rfl fun _ ↦ rfl, ⟨List.prefix_rfl, id⟩⟩
  | ok r =>
    obtain ⟨n, l'⟩ := r
    rw [resolveMark_of_ok hp] at hsound ⊢
    obtain ⟨hrecalls, hextends, -⟩ := h.pending hp
    obtain ⟨hrecalls, hsame⟩ := hrecalls.setFile hsound RunFile.identity_inScope rfl rfl rfl
    exact ⟨hrecalls, hextends.staged, fun hj ↦ (hsame _).trans (hextends.identityAt hj)⟩

def take (l : Ledger) (c : TimedCall) : Ledger :=
  match c.call with
  | .record p remark => (l.record c.files p remark).2
  | .mark p => l.mark p

def after (l : Ledger) (calls : List TimedCall) : Ledger := calls.foldl take l

theorem Recalls.take (h : l.Recalls seen) (c : TimedCall) :
    (l.take c).Recalls (seen.take c) ∧ l.Extends (l.take c) := by
  obtain ⟨fs, call⟩ := c
  cases call with
  | record p remark =>
    obtain ⟨hrecalls, hextends, -⟩ := h.record fs p remark
    exact ⟨hrecalls, hextends⟩
  | mark p =>
    exact ⟨h.congr (h.sound.congr rfl rfl rfl rfl) rfl rfl fun _ ↦ rfl, List.prefix_rfl, id⟩

theorem Recalls.after (h : l.Recalls seen) (calls : List TimedCall) :
    (l.after calls).Recalls (calls.foldl Sightings.take seen) ∧ l.Extends (l.after calls) := by
  induction calls generalizing l seen with
  | nil => exact ⟨h, .refl l⟩
  | cons c rest ih =>
    obtain ⟨hrecalls, hextends⟩ := h.take c
    obtain ⟨hrest, hextends'⟩ := ih hrecalls
    exact ⟨hrest, hextends.trans hextends'⟩

/-- The indices of a ledger after the calls of a run are the memory of the run. -/
theorem recalls_after (error : Option String) (calls : List TimedCall) :
    (after { error } calls).Recalls (.of calls) := ((Recalls.empty error).after calls).1

theorem of_append (calls : List TimedCall) (c : TimedCall) :
    Sightings.of (calls ++ [c]) = (Sightings.of calls).take c := List.foldl_append

theorem after_append (l : Ledger) (calls : List TimedCall) (c : TimedCall) :
    l.after (calls ++ [c]) = (l.after calls).take c := List.foldl_append

/-- A staged finding comes from a call that recorded it, and stands on the file that the run takes
the path of that call for. -/
theorem call_of_staged (error : Option String) (calls : List TimedCall) {g : RunFinding}
    (hg : g ∈ (after { error } calls).staged) :
    ∃ fs p i, ⟨fs, .record p g.toRemark⟩ ∈ calls ∧
      (Sightings.of calls).kept (Path.parts p) = some i ∧
      (after { error } calls).identityAt g.file = some i := by
  induction calls using List.reverseRecOn with
  | nil => cases hg
  | append_singleton calls c ih =>
    have hrecalls := recalls_after error calls
    have hextends := (hrecalls.take c).2
    -- what has been staged before the last call stays as it is
    have hearlier : g ∈ (after { error } calls).staged →
        ∃ fs p i, ⟨fs, .record p g.toRemark⟩ ∈ calls ++ [c] ∧
          ((Sightings.of calls).take c).kept (Path.parts p) = some i ∧
          ((after { error } calls).take c).identityAt g.file = some i := by
      intro hg
      obtain ⟨fs, p, i, hcall, hkept, hat⟩ := ih hg
      refine ⟨fs, p, i, List.mem_append_left _ hcall, ?_, hextends.identityAt hat⟩
      obtain ⟨fs', call⟩ := c
      cases call with
      | record q remark => exact Sightings.kept_see_of_kept hkept fs' q
      | mark q => exact hkept
    rw [after_append] at hg ⊢
    rw [of_append]
    obtain ⟨fs, call⟩ := c
    cases call with
    | mark p => exact hearlier hg
    | record p remark =>
      obtain ⟨-, -, ⟨herror, -⟩ | ⟨-, n, i, hstaged, hkept, hat⟩⟩ := hrecalls.record fs p remark
      · refine hearlier ?_
        have hsame := record_error herror
        change g ∈ ((after { error } calls).record fs p remark).2.staged at hg
        rwa [hsame] at hg
      · change g ∈ ((after { error } calls).record fs p remark).2.staged at hg
        rw [hstaged] at hg
        rcases List.mem_append.1 hg with hg | hg
        · exact hearlier hg
        · rw [List.mem_singleton.1 hg]
          exact ⟨fs, p, i, List.mem_append_right _ (List.mem_singleton_self _), hkept, hat⟩

theorem marks_after (l : Ledger) (calls : List TimedCall) :
    (l.after calls).marks = l.marks ++ calls.filterMap (·.call.marked?) := by
  induction calls generalizing l with
  | nil => exact (List.append_nil _).symm
  | cons c rest ih =>
    obtain ⟨fs, call⟩ := c
    refine (ih _).trans ?_
    cases call with
    | record p remark => exact congrArg (· ++ _) (marks_record l fs p remark)
    | mark p => exact List.append_assoc ..

/-- What a run takes its paths for at its commit. -/
theorem Recalls.resolveMarks (h : l.Recalls seen) (fs : FileSystem) :
    (l.resolveMarks fs).Recalls (l.marks.foldl (·.see fs) seen) ∧
      l.Extends (l.resolveMarks fs) := by
  have hfold : ∀ (paths : List Path) (l : Ledger) (seen : Sightings), l.Recalls seen →
      (paths.foldl (Ledger.resolveMark fs) l).Recalls (paths.foldl (·.see fs) seen) ∧
        l.Extends (paths.foldl (Ledger.resolveMark fs) l) := by
    intro paths
    induction paths with
    | nil => exact fun l seen h ↦ ⟨h, .refl l⟩
    | cons p rest ih =>
      intro l seen h
      obtain ⟨hrecalls, hextends⟩ := h.resolveMark fs p
      obtain ⟨hrest, hextends'⟩ := ih _ _ hrecalls
      exact ⟨hrest, hextends.trans hextends'⟩
  obtain ⟨hrecalls, hextends⟩ := hfold l.marks { l with marks := [] } seen
    (h.congr (h.sound.congr rfl rfl rfl rfl) rfl rfl fun _ ↦ rfl)
  exact ⟨hrecalls, hextends.staged, hextends.identityAt⟩

theorem recalls_atCommit (error : Option String) (calls : List TimedCall) (fs : FileSystem) :
    ((after { error } calls).resolveMarks fs).Recalls (.atCommit calls fs) := by
  have hrecalls := ((recalls_after error calls).resolveMarks fs).1
  rw [marks_after] at hrecalls
  exact hrecalls

end Ledger

end FindingStore
