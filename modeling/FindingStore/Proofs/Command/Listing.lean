import FindingStore.Proofs.Command.Ending
import FindingStore.Proofs.Replay.Stopping

namespace FindingStore

/-- The items of a replay, an error among them if it cannot be started. -/
def Store.replay (s : Store) (w : World) : List ReplayItem :=
  match Replay.start s w with
  | .ok r => Replay.items (s.reads w) r
  | .error e => [.error e]

def Finding.opening (f : Finding) : String := s!"{f.path}:{f.line}:{f.column}: ({f.tool}) "

theorem Finding.render_eq (f : Finding) : f.render = f.opening ++ f.message := rfl

namespace Replay

variable {β : Type} {s : Store} {w : World} {e : StoreError}

theorem replay_of_start {r : Replay} (hstart : start s w = .ok r) :
    s.replay w = items (s.reads w) r := by
  rw [Store.replay, hstart]

theorem replay_of_start_error (hstart : start s w = .error e) : s.replay w = [.error e] := by
  rw [Store.replay, hstart]

theorem findings_eq_filterMap (s : Store) (w : World) :
    s.findings w = (s.replay w).filterMap finding? := by
  unfold Store.findings Store.replay
  cases start s w with
  | error e => rfl
  | ok r => rfl

theorem failure_scan_iff (callback : β → Finding → β × Flow) (b : β) (e : StoreError) :
    (scan s w callback b).failure = some e ↔ .error e ∈ s.replay w := by
  cases hstart : start s w with
  | error e' =>
    rw [replay_of_start_error hstart, scan, hstart]
    simp [eq_comm]
  | ok r => rw [replay_of_start hstart, failure_scan hstart]

theorem clean_scan_iff (callback : β → Finding → β × Flow) (b : β) :
    (scan s w callback b).clean = true ↔ ∀ item ∈ s.replay w, ¬ IsBlemish item := by
  cases hstart : start s w with
  | error e =>
    rw [replay_of_start_error hstart, scan, hstart]
    simp [not_isBlemish_error]
  | ok r => rw [replay_of_start hstart, clean_scan hstart]

theorem ofEngine_of_mem_replay (h : .error e ∈ s.replay w) : e.OfEngine := by
  cases hstart : start s w with
  | error e' =>
    rw [replay_of_start_error hstart] at h
    cases List.mem_singleton.1 h
    exact failsByEngine_start s w e hstart
  | ok r =>
    rw [replay_of_start hstart, start_eq_ok hstart, items_eq_itemsOf] at h
    exact ofEngine_of_mem_itemsOf h

theorem itemsOf_eq_append {reads : String → PathReads} {paths : List String}
    (h : .error e ∈ itemsOf reads paths) :
    ∃ before, itemsOf reads paths = before ++ [.error e] ∧ ∀ e', .error e' ∉ before := by
  induction paths with
  | nil => cases h
  | cons path rest ih =>
    rcases henter : (reads path).enter path with (e' | event) | findings <;>
      simp only [itemsOf, henter] at h ⊢
    · cases List.mem_singleton.1 h
      exact ⟨[], rfl, fun _ ↦ List.not_mem_nil⟩
    · have hne (e' : StoreError) : Except.error e' ≠ Except.ok event := fun he ↦ by cases he
      obtain ⟨before, heq, hbefore⟩ := ih ((List.mem_cons.1 h).resolve_left (hne e))
      refine ⟨.ok event :: before, by rw [heq, List.cons_append], fun e' he' ↦ ?_⟩
      exact hbefore e' ((List.mem_cons.1 he').resolve_left (hne e'))
    · have hfindings (e' : StoreError) : .error e' ∉ findings.map findingItem := by
        intro he'
        obtain ⟨f, -, hf⟩ := List.mem_map.1 he'
        cases hf
      obtain ⟨before, heq, hbefore⟩ := ih ((List.mem_append.1 h).resolve_left (hfindings e))
      refine ⟨findings.map findingItem ++ before, by rw [heq, List.append_assoc], fun e' he' ↦ ?_⟩
      exact hbefore e' ((List.mem_append.1 he').resolve_left (hfindings e'))

theorem replay_eq_append (h : .error e ∈ s.replay w) :
    ∃ before, s.replay w = before ++ [.error e] ∧ ∀ e', .error e' ∉ before := by
  cases hstart : start s w with
  | error e' =>
    rw [replay_of_start_error hstart] at h ⊢
    cases List.mem_singleton.1 h
    exact ⟨[], rfl, fun _ ↦ List.not_mem_nil⟩
  | ok r =>
    rw [replay_of_start hstart, start_eq_ok hstart, items_eq_itemsOf] at h ⊢
    exact itemsOf_eq_append h

end Replay

namespace Command

open Replay

variable {fs : FileSystem} {format : Format} {seen : List ReplayItem} {l l' l'' : Listing}
  {item : ReplayItem} {f : Finding} {s : Store} {w v : World}

def unlines (lines : List String) : String := String.join (lines.map (· ++ "\n"))

theorem unlines_append (lines more : List String) :
    unlines (lines ++ more) = unlines lines ++ unlines more := by
  rw [unlines, List.map_append, String.join_append, unlines, unlines]

theorem unlines_singleton (line : String) : unlines [line] = line ++ "\n" := by
  simp [unlines]

def excerpt (fs : FileSystem) (f : Finding) : List String :=
  match (LineBuffer.read fs (Path.ofText f.path)).toOption.bind (·.line? f.line) with
  | some line => ["  " ++ Utf8.decodeLossy line, "  " ++ carets line f.column 1]
  | none => []

def Format.lines (fs : FileSystem) : Format → Finding → List String
  | .plain, f => [f.render]
  | .withSource, f => f.render :: excerpt fs f
  | .json, f => [f.json]

def complaint? : ReplayItem → Option String
  | .ok (.missing path) => some s!"{path}: error: could not find file on disk"
  | .ok (.unmatched path) => some s!"{path}: error: could not find report for current file"
  | .ok (.finding _) | .error _ => none

/-- What has been kept of the files that have been read is what would be read again. -/
def Recalls (fs : FileSystem) (l : Listing) : Prop :=
  ∀ {path : String} {b : Option LineBuffer}, l.buffers.lookup path = some b →
    b = (LineBuffer.read fs (Path.ofText path)).toOption

structure Shows (fs : FileSystem) (l l' : Listing) (lines : List String) : Prop where
  stdout : l'.output.stdout = l.output.stdout ++ unlines lines
  stderr : l'.output.stderr = l.output.stderr
  clean : l'.clean = l.clean
  fatal : l'.fatal = l.fatal
  recalls : Recalls fs l'

theorem Shows.trans {lines more : List String} (h : Shows fs l l' lines)
    (h' : Shows fs l' l'' more) : Shows fs l l'' (lines ++ more) where
  stdout := by rw [h'.stdout, h.stdout, unlines_append, String.append_assoc]
  stderr := h'.stderr.trans h.stderr
  clean := h'.clean.trans h.clean
  fatal := h'.fatal.trans h.fatal
  recalls := h'.recalls

theorem shows_print (h : Recalls fs l) (line : String) :
    Shows fs l { l with output := l.output.print line } [line] := by
  refine ⟨?_, rfl, rfl, rfl, h⟩
  rw [unlines_singleton, ← String.append_assoc]
  rfl

theorem shows_buffer (h : Recalls fs l) (path : String) :
    (l.buffer fs path).1 = (LineBuffer.read fs (Path.ofText path)).toOption ∧
      Shows fs l (l.buffer fs path).2 [] := by
  have hnothing (s : String) : s = s ++ unlines [] := by simp [unlines]
  unfold Listing.buffer
  split
  · next b hb => exact ⟨h hb, hnothing _, rfl, rfl, rfl, h⟩
  · refine ⟨rfl, hnothing _, rfl, rfl, rfl, ?_⟩
    -- the file that has just been read is kept in front of the others
    intro other b hb
    rw [List.lookup_cons] at hb
    split at hb
    · next heq =>
      rw [beq_iff_eq.1 heq]
      exact (Option.some.inj hb).symm
    · exact h hb

theorem shows_source (h : Recalls fs l) (f : Finding) :
    Shows fs l (l.showSource fs f) (excerpt fs f) := by
  obtain ⟨hbuffer, hshows⟩ := shows_buffer h f.path
  unfold Listing.showSource excerpt
  rw [← hbuffer]
  generalize l.buffer fs f.path = read at hshows
  obtain ⟨buffer, l'⟩ := read
  dsimp only at hshows ⊢
  cases buffer.bind fun b ↦ b.line? f.line with
  | none => exact hshows
  | some line =>
    have htext := shows_print hshows.recalls ("  " ++ Utf8.decodeLossy line)
    exact hshows.trans (htext.trans (shows_print htext.recalls _))

theorem shows_finding (h : Recalls fs l) (format : Format) (f : Finding) :
    Shows fs l (l.showFinding fs format f) (format.lines fs f) := by
  cases format with
  | plain => exact shows_print h f.render
  | json => exact shows_print h f.json
  | withSource =>
    have hprinted := shows_print h f.render
    exact hprinted.trans (shows_source hprinted.recalls f)

structure Lists (fs : FileSystem) (format : Format) (seen : List ReplayItem) (l : Listing) :
    Prop where
  stdout : l.output.stdout = unlines ((seen.filterMap finding?).flatMap (format.lines fs))
  stderr : l.output.stderr = unlines (seen.filterMap complaint?)
  clean : l.clean = true ↔ ∀ item ∈ seen, ¬ IsBlemish item
  fatal {e : StoreError} : l.fatal = some e → .error e ∈ seen
  sound : l.fatal = none → ∀ e, .error e ∉ seen
  recalls : Recalls fs l

theorem lists_nil : Lists fs format [] {} :=
  ⟨rfl, rfl, by simp, nofun, fun _ _ ↦ List.not_mem_nil, nofun⟩

section Visiting

variable (h : Lists fs format seen l)

include h

theorem Lists.finding (f : Finding) :
    Lists fs format (seen ++ [findingItem f]) (l.showFinding fs format f) := by
  have hshows := shows_finding h.recalls format f
  refine ⟨?_, ?_, ?_, ?_, ?_, hshows.recalls⟩
  · rw [hshows.stdout, h.stdout, List.filterMap_append, List.flatMap_append, unlines_append]
    simp [findingItem, finding?]
  · rw [hshows.stderr, h.stderr]
    simp [findingItem, complaint?, List.filterMap_cons]
  · rw [hshows.clean, h.clean]
    simp [or_imp, forall_and, not_isBlemish_findingItem]
  · intro e he
    rw [hshows.fatal] at he
    exact List.mem_append_left _ (h.fatal he)
  · intro he e
    rw [hshows.fatal] at he
    simp [findingItem, h.sound he e]

theorem Lists.blemish (hitem : IsBlemish item) {line : String}
    (hline : complaint? item = some line) :
    Lists fs format (seen ++ [item]) { l with output := l.output.warn line, clean := false } := by
  have hnone : finding? item = none := by
    obtain ⟨path, rfl | rfl⟩ := hitem <;> rfl
  have hnoError : ∀ e, item ≠ .error e := by
    obtain ⟨path, rfl | rfl⟩ := hitem <;> exact nofun
  refine ⟨?_, ?_, ?_, ?_, ?_, h.recalls⟩
  · simp [hnone, h.stdout, Output.warn]
  · rw [List.filterMap_append, unlines_append, ← h.stderr]
    simp [hline, unlines_singleton, Output.warn, String.append_assoc]
  · simp [hitem]
  · intro e he
    exact List.mem_append_left _ (h.fatal he)
  · intro he e
    simp [h.sound he e, (hnoError e).symm]

theorem Lists.error (e : StoreError) :
    Lists fs format (seen ++ [.error e]) { l with fatal := some e } := by
  refine ⟨?_, ?_, ?_, ?_, nofun, h.recalls⟩
  · simp [finding?, h.stdout, List.filterMap_cons]
  · simp [complaint?, h.stderr, List.filterMap_cons]
  · simp [h.clean, or_imp, forall_and, not_isBlemish_error]
  · rintro _ ⟨⟩
    simp

theorem Lists.visit (item : ReplayItem) :
    Lists fs format (seen ++ [item]) (l.visit fs format item).1 := by
  rcases item with e | (f | path | path)
  · exact h.error e
  · exact h.finding f
  · exact h.blemish ⟨path, .inl rfl⟩ rfl
  · exact h.blemish ⟨path, .inr rfl⟩ rfl

end Visiting

theorem Lists.foldl (h : Lists fs format seen l) (items : List ReplayItem) :
    Lists fs format (seen ++ items)
      (items.foldl (fun l item ↦ (l.visit fs format item).1) l) := by
  induction items generalizing seen l with
  | nil => simpa using h
  | cons item rest ih =>
    have hrest := ih (h.visit item)
    rwa [List.append_assoc] at hrest

def heard (s : Store) (w : World) : Scan (List Finding) :=
  scan s w (taking fun seen f ↦ seen ++ [f]) []

def farewell (failure : Option StoreError) : List String :=
  (failure.map fun e ↦ (Fatal.store e).message).toList

theorem state_heard (s : Store) (w : World) : (heard s w).state = s.findings w := by
  rw [heard, (scan_taking _ _).1, List.foldl_append_eq_append, ← List.flatMap_def,
    List.flatMap_singleton', List.nil_append]

/-- Every callback that goes on is given the same findings, and its scan returns the same. -/
theorem scan_eq_heard {β : Type} (s : Store) (w : World) (take : β → Finding → β) (b : β) :
    (scan s w (taking take) b).state = (heard s w).state.foldl take b ∧
      (scan s w (taking take) b).returned = (heard s w).returned := by
  refine ⟨?_, ?_⟩
  · rw [state_heard]
    exact (scan_taking take b).1
  · obtain ⟨hclean, hfailure⟩ := Prod.mk.inj (verdict_scan (s := s) (w := w) (taking take)
      (taking fun seen f ↦ seen ++ [f]) b [])
    rw [Scan.returned, hclean, hfailure]
    rfl

theorem heard_broken {e : StoreError} (he : (heard s w).returned = .error e) :
    ∃ before, s.replay w = before ++ [.error e] ∧ (∀ e', .error e' ∉ before) ∧
      (heard s w).state = before.filterMap finding? := by
  have hfailure : (heard s w).failure = some e := by
    unfold Scan.returned at he
    split at he
    · next he' =>
      cases he
      exact he'
    · cases he
  obtain ⟨before, hbefore, hnone⟩ := replay_eq_append ((failure_scan_iff _ _ e).1 hfailure)
  refine ⟨before, hbefore, hnone, ?_⟩
  rw [state_heard, findings_eq_filterMap, hbefore, List.filterMap_append]
  exact List.append_nil _

def Listing.conclude (l : Listing) (w : World) : Result :=
  match l.fatal with
  | some e => die l.output w (.store e)
  | none => finish l.output l.clean w

section Concluding

variable (h : Lists w.files format (s.replay w) l)

include h

theorem Lists.fatal_eq : (heard s w).failure = l.fatal := by
  have hfailure := failure_scan_iff (s := s) (w := w) (taking fun seen f ↦ seen ++ [f]) []
  cases hend : l.fatal with
  | some e => exact (hfailure e).2 (h.fatal hend)
  | none =>
    rw [Option.eq_none_iff_forall_ne_some]
    intro e he
    exact h.sound hend e ((hfailure e).1 he)

theorem Lists.clean_eq : (heard s w).clean = l.clean :=
  Bool.eq_iff_iff.2 ((clean_scan_iff _ _).trans h.clean.symm)

theorem Lists.conclude_error {e : StoreError} (he : l.fatal = some e) :
    (l.conclude w).output = l.output.warn (Fatal.store e).message ∧
      (l.conclude w).status = .failure := by
  unfold Listing.conclude
  rw [he]
  have hengine := (ofEngine_of_mem_replay (h.fatal he)).ne_timeoutTooLong
  exact (output_die l.output w (.store e)).1 fun hf ↦ hengine (Fatal.store.inj hf)

theorem Lists.status_iff :
    (l.conclude w).status = .success ↔ (heard s w).returned = .ok true := by
  unfold Scan.returned
  rw [h.fatal_eq, h.clean_eq]
  cases hfatal : l.fatal with
  | some e =>
    rw [(h.conclude_error hfatal).2]
    exact iff_of_false nofun nofun
  | none =>
    unfold Listing.conclude
    rw [hfatal]
    cases l.clean <;> simp [finish]

theorem Lists.stdout_eq :
    (l.conclude w).output.stdout = unlines ((heard s w).state.flatMap (format.lines w.files)) := by
  rw [state_heard, findings_eq_filterMap, ← h.stdout]
  cases hfatal : l.fatal with
  | some e =>
    rw [(h.conclude_error hfatal).1]
    rfl
  | none =>
    unfold Listing.conclude
    rw [hfatal]
    rfl

theorem Lists.stderr_eq :
    (l.conclude w).output.stderr =
      unlines ((s.replay w).filterMap complaint? ++ farewell (heard s w).failure) := by
  rw [unlines_append, ← h.stderr, h.fatal_eq]
  cases hfatal : l.fatal with
  | some e =>
    rw [(h.conclude_error hfatal).1]
    simp [farewell, Output.warn, unlines_singleton, String.append_assoc]
  | none =>
    unfold Listing.conclude
    rw [hfatal]
    simp [finish, farewell, unlines]

end Concluding

theorem Listing.world_conclude (l : Listing) (w : World) : (l.conclude w).world = w := by
  unfold Listing.conclude
  split
  · exact world_die ..
  · rfl

/-- A report shows what a replay yields, and ends. -/
theorem reportFindings_eq (format : Format) (s : Store) (w : World) :
    ∃ l, Lists (s.look w).files format (s.replay (s.look w)) l ∧
      reportFindings format s w = l.conclude (s.look w) := by
  unfold reportFindings
  dsimp only
  generalize s.look w = u
  have hvisit (l : Listing) (item : ReplayItem) : (l.visit u.files format item).2 = .proceed := by
    rcases item with e | (f | path | path) <;> rfl
  refine ⟨_, lists_nil.foldl (s.replay u), ?_⟩
  cases hstart : start s u with
  | error e =>
    rw [replay_of_start_error hstart]
    rfl
  | ok r =>
    rw [replay_of_start hstart, start_eq_ok hstart, items_eq_itemsOf]
    dsimp only
    rw [fold_eq_foldl hvisit]
    rfl

theorem run_report {config : Config} {db : Option Path}
    (hopen : openStore w config db = (.ok s, v)) (source json : Bool) :
    run w config (.report db source json) =
      { reportFindings (.of source json) s v with
          world := s.close (reportFindings (.of source json) s v).world } := by
  simp only [run, withStore, hopen]

end Command

end FindingStore
