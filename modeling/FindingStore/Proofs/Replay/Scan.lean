import FindingStore.Proofs.Replay.Items

namespace FindingStore

def finding? : ReplayItem → Option Finding
  | .ok (.finding f) => some f
  | _ => none

def Store.findings (s : Store) (w : World) : List Finding :=
  match Replay.start s w with
  | .ok r => (Replay.items (s.reads w) r).filterMap finding?
  | .error _ => []

def Store.IsClean (s : Store) (w : World) : Prop :=
  ∃ r, Replay.start s w = .ok r ∧ ∀ item ∈ Replay.items (s.reads w) r, (finding? item).isSome

namespace Replay

def IsBlemish (item : ReplayItem) : Prop :=
  ∃ path, item = .ok (.missing path) ∨ item = .ok (.unmatched path)

theorem not_isBlemish_findingItem (f : Finding) : ¬ IsBlemish (findingItem f) := by
  rintro ⟨path, h | h⟩ <;> cases h

theorem not_isBlemish_error (e : StoreError) : ¬ IsBlemish (.error e) := by
  rintro ⟨path, h | h⟩ <;> cases h

theorem isSome_finding?_iff {item : ReplayItem} :
    (finding? item).isSome = true ↔ (∀ e, item ≠ .error e) ∧ ¬ IsBlemish item := by
  rcases item with e | (f | path | path)
  · exact iff_of_false nofun fun h ↦ h.1 e rfl
  · exact iff_of_true rfl ⟨nofun, not_isBlemish_findingItem f⟩
  · exact iff_of_false nofun fun h ↦ h.2 ⟨path, .inl rfl⟩
  · exact iff_of_false nofun fun h ↦ h.2 ⟨path, .inr rfl⟩

section Verdict

variable {β γ : Type} {s : Store} {w : World} {r : Replay} {reads : String → PathReads}
  {callback : β → Finding → β × Flow}

def Scan.verdict (scan : Scan β) : Bool × Option StoreError := (scan.clean, scan.failure)

theorem verdict_feed (callback : β → Finding → β × Flow) (scan : Scan β)
    (findings : List Finding) :
    (feed (Scan.visit callback) scan findings).verdict = scan.verdict := by
  induction findings generalizing scan with
  | nil => rfl
  | cons f more ih =>
    rcases hflow : callback scan.state f with ⟨state, flow⟩
    have hvisit : Scan.visit callback scan (.ok (.finding f)) = ({ scan with state }, flow) := by
      simp only [Scan.visit, hflow]
    unfold feed
    rw [hvisit]
    cases flow with
    | proceed => exact ih _
    | nextFile => rfl

theorem clean_foldPaths (scan : Scan β) (paths : List String) :
    (foldPaths reads (Scan.visit callback) scan paths).clean = true ↔
      scan.clean = true ∧ ∀ item ∈ itemsOf reads paths, ¬ IsBlemish item := by
  induction paths generalizing scan with
  | nil => simp [foldPaths, itemsOf]
  | cons path rest ih =>
    unfold foldPaths itemsOf
    cases henter : (reads path).enter path with
    | error item =>
      rcases item with e | event
      · simp [Scan.visit, not_isBlemish_error]
      · obtain ⟨hevent, hvisit⟩ : IsBlemish (.ok event) ∧
            (Scan.visit callback scan (.ok event)).1.clean = false := by
          rcases event with f | missing | unmatched
          · exact absurd henter (PathReads.enter_ne_finding _ _ f)
          · exact ⟨⟨missing, .inl rfl⟩, rfl⟩
          · exact ⟨⟨unmatched, .inr rfl⟩, rfl⟩
        refine (ih _).trans (iff_of_false (fun h ↦ ?_) fun h ↦ ?_)
        · cases hvisit.symm.trans h.1
        · exact h.2 _ List.mem_cons_self hevent
    | ok findings =>
      have hclean := (Prod.mk.inj (verdict_feed callback scan findings)).1
      dsimp only
      rw [ih, hclean, List.forall_mem_append]
      have hfindings : ∀ item ∈ findings.map findingItem, ¬ IsBlemish item := by
        intro item hitem
        obtain ⟨f, -, rfl⟩ := List.mem_map.1 hitem
        exact not_isBlemish_findingItem f
      exact and_congr_right fun _ ↦ (and_iff_right hfindings).symm

theorem failure_foldPaths {scan : Scan β} (hscan : scan.failure = none) (paths : List String)
    (e : StoreError) :
    (foldPaths reads (Scan.visit callback) scan paths).failure = some e ↔
      (.error e : ReplayItem) ∈ itemsOf reads paths := by
  have hblemished {scan : Scan β} (hscan : scan.failure = none) :
      { scan with clean := false }.failure = none := hscan
  induction paths generalizing scan with
  | nil => simp [foldPaths, itemsOf, hscan]
  | cons path rest ih =>
    unfold foldPaths itemsOf
    cases henter : (reads path).enter path with
    | error item =>
      rcases item with e' | (f | missing | unmatched)
      · simp [Scan.visit, eq_comm]
      · exact absurd henter (PathReads.enter_ne_finding _ _ f)
      · simpa [Scan.visit] using ih (hblemished hscan)
      · simpa [Scan.visit] using ih (hblemished hscan)
    | ok findings =>
      have hfailure := (Prod.mk.inj (verdict_feed callback scan findings)).2
      have hfindings : (.error e : ReplayItem) ∉ findings.map findingItem := by
        intro h
        obtain ⟨f, -, hf⟩ := List.mem_map.1 h
        cases hf
      dsimp only
      rw [List.mem_append, or_iff_right hfindings]
      exact ih (hfailure.trans hscan)

theorem scan_of_start (hstart : start s w = .ok r) (callback : β → Finding → β × Flow) (b : β) :
    scan s w callback b =
      foldPaths (s.reads w) (Scan.visit callback) { state := b } r.paths := by
  unfold scan
  rw [hstart, start_eq_ok hstart]
  rfl

theorem findings_of_start (hstart : start s w = .ok r) :
    s.findings w = (itemsOf (s.reads w) r.paths).filterMap finding? := by
  unfold Store.findings
  rw [hstart]
  dsimp only
  rw [start_eq_ok hstart, items_eq_itemsOf]

theorem clean_scan (hstart : start s w = .ok r) (callback : β → Finding → β × Flow) (b : β) :
    (scan s w callback b).clean = true ↔ ∀ item ∈ items (s.reads w) r, ¬ IsBlemish item := by
  rw [scan_of_start hstart, clean_foldPaths, start_eq_ok hstart, items_eq_itemsOf]
  exact and_iff_right rfl

theorem failure_scan (hstart : start s w = .ok r) (callback : β → Finding → β × Flow) (b : β)
    (e : StoreError) :
    (scan s w callback b).failure = some e ↔ (.error e : ReplayItem) ∈ items (s.reads w) r := by
  rw [scan_of_start hstart, failure_foldPaths rfl, start_eq_ok hstart, items_eq_itemsOf]

theorem failure_scan_eq_none (hstart : start s w = .ok r) (callback : β → Finding → β × Flow)
    (b : β) :
    (scan s w callback b).failure = none ↔
      ∀ e, (.error e : ReplayItem) ∉ items (s.reads w) r := by
  rw [Option.eq_none_iff_forall_ne_some]
  exact forall_congr' fun e ↦ not_congr (failure_scan hstart callback b e)

/-- What a callback does with the findings has no influence on what a scan finds out, not even
if it leaves out the rest of a file. -/
theorem verdict_scan (callback : β → Finding → β × Flow) (callback' : γ → Finding → γ × Flow)
    (b : β) (b' : γ) : (scan s w callback b).verdict = (scan s w callback' b').verdict := by
  cases hstart : start s w with
  | error e =>
    unfold scan
    rw [hstart]
    rfl
  | ok r =>
    refine Prod.ext ?_ (Option.ext fun e ↦ ?_)
    · exact Bool.eq_iff_iff.2 ((clean_scan hstart callback b).trans
        (clean_scan hstart callback' b').symm)
    · exact (failure_scan hstart callback b e).trans (failure_scan hstart callback' b' e).symm

end Verdict

section Taking

variable {β : Type} {s : Store} {w : World}

def taking (take : β → Finding → β) (b : β) (f : Finding) : β × Flow := (take b f, .proceed)

theorem state_foldl_visit (take : β → Finding → β) (its : List ReplayItem) (scan : Scan β) :
    (its.foldl (fun scan item ↦ (Scan.visit (taking take) scan item).1) scan).state =
      (its.filterMap finding?).foldl take scan.state := by
  induction its generalizing scan with
  | nil => rfl
  | cons item rest ih =>
    rw [List.foldl_cons]
    refine (ih _).trans ?_
    rcases item with e | (f | path | path) <;> rfl

theorem scan_taking (take : β → Finding → β) (b : β) :
    (scan s w (taking take) b).state = (s.findings w).foldl take b ∧
      ((scan s w (taking take) b).failure = none ∧ (scan s w (taking take) b).clean = true ↔
        s.IsClean w) := by
  cases hstart : start s w with
  | error e =>
    unfold scan Store.findings Store.IsClean
    simp [hstart]
  | ok r =>
    have hvisit : ∀ (scan : Scan β) item, (Scan.visit (taking take) scan item).2 = .proceed := by
      rintro scan (e | (f | path | path)) <;> rfl
    refine ⟨?_, ?_⟩
    · rw [scan_of_start hstart, foldPaths_eq_foldl hvisit, state_foldl_visit,
        findings_of_start hstart]
    · rw [failure_scan_eq_none hstart, clean_scan hstart]
      constructor
      · rintro ⟨herror, hblemish⟩
        refine ⟨r, hstart, fun item hitem ↦ isSome_finding?_iff.2 ⟨?_, hblemish item hitem⟩⟩
        rintro e rfl
        exact herror e hitem
      · rintro ⟨r', hstart', hclean⟩
        obtain rfl := Except.ok.inj (hstart.symm.trans hstart')
        refine ⟨fun e he ↦ ?_, fun item hitem ↦ (isSome_finding?_iff.1 (hclean item hitem)).2⟩
        cases hclean _ he

end Taking

end Replay

end FindingStore
