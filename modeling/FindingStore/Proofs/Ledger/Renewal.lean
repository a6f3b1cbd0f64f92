import FindingStore.Proofs.Ledger.Afresh

namespace FindingStore.Ledger

variable {σ : Type} {fs : FileSystem}

def cleared (l : Ledger) : Ledger :=
  { l with files := [], canonical := [], aliases := [], staged := [] }

/-- The marks are taken out to be resolved, and to resolve them adds none. -/
theorem cleared_resolveMarks (l : Ledger) (fs : FileSystem) :
    (l.resolveMarks fs).cleared = (l.resolveMarks fs).emptied := by
  unfold cleared emptied
  rw [marks_resolveMarks]

/-- A commit that clears each buffer where it takes it leaves nothing behind. -/
theorem commitOver_eq_cleared (l : Ledger) (fs : FileSystem) (s : Store) (conn : Connection σ)
    (source : Retry.Source) (state : σ) :
    l.commitOver fs s conn source state =
      let l := l.resolveMarks fs
      let (report, s, state) :=
        s.transactOver conn source (fun _ ↦ work s.retention l.files l.staged) () state
      match report.result with
      | .ok r => ⟨.ok r.value, l.cleared, s, state⟩
      | .error e => ⟨.error e, { l.cleared with error := some e.message }, s, state⟩ := by
  dsimp only
  rw [cleared_resolveMarks]
  rfl

/-- A ledger that goes on to tell of an earlier failure, until there is another. -/
def recalling (l : Ledger) (e : Option String) : Ledger := l.annotated id (·.or e)

theorem recalling_of_isSome {l : Ledger} (h : l.error.isSome = true) (e : Option String) :
    l.recalling e = l := by
  obtain ⟨files, canonical, aliases, staged, marks, error⟩ := l
  cases error with
  | none => cases h
  | some text => rfl

theorem isSome_of_recalling {l : Ledger} (h : ∀ e, l.recalling e = l) : l.error.isSome = true := by
  cases herror : l.error with
  | some text => rfl
  | none =>
    have hother : (l.recalling (some "")).error = some "" := by
      unfold recalling annotated
      rw [herror]
      rfl
    rw [h, herror] at hother
    cases hother

section Recalling

variable (l : Ledger) (e : Option String) (p : Path)

theorem record_recalling (remark : Remark) : (l.recalling e).record fs p remark =
    ((l.record fs p remark).1, (l.record fs p remark).2.recalling e) := by
  unfold Ledger.record recalling
  rw [pending_annotated]
  cases l.pending fs p <;> rfl

theorem resolveMark_recalling :
    (l.recalling e).resolveMark fs p = (l.resolveMark fs p).recalling e := by
  unfold Ledger.resolveMark recalling
  rw [pending_annotated]
  cases l.pending fs p <;> rfl

theorem foldl_resolveMark_recalling (marks : List Path) :
    marks.foldl (Ledger.resolveMark fs) (l.recalling e) =
      (marks.foldl (Ledger.resolveMark fs) l).recalling e := by
  induction marks generalizing l with
  | nil => rfl
  | cons p rest ih =>
    rw [List.foldl_cons, List.foldl_cons, resolveMark_recalling]
    exact ih _

theorem resolveMarks_recalling :
    (l.recalling e).resolveMarks fs = (l.resolveMarks fs).recalling e :=
  foldl_resolveMark_recalling { l with marks := [] } e l.marks

/-- A commit of a ledger that tells of an earlier failure differs in nothing else. -/
theorem commitOver_recalling (s : Store) (conn : Connection σ) (source : Retry.Source)
    (state : σ) :
    (l.recalling e).commitOver fs s conn source state =
      { l.commitOver fs s conn source state with
        ledger := (l.commitOver fs s conn source state).ledger.recalling e } := by
  unfold commitOver
  rw [resolveMarks_recalling]
  dsimp only [recalling, annotated]
  split <;> rfl

end Recalling

/-- What happens to a ledger: a call, or a change of the files, or of the rows, that is none of its
doing. -/
inductive Event (σ : Type)
  | call (step : Step)
  | change (f : σ → σ)

def Answer.recalling (a : Answer) (e : Option String) : Answer := { a with error := a.error.or e }

def Answer.isFailure (a : Answer) : Bool := !a.recorded.isOk || !a.committed.isOk

namespace Keeping

variable (files : σ → FileSystem) (conn : Connection σ)

def meet (k : Keeping σ) : Event σ → Answer × Keeping σ
  | .call step => k.step (pending (files k.state)) conn step
  | .change f =>
    ({ error := k.ledger.error, staged := k.ledger.staged.length }, { k with state := f k.state })

def live : Keeping σ → List (Event σ) → List Answer × Keeping σ
  | k, [] => ([], k)
  | k, event :: rest =>
    let (answer, k) := k.meet files conn event
    let (answers, k) := live k rest
    (answer :: answers, k)

def recalling (k : Keeping σ) (e : Option String) : Keeping σ :=
  { k with ledger := k.ledger.recalling e }

theorem meet_recalling (k : Keeping σ) (e : Option String) (event : Event σ) :
    (k.recalling e).meet files conn event =
      ((k.meet files conn event).1.recalling e, (k.meet files conn event).2.recalling e) := by
  cases event with
  | change f => rfl
  | call step =>
    cases step with
    | record p remark =>
      dsimp only [meet, step, recalling]
      rw [recordBy_pending, recordBy_pending, record_recalling]
      rfl
    | mark p => rfl
    | commit source =>
      dsimp only [meet, step, recalling]
      rw [commitBy_pending, commitBy_pending, commitOver_recalling]
      rfl

theorem live_recalling (k : Keeping σ) (e : Option String) (events : List (Event σ)) :
    (k.recalling e).live files conn events =
      ((k.live files conn events).1.map (·.recalling e),
        (k.live files conn events).2.recalling e) := by
  induction events generalizing k with
  | nil => rfl
  | cons event rest ih =>
    unfold live
    rw [meet_recalling]
    dsimp only
    rw [ih]
    rfl

variable {files conn}

theorem isSome_error_meet {k : Keeping σ} {event : Event σ}
    (h : k.ledger.error.isSome = true ∨ (k.meet files conn event).1.isFailure = true) :
    (k.meet files conn event).2.ledger.error.isSome = true := by
  rcases h with h | h
  · -- what it tells of cannot be told from what it goes on to tell of
    refine isSome_of_recalling fun e ↦ ?_
    have hk : k.recalling e = k := by
      unfold recalling
      rw [recalling_of_isSome h]
    have hmeet := meet_recalling files conn k e event
    rw [hk] at hmeet
    exact (congrArg (·.2.ledger) hmeet).symm
  · cases event with
    | change f => cases h
    | call step =>
      cases step with
      | record p remark =>
        dsimp only [meet, step] at h ⊢
        rw [recordBy_pending] at h ⊢
        cases hrecord : (k.ledger.record (files k.state) p remark).1 with
        | error e =>
          rw [record_error hrecord]
          rfl
        | ok _ =>
          rw [hrecord] at h
          cases h
      | mark p => cases h
      | commit source =>
        dsimp only [meet, step] at h ⊢
        rw [commitBy_pending] at h ⊢
        let c := k.ledger.commitOver (files k.state) k.store conn source k.state
        obtain ⟨error, hledger, hfailure⟩ :=
          k.ledger.ledger_commitOver (files k.state) k.store conn source k.state
        cases hresult : c.result with
        | error e =>
          rw [hledger, hfailure e hresult]
          rfl
        | ok counts =>
          rw [hresult] at h
          cases h

theorem isSome_error_live {k : Keeping σ} {events : List (Event σ)}
    (h : k.ledger.error.isSome = true ∨
      ∃ a ∈ (k.live files conn events).1, a.isFailure = true) :
    (k.live files conn events).2.ledger.error.isSome = true := by
  induction events generalizing k with
  | nil =>
    rcases h with h | ⟨a, ha, -⟩
    · exact h
    · cases ha
  | cons event rest ih =>
    unfold live at h ⊢
    dsimp only at h ⊢
    refine ih ?_
    rcases h with h | ⟨a, ha, hfailure⟩
    · exact .inl (isSome_error_meet (.inl h))
    · rcases List.mem_cons.1 ha with rfl | ha
      · exact .inl (isSome_error_meet (.inr hfailure))
      · exact .inr ⟨a, ha, hfailure⟩

end Keeping

/-- After a commit, settled or not, a ledger gives the same results and counts as a new one over
the same store, and leaves the same rows, whatever is called and however the files change in
between. Only the text of the last failure may differ, as the used ledger goes on to tell of one
before. As soon as the new one has a failure to tell of, which it has once a call fails, the two
are the same. -/
theorem used_as_new (files : σ → FileSystem) (conn : Connection σ) (l : Ledger) (fs : FileSystem)
    (s : Store) (source : Retry.Source) (state : σ) (events : List (Event σ)) :
    let c := l.commitOver fs s conn source state
    let used := Keeping.live files conn ⟨c.ledger, c.store, c.state⟩ events
    let new := Keeping.live files conn ⟨{}, c.store, c.state⟩ events
    used.1 = new.1.map (·.recalling c.ledger.error) ∧
      used.2 = new.2.recalling c.ledger.error ∧
      ((∃ a ∈ new.1, a.isFailure = true) → new.2.ledger.error.isSome = true) ∧
      (new.2.ledger.error.isSome = true → used.2 = new.2) := by
  intro c used new
  obtain ⟨error, hledger, -⟩ := l.ledger_commitOver fs s conn source state
  have hused : used = (new.1.map (·.recalling c.ledger.error),
      new.2.recalling c.ledger.error) := by
    have hstart : (⟨c.ledger, c.store, c.state⟩ : Keeping σ) =
        Keeping.recalling ⟨{}, c.store, c.state⟩ c.ledger.error := by
      dsimp only [c, Keeping.recalling]
      rw [hledger]
      rfl
    dsimp only [used]
    rw [hstart, Keeping.live_recalling]
  rw [hused]
  refine ⟨rfl, rfl, fun hfailure ↦ Keeping.isSome_error_live (.inr hfailure), fun hsome ↦ ?_⟩
  unfold Keeping.recalling
  rw [recalling_of_isSome hsome]

theorem vanished_forgotten :
    let s := Store.single .keepAll
    let w := World.single {} (.single [])
    let c := (({} : Ledger).record w.files (Path.ofText "/file") ⟨1, 1, "t", "m"⟩).2.commitOver
      w.files s s.connection {} w
    let events : List (Event World) :=
      [.change fun w ↦ { w with files := {} },
        .call (.record (Path.ofText "/file") ⟨2, 1, "t", "n"⟩), .call (.commit {})]
    let used := Keeping.live World.files s.connection ⟨c.ledger, c.store, c.state⟩ events
    let new := Keeping.live World.files s.connection ⟨{}, c.store, c.state⟩ events
    c.result = .ok { files := 1, findings := 1 } ∧
      used.1.map Answer.recorded =
        [.ok (), .error (.fileNotFound (Path.ofText "/file")), .ok ()] ∧
      (∃ a ∈ new.1, a.isFailure = true) ∧ used.2 = new.2 := by
  intro s w c events used new
  obtain ⟨-, -, htells, hsame⟩ := used_as_new World.files s.connection
    (({} : Ledger).record w.files (Path.ofText "/file") ⟨1, 1, "t", "m"⟩).2 w.files s {} w events
  have hfailure : ∃ a ∈ new.1, a.isFailure = true := by decide +kernel
  exact ⟨by decide +kernel, by decide +kernel, hfailure, hsame (htells hfailure)⟩

end FindingStore.Ledger
