import FindingStore.Proofs.Database.Isolation
import FindingStore.Proofs.Database.Rows
import FindingStore.Proofs.Outcome

namespace FindingStore

structure Access.Writes (a : Access) : Prop where
  takesLocks : a.takesLocks = true
  readOnly : a.readOnly = false
  isFrozen : a.isFrozen = false

theorem Tables.eq_of_not_hasEffect {t u : Tables} {deferred : Bool} {q : Query} {reply : q.Reply}
    (h : t.apply deferred q = .ok (reply, u)) (he : q.hasEffect reply = false) : u = t := by
  cases q
  case insertFile | insertReport | rejectReports => cases he
  case deleteFile | deleteAllFiles | deleteOlder | deleteSuperseded =>
    simp only [Tables.apply, Tables.delete, Except.ok.injEq, Prod.mk.injEq] at h
    obtain ⟨rfl, rfl⟩ := h
    simp only [Query.hasEffect, decide_eq_false_iff_not, Decidable.not_not] at he
    exact Tables.deleteFiles_eq_self fun f hf ↦
      Bool.eq_false_iff.2 (List.filter_eq_nil_iff.1 (List.eq_nil_of_length_eq_zero he) f hf)
  case reportedPaths | reportsOf | recordsOf =>
    obtain ⟨rows, -, hrows⟩ := map_eq_ok.1 h
    cases hrows
    rfl
  all_goals
    cases h
    rfl

namespace Database

variable {d : Database} {a : Access} {t : Tables} {u : Draft} {session : Nat}

def IsLogged (d : Database) : Prop := ∃ log, d.log = some log ∧ log.isWritable = true

structure Rests (d : Database) (t : Tables) : Prop where
  contents : d.contents = .tables t
  writer : d.writer = none
  strays : d.strays = []
  readers : d.readers = []

structure Drafts (d : Database) (session : Nat) (t : Tables) (u : Draft) : Prop where
  contents : d.contents = .tables t
  writer : ∃ w, d.writer = some w ∧ w.session = session ∧ w.deferred = u.deferred ∧
    d.working w = .tables u.tables
  strays : d.strays = []
  readers : d.readers = []

theorem Rests.neighbour? (h : d.Rests t) (a : Access) : d.neighbour? a = none := by
  simp [Database.neighbour?, h.writer, h.strays]

theorem Rests.own? (h : d.Rests t) (a : Access) : d.own? a = none := by
  simp [Database.own?, h.writer, h.strays]

theorem Rests.reader? (h : d.Rests t) (a : Access) : d.reader? a = none := by
  simp [Database.reader?, h.readers]

theorem Rests.isBusy (h : d.Rests t) (a : Access) : d.isBusy a = false := by
  simp [Database.isBusy, h.own? a, h.reader? a]

theorem Rests.schemaLock? (h : d.Rests t) (a : Access) : d.schemaLock? a = none := by
  simp [Database.schemaLock?, h.neighbour? a]

theorem Rests.view (h : d.Rests t) (hf : a.isFrozen = false) (hs : a.sight = none) :
    d.view a = .tables t := by
  simp [Database.view, Database.seen, h.schemaLock? a, h.own? a, h.reader? a, hs, hf, h.contents]

theorem Rests.lockError? (h : d.Rests t) (hl : d.IsLogged) (ha : a.Writes) :
    d.lockError? a = none := by
  obtain ⟨log, hlog, hw⟩ := hl
  simp [Database.lockError?, h.neighbour? a, h.writer, hlog, hw, ha.readOnly]

theorem Rests.begin (h : d.Rests t) (hl : d.IsLogged) (ha : a.Writes) (hs : a.sight = none) :
    d.execute a .begin =
      (.ok (), { d with writer := some { session := a.session, cache := a.cache } }) := by
  simp [Database.execute, Database.begin, h.schemaLock? a, h.isBusy a, h.view ha.isFrozen hs,
    h.lockError? hl ha, ha.readOnly, Access.isOutside, hs, Database.setOwn, ha.takesLocks]

theorem Rests.begin_blind (h : d.Rests t) {e : SqlError} (hs : a.sight = some (.unusable e)) :
    d.execute a .begin = (.error e, d) := by
  have hview : d.view a = .unusable e := by
    simp [Database.view, Database.seen, h.schemaLock? a, h.own? a, h.reader? a, hs]
  simp only [Database.execute, h.schemaLock? a, Database.begin, h.isBusy a, hview,
    Bool.false_eq_true, if_false]

theorem Rests.read (h : d.Rests t) (hf : a.isFrozen = false) (hs : a.sight = none) {q : Query}
    (hq : q.writes = false) :
    d.execute a (.query q) = ((t.apply false q).map Prod.fst, d) := by
  simp only [Database.execute, h.schemaLock? a, Database.run, h.own? a, Database.runAlone,
    h.view hf hs, hq, Contents.apply, Database.tableLock?, h.neighbour? a]
  cases hr : t.apply false q with
  | error e => simp [Except.map]
  | ok r => simp [Except.map, hasEffect_of_reads hq]

theorem Drafts.own? (h : d.Drafts a.session t u) (ha : a.Writes) :
    ∃ w, d.own? a = some w ∧ w.session = a.session ∧ w.deferred = u.deferred ∧
      d.working w = .tables u.tables := by
  obtain ⟨w, hw, hsession, hdeferred, hworking⟩ := h.writer
  exact ⟨w, by simp [Database.own?, ha.takesLocks, hw, hsession], hsession, hdeferred, hworking⟩

theorem Drafts.schemaLock? (h : d.Drafts a.session t u) : d.schemaLock? a = none := by
  obtain ⟨w, hw, hsession, -⟩ := h.writer
  simp [Database.schemaLock?, Database.neighbour?, hw, hsession, h.strays]

theorem journalError?_of_isLogged (hl : d.IsLogged) (a : Access) : d.journalError? a = none := by
  obtain ⟨log, hlog, -⟩ := hl
  simp [Database.journalError?, hlog]

theorem readingError?_of_isLogged (hl : d.IsLogged) (a : Access) : d.readingError? a = none := by
  obtain ⟨log, hlog, -⟩ := hl
  simp [Database.readingError?, hlog]

theorem Drafts.setOwn (h : d.Drafts a.session t u) (ha : a.Writes) {w : Writer} {v : Draft}
    (hw : w.session = a.session) (hd : w.deferred = v.deferred)
    (hv : d.working w = .tables v.tables) :
    (d.setOwn a w).Drafts a.session t v := by
  have heq : d.setOwn a w = { d with writer := some w } := by
    simp [Database.setOwn, ha.takesLocks]
  rw [heq]
  exact ⟨h.contents, ⟨w, rfl, hw, hd, hv⟩, h.strays, h.readers⟩

theorem log_setOwn (d : Database) (a : Access) (w : Writer) : (d.setOwn a w).log = d.log := by
  unfold Database.setOwn
  split <;> rfl

/-- A query in a transaction acts on the draft, and it fails only if it fails on the draft. -/
theorem Drafts.query (h : d.Drafts a.session t u) (hl : d.IsLogged) (ha : a.Writes) (q : Query) :
    ∃ d', d'.log = d.log ∧
      ((∃ e, u.tables.apply u.deferred q = .error e ∧
          d.execute a (.query q) = (.error e, d') ∧ d'.Drafts a.session t u) ∨
        ∃ reply v, u.tables.apply u.deferred q = .ok (reply, v) ∧
          d.execute a (.query q) = (.ok reply, d') ∧
          d'.Drafts a.session t { u with tables := v }) := by
  obtain ⟨w, hw, hsession, hdeferred, hworking⟩ := h.own? ha
  obtain ⟨session, cache, draft, deferred, parts⟩ := w
  obtain rfl : deferred = u.deferred := hdeferred
  let touched : Writer :=
    { session, cache, draft, deferred := u.deferred,
      touched := parts ++ q.changes.filter (!parts.contains ·) }
  have htouched : (d.setOwn a touched).Drafts a.session t u := h.setOwn ha hsession rfl hworking
  simp only [Database.execute, h.schemaLock?, Database.run, hw, hworking, Contents.apply]
  cases hq : u.tables.apply u.deferred q with
  | error e =>
    simp only [Except.map]
    refine ⟨if q.writes && !e.isStatic then d.setOwn a touched else d, ?_, .inl ⟨e, rfl, rfl, ?_⟩⟩
    · split
      · exact log_setOwn d a touched
      · rfl
    · split
      · exact htouched
      · exact h
  | ok r =>
    obtain ⟨reply, v⟩ := r
    simp only [Except.map]
    cases he : q.hasEffect reply with
    | false =>
      simp only [Bool.not_false, if_true]
      have hv : v = u.tables := Tables.eq_of_not_hasEffect hq he
      refine ⟨if q.writes then d.setOwn a touched else d, ?_, .inr ⟨reply, v, rfl, rfl, ?_⟩⟩
      · split
        · exact log_setOwn d a touched
        · rfl
      · rw [hv]
        split
        · exact htouched
        · exact h
    | true =>
      have hj : (if draft.isNone then d.journalError? a else none) = none := by
        rw [journalError?_of_isLogged hl a, ite_self]
      simp only [Bool.not_true, Bool.false_eq_true, if_false, hj]
      refine ⟨_, log_setOwn d a _, .inr ⟨reply, v, rfl, rfl, ?_⟩⟩
      exact h.setOwn ha hsession rfl rfl

theorem Drafts.defer (h : d.Drafts a.session t u) (ha : a.Writes) :
    ∃ d', d.execute a .deferForeignKeys = (.ok (), d') ∧ d'.log = d.log ∧
      d'.Drafts a.session t { u with deferred := true } := by
  obtain ⟨w, hw, hsession, -, hworking⟩ := h.own? ha
  simp only [Database.execute, h.schemaLock?, Database.deferForeignKeys, hw]
  exact ⟨_, rfl, log_setOwn d a _, h.setOwn ha hsession rfl hworking⟩

/-- A commit puts the draft in the place of the tables, or it fails, and the transaction lasts. It
only fails if the foreign keys have been left to it. -/
theorem Drafts.commit (h : d.Drafts a.session t u) (hl : d.IsLogged) (ha : a.Writes) :
    ∃ d', d'.log = d.log ∧
      ((∃ e, u.deferred = true ∧ d.execute a .commit = (.error e, d') ∧
          d'.Drafts a.session t u) ∨
        d.execute a .commit = (.ok (), d') ∧ d'.Rests u.tables) := by
  obtain ⟨w, hw, -, hdeferred, hworking⟩ := h.own? ha
  have hdrop : d.dropOwn a = { d with writer := none } := by
    simp [Database.dropOwn, ha.takesLocks]
  simp only [Database.execute, h.schemaLock?, Database.commit, hw]
  split
  · next hbroken =>
    rw [Bool.and_eq_true, hdeferred] at hbroken
    exact ⟨d, rfl, .inl ⟨_, hbroken.1, rfl, h⟩⟩
  · simp only [readingError?_of_isLogged hl a, hdrop]
    cases hdraft : w.draft with
    | none =>
      have hu : Contents.tables t = .tables u.tables := by
        rw [← h.contents, ← hworking, Database.working, hdraft, Option.getD_none]
      exact ⟨{ d with writer := none }, rfl,
        .inr ⟨rfl, h.contents.trans hu, rfl, h.strays, h.readers⟩⟩
    | some contents =>
      have hu : contents = .tables u.tables := by
        rw [← hworking, Database.working, hdraft, Option.getD_some]
      exact ⟨({ d with writer := none } : Database).publish contents, rfl,
        .inr ⟨rfl, hu, rfl, h.strays, h.readers⟩⟩

theorem Drafts.rollback (h : d.Drafts a.session t u) (ha : a.Writes) :
    ∃ d', d.execute a .rollback = (.ok (), d') ∧ d'.log = d.log ∧ d'.Rests t := by
  obtain ⟨w, hw, -⟩ := h.own? ha
  have hdrop : d.dropOwn a = { d with writer := none } := by
    simp [Database.dropOwn, ha.takesLocks]
  simp only [Database.execute, h.schemaLock?, Database.rollback, hw, hdrop]
  exact ⟨_, rfl, rfl, ⟨h.contents, rfl, h.strays, h.readers⟩⟩

theorem Drafts.begin_other (h : d.Drafts session t u) (ha : a.Writes) (hs : a.isOutside = false)
    (hne : a.session ≠ session) : ∃ e, d.execute a .begin = (.error e, d) := by
  obtain ⟨w, hw, hsession, -⟩ := h.writer
  have hbusy : d.isBusy a = false := by
    simp [Database.isBusy, Database.own?, Database.reader?, ha.takesLocks, hw, hsession, hne.symm,
      h.readers]
  have hlock : ∃ e, d.lockError? a = some e := by
    unfold Database.lockError?
    repeat' split
    · exact ⟨_, rfl⟩
    · exact ⟨_, rfl⟩
    · exact ⟨_, rfl⟩
    · next hfree => simp [ha.takesLocks, hw] at hfree
  obtain ⟨e, he⟩ := hlock
  unfold Database.execute
  split
  · next e _ => exact ⟨e, rfl⟩
  · simp only [Database.begin, hbusy, ha.readOnly, hs, he, Option.some_or, Bool.or_self,
      Bool.false_eq_true, if_false]
    split
    · next e _ => exact ⟨e, rfl⟩
    · exact ⟨e, rfl⟩

/-- What becomes of a database when a session acts on it: its log stays, and its contents are
changed by a change that counts. -/
structure Evolves (d e : Database) : Prop where
  log : e.log = d.log
  contents : e.contents = d.contents ∨ e.changeCount ≠ d.changeCount

theorem evolves_refl (d : Database) : d.Evolves d := ⟨rfl, .inl rfl⟩

theorem evolves_setOwn (d : Database) (a : Access) (w : Writer) : d.Evolves (d.setOwn a w) := by
  unfold Database.setOwn
  split <;> exact ⟨rfl, .inl rfl⟩

theorem evolves_dropOwn (d : Database) (a : Access) : d.Evolves (d.dropOwn a) := by
  unfold Database.dropOwn
  split <;> exact ⟨rfl, .inl rfl⟩

theorem evolves_publish (d : Database) (contents : Contents) : d.Evolves (d.publish contents) :=
  ⟨rfl, .inr (Nat.succ_ne_self _)⟩

theorem evolves_publish_dropOwn (d : Database) (a : Access) (contents : Contents) :
    d.Evolves ((d.dropOwn a).publish contents) := by
  unfold Database.dropOwn
  split <;> exact ⟨rfl, .inr (Nat.succ_ne_self _)⟩

theorem evolves_endReading (d : Database) (a : Access) (e : SqlError) :
    d.Evolves (d.endReading a e).2 := by
  unfold Database.endReading
  split <;> exact ⟨rfl, .inl rfl⟩

theorem kept_rollback (d : Database) (a : Access) :
    (d.rollback a).2.log = d.log ∧ (d.rollback a).2.contents = d.contents ∧
      (d.rollback a).2.changeCount = d.changeCount := by
  unfold Database.rollback
  split
  · unfold Database.endReading
    split <;> exact ⟨rfl, rfl, rfl⟩
  · unfold Database.dropOwn
    split <;> exact ⟨rfl, rfl, rfl⟩

theorem evolves_runAlone (d : Database) (a : Access) (q : Query) :
    d.Evolves (d.runAlone a q).2 := by
  unfold Database.runAlone
  split
  · exact d.evolves_refl
  · split
    · exact d.evolves_refl
    · exact d.evolves_refl
    · dsimp only
      split
      · exact d.evolves_refl
      · split
        · exact d.evolves_publish _
        · exact d.evolves_refl

theorem evolves_run (d : Database) (a : Access) (q : Query) : d.Evolves (d.run a q).2 := by
  have hset (w : Writer) := d.evolves_setOwn a w
  unfold Database.run
  split
  · exact d.evolves_runAlone a q
  · dsimp only
    split
    · split
      · exact hset _
      · exact d.evolves_refl
    · split
      · split
        · exact hset _
        · exact d.evolves_refl
      · split
        · unfold Database.failWriting
          split
          · exact d.evolves_dropOwn a
          · exact hset _
        · exact hset _

theorem evolves_execute (d : Database) (a : Access) (s : Statement) :
    d.Evolves (d.execute a s).2 := by
  unfold Database.execute
  split
  · exact d.evolves_refl
  · cases s with
    | begin =>
      simp only [Database.begin]
      repeat' split
      all_goals first
        | exact d.evolves_refl
        | exact d.evolves_setOwn a _
        | exact ⟨rfl, .inl rfl⟩
    | commit =>
      simp only [Database.commit]
      repeat' split
      all_goals first
        | exact d.evolves_refl
        | exact d.evolves_endReading a _
        | exact d.evolves_publish_dropOwn a _
        | exact d.evolves_dropOwn a
    | rollback => exact ⟨(d.kept_rollback a).1, .inl (d.kept_rollback a).2.1⟩
    | deferForeignKeys =>
      simp only [Database.deferForeignKeys]
      split
      · exact d.evolves_refl
      · exact d.evolves_setOwn a _
    | query q => exact d.evolves_run a q

end Database

end FindingStore
