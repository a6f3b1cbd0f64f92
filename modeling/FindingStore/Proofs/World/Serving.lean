import FindingStore.Proofs.World.Hosting

namespace FindingStore

theorem Database.Agrees.refl (d : Database) : d.Agrees d := ⟨rfl, rfl, rfl, rfl⟩

theorem Database.Agrees.trans {d e f : Database} (h : d.Agrees e) (h' : e.Agrees f) : d.Agrees f :=
  ⟨h.contents.trans h'.contents, h.writer.trans h'.writer, h.strays.trans h'.strays,
    h.readers.trans h'.readers⟩

def Log.used (log : Log) (users : List Nat) (stored : Contents) : Log :=
  { log with users, misled := [], stored }

namespace World

/-- How a log fits the contents of its database. As long as it is used it is found beside the file,
and otherwise what has been left there counts. -/
structure Fits (w : World) (home : Location) (log : Log) (contents : Contents) : Prop where
  stored : log.stored ≠ .blank
  isWritable : log.isWritable = true
  misled : log.misled = []
  inUse : log.users ≠ [] → w.files.logAt? (home.companion .log) = some log.number
  unfilled : log.users ≠ [] → log.isFilled = false →
    contents = log.stored ∧ w.logs[log.number]? = some none
  left : log.users = [] → (w.leftAt? (home.companion .log)).getD log.stored = contents

/-- A database with a log that lies in its file and can be used by everybody. -/
structure Serves (w : World) (n : Nat) (home : Location) : Prop where
  opened : n < w.databases.length
  houses : w.files.Houses n home
  numbered {number : Nat} : w.files.logAt? (home.companion .log) = some number →
    number < w.logs.length
  log : ∃ log, (w.database n).log = some log ∧ w.Fits home log (w.database n).contents

/-- A world after something has happened to its database, which may have been no more than that
sessions have begun to use it. -/
structure Tracks (w v : World) (n : Nat) (home : Location) (d : Database) : Prop where
  serves : v.Serves n home
  agrees : (v.database n).Agrees d
  usesLog {cache : Nat} : w.UsesLog n cache → v.UsesLog n cache
  opened : v.opened = w.opened

variable {w v x : World} {n : Nat} {home : Location} {a : Access} {d : Database} {log : Log}

theorem setDatabase_setDatabase (w : World) (n : Nat) (d e : Database) :
    (w.setDatabase n d).setDatabase n e = w.setDatabase n e := by
  simp [setDatabase]

theorem Serves.holds (h : w.Serves n home) : w.Holds n where
  opened := h.opened
  logged := by
    obtain ⟨log, hlog, hfits⟩ := h.log
    exact ⟨log, hlog, hfits.isWritable⟩
  untouched _ _ hmem hn := (h.houses.database hmem hn).2.1

theorem Serves.tracks_self (h : w.Serves n home) : w.Tracks w n home (w.database n) :=
  ⟨h, .refl _, id, rfl⟩

theorem Tracks.trans {e : Database} (h : w.Tracks v n home e) (h' : v.Tracks x n home d)
    (hd : d.Agrees e) : w.Tracks x n home e :=
  ⟨h'.serves, h'.agrees.trans hd, fun hu ↦ h'.usesLog (h.usesLog hu), h'.opened.trans h.opened⟩

theorem Serves.withFiles (h : w.Serves n home) {fs : FileSystem} (hfs : fs.Houses n home)
    (hlog : fs.logAt? (home.companion .log) = w.files.logAt? (home.companion .log)) :
    w.Tracks { w with files := fs } n home (w.database n) := by
  refine ⟨⟨h.opened, hfs, fun hn ↦ h.numbered (hlog ▸ hn), ?_⟩, ⟨rfl, rfl, rfl, rfl⟩, id, rfl⟩
  obtain ⟨log, hl, hfits⟩ := h.log
  refine ⟨log, hl, hfits.stored, hfits.isWritable, hfits.misled, ?_, hfits.unfilled, ?_⟩
  · exact fun hu ↦ hlog.trans (hfits.inUse hu)
  · intro hu
    rw [leftAt?, hlog]
    exact hfits.left hu

theorem Serves.withSessions (h : w.Serves n home) (sessions : List OpenSession) (opened : Nat) :
    ({ w with sessions, opened } : World).Serves n home := by
  obtain ⟨log, hlog, hfits⟩ := h.log
  exact ⟨h.opened, h.houses, h.numbered, log, hlog, hfits.stored, hfits.isWritable, hfits.misled,
    hfits.inUse, hfits.unfilled, hfits.left⟩

theorem Serves.discardCompanion (h : w.Serves n home) {c : Companion} (hc : c ≠ .log) :
    w.Tracks (w.discardCompanion home c) n home (w.database n) :=
  h.withFiles (h.houses.discard c) (w.files.logAt?_discard home hc)

theorem Serves.provideCompanion (h : w.Serves n home) (c : Companion) (content : Bytes) :
    w.Tracks (w.provideCompanion n home c content) n home (w.database n) :=
  h.withFiles (h.houses.provide c content _) (w.files.logAt?_provide home c content _)

theorem checkJournal_eq (w : World) (n : Nat) (a : Access) (home : Location) :
    (w.checkJournal n a home).2 = w ∨
      (w.checkJournal n a home).2 = w.discardCompanion home .journal := by
  unfold checkJournal
  dsimp only
  repeat' split
  all_goals first | exact .inl rfl | exact .inr rfl

theorem Serves.setLog (h : w.Serves n home) {fs : FileSystem} (hfs : fs.Houses n home)
    (log : Log) (logs : List (Option Contents))
    (hnumbered : ∀ number, fs.logAt? (home.companion .log) = some number → number < logs.length)
    (hlog : d.log = some log)
    (hfits : ({ w with files := fs, logs } : World).Fits home log d.contents) :
    let v : World := { w.setDatabase n d with files := fs, logs }
    v.Serves n home ∧ v.database n = d := by
  intro v
  have hset : v.database n = d := World.database_setDatabase h.opened d
  refine ⟨⟨?_, hfs, fun {number} hn ↦ hnumbered number hn, log, ?_, ?_⟩, hset⟩
  · simpa [v, setDatabase] using h.opened
  · rw [hset, hlog]
  · rw [hset]
    exact ⟨hfits.stored, hfits.isWritable, hfits.misled, hfits.inUse, hfits.unfilled, hfits.left⟩

section StartUsing

def taken (w : World) (a : Access) (home : Location) (log : Log) (hasIndex : Bool) : Log :=
  { log with
    users := [a.cache], home, hasIndex, isWritable := true
    number := (w.files.logAt? (home.companion .log)).getD w.logs.length
    isFilled := (w.leftAt? (home.companion .log)).isSome }

def begun (w : World) (home : Location) : World :=
  let l := home.companion .log
  let left := w.files.logAt? l
  { w with
    files := if left.isSome then w.files else w.files.keepLog l (left.getD w.logs.length)
    logs := if left.isSome then w.logs else w.logs ++ [none] }

theorem logAt?_begun (hfile : (w.files.fileAt? (home.companion .log)).isSome) :
    (w.begun home).files.logAt? (home.companion .log) =
      some ((w.files.logAt? (home.companion .log)).getD w.logs.length) := by
  dsimp only [begun]
  cases hleft : w.files.logAt? (home.companion .log) with
  | some k => simp [hleft]
  | none => simp [FileSystem.logAt?_keepLog (home.companion_ne_nil .log) hfile]

theorem Serves.houses_begun (h : w.Serves n home) : (w.begun home).files.Houses n home := by
  dsimp only [begun]
  split
  · exact h.houses
  · exact h.houses.keepLog _

theorem Serves.numbered_begun (h : w.Serves n home) :
    (w.files.logAt? (home.companion .log)).getD w.logs.length < (w.begun home).logs.length := by
  dsimp only [begun]
  cases hleft : w.files.logAt? (home.companion .log) with
  | some k => simpa using h.numbered hleft
  | none => simp

theorem Serves.unfilled_begun (h : w.Serves n home)
    (hnone : w.leftAt? (home.companion .log) = none) :
    (w.begun home).logs[(w.files.logAt? (home.companion .log)).getD w.logs.length]? =
      some none := by
  dsimp only [begun]
  cases hleft : w.files.logAt? (home.companion .log) with
  | some k =>
    have hk := h.numbered hleft
    simp only [leftAt?, hleft, Option.bind_some, Option.join_eq_none_iff] at hnone
    simpa [List.getElem?_eq_getElem hk] using hnone
  | none => simp

/-- The first session that takes a log into use finds in it what has been left there. -/
theorem Serves.startUsing (h : w.Serves n home) (hlog : (w.database n).log = some log)
    (hfile : (w.files.fileAt? (home.companion .log)).isSome) (husers : log.users = [])
    (a : Access) (hasIndex : Bool) :
    w.Tracks (w.startUsing n a home log hasIndex true) n home (w.database n) ∧
      (w.startUsing n a home log hasIndex true).UsesLog n a.cache := by
  obtain ⟨log', hlog', hfits⟩ := h.log
  obtain rfl : log = log' := Option.some.inj (hlog.symm.trans hlog')
  let d : Database := { w.database n with
    contents := (w.leftAt? (home.companion .log)).getD log.stored
    log := some (w.taken a home log hasIndex) }
  have hstart : w.startUsing n a home log hasIndex true =
      { w.setDatabase n d with files := (w.begun home).files, logs := (w.begun home).logs } := rfl
  have htaken : ({ w with files := (w.begun home).files, logs := (w.begun home).logs } : World).Fits
      home (w.taken a home log hasIndex) d.contents := by
    refine ⟨hfits.stored, rfl, hfits.misled, fun _ ↦ logAt?_begun hfile, fun _ hfilled ↦ ?_, nofun⟩
    have hnone : w.leftAt? (home.companion .log) = none := by simpa [taken] using hfilled
    exact ⟨by simp [d, taken, hnone], h.unfilled_begun hnone⟩
  have hnumbered (number : Nat)
      (hnumber : (w.begun home).files.logAt? (home.companion .log) = some number) :
      number < (w.begun home).logs.length := by
    rw [logAt?_begun hfile] at hnumber
    cases hnumber
    exact h.numbered_begun
  obtain ⟨hserves, hset⟩ := h.setLog (d := d) h.houses_begun _ _ hnumbered rfl htaken
  have hagrees : d.Agrees (w.database n) := ⟨hfits.left husers, rfl, rfl, rfl⟩
  rw [← hset] at hagrees
  rw [hstart]
  refine ⟨⟨hserves, hagrees, ?_, rfl⟩, ?_⟩
  · -- nobody has used the log so far
    intro cache hu
    have hmem := (hu log hlog).1
    rw [husers] at hmem
    cases hmem
  · intro log' hlog'
    rw [hset] at hlog'
    cases hlog'
    exact ⟨List.mem_singleton_self _, by simp [taken, hfits.misled]⟩

end StartUsing

theorem Serves.shareLog (h : w.Serves n home) (hlog : (w.database n).log = some log)
    (husers : log.users ≠ []) (cache : Nat) :
    let d := { w.database n with log := some { log with users := cache :: log.users } }
    w.Tracks (w.setDatabase n d) n home (w.database n) ∧ (w.setDatabase n d).UsesLog n cache := by
  intro d
  obtain ⟨log', hlog', hfits⟩ := h.log
  obtain rfl : log = log' := Option.some.inj (hlog.symm.trans hlog')
  obtain ⟨hserves, -⟩ := h.setLog (d := d) h.houses _ w.logs (fun _ ↦ h.numbered) rfl
    ⟨hfits.stored, hfits.isWritable, hfits.misled, fun _ ↦ hfits.inUse husers,
      fun _ ↦ hfits.unfilled husers, nofun⟩
  have hset : (w.setDatabase n d).database n = d := World.database_setDatabase h.opened d
  have hagrees : d.Agrees (w.database n) := ⟨rfl, rfl, rfl, rfl⟩
  rw [← hset] at hagrees
  have huses {other : Nat} (hother : other ∈ cache :: log.users) :
      (w.setDatabase n d).UsesLog n other := by
    intro log' hlog'
    rw [hset] at hlog'
    cases hlog'
    exact ⟨hother, by simp [hfits.misled]⟩
  refine ⟨⟨hserves, hagrees, ?_, rfl⟩, huses List.mem_cons_self⟩
  exact fun hu ↦ huses (List.mem_cons_of_mem _ (hu log hlog).1)

theorem Serves.useLog (h : w.Serves n home) (hlog : (w.database n).log = some log) (a : Access)
    (hadmits : w.files.admitsFile (home.companion .log) = true) :
    w.Tracks (w.useLog n a home log).2 n home (w.database n) ∧
      ((w.useLog n a home log).1 = none → (w.useLog n a home log).2.UsesLog n a.cache) := by
  obtain ⟨provided, hp⟩ : ∃ v, w.provideCompanion n home .log [] = v := ⟨_, rfl⟩
  have hprovided := h.provideCompanion .log []
  have hfile := FileSystem.isSome_fileAt?_provide hadmits []
    (((w.files.databaseFile? n).map fun f ↦ f.2.mode).getD FileSystem.defaultMode)
  have hdatabase : (w.provideCompanion n home .log []).database n = w.database n := rfl
  change ((w.provideCompanion n home .log []).files.fileAt? _).isSome at hfile
  rw [hp] at hprovided hfile hdatabase
  have hserves := hprovided.serves
  have htracks {v : World} (hv : provided.Tracks v n home (provided.database n)) :
      w.Tracks v n home (w.database n) := by
    refine hprovided.trans hv ?_
    rw [hdatabase]
    exact .refl _
  rw [← hdatabase] at hlog
  obtain ⟨log', hlog', hfits⟩ := hserves.log
  obtain rfl : log = log' := Option.some.inj (hlog.symm.trans hlog')
  simp only [World.useLog, hp]
  cases hempty : log.users.isEmpty with
  | false =>
    have husers : log.users ≠ [] := by simpa using hempty
    obtain ⟨hshared, huses⟩ := hserves.shareLog hlog husers a.cache
    simp only [hfits.inUse husers, bne_self_eq_false, Bool.and_false, Bool.not_false,
      Bool.false_eq_true, if_false, if_true]
    exact ⟨htracks hshared, fun _ ↦ huses⟩
  | true =>
    have husers : log.users = [] := List.isEmpty_iff.1 hempty
    simp only [Bool.not_true, Bool.false_eq_true, if_false]
    split
    · obtain ⟨hstarted, huses⟩ := hserves.startUsing hlog hfile husers a false
      exact ⟨htracks hstarted, fun _ ↦ huses⟩
    · split
      · refine ⟨hprovided, fun hnone ↦ ?_⟩
        cases hnone
      · next t ht =>
        have hindex := hserves.houses.index
        rw [FileSystem.isDirectory, ht] at hindex
        cases hindex
      · have hindexed := hserves.provideCompanion .index []
        have hfile' : ((provided.provideCompanion n home .index []).files.fileAt?
            (home.companion .log)).isSome := by
          rw [World.provideCompanion, FileSystem.fileAt?_provide_of_ne]
          · exact hfile
          · intro he
            cases Location.companion_injective he
        obtain ⟨hstarted, huses⟩ := hindexed.serves.startUsing hlog hfile' husers a true
        exact ⟨htracks (hindexed.trans hstarted (.refl _)), fun _ ↦ huses⟩

theorem Serves.checkLog (h : w.Serves n home) (ha : a.IsOrdinary) :
    w.Tracks (w.checkLog n a home).2 n home (w.database n) ∧
      ((w.checkLog n a home).1 = none → (w.checkLog n a home).2.UsesLog n a.cache) := by
  obtain ⟨log, hlog, hfits⟩ := h.log
  unfold World.checkLog
  simp only [hlog, hfits.misled, List.contains_nil, Bool.false_eq_true, if_false, hfits.stored,
    ha.keepsLog, Bool.not_true]
  split
  · next hmem =>
    refine ⟨h.tracks_self, fun _ log' hlog' ↦ ?_⟩
    obtain rfl := Option.some.inj (hlog.symm.trans hlog')
    exact ⟨by simpa using hmem, by simp [hfits.misled]⟩
  · split
    · exact ⟨h.tracks_self, nofun⟩
    · next hnone =>
      refine h.useLog hlog a ?_
      unfold companionError? at hnone
      split at hnone
      · cases hnone
      · split at hnone
        · assumption
        · cases hnone

theorem Serves.checkJournal (h : w.Serves n home) (a : Access) :
    w.Tracks (w.checkJournal n a home).2 n home (w.database n) ∧
      (w.checkJournal n a home).2.database n = w.database n := by
  rcases w.checkJournal_eq n a home with he | he
  · rw [he]
    exact ⟨h.tracks_self, rfl⟩
  · rw [he]
    exact ⟨h.discardCompanion (by decide), rfl⟩

/-- A session removes the journal that is left beside the file, and turns to the log. -/
theorem Serves.approach (h : w.Serves n home) (ha : a.IsOrdinary) :
    w.Tracks (w.approach n a home).2 n home (w.database n) ∧
      ((w.approach n a home).1 = none → (w.approach n a home).2.UsesLog n a.cache) := by
  have hlock : w.checkLock a home = (none, w) := by simp [World.checkLock, ha.usesDirectory]
  have hjournal := h.checkJournal a
  rcases hcheck : w.checkJournal n a home with ⟨_ | e, v⟩
  · have happroach : w.approach n a home = v.checkLog n a home := by
      simp only [World.approach, hlock, hcheck]
    rw [hcheck] at hjournal
    obtain ⟨htracks, huses⟩ := hjournal.1.serves.checkLog ha
    have hagrees : (v.database n).Agrees (w.database n) := by
      rw [show v.database n = w.database n from hjournal.2]
      exact .refl _
    rw [happroach]
    exact ⟨hjournal.1.trans htracks hagrees, huses⟩
  · have happroach : w.approach n a home = (some e, v) := by
      simp only [World.approach, hlock, hcheck]
    rw [hcheck] at hjournal
    rw [happroach]
    refine ⟨hjournal.1, fun hnone ↦ ?_⟩
    cases hnone

theorem Serves.reach_eq (h : w.Serves n home) (ha : a.IsOrdinary) (hr : a.residence = .file home)
    (hbusy : (w.database n).isBusy a = false) :
    ∃ j, w.reach n a =
      ({ a with
          sight := (w.approach n a home).1.map Contents.unusable
          journalError := j }, (w.approach n a home).2) := by
  have houtside : (w.approach n a home).2.outside? n a = none := by
    obtain ⟨log, hlog, hfits⟩ := (h.approach ha).1.serves.log
    simp [World.outside?, hlog, hfits.stored]
  refine ⟨(w.approach n a home).2.journalError? n a home, ?_⟩
  unfold World.reach
  simp only [hr, hbusy, h.holds.refresh, claim_of_ordinary w n ha, ha.isFrozen, Bool.false_eq_true,
    if_false]
  rw [houtside, Option.or_none]

/-- A session that is not in a transaction looks at its file: it uses the log then, or it sees what
stands in its way. -/
theorem Serves.reach (h : w.Serves n home) (ha : a.IsOrdinary) (hr : a.residence = .file home)
    (hbusy : (w.database n).isBusy a = false) :
    ∃ sight j v, w.reach n a = ({ a with sight, journalError := j }, v) ∧
      w.Tracks v n home (w.database n) ∧
      ((∃ e, sight = some (.unusable e)) ∨ sight = none ∧ v.UsesLog n a.cache) := by
  obtain ⟨htracks, huses⟩ := h.approach ha
  obtain ⟨j, hreach⟩ := h.reach_eq ha hr hbusy
  refine ⟨_, j, _, hreach, htracks, ?_⟩
  cases hfirst : (w.approach n a home).1 with
  | none => exact .inr ⟨rfl, huses hfirst⟩
  | some e => exact .inl ⟨e, rfl⟩

theorem Serves.settle (h : w.Serves n home) (ha : a.IsOrdinary) (hd : (w.database n).Evolves d)
    (hu : d.changeCount = (w.database n).changeCount ∨ w.UsesLog n a.cache) :
    w.Tracks ((w.setDatabase n d).settle n a (w.database n)) n home d := by
  obtain ⟨log, hlog, hfits⟩ := h.log
  have hdlog : d.log = some log := hd.log.trans hlog
  have hset : (w.setDatabase n d).database n = d := World.database_setDatabase h.opened d
  have hfollows := h.holds.settle ha hd.log
  refine ⟨?_, hfollows.agrees, hfollows.usesLog, ?_⟩
  · rw [settle_of_logged (w := w.setDatabase n d) ha (by rw [hset, hdlog]) hlog, hset]
    split
    · next hwrote =>
      simp only [Bool.and_eq_true, bne_iff_ne] at hwrote
      have husers : log.users ≠ [] :=
        List.ne_nil_of_mem ((hu.resolve_left hwrote.1) log hlog).1
      have hfound := h.houses.logAt?_fillLog (hfits.inUse husers)
      rw [setDatabase_setDatabase]
      refine (h.setLog (d := { d with log := some { log with isFilled := true } })
        (h.houses.fillLog log.number) _ w.logs ?_ rfl ?_).1
      · intro number hnumber
        rw [hfound] at hnumber
        cases hnumber
        exact h.numbered (hfits.inUse husers)
      · exact ⟨hfits.stored, hfits.isWritable, hfits.misled, fun _ ↦ hfound, nofun,
          fun hnone ↦ absurd hnone husers⟩
    · next hwrote =>
      -- the contents are the same, or the log is filled already
      have hcontents : d.contents = (w.database n).contents ∨ log.isFilled = true := by
        rcases hd.contents with hsame | hcount
        · exact .inl hsame
        · simp only [Bool.and_eq_true, bne_iff_ne, not_and] at hwrote
          exact .inr (by simpa using hwrote hcount)
      refine (h.setLog h.houses log w.logs (fun _ ↦ h.numbered) hdlog ?_).1
      refine ⟨hfits.stored, hfits.isWritable, hfits.misled, hfits.inUse, ?_, ?_⟩
      · intro husers hfilled
        rcases hcontents with hsame | hfull
        · rw [hsame]
          exact hfits.unfilled husers hfilled
        · rw [hfull] at hfilled
          cases hfilled
      · intro husers
        rcases hu with hcount | hu
        · rw [hd.contents.resolve_right (absurd hcount)]
          exact hfits.left husers
        · exact absurd husers (List.ne_nil_of_mem (hu log hlog).1)
  · rw [settle_of_logged (w := w.setDatabase n d) ha (by rw [hset, hdlog]) hlog]
    split <;> rfl

theorem Serves.learn (h : w.Serves n home) (a : Access) :
    w.Tracks (w.learn n a) n home (w.database n) := by
  have hfollows := h.holds.learn a
  have hd : (w.learn n a).database n = (w.database n).learn a := h.holds.database_setDatabase _
  obtain ⟨hagrees, hlog⟩ := learn_agrees (w.database n) a
  obtain ⟨log, hl, hfits⟩ := h.log
  refine ⟨⟨hfollows.holds.opened, h.houses, h.numbered, log, ?_, ?_⟩, hfollows.agrees,
    hfollows.usesLog, rfl⟩
  · rw [hd, hlog, hl]
  · rw [hd, hagrees.contents]
    exact ⟨hfits.stored, hfits.isWritable, hfits.misled, hfits.inUse, hfits.unfilled, hfits.left⟩

theorem Serves.of_learn (h : (w.learn n a).Serves n home) (hn : n < w.databases.length) :
    w.Serves n home := by
  have hd : (w.learn n a).database n = (w.database n).learn a := World.database_setDatabase hn _
  obtain ⟨hagrees, hlog⟩ := learn_agrees (w.database n) a
  obtain ⟨log, hl, hfits⟩ := h.log
  rw [hd, hagrees.contents] at hfits
  refine ⟨hn, h.houses, h.numbered, log, ?_, hfits.stored, hfits.isWritable, hfits.misled,
    hfits.inUse, hfits.unfilled, hfits.left⟩
  rw [← hlog, ← hd, hl]

theorem Serves.look (h : w.Serves n home) (ha : a.IsOrdinary) (hr : a.residence = .file home)
    (s : Statement) :
    ∃ (a' : Access) (v : World),
      (if needsFile s then w.reach n a else (a, w)) = (a', v) ∧
        w.Tracks v n home (w.database n) ∧ a'.IsOrdinary ∧ a'.session = a.session ∧
        a'.cache = a.cache ∧ (needsFile s = true → (w.database n).isBusy a = false →
          (∃ e, a'.sight = some (.unusable e)) ∨ a'.sight = none ∧ v.UsesLog n a.cache) := by
  cases hs : needsFile s with
  | false => exact ⟨a, w, rfl, h.tracks_self, ha, rfl, rfl, nofun⟩
  | true =>
    cases hbusy : (w.database n).isBusy a with
    | true =>
      refine ⟨{ a with journalError := w.journalError? n a home }, w, ?_, h.tracks_self,
        ⟨ha.1, ha.2, ha.3, ha.4, ha.5⟩, rfl, rfl, nofun⟩
      simp [World.reach, hr, hbusy]
    | false =>
      obtain ⟨sight, j, v, hreach, htracks, hsight⟩ := h.reach ha hr hbusy
      exact ⟨_, v, hreach, htracks, ⟨ha.1, ha.2, ha.3, ha.4, ha.5⟩, rfl, rfl, fun _ _ ↦ hsight⟩

/-- A statement of an ordinary session: the session looks at the file if it has to, and then acts on
the database alone. -/
theorem Serves.execute (h : w.Serves n home) (ha : a.IsOrdinary) (hr : a.residence = .file home)
    (s : Statement) :
    ∃ (a' : Access) (v : World), w.Tracks v n home (w.database n) ∧ a'.Writes ∧
      a'.session = a.session ∧ a'.cache = a.cache ∧
      (needsFile s = true → (w.database n).isBusy a = false →
        (∃ e, a'.sight = some (.unusable e)) ∨ a'.sight = none ∧ v.UsesLog n a.cache) ∧
      (w.execute n a s).1 = ((v.database n).execute a' s).1 ∧
      ((w.execute n a s).2.database n).Agrees ((v.database n).execute a' s).2 ∧
      (((v.database n).execute a' s).2.changeCount = (v.database n).changeCount ∨
          v.UsesLog n a.cache →
        v.Tracks (w.execute n a s).2 n home ((v.database n).execute a' s).2) := by
  obtain ⟨a', v, hstep, htracks, ha', hsession, hcache, hsight⟩ := h.look ha hr s
  have hexecute : w.execute n a s = (((v.database n).execute a' s).1,
      let settled := (v.setDatabase n ((v.database n).execute a' s).2).settle n a' (v.database n)
      if needsSchema s then settled.learn n a' else settled) := by
    simp only [World.execute, hstep]
  refine ⟨a', v, htracks, ha'.writes, hsession, hcache, hsight, congrArg Prod.fst hexecute, ?_,
    fun hu ↦ ?_⟩
  · have hsettled := htracks.serves.holds.settle ha' ((v.database n).evolves_execute a' s).log
    rw [hexecute]
    dsimp only
    split
    · exact (hsettled.holds.learn a').agrees.trans hsettled.agrees
    · exact hsettled.agrees
  · have hsettled := htracks.serves.settle ha' ((v.database n).evolves_execute a' s) (hcache ▸ hu)
    rw [hexecute]
    dsimp only
    split
    · exact hsettled.trans (hsettled.serves.learn a') hsettled.agrees
    · exact hsettled

theorem Houses.writePages (h : w.files.Houses n home) :
    ∃ fs, w.writePages n = { w with files := fs } ∧ fs.Houses n home ∧
      fs.logAt? (home.companion .log) = w.files.logAt? (home.companion .log) := by
  unfold World.writePages changeFile
  split
  · next l f hf =>
    obtain ⟨hmem, hn⟩ := FileSystem.mem_of_findFile? hf
    have hn : f.database = some n := by simpa using hn
    obtain ⟨rfl, -, hclean⟩ := h.database hmem hn
    have hlog : f.log = none := by
      cases hlog : f.log with
      | none => rfl
      | some k => exact absurd (h.log hmem (by rw [hlog]; rfl)).symm (l.companion_ne .log)
    refine ⟨_, rfl, h.replace h.home_ne_nil hn ⟨rfl, hclean⟩ hlog, ?_⟩
    exact FileSystem.logAt?_congr (FileSystem.fileAt?_congr
      (w.files.lookup_insert_of_ne (l.companion_ne .log) _)).1
  · exact ⟨w.files, rfl, h, rfl⟩

section StopUsing

variable (h : w.Serves n home) (hlog : (w.database n).log = some log)

def rid (w : World) (n : Nat) (a : Access) (log : Log) (stored : Contents) : Database :=
  { w.database n with log := some (log.used (log.users.erase a.cache) stored) }

structure Leaves (w v : World) (n : Nat) (home : Location) (a : Access) (d : Database) : Prop where
  serves : v.Serves n home
  agrees : (v.database n).Agrees d
  usesLog {cache : Nat} : cache ≠ a.cache → w.UsesLog n cache → v.UsesLog n cache
  opened : v.opened = w.opened

include h hlog

theorem Serves.leaves {fs : FileSystem} {logs : List (Option Contents)} {stored : Contents}
    (hfs : fs.Houses n home)
    (hnumbered : ∀ k, fs.logAt? (home.companion .log) = some k → k < logs.length)
    (hfits : ({ w with files := fs, logs } : World).Fits home
      (log.used (log.users.erase a.cache) stored) (w.database n).contents) :
    w.Leaves { w.setDatabase n (w.rid n a log stored) with files := fs, logs } n home a
      (w.database n) := by
  obtain ⟨hserves, hset⟩ := h.setLog (d := w.rid n a log stored) hfs _ logs hnumbered rfl hfits
  have hagrees : (w.rid n a log stored).Agrees (w.database n) := ⟨rfl, rfl, rfl, rfl⟩
  rw [← hset] at hagrees
  refine ⟨hserves, hagrees, fun hne hu log' hlog' ↦ ?_, rfl⟩
  rw [hset] at hlog'
  cases hlog'
  exact ⟨(List.mem_erase_of_ne hne).2 (hu log hlog).1, nofun⟩

theorem Serves.emptyLog (hfits : w.Fits home log (w.database n).contents)
    (hblank : (w.database n).contents ≠ .blank) (hmem : a.cache ∈ log.users)
    (hlast : log.users.erase a.cache = []) (hcan : w.canEmpty n a home log = true) :
    w.Leaves (w.stopUsing n a home log) n home a (w.database n) := by
  have hcontents : (if log.isFilled then (w.database n).contents else log.stored) =
      (w.database n).contents := by
    cases hfilled : log.isFilled with
    | true => rfl
    | false => exact (hfits.unfilled (List.ne_nil_of_mem hmem) hfilled).1.symm
  let v := w.setDatabase n (w.rid n a log (w.database n).contents)
  have hwritten : ∃ fs, (if log.isFilled then v.writePages n else v) = { v with files := fs } ∧
      fs.Houses n home := by
    split
    · obtain ⟨fs, he, hfs, -⟩ := Houses.writePages (w := v) h.houses
      exact ⟨fs, he, hfs⟩
    · exact ⟨w.files, rfl, h.houses⟩
  obtain ⟨fs, he, hfs⟩ := hwritten
  let rest := if log.hasIndex
    then (fs.discard (home.companion .log)).discard (home.companion .index)
    else fs.discard (home.companion .log)
  have hstop : w.stopUsing n a home log = { v with files := rest } := by
    have hunfold : w.stopUsing n a home log =
        (let v := if log.isFilled then v.writePages n else v
        let v := v.discardCompanion home .log
        if log.hasIndex then v.discardCompanion home .index else v) := by
      simp only [World.stopUsing, hlast, hfits.misled, hcan, hcontents, v, rid, Log.used]
      rfl
    rw [hunfold, he]
    simp only [rest]
    cases log.hasIndex <;> rfl
  have hgone : (fs.discard (home.companion .log)).logAt? (home.companion .log) = none :=
    FileSystem.logAt?_discard_self (home.companion_ne_nil .log)
  have hrest : rest.Houses n home ∧ rest.logAt? (home.companion .log) = none := by
    simp only [rest]
    split
    · exact ⟨(hfs.discard .log).discard .index,
        (FileSystem.logAt?_discard (c := .index) _ home nofun).trans hgone⟩
    · exact ⟨hfs.discard .log, hgone⟩
  rw [hstop]
  refine h.leaves hlog hrest.1 (fun k hk ↦ by rw [hrest.2] at hk; cases hk) ⟨hblank,
    hfits.isWritable, rfl, fun hne ↦ absurd hlast hne, fun hne ↦ absurd hlast hne, fun _ ↦ ?_⟩
  simp only [leftAt?, hrest.2]
  rfl

theorem Serves.keepLog (hfits : w.Fits home log (w.database n).contents)
    (hmem : a.cache ∈ log.users) (hlast : log.users.erase a.cache = [])
    (hcan : w.canEmpty n a home log = false) :
    w.Leaves (w.stopUsing n a home log) n home a (w.database n) := by
  have husers := List.ne_nil_of_mem hmem
  have hinUse := hfits.inUse husers
  have hlength : log.number < w.logs.length := h.numbered hinUse
  have hstop : w.stopUsing n a home log =
      { w.setDatabase n (w.rid n a log log.stored) with
        logs := if log.isFilled then w.logs.set log.number (some (w.database n).contents)
          else w.logs } := by
    simp only [World.stopUsing, hlast, hfits.misled, hcan, rid, Log.used]
    rfl
  rw [hstop]
  refine h.leaves hlog h.houses (fun k hk ↦ ?_) ⟨hfits.stored, hfits.isWritable, rfl,
    fun hne ↦ absurd hlast hne, fun hne ↦ absurd hlast hne, fun _ ↦ ?_⟩
  · split
    · rw [List.length_set]
      exact h.numbered hk
    · exact h.numbered hk
  · cases hfilled : log.isFilled with
    | true => simp [leftAt?, setDatabase, hinUse, hlength]
    | false =>
      obtain ⟨hcontents, hempty⟩ := hfits.unfilled husers hfilled
      simp [leftAt?, setDatabase, hinUse, hempty, hcontents, Log.used]

theorem Serves.stopUsing (hblank : (w.database n).contents ≠ .blank) (hmem : a.cache ∈ log.users) :
    w.Leaves (w.stopUsing n a home log) n home a (w.database n) := by
  obtain ⟨log', hlog', hfits⟩ := h.log
  obtain rfl : log = log' := Option.some.inj (hlog.symm.trans hlog')
  by_cases hlast : log.users.erase a.cache = []
  · cases hcan : w.canEmpty n a home log with
    | true => exact h.emptyLog hlog hfits hblank hmem hlast hcan
    | false => exact h.keepLog hlog hfits hmem hlast hcan
  · have hstop : w.stopUsing n a home log = w.setDatabase n (w.rid n a log log.stored) := by
      have hrest : (!(log.users.erase a.cache).isEmpty) = true := by
        rwa [Bool.not_eq_true', Bool.eq_false_iff, Ne, List.isEmpty_iff]
      simp only [World.stopUsing, hrest, if_true, hfits.misled, rid, Log.used]
      rfl
    have husers := List.ne_nil_of_mem hmem
    rw [hstop]
    exact h.leaves hlog h.houses (fun _ ↦ h.numbered) ⟨hfits.stored, hfits.isWritable, rfl,
      fun _ ↦ hfits.inUse husers, fun _ ↦ hfits.unfilled husers, fun hnone ↦ absurd hnone hlast⟩

end StopUsing

theorem Serves.unclaim (h : w.Serves n home) :
    w.Tracks (w.setDatabase n { w.database n with isClaimed := false }) n home (w.database n) := by
  obtain ⟨log, hlog, hfits⟩ := h.log
  let d := { w.database n with isClaimed := false }
  have hset : (w.setDatabase n d).database n = d := World.database_setDatabase h.opened d
  have hagrees : d.Agrees (w.database n) := ⟨rfl, rfl, rfl, rfl⟩
  rw [← hset] at hagrees
  have hserves := (h.setLog (d := d) h.houses log w.logs (fun _ ↦ h.numbered) hlog hfits).1
  refine ⟨hserves, hagrees, ?_, rfl⟩
  intro cache hu log' hlog'
  rw [hset] at hlog'
  exact hu log' hlog'

/-- The end of a session: its transaction is undone, which writes nothing, and then it stops using
its log unless somebody else uses the same cache. -/
theorem Serves.leave_cases (h : w.Serves n home) (ha : a.IsOrdinary)
    (hr : a.residence = .file home) :
    ∃ (v rest : World) (log : Log) (sessions : List OpenSession),
      w.Tracks v n home ((w.database n).release a) ∧ v.files = w.files ∧
        (w.database n).log = some log ∧ (v.database n).log = some log ∧
        (rest = v ∨ a.cache ∈ log.users ∧ rest = v.stopUsing n a home log) ∧
        w.leave n a = { rest with sessions } := by
  obtain ⟨hlog, hcontents, hcount⟩ := (w.database n).kept_rollback a
  obtain ⟨log, hold, -⟩ := h.log
  obtain ⟨ended, hended⟩ :
      ∃ v, (w.setDatabase n ((w.database n).release a)).settle n a (w.database n) = v := ⟨_, rfl⟩
  have htracks := h.settle ha (d := (w.database n).release a) ⟨hlog, .inl hcontents⟩ (.inl hcount)
  rw [hended] at htracks
  have hset : (w.setDatabase n ((w.database n).release a)).database n =
      (w.database n).release a := World.database_setDatabase h.opened _
  have hreleased : ((w.database n).release a).log = some log := hlog.trans hold
  have hsame : ended = w.setDatabase n ((w.database n).release a) := by
    have hcount : (((w.database n).release a).changeCount != (w.database n).changeCount) = false :=
      bne_eq_false_iff_eq.2 hcount
    rw [← hended, settle_of_logged ha (by rw [hset, hreleased]) hold, hset, hcount]
    rfl
  have hendedLog : (ended.database n).log = some log := by rw [hsame, hset, hreleased]
  let sessions := w.sessions.filter (·.access.session != a.session)
  let v := if sessions.any fun s ↦ s.database == n && s.access.layer.tracksFile then ended
    else ended.setDatabase n { ended.database n with isClaimed := false }
  have hv : w.Tracks v n home ((w.database n).release a) ∧ v.files = w.files ∧
      (v.database n).log = some log := by
    simp only [v]
    split
    · exact ⟨htracks, hsame ▸ rfl, hendedLog⟩
    · refine ⟨htracks.trans htracks.serves.unclaim htracks.agrees, hsame ▸ rfl, ?_⟩
      rw [World.database_setDatabase htracks.serves.opened, hendedLog]
  let rest := if sessions.any (·.access.cache == a.cache) then v
    else if log.users.contains a.cache then v.stopUsing n a home log else v
  refine ⟨v, rest, log, sessions, hv.1, hv.2.1, hold, hv.2.2, ?_, ?_⟩
  · simp only [rest]
    split
    · exact .inl rfl
    · split
      · next hmem => exact .inr ⟨by simpa using hmem, rfl⟩
      · exact .inl rfl
  · simp only [World.leave, hr, hended]
    rw [hv.2.2]

/-- A session ends. What it has not committed is lost, and the others go on. -/
theorem Serves.leave (h : w.Serves n home) (ha : a.IsOrdinary) (hr : a.residence = .file home)
    (hblank : (w.database n).contents ≠ .blank) :
    w.Leaves (w.leave n a) n home a ((w.database n).rollback a).2 := by
  have hcontents := ((w.database n).kept_rollback a).2.1
  have hreleased : ((w.database n).release a).Agrees ((w.database n).rollback a).2 :=
    ⟨rfl, rfl, rfl, rfl⟩
  obtain ⟨v, rest, log, sessions, hv, -, -, hlog, hstops, hleave⟩ := h.leave_cases ha hr
  have hrest : v.Leaves rest n home a (v.database n) := by
    rcases hstops with rfl | ⟨hmem, rfl⟩
    · exact ⟨hv.serves, .refl _, fun _ hu ↦ hu, rfl⟩
    · refine hv.serves.stopUsing hlog ?_ hmem
      rw [hv.agrees.contents, hreleased.contents, hcontents]
      exact hblank
  rw [hleave]
  exact ⟨hrest.serves.withSessions sessions rest.opened,
    hrest.agrees.trans (hv.agrees.trans hreleased),
    fun hne hu ↦ hrest.usesLog hne (hv.usesLog hu), hrest.opened.trans hv.opened⟩

end World

end FindingStore
