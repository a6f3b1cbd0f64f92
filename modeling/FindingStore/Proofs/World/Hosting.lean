import FindingStore.Proofs.Database.Logged
import FindingStore.Proofs.FileSystem.Companion
import FindingStore.Proofs.FileSystem.Walk
import FindingStore.Store.Basic

namespace FindingStore

structure Access.IsOrdinary (a : Access) : Prop where
  residence : ∃ home, a.residence = .file home
  layer : a.layer = .standard
  ignoresLocks : a.ignoresLocks = false
  readOnly : a.readOnly = false
  isFrozen : a.isFrozen = false

theorem Access.IsOrdinary.writes {a : Access} (h : a.IsOrdinary) : a.Writes where
  takesLocks := by simp [Access.takesLocks, h.layer, h.ignoresLocks, FileLayer.takesLocks]
  readOnly := h.readOnly
  isFrozen := h.isFrozen

theorem Access.IsOrdinary.keepsLog {a : Access} (h : a.IsOrdinary) : a.keepsLog = true := by
  obtain ⟨home, hhome⟩ := h.residence
  simp [Access.keepsLog, hhome, h.layer, h.ignoresLocks, h.isFrozen, FileLayer.tracksFile,
    Residence.isFile]

theorem Access.IsOrdinary.usesDirectory {a : Access} (h : a.IsOrdinary) :
    a.usesDirectory = false := by
  simp [Access.usesDirectory, h.layer]

/-- Two states of a database that no transaction tells apart. -/
structure Database.Agrees (d e : Database) : Prop where
  contents : d.contents = e.contents
  writer : d.writer = e.writer
  strays : d.strays = e.strays
  readers : d.readers = e.readers

theorem Database.Agrees.rests {d e : Database} (h : d.Agrees e) {t : Tables} (he : e.Rests t) :
    d.Rests t :=
  ⟨h.contents.trans he.contents, h.writer.trans he.writer, h.strays.trans he.strays,
    h.readers.trans he.readers⟩

theorem Database.Agrees.drafts {d e : Database} (h : d.Agrees e) {session : Nat} {t : Tables}
    {u : Draft} (he : e.Drafts session t u) : d.Drafts session t u := by
  obtain ⟨w, hw, hsession, hdeferred, hworking⟩ := he.writer
  refine ⟨h.contents.trans he.contents, ⟨w, h.writer.trans hw, hsession, hdeferred, ?_⟩,
    h.strays.trans he.strays, h.readers.trans he.readers⟩
  rw [← hworking, Database.working, Database.working, h.contents]

def FileSystem.Spares (fs : FileSystem) (n : Nat) : Prop :=
  ∀ l f, (l, .file f) ∈ fs.entries → f.database = some n → f.isRewritten = false

theorem FileSystem.Spares.fillLog {fs : FileSystem} {n : Nat} (h : fs.Spares n) (number : Nat) :
    (fs.fillLog number).Spares n := by
  unfold FileSystem.fillLog
  split
  · intro k g hmem hg
    simp only [FileSystem.insert, List.mem_cons, List.mem_filter, Prod.mk.injEq,
      Entry.file.injEq] at hmem
    rcases hmem with ⟨-, rfl⟩ | ⟨hmem, -⟩
    · rfl
    · exact h k g hmem hg
  · exact h

namespace World

structure Holds (w : World) (n : Nat) : Prop where
  opened : n < w.databases.length
  logged : (w.database n).IsLogged
  untouched : w.files.Spares n

def UsesLog (w : World) (n cache : Nat) : Prop :=
  ∀ log, (w.database n).log = some log → cache ∈ log.users ∧ cache ∉ log.misled

variable {w : World} {n : Nat} {a : Access}

theorem refresh_of_spares (h : w.files.Spares n) : w.refresh n = w := by
  unfold World.refresh
  split
  · next l f hf =>
    obtain ⟨hmem, hn⟩ := FileSystem.mem_of_findFile? hf
    simp [h l f hmem (by simpa using hn)]
  · rfl

theorem Holds.refresh (h : w.Holds n) : w.refresh n = w := refresh_of_spares h.untouched

theorem claim_of_ordinary (w : World) (n : Nat) (ha : a.IsOrdinary) : w.claim n a = w := by
  simp [World.claim, canClaim, ha.layer]

theorem approach_of_usesLog (h : w.Holds n) (hu : w.UsesLog n a.cache) (ha : a.IsOrdinary)
    (home : Location) : w.approach n a home = (none, w) := by
  obtain ⟨log, hlog, -⟩ := h.logged
  obtain ⟨husers, hmisled⟩ := hu log hlog
  have hlock : w.checkLock a home = (none, w) := by simp [checkLock, ha.usesDirectory]
  have hjournal : w.checkJournal n a home = (none, w) := by
    simp [checkJournal, hlog, husers]
  simp [approach, hlock, hjournal, checkLog, hlog, hmisled, husers]

theorem outside?_of_usesLog (h : w.Holds n) (hu : w.UsesLog n a.cache) : w.outside? n a = none := by
  obtain ⟨log, hlog, -⟩ := h.logged
  simp [outside?, hlog, (hu log hlog).1]

theorem reach_of_usesLog (h : w.Holds n) (hu : w.UsesLog n a.cache) (ha : a.IsOrdinary) :
    ∃ j, w.reach n a =
      (if (w.database n).isBusy a then { a with journalError := j }
        else { a with sight := none, journalError := j }, w) := by
  obtain ⟨home, hhome⟩ := ha.residence
  refine ⟨w.journalError? n a home, ?_⟩
  unfold reach
  rw [hhome]
  cases hb : (w.database n).isBusy a with
  | true => rfl
  | false =>
    simp [h.refresh, claim_of_ordinary w n ha, approach_of_usesLog h hu ha home,
      outside?_of_usesLog h hu, ha.isFrozen]

theorem Holds.database_setDatabase (h : w.Holds n) (d : Database) :
    (w.setDatabase n d).database n = d := World.database_setDatabase h.opened d

theorem setDatabase_self (h : n < w.databases.length) : w.setDatabase n (w.database n) = w := by
  have hself : w.databases.set n (w.database n) = w.databases := by
    rw [World.database, List.getElem?_eq_getElem h, Option.getD_some, List.set_getElem_self]
  rw [World.setDatabase, hself]

theorem learn_of_unusable (h : n < w.databases.length) {e : SqlError}
    (hview : (w.database n).view a = .unusable e) : w.learn n a = w := by
  have hlearn : (w.database n).learn a = w.database n := by
    unfold Database.learn
    rw [hview]
  rw [World.learn, hlearn, setDatabase_self h]

/-- What a session leaves beside its file after a statement: the log has been filled, if it has
changed something. -/
theorem settle_of_logged (ha : a.IsOrdinary) {before : Database} {log old : Log}
    (hlog : (w.database n).log = some log) (hold : before.log = some old) :
    w.settle n a before =
      if (w.database n).changeCount != before.changeCount && !log.isFilled then
        { w.setDatabase n { w.database n with log := some { log with isFilled := true } } with
          files := w.files.fillLog log.number }
      else w := by
  obtain ⟨home, hhome⟩ := ha.residence
  have hafter : hasJournal (w.database n) a = false := by simp [hasJournal, hlog, ha.keepsLog]
  have hbefore : hasJournal before a = false := by simp [hasJournal, hold, ha.keepsLog]
  simp only [settle, hhome, hafter, hbefore, hlog, Option.isNone_some, Bool.and_false,
    Bool.or_false, Bool.false_eq_true, if_false, ha.usesDirectory, Bool.not_false, Bool.true_or,
    if_true]

theorem Holds.settle_self (h : w.Holds n) (ha : a.IsOrdinary) :
    (w.setDatabase n (w.database n)).settle n a (w.database n) = w := by
  obtain ⟨log, hlog, -⟩ := h.logged
  rw [setDatabase_self h.opened, settle_of_logged ha hlog hlog, bne_self_eq_false, Bool.false_and]
  rfl

/-- Worlds that differ in what sessions know of the schema, or in whether their log is filled. -/
structure Follows (w v : World) (n : Nat) (d : Database) : Prop where
  agrees : (v.database n).Agrees d
  holds : v.Holds n
  usesLog {cache : Nat} : w.UsesLog n cache → v.UsesLog n cache

theorem learn_agrees (d : Database) (a : Access) :
    (d.learn a).Agrees d ∧ (d.learn a).log = d.log := by
  unfold Database.learn
  split <;> exact ⟨⟨rfl, rfl, rfl, rfl⟩, rfl⟩

theorem Holds.learn (h : w.Holds n) (a : Access) : w.Follows (w.learn n a) n (w.database n) := by
  obtain ⟨hagrees, hlog⟩ := learn_agrees (w.database n) a
  have hd : (w.learn n a).database n = (w.database n).learn a := h.database_setDatabase _
  refine ⟨hd ▸ hagrees, ⟨by simpa [World.learn, setDatabase] using h.opened, ?_, h.untouched⟩, ?_⟩
  · simpa only [Database.IsLogged, hd, hlog] using h.logged
  · intro cache hu
    simpa only [UsesLog, hd, hlog] using hu

theorem Holds.settle (h : w.Holds n) (ha : a.IsOrdinary) {d : Database}
    (hd : d.log = (w.database n).log) :
    w.Follows ((w.setDatabase n d).settle n a (w.database n)) n d := by
  obtain ⟨log, hlog, hwritable⟩ := h.logged
  have hset : (w.setDatabase n d).database n = d := h.database_setDatabase d
  have hopened : n < (w.setDatabase n d).databases.length := by
    simpa [setDatabase] using h.opened
  rw [settle_of_logged (w := w.setDatabase n d) ha (by rw [hset, hd, hlog]) hlog]
  split
  · let filled : Database := { d with log := some { log with isFilled := true } }
    have hfilled : ((w.setDatabase n d).setDatabase n filled).database n = filled :=
      World.database_setDatabase hopened filled
    rw [hset]
    refine ⟨?_, ⟨?_, ?_, h.untouched.fillLog _⟩, ?_⟩
    · have hagrees : filled.Agrees d := ⟨rfl, rfl, rfl, rfl⟩
      exact hfilled ▸ hagrees
    · simpa [setDatabase] using hopened
    · exact ⟨{ log with isFilled := true }, congrArg Database.log hfilled, hwritable⟩
    · intro cache hu log' hlog'
      have hsame : some { log with isFilled := true } = some log' :=
        (congrArg Database.log hfilled).symm.trans hlog'
      cases hsame
      exact hu log hlog
  · refine ⟨?_, ⟨hopened, ?_, h.untouched⟩, ?_⟩
    · rw [hset]
      exact ⟨rfl, rfl, rfl, rfl⟩
    · exact ⟨log, by rw [hset, hd, hlog], hwritable⟩
    · intro cache hu
      simpa only [UsesLog, hset, hd] using hu

theorem Follows.trans {v x : World} {d e : Database} (h : w.Follows v n d)
    (h' : v.Follows x n e) (he : e.Agrees d) : w.Follows x n d where
  agrees := ⟨h'.agrees.contents.trans he.contents, h'.agrees.writer.trans he.writer,
    h'.agrees.strays.trans he.strays, h'.agrees.readers.trans he.readers⟩
  holds := h'.holds
  usesLog hu := h'.usesLog (h.usesLog hu)

theorem look_of_usesLog (h : w.Holds n) (hu : w.UsesLog n a.cache) (ha : a.IsOrdinary)
    (s : Statement) :
    ∃ a' : Access, (if needsFile s then w.reach n a else (a, w)) = (a', w) ∧ a'.IsOrdinary ∧
      a'.session = a.session ∧ a'.cache = a.cache ∧
      (needsFile s = true → (w.database n).isBusy a = false → a'.sight = none) := by
  obtain ⟨j, hreach⟩ := reach_of_usesLog h hu ha
  rw [hreach]
  split
  · split
    · next hbusy =>
      refine ⟨_, rfl, ⟨ha.1, ha.2, ha.3, ha.4, ha.5⟩, rfl, rfl, fun _ hidle ↦ ?_⟩
      simp [hidle] at hbusy
    · exact ⟨_, rfl, ⟨ha.1, ha.2, ha.3, ha.4, ha.5⟩, rfl, rfl, fun _ _ ↦ rfl⟩
  · next hfile => exact ⟨a, rfl, ha, rfl, rfl, fun hs ↦ absurd hs hfile⟩

/-- A statement of a session that uses the log acts on the database alone. -/
theorem Holds.execute (h : w.Holds n) (hu : w.UsesLog n a.cache) (ha : a.IsOrdinary)
    (s : Statement) :
    ∃ a' : Access, a'.session = a.session ∧ a'.Writes ∧
      (needsFile s = true → (w.database n).isBusy a = false → a'.sight = none) ∧
      (((w.database n).execute a' s).2.log = (w.database n).log →
        (w.execute n a s).1 = ((w.database n).execute a' s).1 ∧
          w.Follows (w.execute n a s).2 n ((w.database n).execute a' s).2) := by
  obtain ⟨a', hstep, hordinary, hsession, -, hsight⟩ := look_of_usesLog h hu ha s
  refine ⟨a', hsession, hordinary.writes, hsight, fun hlog ↦ ?_⟩
  have hsettled := h.settle hordinary hlog
  simp only [World.execute, hstep]
  refine ⟨trivial, ?_⟩
  split
  · exact hsettled.trans (hsettled.holds.learn a') hsettled.agrees
  · exact hsettled

def Hosts (w : World) (n : Nat) (caches : Nat → Prop) : Prop :=
  w.Holds n ∧ ∀ cache, caches cache → w.UsesLog n cache

variable {caches : Nat → Prop} {t : Tables}

theorem Follows.hosts {v : World} {d : Database} (h : w.Follows v n d) (hw : w.Hosts n caches) :
    v.Hosts n caches := ⟨h.holds, fun cache hc ↦ h.usesLog (hw.2 cache hc)⟩

def Idle (n : Nat) (caches : Nat → Prop) (t : Tables) (w : World) : Prop :=
  w.Hosts n caches ∧ (w.database n).Rests t

def Busy (n : Nat) (caches : Nat → Prop) (session : Nat) (t : Tables) (u : Draft) (w : World) :
    Prop :=
  w.Hosts n caches ∧ (w.database n).Drafts session t u

variable {u : Draft}

theorem Idle.begin (hw : w.Idle n caches t) (hc : caches a.cache) (ha : a.IsOrdinary) :
    ∃ v, w.execute n a .begin = (.ok (), v) ∧ v.Busy n caches a.session t t := by
  obtain ⟨a', hsession, hwrites, hsight, hrun⟩ := hw.1.1.execute (hw.1.2 _ hc) ha .begin
  rw [hw.2.begin hw.1.1.logged hwrites (hsight rfl (hw.2.isBusy a))] at hrun
  obtain ⟨hok, hfollows⟩ := hrun rfl
  refine ⟨_, Prod.ext hok rfl, hfollows.hosts hw.1, hfollows.agrees.drafts ?_⟩
  exact ⟨hw.2.contents, ⟨_, rfl, hsession, rfl, hw.2.contents⟩, hw.2.strays, hw.2.readers⟩

theorem Busy.query (hw : w.Busy n caches a.session t u) (hc : caches a.cache)
    (ha : a.IsOrdinary) (q : Query) :
    ∃ v, (∃ e, u.tables.apply u.deferred q = .error e ∧
        w.execute n a (.query q) = (.error e, v) ∧ v.Busy n caches a.session t u) ∨
      ∃ reply changed, u.tables.apply u.deferred q = .ok (reply, changed) ∧
        w.execute n a (.query q) = (.ok reply, v) ∧
        v.Busy n caches a.session t { u with tables := changed } := by
  obtain ⟨a', hsession, hwrites, -, hrun⟩ := hw.1.1.execute (hw.1.2 _ hc) ha (.query q)
  obtain ⟨d, hlog, hquery⟩ := Database.Drafts.query (hsession ▸ hw.2) hw.1.1.logged hwrites q
  rcases hquery with ⟨e, happly, hq, hdrafts⟩ | ⟨reply, changed, happly, hq, hdrafts⟩ <;>
    (rw [hq] at hrun; obtain ⟨hreply, hfollows⟩ := hrun hlog)
  · exact ⟨_, .inl ⟨e, happly, Prod.ext hreply rfl, hfollows.hosts hw.1,
      hfollows.agrees.drafts (hsession ▸ hdrafts)⟩⟩
  · exact ⟨_, .inr ⟨reply, changed, happly, Prod.ext hreply rfl, hfollows.hosts hw.1,
      hfollows.agrees.drafts (hsession ▸ hdrafts)⟩⟩

theorem Busy.defer (hw : w.Busy n caches a.session t u) (hc : caches a.cache)
    (ha : a.IsOrdinary) :
    ∃ v, w.execute n a .deferForeignKeys = (.ok (), v) ∧
      v.Busy n caches a.session t { u with deferred := true } := by
  obtain ⟨a', hsession, hwrites, -, hrun⟩ := hw.1.1.execute (hw.1.2 _ hc) ha .deferForeignKeys
  obtain ⟨d, hdefer, hlog, hdrafts⟩ := Database.Drafts.defer (hsession ▸ hw.2) hwrites
  rw [hdefer] at hrun
  obtain ⟨hok, hfollows⟩ := hrun hlog
  exact ⟨_, Prod.ext hok rfl, hfollows.hosts hw.1,
    hfollows.agrees.drafts (hsession ▸ hdrafts)⟩

theorem Busy.commit (hw : w.Busy n caches a.session t u) (hc : caches a.cache)
    (ha : a.IsOrdinary) :
    ∃ v, (∃ e, u.deferred = true ∧ w.execute n a .commit = (.error e, v) ∧
        v.Busy n caches a.session t u) ∨
      w.execute n a .commit = (.ok (), v) ∧ v.Idle n caches u.tables := by
  obtain ⟨a', hsession, hwrites, -, hrun⟩ := hw.1.1.execute (hw.1.2 _ hc) ha .commit
  obtain ⟨d, hlog, hcommit⟩ := Database.Drafts.commit (hsession ▸ hw.2) hw.1.1.logged hwrites
  rcases hcommit with ⟨e, hdeferred, hcommit, hdrafts⟩ | ⟨hcommit, hrests⟩ <;>
    (rw [hcommit] at hrun; obtain ⟨hreply, hfollows⟩ := hrun hlog)
  · exact ⟨_, .inl ⟨e, hdeferred, Prod.ext hreply rfl, hfollows.hosts hw.1,
      hfollows.agrees.drafts (hsession ▸ hdrafts)⟩⟩
  · exact ⟨_, .inr ⟨Prod.ext hreply rfl, hfollows.hosts hw.1, hfollows.agrees.rests hrests⟩⟩

theorem Busy.rollback (hw : w.Busy n caches a.session t u) (hc : caches a.cache)
    (ha : a.IsOrdinary) :
    ∃ v, w.execute n a .rollback = (.ok (), v) ∧ v.Idle n caches t := by
  obtain ⟨a', hsession, hwrites, -, hrun⟩ := hw.1.1.execute (hw.1.2 _ hc) ha .rollback
  obtain ⟨d, hrollback, hlog, hrests⟩ := Database.Drafts.rollback (hsession ▸ hw.2) hwrites
  rw [hrollback] at hrun
  obtain ⟨hok, hfollows⟩ := hrun hlog
  exact ⟨_, Prod.ext hok rfl, hfollows.hosts hw.1, hfollows.agrees.rests hrests⟩

end World

open World in
/-- A store whose session uses the log has isolated transactions. -/
theorem Store.isolates {s : Store} (caches : Nat → Prop) (hc : caches s.access.cache)
    (ha : s.access.IsOrdinary) :
    s.connection.Isolates (Idle s.database caches) (Busy s.database caches s.access.session) where
  begin_ok hw he := by
    obtain ⟨v, hbegin, hbusy⟩ := hw.begin hc ha
    cases he.symm.trans hbegin
    exact hbusy
  begin_error hw he := by
    obtain ⟨v, hbegin, -⟩ := hw.begin hc ha
    cases he.symm.trans hbegin
  query_ok {t u w w' q reply} hw he := by
    obtain ⟨v, ⟨e, -, hq, -⟩ | ⟨reply', changed, happly, hq, hbusy⟩⟩ := hw.query hc ha q
    · cases he.symm.trans hq
    · cases he.symm.trans hq
      exact ⟨changed, happly, hbusy⟩
  query_error {t u w w' q e} hw he := by
    obtain ⟨v, ⟨e', -, hq, hbusy⟩ | ⟨reply, changed, -, hq, -⟩⟩ := hw.query hc ha q
    · cases he.symm.trans hq
      exact hbusy
    · cases he.symm.trans hq
  defer_ok hw he := by
    obtain ⟨v, hdefer, hbusy⟩ := hw.defer hc ha
    cases he.symm.trans hdefer
    exact hbusy
  defer_error hw he := by
    obtain ⟨v, hdefer, -⟩ := hw.defer hc ha
    cases he.symm.trans hdefer
  commit_ok hw he := by
    obtain ⟨v, ⟨e, -, hcommit, -⟩ | ⟨hcommit, hidle⟩⟩ := hw.commit hc ha
    · cases he.symm.trans hcommit
    · cases he.symm.trans hcommit
      exact hidle
  commit_error hw he := by
    obtain ⟨v, ⟨e, -, hcommit, hbusy⟩ | ⟨hcommit, -⟩⟩ := hw.commit hc ha
    · cases he.symm.trans hcommit
      exact hbusy
    · cases he.symm.trans hcommit
  rollback hw := hw.rollback hc ha

theorem FileSystem.single_spares (content : Bytes) : (single content).Spares 0 := by
  intro k f hf hn
  rw [single, List.mem_singleton] at hf
  cases hf
  cases hn

def World.single (t : Tables) (files : FileSystem) : World where
  files := files
  databases := [{ contents := .tables t, log := some { stored := .bare, users := [0] } }]
  logs := [none]
  opened := 1

def Tables.reporting (content : Bytes) (remarks : List Remark) : Tables where
  files := [⟨1, "/file", .integer 0, .integer content.length⟩]
  reports := remarks.map fun r ↦
    ⟨⟨.integer r.line, .integer r.column, r.tool, r.message⟩, .integer 1⟩

def World.reporting (content : Bytes) (remarks : List Remark) : World :=
  .single (.reporting content remarks) (.single content)

def Store.single (retention : Retention) : Store where
  path := Path.ofText "/store"
  policy := .ofConfig {}
  retention := retention
  database := 0
  access := { residence := .file [Utf8.encode "store"] }

theorem Store.single_isOrdinary (retention : Retention) :
    (Store.single retention).access.IsOrdinary :=
  ⟨⟨_, rfl⟩, rfl, rfl, rfl, rfl⟩

theorem World.single_idle {t : Tables} {files : FileSystem} (h : files.Spares 0) :
    (World.single t files).Idle 0 (· = 0) t := by
  refine ⟨⟨⟨Nat.zero_lt_one, ⟨_, rfl, rfl⟩, h⟩, ?_⟩, rfl, rfl, rfl, rfl⟩
  rintro cache rfl log hlog
  obtain rfl : { stored := .bare, users := [0] } = log := Option.some.inj hlog
  exact ⟨by decide, by decide⟩

end FindingStore
