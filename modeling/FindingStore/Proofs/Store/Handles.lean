import FindingStore.Proofs.World.Serving

namespace FindingStore

namespace Database

variable {d e : Database} {a : Access} {t : Tables} {holder : Option (Nat × Draft)}

/-- No session is in a transaction, or the one is that is given with its draft. -/
def Stands (d : Database) (t : Tables) : Option (Nat × Draft) → Prop
  | none => d.Rests t
  | some (session, u) => d.Drafts session t u

theorem Rests.stands (h : d.Rests t) : d.Stands t none := h

theorem Stands.contents (h : d.Stands t holder) : d.contents = .tables t := by
  cases holder with
  | none => exact Rests.contents h
  | some held => exact Drafts.contents h

theorem Agrees.stands (h : d.Agrees e) (he : e.Stands t holder) : d.Stands t holder := by
  cases holder with
  | none => exact h.rests he
  | some held => exact h.drafts he

def Avoids (holder : Option (Nat × Draft)) (session : Nat) : Prop :=
  ∀ held ∈ holder, held.1 ≠ session

theorem avoids_none (session : Nat) : Avoids none session := nofun

theorem Stands.own? (h : d.Stands t holder) (ha : a.Writes) (hne : Avoids holder a.session) :
    d.own? a = none ∧ d.reader? a = none := by
  cases holder with
  | none => exact ⟨Rests.own? h a, Rests.reader? h a⟩
  | some held =>
    obtain ⟨w, hw, hsession, -⟩ := Drafts.writer h
    have hheld : w.session ≠ a.session := hsession ▸ hne held rfl
    have hreaders : d.readers = [] := Drafts.readers h
    exact ⟨by simp [Database.own?, ha.takesLocks, hw, hheld], by simp [Database.reader?, hreaders]⟩

theorem Stands.isBusy (h : d.Stands t holder) (ha : a.Writes) (hne : Avoids holder a.session) :
    d.isBusy a = false := by
  obtain ⟨hown, hreader⟩ := h.own? ha hne
  simp [Database.isBusy, hown, hreader]

theorem Stands.rollback (h : d.Stands t holder) (ha : a.Writes) (hne : Avoids holder a.session) :
    (d.rollback a).2 = d := by
  obtain ⟨hown, hreader⟩ := h.own? ha hne
  simp [Database.rollback, Database.endReading, hown, hreader]

/-- A session that is in no transaction sees the tables, or nothing at all. -/
theorem Stands.view (h : d.Stands t holder) (ha : a.Writes) (hne : Avoids holder a.session)
    (hs : (∃ e, a.sight = some (.unusable e)) ∨ a.sight = none) :
    (∃ e, d.view a = .unusable e) ∨ d.view a = .tables t := by
  obtain ⟨hown, hreader⟩ := h.own? ha hne
  unfold Database.view
  rw [hown, hreader]
  cases d.schemaLock? a with
  | some e => exact .inl ⟨e, rfl⟩
  | none =>
    rcases hs with ⟨e, he⟩ | hnone
    · exact .inl ⟨e, by simp [Database.seen, he]⟩
    · exact .inr (by simp [Database.seen, hnone, ha.isFrozen, h.contents])

theorem Stands.view_of_blind (h : d.Stands t holder) (ha : a.Writes)
    (hne : Avoids holder a.session) {e : SqlError} (hs : a.sight = some (.unusable e)) :
    ∃ e, d.view a = .unusable e := by
  obtain ⟨hown, hreader⟩ := h.own? ha hne
  unfold Database.view
  rw [hown, hreader]
  cases d.schemaLock? a with
  | some e => exact ⟨e, rfl⟩
  | none => exact ⟨e, by simp [Database.seen, hs]⟩

theorem Stands.blind (h : d.Stands t holder) (ha : a.Writes)
    (hne : Avoids holder a.session) {e : SqlError} (hs : a.sight = some (.unusable e)) (q : Query) :
    ∃ e, (d.execute a (.query q)).1 = .error e := by
  cases hlock : d.schemaLock? a with
  | some e' => exact ⟨e', by simp only [Database.execute, hlock]⟩
  | none =>
    obtain ⟨e', hview⟩ := h.view_of_blind ha hne hs
    exact ⟨d.blindError a q e', by
      simp only [Database.execute, hlock, Database.run, (h.own? ha hne).1, Database.runAlone,
        hview]⟩

theorem Stands.provideTables (h : d.Stands t holder) (ha : a.Writes)
    (hne : Avoids holder a.session)
    (hs : (∃ e, a.sight = some (.unusable e)) ∨ a.sight = none) : (d.provideTables a).2 = d := by
  unfold Database.provideTables
  rcases h.view ha hne hs with ⟨e, he⟩ | hview
  · rw [he]
  · rw [hview]

theorem Stands.read (h : d.Stands t holder) (ha : a.Writes) (hne : Avoids holder a.session)
    {q : Query} (hq : q.writes = false) : (d.execute a (.query q)).2 = d := by
  unfold Database.execute
  split
  · rfl
  · simp only [Database.run, (h.own? ha hne).1, Database.runAlone, hq, Bool.false_eq_true, if_false]
    split
    · rfl
    · split
      · rfl
      · rfl
      · simp [hasEffect_of_reads hq]

end Database

/-- A handle on the store in a file: its session takes locks and has a cache of its own. -/
structure Store.IsHandle (s : Store) (n : Nat) (home : Location) : Prop where
  database : s.database = n
  ordinary : s.access.IsOrdinary
  residence : s.access.residence = .file home
  cache : s.access.cache = s.access.session
  attempts : 1 ≤ s.policy.maxAttempts

namespace World

variable {w v : World} {n : Nat} {home : Location} {a : Access} {p : Path} {mode : AccessMode}
  {config : Config} {t : Tables} {holder : Option (Nat × Draft)}

/-- A path, or an address without options, that leads to the place of a database. -/
structure Finds (w : World) (p : Path) (home : Location) : Prop where
  nul : 0 ∉ p
  address : ∃ q, (∀ mode, Address.parse mode p = .ok { path := q, mode }) ∧ q ≠ [] ∧
    q ≠ Address.inMemory ∧ FileSystem.FullPath.resolve? w.files q = some home

theorem Finds.of_path (hscheme : Address.scheme.isPrefixOf p = false) (hnul : 0 ∉ p)
    (hp : p ≠ [] ∧ p ≠ Address.inMemory)
    (hresolves : FileSystem.FullPath.resolve? w.files p = some home) : w.Finds p home :=
  ⟨hnul, p, fun _ ↦ Address.parse_of_not_scheme hscheme, hp.1, hp.2, hresolves⟩

theorem Finds.openDatabase (h : w.Finds p home) (hmode : mode ≠ .memory) :
    ∃ q, w.openDatabase p mode =
      match w.openAt home { path := q, mode } with
      | some o => .ok o
      | none => .error (.unable p) := by
  obtain ⟨q, hparse, hempty, hmemory, hresolves⟩ := h.address
  have hnul : p.findIdx? (· == 0) = none := by
    rw [List.findIdx?_eq_none_iff]
    intro b hb
    exact beq_false_of_ne fun he ↦ h.nul (he ▸ hb)
  have hempty : q.isEmpty = false := by simpa using hempty
  have hmemory : Address.isInMemory { path := q, mode } = false := by
    simp [Address.isInMemory, hmode, hmemory]
  refine ⟨q, ?_⟩
  simp only [World.openDatabase, hnul, hparse, World.openAddress, hempty, hmemory, hresolves,
    World.openPlace, Bool.false_eq_true, if_false]
  rfl

/-- A world in which those who had opened a database before go on as if nothing had happened to
it. -/
structure Continues (w v : World) (n : Nat) (home : Location) : Prop where
  serves : v.Serves n home
  agrees : (v.database n).Agrees (w.database n)
  usesLog {cache : Nat} : cache < w.opened → w.UsesLog n cache → v.UsesLog n cache
  opened : w.opened ≤ v.opened

theorem Tracks.continues (h : w.Tracks v n home (w.database n)) : w.Continues v n home :=
  ⟨h.serves, h.agrees, fun _ ↦ h.usesLog, Nat.le_of_eq h.opened.symm⟩

theorem Serves.openDatabase (h : w.Serves n home) (hp : w.Finds p home)
    (hmode : mode = .readWrite ∨ mode = .create) :
    ∃ o, w.openDatabase p mode = .ok o ∧ o.database = n ∧ o.access.IsOrdinary ∧
      o.access.residence = .file home ∧ o.access.session = w.opened ∧
      o.access.cache = w.opened ∧
      ∃ sessions, o.world = { w with sessions, opened := w.opened + 1 } := by
  obtain ⟨f, hf, hn⟩ := h.houses.file
  obtain ⟨-, hrewritten, hreadable, hwritable⟩ :=
    h.houses.database (FileSystem.mem_of_fileAt? hf) hn
  have hlookup := FileSystem.fileAt?_eq_some.1 hf
  have hfile : w.databaseIn home f = (n, w) := by simp [databaseIn, hn, h.holds.refresh]
  have hreadOnly : (mode == .readOnly) = false := by rcases hmode with rfl | rfl <;> rfl
  refine ⟨w.joinAlone n { residence := .file home } false, ?_, rfl,
    ⟨⟨home, rfl⟩, rfl, rfl, rfl, rfl⟩, rfl, rfl, rfl, _, rfl⟩
  have hmemory : mode ≠ .memory := by rcases hmode with rfl | rfl <;> exact nofun
  obtain ⟨q, hopen⟩ := hp.openDatabase hmemory
  rw [hopen]
  simp only [openAt, hlookup, openFile, hreadable, hfile, hwritable, hreadOnly, Bool.not_true,
    Bool.or_false, Bool.false_eq_true, if_false]

theorem Continues.tracks {x : World} (h : w.Continues v n home)
    (h' : v.Tracks x n home (v.database n)) : w.Continues x n home :=
  ⟨h'.serves, h'.agrees.trans h.agrees, fun hc hu ↦ h'.usesLog (h.usesLog hc hu),
    h'.opened.symm ▸ h.opened⟩

theorem Serves.startLog (h : w.Serves n home) (a : Access) :
    w.startLog n a home = .ok w ∨ ∃ e, w.startLog n a home = .error e := by
  obtain ⟨log, hlog, -⟩ := h.log
  unfold World.startLog Database.startLog
  split
  · exact .inr ⟨_, rfl⟩
  · exact .inl (by simp [hlog, Except.map])

theorem Serves.provideTables (h : w.Serves n home) (ha : a.IsOrdinary)
    (hr : a.residence = .file home) (hd : (w.database n).Stands t holder)
    (hne : Database.Avoids holder a.session) :
    w.Tracks (w.provideTables n a).2 n home (w.database n) := by
  obtain ⟨sight, j, v, hreach, htracks, hsight⟩ := h.reach ha hr (hd.isBusy ha.writes hne)
  have ha' : ({ a with sight, journalError := j } : Access).IsOrdinary :=
    ⟨ha.1, ha.2, ha.3, ha.4, ha.5⟩
  have hsame := (htracks.agrees.stands hd).provideTables ha'.writes hne (hsight.imp_right And.left)
  have hsettled := htracks.serves.settle ha' (v.database n).evolves_refl (.inl rfl)
  unfold World.provideTables
  rw [hreach]
  simp only [hsame]
  exact htracks.trans (hsettled.trans (hsettled.serves.learn _) hsettled.agrees) htracks.agrees

theorem Serves.provide (h : w.Serves n home) (ha : a.IsOrdinary) (hr : a.residence = .file home)
    (hd : (w.database n).Stands t holder) (hne : Database.Avoids holder a.session) :
    w.Tracks (w.provide n a).2 n home (w.database n) := by
  obtain ⟨sight, j, v, hreach, htracks, -⟩ := h.reach ha hr (hd.isBusy ha.writes hne)
  unfold World.provide
  rw [hreach]
  generalize ({ a with sight, journalError := j } : Access) = reached
  rw [hr]
  dsimp only
  split
  · exact htracks
  · have hlearned := htracks.serves.learn reached
    have hreached := htracks.trans hlearned htracks.agrees
    rcases hlearned.serves.startLog reached with hstart | ⟨e, hstart⟩
    · simp only [hstart]
      have hprovided := hlearned.serves.provideTables ha hr (hreached.agrees.stands hd) hne
      exact hreached.trans hprovided hreached.agrees
    · simp only [hstart]
      exact hreached

theorem Serves.close (h : w.Serves n home) {s : Store} (hs : s.IsHandle n home)
    (ht : (w.database n).contents = .tables t) :
    w.Leaves (s.close w) n home s.access ((w.database n).rollback s.access).2 := by
  have hdatabase := hs.database
  unfold Store.close
  rw [hdatabase]
  exact h.leave hs.ordinary hs.residence (by rw [ht]; exact nofun)

theorem Continues.close (h : w.Continues v n home) {s : Store} (hs : s.IsHandle n home)
    (hsession : s.access.session = w.opened) (hd : (w.database n).Stands t holder)
    (hne : Database.Avoids holder s.access.session) : w.Continues (s.close v) n home := by
  have hstands := h.agrees.stands hd
  have hleaves := h.serves.close hs hstands.contents
  rw [hstands.rollback hs.ordinary.writes hne] at hleaves
  refine ⟨hleaves.serves, hleaves.agrees.trans h.agrees, fun hc hu ↦ ?_,
    Nat.le_trans h.opened (Nat.le_of_eq hleaves.opened.symm)⟩
  refine hleaves.usesLog ?_ (h.usesLog hc hu)
  rw [hs.cache, hsession]
  exact Nat.ne_of_lt hc

section Open

variable (h : w.Serves n home) (hp : w.Finds p home) (hd : (w.database n).Stands t holder)
  (hholder : ∀ held ∈ holder, held.1 < w.opened)

include h hp hd hholder

theorem Serves.connect (hmode : mode = .readWrite ∨ mode = .create) (config : Config) :
    let r := Store.connect w p config mode
    w.Continues r.2 n home ∧ ∀ s, r.1 = .ok s → s.IsHandle n home ∧
      s.access.session = w.opened ∧ r.2.opened = w.opened + 1 ∧
      s.retention = config.retention := by
  obtain ⟨o, ho, hn, hordinary, hresidence, hsession, hcache, sessions, hworld⟩ :=
    h.openDatabase hp hmode
  let s : Store :=
    { path := p, policy := .ofConfig config, retention := config.retention
      database := o.database, access := o.access }
  have hs : s.IsHandle n home :=
    ⟨hn, hordinary, hresidence, hcache.trans hsession.symm, Nat.le_max_left _ _⟩
  have hopened : o.world.opened = w.opened + 1 := by rw [hworld]
  have hcontinues : w.Continues o.world n home := by
    rw [hworld]
    exact ⟨h.withSessions _ _, .refl _, fun _ hu ↦ hu, Nat.le_succ _⟩
  have hne : Database.Avoids holder s.access.session := by
    intro held hheld he
    have := hholder held hheld
    simp only [s] at he
    omega
  have hclosed := hcontinues.close hs hsession hd hne
  have hopens {e : StoreError} : ∀ s', (.error e : Except StoreError Store) = .ok s' →
      s'.IsHandle n home ∧ s'.access.session = w.opened ∧ (s.close o.world).opened = w.opened + 1 ∧
        s'.retention = config.retention := by
    intro s' he
    cases he
  simp only [Store.connect, ho]
  split
  · exact ⟨hclosed, hopens⟩
  · split
    · exact ⟨hclosed, hopens⟩
    · refine ⟨hcontinues, fun s' hs' ↦ ?_⟩
      cases hs'
      exact ⟨hs, hsession, hopened, rfl⟩

omit hd hholder in
/-- To open a store changes no file. -/
theorem Serves.files_openExisting {config : Config} {s : Store}
    (hopen : Store.openExisting w p config = (.ok s, v)) : v.files = w.files := by
  obtain ⟨o, ho, -, -, -, -, -, sessions, hworld⟩ := h.openDatabase hp (.inl rfl)
  simp only [Store.openExisting, Store.connect, ho] at hopen
  split at hopen
  · cases hopen
  · split at hopen
    · cases hopen
    · cases hopen
      rw [hworld]

/-- Opening a store that exists leaves its rows, and the other handles, as they are. -/
theorem Serves.openExisting (config : Config) :
    let r := Store.openExisting w p config
    w.Continues r.2 n home ∧ ∀ s, r.1 = .ok s → s.IsHandle n home ∧
      s.access.session = w.opened ∧ r.2.opened = w.opened + 1 ∧ s.retention = config.retention :=
  h.connect hp hd hholder (.inl rfl) config

theorem Serves.create (config : Config) :
    let r := Store.create w p config
    w.Continues r.2 n home ∧ ∀ s, r.1 = .ok s → s.IsHandle n home ∧
      s.access.session = w.opened ∧ r.2.opened = w.opened + 1 ∧
      s.retention = config.retention := by
  obtain ⟨hcontinues, hopens⟩ := h.connect hp hd hholder (.inr rfl) config
  rcases hconnect : Store.connect w p config .create with ⟨e | s, v⟩
  · rw [hconnect] at hcontinues
    simp only [Store.create, hconnect]
    exact ⟨hcontinues, fun s hs ↦ by cases hs⟩
  rw [hconnect] at hcontinues hopens
  obtain ⟨hs, hsession, hopened, hretention⟩ := hopens s rfl
  have hne : Database.Avoids holder s.access.session := by
    intro held hheld he
    have := hholder held hheld
    omega
  have hprovided := hcontinues.serves.provide hs.ordinary hs.residence
    (hcontinues.agrees.stands hd) hne
  rw [← hs.database] at hprovided
  simp only [Store.create, hconnect]
  rcases hresult : v.provide s.database s.access with ⟨⟨step, e⟩ | ⟨⟩, x⟩
  · rw [hresult, hs.database] at hprovided
    exact ⟨(hcontinues.tracks hprovided).close hs hsession hd hne, fun s' hs' ↦ by cases hs'⟩
  · rw [hresult, hs.database] at hprovided
    refine ⟨hcontinues.tracks hprovided, fun s' hs' ↦ ?_⟩
    cases hs'
    exact ⟨hs, hsession, hprovided.opened.trans hopened, hretention⟩

end Open

end World

end FindingStore
