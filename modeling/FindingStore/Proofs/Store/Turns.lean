import FindingStore.Proofs.Database.Caches
import FindingStore.Proofs.Store.Handles

namespace FindingStore

structure Shared where
  tables : Tables
  holder : Option (Nat × Draft) := none

namespace Shared

def own? (x : Shared) (session : Nat) : Option Draft :=
  match x.holder with
  | some (holder, d) => if holder = session then some d else none
  | none => none

/-- A session is turned away with a statement, or takes its turn. -/
inductive Takes (session : Nat) :
    Shared → (s : Statement) → Except SqlError s.Reply → Shared → Prop
  | begun (t : Tables) : Takes session ⟨t, none⟩ .begin (.ok ()) ⟨t, some (session, t)⟩
  | asked {t u : Tables} {d : Draft} {q : Query} {reply : q.Reply} :
      d.tables.apply d.deferred q = .ok (reply, u) →
        Takes session ⟨t, some (session, d)⟩ (.query q) (.ok reply)
          ⟨t, some (session, { d with tables := u })⟩
  | deferred (t : Tables) (d : Draft) :
      Takes session ⟨t, some (session, d)⟩ .deferForeignKeys (.ok ())
        ⟨t, some (session, { d with deferred := true })⟩
  | committed (t : Tables) (d : Draft) :
      Takes session ⟨t, some (session, d)⟩ .commit (.ok ()) ⟨d.tables, none⟩
  | undone (t : Tables) (d : Draft) :
      Takes session ⟨t, some (session, d)⟩ .rollback (.ok ()) ⟨t, none⟩
  | refused {x : Shared} {s : Statement} (e : SqlError) :
      s ≠ .rollback → Takes session x s (.error e) x

def Admits (x : Shared) (session : Nat) (s : Statement) : Prop :=
  (x.own? session).isSome = true ↔ s ≠ .begin

variable {x y : Shared} {session : Nat} {d : Draft}

theorem own?_eq_some : x.own? session = some d ↔ x.holder = some (session, d) := by
  obtain ⟨t, _ | ⟨holder, e⟩⟩ := x <;> simp [own?]

theorem own?_eq_none : x.own? session = none ↔ Database.Avoids x.holder session := by
  obtain ⟨t, _ | ⟨holder, e⟩⟩ := x <;> simp [own?, Database.Avoids]

def without (x : Shared) (session : Nat) : Shared :=
  match x.own? session with
  | some _ => ⟨x.tables, none⟩
  | none => x

theorem mem_holder_without {held : Nat × Draft} :
    held ∈ (x.without session).holder ↔ held.1 ≠ session ∧ held ∈ x.holder := by
  unfold without
  split
  · next d hown =>
    rw [own?_eq_some.1 hown]
    simp only [Option.mem_def, reduceCtorEq, Option.some.injEq, false_iff, not_and]
    rintro hne rfl
    exact hne rfl
  · next hown => exact ⟨fun hheld ↦ ⟨own?_eq_none.1 hown held hheld, hheld⟩, And.right⟩

theorem own?_without_of_ne {other : Nat} (hne : other ≠ session) :
    (x.without session).own? other = x.own? other := by
  unfold without
  split
  · next d hown => simp [own?, own?_eq_some.1 hown, hne.symm]
  · rfl

end Shared

namespace Database

variable {d : Database} {a : Access} {t : Tables}

theorem Stands.strays {holder : Option (Nat × Draft)} (h : d.Stands t holder) : d.strays = [] := by
  cases holder with
  | none => exact Rests.strays h
  | some held => exact Drafts.strays h

theorem Agrees.isApart {e : Database} (h : d.Agrees e) (he : e.IsApart) : d.IsApart :=
  fun w hw ↦ he w (h.writer ▸ hw)

/-- A session with its own cache reads the tables, whatever another one has begun to change. -/
theorem Stands.reply {holder : Option (Nat × Draft)} (h : d.Stands t holder) (hd : d.IsApart)
    (ha : a.Writes) (hne : Avoids holder a.session) (hc : a.cache = a.session)
    (hs : a.sight = none) {q : Query} (hq : q.writes = false) :
    (d.execute a (.query q)).1 = (t.apply false q).map Prod.fst := by
  obtain ⟨hown, hreader⟩ := h.own? ha hne
  have hneighbour := hd.neighbour? h.strays hc
  have hview : d.view a = .tables t := by
    simp [Database.view, Database.seen, Database.schemaLock?, hneighbour, hown, hreader, hs,
      ha.isFrozen, h.contents]
  simp only [Database.execute, Database.schemaLock?, hneighbour, Option.any_none,
    Bool.false_eq_true, if_false, Database.run, hown, Database.runAlone, hview, hq, Contents.apply,
    Database.tableLock?, Option.bind_none]
  cases hr : t.apply false q with
  | error e => simp [Except.map]
  | ok r => simp [Except.map, hasEffect_of_reads hq]

end Database

namespace World

variable {w v : World} {n : Nat} {home : Location} {x : Shared} {s : Store}

theorem Tracks.then {y : World} {d e : Database} (h : w.Tracks v n home d)
    (h' : v.Tracks y n home e) : w.Tracks y n home (y.database n) :=
  ⟨h'.serves, .refl _, fun hu ↦ h'.usesLog (h.usesLog hu), h'.opened.trans h.opened⟩

/-- A database on which handles take turns. The one in a transaction uses the log, and no other its
cache. -/
structure Shares (w : World) (n : Nat) (home : Location) (x : Shared) : Prop where
  serves : w.Serves n home
  stands : (w.database n).Stands x.tables x.holder
  apart : (w.database n).IsApart
  usesLog : ∀ held ∈ x.holder, w.UsesLog n held.1

def Answers (w : World) (n : Nat) (home : Location) (x : Shared) (s : Store)
    (statement : Statement) : Prop :=
  ∃ y, x.Takes s.access.session statement (s.connection statement w).1 y ∧
    (s.connection statement w).2.Shares n home y ∧
    w.Tracks (s.connection statement w).2 n home ((s.connection statement w).2.database n)

theorem Shares.connection_eq (hs : s.IsHandle n home) (statement : Statement) :
    s.connection statement w = w.execute n s.access statement := by
  rw [← hs.database]
  rfl

theorem Shares.apart_connection (h : w.Shares n home x) (hs : s.IsHandle n home)
    (statement : Statement) : ((s.connection statement w).2.database n).IsApart := by
  obtain ⟨a', v, hlooked, hwrites, hsession, hcache, -, -, hagrees, -⟩ :=
    h.serves.execute hs.ordinary hs.residence statement
  rw [connection_eq hs]
  exact hagrees.isApart ((hlooked.agrees.isApart h.apart).execute hwrites.takesLocks
    (hcache.trans (hs.cache.trans hsession.symm)) statement)

theorem Shares.begin (h : w.Shares n home x) (hs : s.IsHandle n home)
    (hown : x.own? s.access.session = none) : w.Answers n home x s .begin := by
  obtain ⟨a', v, hlooked, hwrites, hsession, -, hsight, hreply, -, hrest⟩ :=
    h.serves.execute hs.ordinary hs.residence .begin
  have hconnection : s.connection .begin w = w.execute n s.access .begin := connection_eq hs _
  have hapart := hconnection ▸ h.apart_connection hs .begin
  have hfree := Shared.own?_eq_none.1 hown
  have hsight := hsight rfl (h.stands.isBusy hs.ordinary.writes hfree)
  have hstands := hlooked.agrees.stands h.stands
  -- a handle that is turned away leaves everything as it was
  have hturned {e : SqlError} (he : (v.database n).execute a' .begin = (.error e, v.database n)) :
      w.Answers n home x s .begin := by
    rw [he] at hreply hrest
    have hsame := hrest (.inl rfl)
    refine ⟨x, ?_, ?_, ?_⟩ <;> rw [hconnection]
    · rw [hreply]
      exact .refused e nofun
    · exact ⟨hsame.serves, hsame.agrees.stands hstands, hapart,
        fun held hheld ↦ hsame.usesLog (hlooked.usesLog (h.usesLog held hheld))⟩
    · exact hlooked.then hsame
  obtain ⟨t, _ | ⟨holder, d⟩⟩ := x
  · rcases hsight with ⟨e, hblind⟩ | ⟨hclear, huses⟩
    · exact hturned (Database.Rests.begin_blind hstands hblind)
    · have hrests : (v.database n).Rests t := hstands
      rw [hrests.begin hlooked.serves.holds.logged hwrites hclear] at hreply hrest
      have hbegun := hrest (.inl rfl)
      refine ⟨⟨t, some (s.access.session, t)⟩, ?_, ?_, ?_⟩ <;> rw [hconnection]
      · rw [hreply]
        exact .begun t
      · refine ⟨hbegun.serves, hbegun.agrees.drafts ⟨hrests.contents,
          ⟨_, rfl, hsession, rfl, hrests.contents⟩, hrests.strays, hrests.readers⟩, hapart, ?_⟩
        rintro held ⟨⟩
        exact hbegun.usesLog (hs.cache ▸ huses)
      · exact hlooked.then hbegun
  · have hne : a'.session ≠ holder := by
      rw [hsession]
      exact (hfree _ rfl).symm
    have hinside : a'.isOutside = false := by
      rcases hsight with ⟨e, he⟩ | ⟨hnone, -⟩
      · simp [Access.isOutside, he]
      · simp [Access.isOutside, hnone]
    obtain ⟨e, he⟩ := Database.Drafts.begin_other hstands hwrites hinside hne
    exact hturned he

/-- A statement of the handle in a transaction acts on its draft, or ends the transaction. -/
theorem Shares.inside (h : w.Shares n home x) (hs : s.IsHandle n home) {d : Draft}
    (hown : x.own? s.access.session = some d) {statement : Statement} (hne : statement ≠ .begin) :
    w.Answers n home x s statement := by
  obtain ⟨t, holder⟩ := x
  obtain rfl : holder = some (s.access.session, d) := Shared.own?_eq_some.1 hown
  have huses : w.UsesLog n s.access.cache := hs.cache ▸ h.usesLog _ rfl
  have htracks : w.Tracks (s.connection statement w).2 n home
      ((s.connection statement w).2.database n) := by
    obtain ⟨a', v, hlooked, -, -, -, -, -, -, hrest⟩ :=
      h.serves.execute hs.ordinary hs.residence statement
    rw [connection_eq hs]
    exact hlooked.then (hrest (.inr (hlooked.usesLog huses)))
  have hisolates := Store.isolates (· = s.access.cache) rfl hs.ordinary
  rw [hs.database] at hisolates
  have hbusy : World.Busy n (· = s.access.cache) s.access.session t d w :=
    ⟨⟨h.serves.holds, fun _ hc ↦ hc ▸ huses⟩, h.stands⟩
  have hanswers {y : Shared} (hsame : ∀ held ∈ y.holder, held.1 = s.access.session)
      (htakes : Shared.Takes s.access.session ⟨t, some (s.access.session, d)⟩ statement
        (s.connection statement w).1 y)
      (hstands : ((s.connection statement w).2.database n).Stands y.tables y.holder) :
      w.Answers n home ⟨t, some (s.access.session, d)⟩ s statement := by
    refine ⟨y, htakes, ⟨htracks.serves, hstands, h.apart_connection hs statement,
      fun held hheld ↦ ?_⟩, htracks⟩
    rw [hsame held hheld, ← hs.cache]
    exact htracks.usesLog huses
  have hholder {u : Draft} : ∀ held ∈ some (s.access.session, u), held.1 = s.access.session := by
    rintro held ⟨⟩
    rfl
  cases statement with
  | begin => exact absurd rfl hne
  | query q =>
    rcases he : s.connection (.query q) w with ⟨e | reply, v⟩ <;> rw [he] at hanswers
    · exact hanswers hholder (.refused e nofun) (hisolates.query_error hbusy he).2
    · obtain ⟨u, happly, hafter⟩ := hisolates.query_ok hbusy he
      exact hanswers hholder (.asked happly) hafter.2
  | deferForeignKeys =>
    rcases he : s.connection .deferForeignKeys w with ⟨e | ⟨⟩, v⟩ <;> rw [he] at hanswers
    · exact hanswers hholder (.refused e nofun) (hisolates.defer_error hbusy he).2
    · exact hanswers hholder (.deferred t d) (hisolates.defer_ok hbusy he).2
  | commit =>
    rcases he : s.connection .commit w with ⟨e | ⟨⟩, v⟩ <;> rw [he] at hanswers
    · exact hanswers hholder (.refused e nofun) (hisolates.commit_error hbusy he).2
    · exact hanswers (y := ⟨d.tables, none⟩) nofun (.committed t d)
        (hisolates.commit_ok hbusy he).2
  | rollback =>
    obtain ⟨v, he, hafter⟩ := hisolates.rollback hbusy
    rw [he] at hanswers
    exact hanswers (y := ⟨t, none⟩) nofun (.undone t d) hafter.2

theorem Shares.execute (h : w.Shares n home x) (hs : s.IsHandle n home) {statement : Statement}
    (hadmits : x.Admits s.access.session statement) : w.Answers n home x s statement := by
  cases hown : x.own? s.access.session with
  | none =>
    obtain rfl : statement = .begin := by
      by_contra hne
      have hinside := hadmits.2 hne
      rw [hown] at hinside
      cases hinside
    exact h.begin hs hown
  | some d => exact h.inside hs hown (hadmits.1 (by rw [hown]; rfl))

theorem Shares.read (h : w.Shares n home x) (hs : s.IsHandle n home)
    (hown : x.own? s.access.session = none) {q : Query} (hq : q.writes = false) :
    (s.connection (.query q) w).2.Shares n home x ∧
      w.Tracks (s.connection (.query q) w).2 n home
        ((s.connection (.query q) w).2.database n) := by
  obtain ⟨a', v, hlooked, hwrites, hsession, -, -, -, -, hrest⟩ :=
    h.serves.execute hs.ordinary hs.residence (.query q)
  have hapart := h.apart_connection hs (.query q)
  rw [connection_eq hs] at hapart ⊢
  have hstands := hlooked.agrees.stands h.stands
  have hsame := hstands.read hwrites (hsession ▸ Shared.own?_eq_none.1 hown) hq
  rw [hsame] at hrest
  have hread := hrest (.inl rfl)
  exact ⟨⟨hread.serves, hread.agrees.stands hstands, hapart,
    fun held hheld ↦ hread.usesLog (hlooked.usesLog (h.usesLog held hheld))⟩, hlooked.then hread⟩

theorem Shares.continues (h : w.Shares n home x) (hv : w.Continues v n home)
    (hbefore : ∀ held ∈ x.holder, held.1 < w.opened) : v.Shares n home x :=
  ⟨hv.serves, hv.agrees.stands h.stands, hv.agrees.isApart h.apart,
    fun held hheld ↦ hv.usesLog (hbefore held hheld) (h.usesLog held hheld)⟩

theorem Shares.close (h : w.Shares n home x) (hs : s.IsHandle n home) :
    (s.close w).Shares n home (x.without s.access.session) ∧
      (s.close w).opened = w.opened := by
  have hleaves := h.serves.close hs h.stands.contents
  refine ⟨⟨hleaves.serves, ?_, hleaves.agrees.isApart h.apart.rollback, ?_⟩, hleaves.opened⟩
  · refine hleaves.agrees.stands ?_
    cases hown : x.own? s.access.session with
    | none =>
      rw [Shared.without, hown, h.stands.rollback hs.ordinary.writes (Shared.own?_eq_none.1 hown)]
      exact h.stands
    | some d =>
      have hdrafts : (w.database n).Drafts s.access.session x.tables d := by
        have hstands := h.stands
        rwa [Shared.own?_eq_some.1 hown] at hstands
      obtain ⟨e, he, -, hrests⟩ := hdrafts.rollback hs.ordinary.writes
      have hrollback : (w.database n).rollback s.access = (.ok (), e) := by
        rwa [Database.execute, hdrafts.schemaLock?] at he
      rw [Shared.without, hown, hrollback]
      exact hrests
  · intro held hheld
    obtain ⟨hne, hheld⟩ := Shared.mem_holder_without.1 hheld
    refine hleaves.usesLog ?_ (h.usesLog held hheld)
    rwa [hs.cache]

end World

end FindingStore
