import FindingStore.Proofs.Store.Handles
import FindingStore.Proofs.World.Obstacles

/-!
Sessions that find a database at rest, whether they use its log already or look at its file for the
first time. Main statement: the transactions of such a session are isolated, and whoever could get
at the database before still can.
-/

namespace FindingStore

theorem FileSystem.Houses.home_eq {fs : FileSystem} {n : Nat} {home home' : Location}
    (h : fs.Houses n home) (h' : fs.Houses n home') : home = home' := by
  obtain ⟨f, hf, hn⟩ := h.file
  exact (h'.database (FileSystem.mem_of_fileAt? hf) hn).1

namespace World

/-- A session can get at a database: it uses the log, or it finds the database with its log where it
was opened. -/
def Receives (w : World) (n : Nat) (a : Access) : Prop :=
  w.Holds n ∧ w.UsesLog n a.cache ∨ ∃ home, a.residence = .file home ∧ w.Serves n home

/-- Nothing stands in the way of a session that looks at its file. -/
def IsClear (w : World) (n : Nat) (a : Access) : Prop := (w.reach n a).1.sight = none

instance (w : World) (n : Nat) (a : Access) : Decidable (w.IsClear n a) :=
  inferInstanceAs (Decidable (_ = none))

/-- Nobody is in a transaction on a database, and a session can get at it. -/
structure Awaits (n : Nat) (a : Access) (t : Tables) (w : World) : Prop where
  receives : w.Receives n a
  rests : (w.database n).Rests t

/-- Whoever could get at a database still can. -/
structure Retains (w v : World) (n : Nat) : Prop where
  holds : w.Holds n → v.Holds n
  usesLog {cache : Nat} : w.UsesLog n cache → v.UsesLog n cache
  serves {home : Location} : w.Serves n home → v.Serves n home

variable {w v x : World} {n : Nat} {home : Location} {a : Access} {t : Tables} {u : Draft}
  {d : Database} {p : Path} {caches : Nat → Prop}

namespace Retains

theorem refl (w : World) (n : Nat) : w.Retains w n := ⟨id, id, id⟩

theorem trans (h : w.Retains v n) (h' : v.Retains x n) : w.Retains x n :=
  ⟨h'.holds ∘ h.holds, h'.usesLog ∘ h.usesLog, h'.serves ∘ h.serves⟩

theorem receives (h : w.Retains v n) (hw : w.Receives n a) : v.Receives n a :=
  hw.imp (And.imp h.holds h.usesLog) (Exists.imp fun _ ↦ And.imp_right h.serves)

end Retains

theorem Receives.holds (h : w.Receives n a) : w.Holds n := by
  rcases h with ⟨hholds, -⟩ | ⟨home, -, hserves⟩
  · exact hholds
  · exact hserves.holds

theorem Serves.retains (h : w.Serves n home) (hv : w.Tracks v n home d) : w.Retains v n where
  holds _ := hv.serves.holds
  usesLog := hv.usesLog
  serves h' := h.houses.home_eq h'.houses ▸ hv.serves

theorem Holds.retains_settle (h : w.Holds n) (ha : a.IsOrdinary) (hd : (w.database n).Evolves d)
    (hu : d.changeCount = (w.database n).changeCount ∨ w.UsesLog n a.cache) :
    w.Retains ((w.setDatabase n d).settle n a (w.database n)) n where
  holds _ := (h.settle ha hd.log).holds
  usesLog := (h.settle ha hd.log).usesLog
  serves hserves := (hserves.settle ha hd hu).serves

theorem Holds.retains_learn (h : w.Holds n) (a : Access) : w.Retains (w.learn n a) n where
  holds _ := (h.learn a).holds
  usesLog := (h.learn a).usesLog
  serves hserves := (hserves.learn a).serves

theorem Holds.retains_execute (h : w.Holds n) (hu : w.UsesLog n a.cache) (ha : a.IsOrdinary)
    (s : Statement) : w.Retains (w.execute n a s).2 n := by
  obtain ⟨a', hstep, ha', -, hcache, -⟩ := look_of_usesLog h hu ha s
  have hsettled := h.retains_settle ha' ((w.database n).evolves_execute a' s) (.inr (hcache ▸ hu))
  simp only [World.execute, hstep]
  split
  · exact hsettled.trans ((hsettled.holds h).retains_learn a')
  · exact hsettled

theorem Busy.retains (hw : w.Busy n caches a.session t u) (hc : caches a.cache) (ha : a.IsOrdinary)
    (s : Statement) : w.Retains (w.execute n a s).2 n :=
  hw.1.1.retains_execute (hw.1.2 _ hc) ha s

theorem Idle.awaits (hw : w.Idle n caches t) (hc : caches a.cache) : w.Awaits n a t :=
  ⟨.inl ⟨hw.1.1, hw.1.2 _ hc⟩, hw.2⟩

theorem Idle.isClear (hw : w.Idle n caches t) (hc : caches a.cache) (ha : a.IsOrdinary) :
    w.IsClear n a := by
  obtain ⟨j, hreach⟩ := reach_of_usesLog hw.1.1 (hw.1.2 _ hc) ha
  rw [IsClear, hreach, hw.2.isBusy a]
  rfl

theorem Serves.awaits (h : w.Serves n home) (hr : a.residence = .file home)
    (ht : (w.database n).Rests t) : w.Awaits n a t :=
  ⟨.inr ⟨home, hr, h⟩, ht⟩

theorem Serves.awaits_openExisting (h : w.Serves n home) (hp : w.Finds p home)
    (ht : (w.database n).Rests t) {config : Config} {s : Store}
    (hopen : Store.openExisting w p config = (.ok s, v)) :
    s.IsHandle n home ∧ s.retention = config.retention ∧ w.Continues v n home ∧
      v.Awaits n s.access t := by
  have hopens := h.openExisting hp ht.stands nofun config
  rw [hopen] at hopens
  obtain ⟨hcontinues, hhandle⟩ := hopens
  obtain ⟨hs, -, -, hretention⟩ := hhandle s rfl
  exact ⟨hs, hretention, hcontinues, hcontinues.serves.awaits hs.residence
    (hcontinues.agrees.rests ht)⟩

/-- A session looks at its file: it uses the log then, or it meets an obstacle whenever it looks
again. -/
theorem Awaits.reach (hw : w.Awaits n a t) (ha : a.IsOrdinary) :
    ∃ sight j v, w.reach n a = ({ a with sight, journalError := j }, v) ∧ w.Retains v n ∧
      v.Awaits n a t ∧
      (sight = none ∧ v.UsesLog n a.cache ∨
        (∃ e, sight = some (.unusable e)) ∧ ¬v.IsClear n a) := by
  rcases hw.receives with ⟨hholds, hu⟩ | ⟨home, hr, hserves⟩
  · obtain ⟨j, hreach⟩ := reach_of_usesLog hholds hu ha
    rw [hw.rests.isBusy a] at hreach
    exact ⟨none, j, w, hreach, .refl w n, hw, .inl ⟨rfl, hu⟩⟩
  · obtain ⟨sight, j, v, hreach, htracks, hsight⟩ :=
      hserves.reach_settles ha hr (hw.rests.isBusy a)
    have hrests := htracks.agrees.rests hw.rests
    refine ⟨sight, j, v, hreach, hserves.retains htracks, htracks.serves.awaits hr hrests,
      hsight.imp_right fun hblind ↦ ⟨hblind.1, fun hclear ↦ ?_⟩⟩
    obtain ⟨e, j', y, hagain, -⟩ := hblind.2 (hrests.isBusy a)
    rw [IsClear, hagain] at hclear
    cases hclear

/-- A transaction begins, or an obstacle keeps it from doing so, now and later. -/
theorem Awaits.begin (hw : w.Awaits n a t) (ha : a.IsOrdinary) :
    (w.IsClear n a ∧ ∃ v, w.execute n a .begin = (.ok (), v) ∧ w.Retains v n ∧
        v.Busy n (· = a.cache) a.session t t) ∨
      ¬w.IsClear n a ∧ ∃ e v, w.execute n a .begin = (.error e, v) ∧ w.Retains v n ∧
        v.Awaits n a t ∧ ¬v.IsClear n a := by
  obtain ⟨sight, j, v, hreach, hretains, hv, hsight⟩ := hw.reach ha
  let a' : Access := { a with sight, journalError := j }
  have ha' : a'.IsOrdinary := ⟨ha.1, ha.2, ha.3, ha.4, ha.5⟩
  have hholds := hv.receives.holds
  have hexecute : w.execute n a .begin = (((v.database n).execute a' .begin).1,
      (v.setDatabase n ((v.database n).execute a' .begin).2).settle n a' (v.database n)) := by
    simp only [World.execute, needsFile, if_true, hreach]
    rfl
  have hclear : w.IsClear n a ↔ sight = none := by rw [IsClear, hreach]
  rcases hsight with ⟨hnone, hu⟩ | ⟨⟨e, hblind⟩, hagain⟩
  · rw [hv.rests.begin hholds.logged ha'.writes hnone] at hexecute
    have hsettled := hholds.settle ha' (d := { v.database n with
      writer := some { session := a'.session, cache := a'.cache } }) rfl
    refine .inl ⟨hclear.2 hnone, _, hexecute, hretains.trans ?_, ⟨hsettled.holds, ?_⟩, ?_⟩
    · exact hholds.retains_settle ha' ⟨rfl, .inl rfl⟩ (.inl rfl)
    · rintro cache rfl
      exact hsettled.usesLog hu
    · refine hsettled.agrees.drafts ⟨hv.rests.contents, ?_, hv.rests.strays, hv.rests.readers⟩
      exact ⟨_, rfl, rfl, rfl, hv.rests.contents⟩
  · rw [hv.rests.begin_blind hblind, hholds.settle_self ha'] at hexecute
    refine .inr ⟨fun hnone ↦ ?_, e, v, hexecute, hretains, hv, hagain⟩
    rw [hclear.1 hnone] at hblind
    cases hblind

end World

open World

variable {s : Store}

/-- A store that can get at its database has isolated transactions. None of them leaves something in
its way. -/
theorem Store.isolates_of_awaits (x : World) (ha : s.access.IsOrdinary) :
    s.connection.Isolates
      (fun t w ↦ w.Awaits s.database s.access t ∧ x.Retains w s.database ∧
        (x.IsClear s.database s.access → w.IsClear s.database s.access))
      (fun t u w ↦ w.Busy s.database (· = s.access.cache) s.access.session t u ∧
        x.Retains w s.database) := by
  have hisolates := Store.isolates (· = s.access.cache) rfl ha
  have hretains {t : Tables} {u : Draft} {w w' : World} {statement : Statement}
      {r : Except SqlError statement.Reply}
      (hw : w.Busy s.database (· = s.access.cache) s.access.session t u ∧ x.Retains w s.database)
      (he : s.connection statement w = (r, w')) : x.Retains w' s.database := by
    have hafter : w.Retains (s.connection statement w).2 s.database := hw.1.retains rfl ha statement
    rw [he] at hafter
    exact hw.2.trans hafter
  refine ⟨fun hw he ↦ ?_, fun hw he ↦ ?_, fun hw he ↦ ?_, fun hw he ↦ ?_, fun hw he ↦ ?_,
    fun hw he ↦ ?_, fun hw he ↦ ?_, fun hw he ↦ ?_, fun {t u w} hw ↦ ?_⟩
  · rcases hw.1.begin ha with ⟨-, v, hbegin, hv, hbusy⟩ | ⟨-, e, v, hbegin, -⟩
    · cases he.symm.trans hbegin
      exact ⟨hbusy, hw.2.1.trans hv⟩
    · cases he.symm.trans hbegin
  · rcases hw.1.begin ha with ⟨-, v, hbegin, -⟩ | ⟨hblocked, e, v, hbegin, hv, hawaits, -⟩
    · cases he.symm.trans hbegin
    · cases he.symm.trans hbegin
      exact ⟨hawaits, hw.2.1.trans hv, fun hclear ↦ absurd (hw.2.2 hclear) hblocked⟩
  · obtain ⟨u, happly, hbusy⟩ := hisolates.query_ok hw.1 he
    exact ⟨u, happly, hbusy, hretains hw he⟩
  · exact ⟨hisolates.query_error hw.1 he, hretains hw he⟩
  · exact ⟨hisolates.defer_ok hw.1 he, hretains hw he⟩
  · exact ⟨hisolates.defer_error hw.1 he, hretains hw he⟩
  · have hidle := hisolates.commit_ok hw.1 he
    exact ⟨hidle.awaits rfl, hretains hw he, fun _ ↦ hidle.isClear rfl ha⟩
  · exact ⟨hisolates.commit_error hw.1 he, hretains hw he⟩
  · obtain ⟨v, he, hidle⟩ := hisolates.rollback hw.1
    exact ⟨v, he, hidle.awaits rfl, hretains hw he, fun _ ↦ hidle.isClear rfl ha⟩

def World.stored (t : Tables) (content : Bytes) : World where
  files :=
    { entries :=
        [([Utf8.encode "file"], .file { content, modified := {}, mode := 0o644 }),
          ([Utf8.encode "store"], .file { modified := {}, mode := 0o644, database := some 0 })] }
  databases := [{ contents := .tables t, log := some { stored := .tables t } }]

theorem World.stored_serves (t : Tables) (content : Bytes) :
    (World.stored t content).Serves 0 [Utf8.encode "store"] where
  opened := Nat.zero_lt_one
  houses := FileSystem.houses_of_all rfl rfl rfl
  numbered h := by cases h
  log := ⟨_, rfl, nofun, rfl, rfl, fun h ↦ absurd rfl h, fun h ↦ absurd rfl h, fun _ ↦ rfl⟩

theorem World.stored_finds (t : Tables) (content : Bytes) :
    (World.stored t content).Finds (Path.ofText "/store") [Utf8.encode "store"] :=
  .of_path (by decide) (by decide) (by decide) rfl

def World.fresh (t : Tables) (content : Bytes) : World :=
  (Store.openExisting (.stored t content) (Path.ofText "/store") {}).2

theorem World.fresh_serves (t : Tables) (content : Bytes) :
    (World.fresh t content).Serves 0 [Utf8.encode "store"] :=
  (World.stored_serves t content).withSessions _ _

theorem World.fresh_rests (t : Tables) (content : Bytes) :
    ((World.fresh t content).database 0).Rests t := ⟨rfl, rfl, rfl, rfl⟩

theorem World.fresh_awaits (t : Tables) (content : Bytes) (retention : Retention) :
    (World.fresh t content).Awaits 0 (Store.single retention).access t :=
  (World.fresh_serves t content).awaits rfl (World.fresh_rests t content)

theorem World.fresh_isTree (t : Tables) (content : Bytes) :
    (World.fresh t content).files.IsTree := by
  refine FileSystem.isTree_of_entries fun e he ↦ ?_
  change e ∈ (World.stored t content).files.entries at he
  simp only [World.stored, List.mem_cons, List.not_mem_nil, or_false] at he
  rcases he with rfl | rfl <;>
    (refine ⟨fun name hname ↦ ?_, rfl⟩; rw [List.mem_singleton.1 hname]; decide)

end FindingStore
