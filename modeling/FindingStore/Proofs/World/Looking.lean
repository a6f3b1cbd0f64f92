import FindingStore.Proofs.FileSystem.Stability
import FindingStore.Proofs.World.Serving

namespace FindingStore

namespace FileSystem

variable {fs : FileSystem} {k l : Location}

theorem alike_provide (hk : k ≠ l) (content : Bytes) (mode : Nat) :
    fs.Alike (fs.provide l content mode) k := by
  unfold provide
  split
  · rfl
  · exact alike_addEntry hk _

theorem alike_discard (hk : ¬l <+: k) : fs.Alike (fs.discard l) k := by
  unfold discard
  split
  · rfl
  · refine Alike.trans (.of_eq ?_) (alike_touchDirectory _ _ k)
    have hkeep : (!l.isPrefixOf k) = true := by
      rwa [Bool.not_eq_true', Bool.eq_false_iff, Ne, List.isPrefixOf_iff_prefix]
    simp only [lookup, eraseTree, lookup_filter_of_kept (fun m ↦ !l.isPrefixOf m) hkeep]

theorem alike_keepLog (hk : k ≠ l) (number : Nat) : fs.Alike (fs.keepLog l number) k := by
  unfold keepLog
  split
  · exact .of_eq (fs.lookup_insert_of_ne hk _)
  · rfl

end FileSystem

namespace World

/-- The contents of a database are those of its file, unless a log has been left beside the file or
is in use. -/
def IsSettled (w : World) (n : Nat) (home : Location) : Prop :=
  (∀ log, (w.database n).log = some log → log.users = []) →
    (w.leftAt? (home.companion .log)).getD (w.database n).stored = (w.database n).contents

structure Beside (w v : World) (n : Nat) (home : Location) : Prop where
  files {l : Location} (hl : ∀ c, ¬home.companion c <+: l) : w.files.Alike v.files l
  agrees : (v.database n).Agrees (w.database n)

structure Waits (w v : World) (n : Nat) (home : Location) : Prop extends w.Beside v n home where
  log : (v.database n).log = (w.database n).log
  left : v.leftAt? (home.companion .log) = w.leftAt? (home.companion .log)

variable {w v x : World} {n : Nat} {home l : Location} {a : Access} {log : Log}

theorem Beside.refl (w : World) (n : Nat) (home : Location) : w.Beside w n home :=
  ⟨fun _ ↦ rfl, .refl _⟩

theorem Beside.trans (h : w.Beside v n home) (h' : v.Beside x n home) : w.Beside x n home :=
  ⟨fun hl ↦ (h.files hl).trans (h'.files hl), h'.agrees.trans h.agrees⟩

theorem Waits.refl (w : World) (n : Nat) (home : Location) : w.Waits w n home :=
  ⟨.refl _ _ _, rfl, rfl⟩

theorem Waits.isSettled (h : w.Waits v n home) (hw : w.IsSettled n home) :
    v.IsSettled n home := by
  intro husers
  rw [h.log] at husers
  rw [Database.stored, h.log, h.left, h.agrees.contents]
  exact hw husers

theorem ne_companion (hl : ∀ c, ¬home.companion c <+: l) (c : Companion) : l ≠ home.companion c :=
  fun he ↦ hl c (he ▸ List.prefix_refl _)

theorem database_setDatabase_cases (w : World) (n : Nat) (d : Database) :
    (w.setDatabase n d).database n = d ∨ (w.setDatabase n d).database n = w.database n := by
  by_cases hn : n < w.databases.length
  · exact .inl (World.database_setDatabase hn d)
  · have hsame : (w.setDatabase n d).databases = w.databases :=
      List.set_eq_of_length_le (Nat.le_of_not_gt hn)
    exact .inr (by rw [World.database, hsame]; rfl)

theorem agrees_setDatabase {d : Database} (hd : d.Agrees (w.database n)) :
    ((w.setDatabase n d).database n).Agrees (w.database n) := by
  rcases w.database_setDatabase_cases n d with he | he
  · rw [he]
    exact hd
  · rw [he]
    exact .refl _

theorem Beside.setDatabase {d : Database} (hd : d.Agrees (w.database n)) :
    w.Beside (w.setDatabase n d) n home := ⟨fun _ ↦ rfl, agrees_setDatabase hd⟩

theorem beside_discardCompanion (w : World) (n : Nat) (home : Location) (c : Companion) :
    w.Beside (w.discardCompanion home c) n home :=
  ⟨fun hl ↦ FileSystem.alike_discard (hl c), .refl _⟩

theorem waits_discardCompanion (w : World) (n : Nat) (home : Location) {c : Companion}
    (hc : c ≠ .log) : w.Waits (w.discardCompanion home c) n home := by
  refine ⟨beside_discardCompanion w n home c, rfl, ?_⟩
  have hlog := w.files.logAt?_discard home hc
  simp only [leftAt?, World.discardCompanion, hlog]

theorem waits_provideCompanion (w : World) (n : Nat) (home : Location) (c : Companion)
    (content : Bytes) : w.Waits (w.provideCompanion n home c content) n home := by
  refine ⟨⟨fun hl ↦ FileSystem.alike_provide (ne_companion hl c) content _, .refl _⟩, rfl, ?_⟩
  have hlog (mode : Nat) := w.files.logAt?_provide home c content mode
  simp only [leftAt?, World.provideCompanion, hlog]

theorem waits_checkLock (w : World) (n : Nat) (a : Access) (home : Location) :
    w.Waits (w.checkLock a home).2 n home := by
  unfold checkLock
  split
  · exact .refl _ _ _
  · split
    · exact .refl _ _ _
    · refine ⟨⟨fun _ ↦ FileSystem.alike_touchDirectory _ _ _, .refl _⟩, rfl, ?_⟩
      simp only [leftAt?, touchHome,
        FileSystem.logAt?_congr (w.files.fileAt?_touchDirectory home.dropLast _).1]

theorem waits_checkJournal (w : World) (n : Nat) (a : Access) (home : Location) :
    w.Waits (w.checkJournal n a home).2 n home := by
  rcases w.checkJournal_eq n a home with he | he
  · rw [he]
    exact .refl _ _ _
  · rw [he]
    exact waits_discardCompanion w n home (by decide)

theorem Waits.startUsing (h : w.Waits v n home) (hw : w.IsSettled n home)
    (hlog : ∀ log, (w.database n).log = some log → log.users = [])
    (hstored : log.stored = (w.database n).stored) (a : Access) (hasIndex isWritable : Bool) :
    w.Beside (v.startUsing n a home log hasIndex isWritable) n home := by
  have hcontents : (v.leftAt? (home.companion .log)).getD log.stored = (w.database n).contents := by
    rw [h.left, hstored]
    exact hw hlog
  refine h.toBeside.trans ⟨fun hl ↦ ?_, agrees_setDatabase ⟨?_, rfl, rfl, rfl⟩⟩
  · unfold World.startUsing
    dsimp only
    split
    · rfl
    · exact FileSystem.alike_keepLog (ne_companion hl .log) _
  · rw [h.agrees.contents]
    exact hcontents

theorem beside_useLog (hw : w.IsSettled n home)
    (hlog : log.users = [] → ∀ log, (w.database n).log = some log → log.users = [])
    (hstored : log.stored = (w.database n).stored) (a : Access) :
    w.Beside (w.useLog n a home log).2 n home := by
  have hprovided := waits_provideCompanion w n home .log []
  unfold World.useLog
  dsimp only
  split
  · split <;> exact hprovided.toBeside.trans (.setDatabase ⟨rfl, rfl, rfl, rfl⟩)
  · next hempty =>
    have hunused := hlog (by simpa using hempty)
    split
    · exact hprovided.startUsing hw hunused hstored a _ _
    · split
      · exact hprovided.toBeside
      · exact hprovided.startUsing hw hunused hstored a _ _
      · have hindex := waits_provideCompanion (w.provideCompanion n home .log []) n home .index []
        refine Waits.startUsing ⟨hprovided.toBeside.trans hindex.toBeside, ?_, ?_⟩ hw hunused
          hstored a _ _
        · exact hindex.log.trans hprovided.log
        · exact hindex.left.trans hprovided.left

theorem beside_checkLog (hw : w.IsSettled n home) (a : Access) :
    w.Beside (w.checkLog n a home).2 n home := by
  unfold World.checkLog
  dsimp only
  split
  · next log hlog =>
    have hstored : log.stored = (w.database n).stored := by rw [Database.stored, hlog]
    have hunused (hempty : log.users = []) (log') (hlog' : (w.database n).log = some log') :
        log'.users = [] := by
      rw [hlog] at hlog'
      cases hlog'
      exact hempty
    repeat' split
    all_goals first
      | exact .refl _ _ _
      | exact beside_discardCompanion w n home .log
      | exact beside_useLog hw hunused hstored a
  · next hnone =>
    have hstored : (w.database n).contents = (w.database n).stored := by
      rw [Database.stored, hnone]
    have hunused (log') (hlog' : (w.database n).log = some log') : log'.users = [] := by
      rw [hnone] at hlog'
      cases hlog'
    repeat' split
    all_goals first
      | exact .refl _ _ _
      | exact beside_discardCompanion w n home .log
      | exact beside_useLog hw (fun _ ↦ hunused) hstored a

theorem beside_approach (hw : w.IsSettled n home) (a : Access) :
    w.Beside (w.approach n a home).2 n home := by
  have hlock := waits_checkLock w n a home
  unfold World.approach
  generalize w.checkLock a home = locked at hlock ⊢
  obtain ⟨_ | e, locked⟩ := locked
  · have hjournal := waits_checkJournal locked n a home
    have hsettled := hlock.isSettled hw
    dsimp only
    generalize locked.checkJournal n a home = undone at hjournal ⊢
    obtain ⟨_ | e, undone⟩ := undone
    · exact (hlock.toBeside.trans hjournal.toBeside).trans
        (beside_checkLog (hjournal.isSettled hsettled) a)
    · exact hlock.toBeside.trans hjournal.toBeside
  · exact hlock.toBeside

theorem waits_claim (w : World) (n : Nat) (a : Access) (home : Location) :
    w.Waits (w.claim n a) n home := by
  unfold World.claim
  split
  · refine ⟨.setDatabase ⟨rfl, rfl, rfl, rfl⟩, ?_, rfl⟩
    rcases w.database_setDatabase_cases n { w.database n with isClaimed := true } with he | he
    · rw [he]
    · rw [he]
  · exact .refl _ _ _

theorem beside_thaw (w : World) (n : Nat) (a : Access) (home : Location) :
    w.Beside (w.thaw n a) n home := by
  unfold World.thaw
  dsimp only
  split
  · exact .refl _ _ _
  · exact .setDatabase ⟨rfl, rfl, rfl, rfl⟩

/-- A session that looks at its file changes nothing that does not stand beside it. -/
theorem beside_reach (hspares : w.files.Spares n) (hw : w.IsSettled n home)
    (hr : a.residence = .file home) : w.Beside (w.reach n a).2 n home := by
  unfold World.reach
  rw [hr]
  cases (w.database n).isBusy a with
  | true => exact .refl _ _ _
  | false =>
    dsimp only
    rw [refresh_of_spares hspares]
    split
    · exact beside_thaw w n a home
    · have hclaim := waits_claim w n a home
      exact hclaim.toBeside.trans (beside_approach (hclaim.isSettled hw) a)

theorem reach_of_memory {name : Option Path} (hr : a.residence = .memory name) :
    (w.reach n a).2 = w := by
  unfold World.reach
  rw [hr]
  cases (w.database n).isBusy a <;> rfl

theorem Serves.isSettled (h : w.Serves n home) : w.IsSettled n home := by
  obtain ⟨log, hlog, hfits⟩ := h.log
  intro husers
  rw [Database.stored, hlog]
  exact hfits.left (husers log hlog)

end World

/-- A store that looks at its database leaves the tables and the files alone, those apart that stand
beside the file of the database. -/
theorem Store.look_leaves (s : Store) {w : World} (hspares : w.files.Spares s.database)
    (hw : ∀ home, s.access.residence = .file home → w.IsSettled s.database home) :
    ((s.look w).database s.database).Agrees (w.database s.database) ∧
      ∀ l, (∀ home c, s.access.residence = .file home → ¬home.companion c <+: l) →
        w.files.Alike (s.look w).files l := by
  have hlearn (v : World) (a : Access) :
      ((v.learn s.database a).database s.database).Agrees (v.database s.database) :=
    World.agrees_setDatabase (World.learn_agrees _ a).1
  cases hr : s.access.residence with
  | memory name =>
    have hreach : (w.reach s.database s.access).2 = w := World.reach_of_memory hr
    have hlook : s.look w = w.learn s.database (w.reach s.database s.access).1 :=
      congrArg (World.learn · s.database (w.reach s.database s.access).1) hreach
    rw [hlook]
    exact ⟨hlearn w _, fun _ _ ↦ rfl⟩
  | file home =>
    have hbeside := World.beside_reach hspares (hw home hr) hr
    refine ⟨(hlearn _ _).trans hbeside.agrees, fun l hl ↦ hbeside.files fun c ↦ ?_⟩
    exact hl home c rfl

end FindingStore
