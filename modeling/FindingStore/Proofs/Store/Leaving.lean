import FindingStore.Proofs.FileSystem.Aside
import FindingStore.Proofs.Store.Looking
import FindingStore.Proofs.World.Looking

namespace FindingStore.World

open FileSystem (Alike)

variable {w v : World} {n : Nat} {home l : Location} {a : Access} {log : Log} {s : Store}

/-- A session of a cache has nothing to bring into the file: others use the log too, or it holds
nothing. -/
def IsUnburdened (w : World) (n cache : Nat) : Prop :=
  ∀ log, (w.database n).log = some log → cache ∈ log.users → log.isFilled = true →
    log.users.erase cache ≠ []

/-- A cache is not among the users of the log, and unless somebody uses it, no changes have been
left in it. -/
structure IsLevel (w : World) (n cache : Nat) (home : Location) : Prop where
  unused (log : Log) : (w.database n).log = some log → cache ∉ log.users
  empty (log : Log) : (w.database n).log = some log → log.users = [] →
    w.leftAt? (home.companion .log) = none

theorem IsLevel.isUnburdened {cache : Nat} (h : w.IsLevel n cache home) :
    w.IsUnburdened n cache := fun log hlog hmem ↦ absurd hmem (h.unused log hlog)

theorem IsUnburdened.congr {cache : Nat} (h : w.IsUnburdened n cache)
    (hlog : (v.database n).log = (w.database n).log) : v.IsUnburdened n cache := by
  intro log hv
  exact h log (hlog ▸ hv)

section Approaching

theorem isUnburdened_startUsing (a : Access) (log : Log) (hasIndex isWritable : Bool)
    (hnone : w.leftAt? (home.companion .log) = none) (hn : n < w.databases.length) :
    (w.startUsing n a home log hasIndex isWritable).IsUnburdened n a.cache := by
  obtain ⟨used, hused, hfilled⟩ : ∃ used,
      ((w.startUsing n a home log hasIndex isWritable).database n).log = some used ∧
        used.isFilled = (w.leftAt? (home.companion .log)).isSome :=
    ⟨_, congrArg Database.log (World.database_setDatabase hn _), rfl⟩
  intro log' hlog' _ hfull
  obtain rfl := Option.some.inj (hused.symm.trans hlog')
  rw [hfilled, hnone] at hfull
  cases hfull

theorem isUnburdened_join {cache : Nat} {d : Database} {joined : Log}
    (hn : n < w.databases.length) (hd : d.log = some joined)
    (husers : joined.users.erase cache ≠ []) : (w.setDatabase n d).IsUnburdened n cache := by
  intro log hlog _ _
  rw [World.database_setDatabase hn, hd] at hlog
  cases hlog
  exact husers

theorem isUnburdened_useLog (hn : n < w.databases.length)
    (hlog : (w.database n).log = some log) (hmem : a.cache ∉ log.users)
    (hempty : log.users = [] → w.leftAt? (home.companion .log) = none) :
    (w.useLog n a home log).2.IsUnburdened n a.cache := by
  have hleft (c : Companion) (v : World) := (waits_provideCompanion v n home c []).left
  unfold World.useLog
  dsimp only
  split
  · next hused =>
    have husers : (a.cache :: log.users).erase a.cache ≠ [] := by
      rw [List.erase_cons_head]
      simpa using hused
    split <;> exact isUnburdened_join hn rfl husers
  · next hunused =>
    have hnone := hempty (by simpa using hunused)
    split
    · exact isUnburdened_startUsing a log _ _ ((hleft .log w).trans hnone) hn
    · split
      · -- the index cannot be opened, so that the session is no user of the log
        intro log' hlog' hmem'
        obtain rfl := Option.some.inj (hlog.symm.trans hlog')
        exact absurd hmem' hmem
      · exact isUnburdened_startUsing a log _ _ ((hleft .log w).trans hnone) hn
      · exact isUnburdened_startUsing a log _ _
          ((hleft .index _).trans ((hleft .log w).trans hnone)) hn

theorem Serves.isUnburdened_checkLog (h : w.Serves n home) (hw : w.IsLevel n a.cache home) :
    (w.checkLog n a home).2.IsUnburdened n a.cache := by
  obtain ⟨log, hlog, -⟩ := h.log
  have hmem := hw.unused log hlog
  have huse := isUnburdened_useLog (a := a) h.opened hlog hmem (hw.empty log hlog)
  unfold World.checkLog
  simp only [hlog]
  repeat' split
  all_goals first
    | exact hw.isUnburdened
    | exact hw.isUnburdened.congr rfl
    | exact huse

theorem IsLevel.checkJournal (h : w.IsLevel n a.cache home) :
    (w.checkJournal n a home).2.IsLevel n a.cache home := by
  rcases w.checkJournal_eq n a home with he | he
  · rw [he]
    exact h
  · rw [he]
    have hwaits := waits_discardCompanion w n home (c := .journal) (by decide)
    exact ⟨h.unused, fun log hlog hnone ↦ hwaits.left.trans (h.empty log hlog hnone)⟩

theorem Serves.isUnburdened_approach (h : w.Serves n home) (ha : a.IsOrdinary)
    (hw : w.IsLevel n a.cache home) : (w.approach n a home).2.IsUnburdened n a.cache := by
  have hlock : w.checkLock a home = (none, w) := by simp [World.checkLock, ha.usesDirectory]
  have hserves := (h.checkJournal a).1.serves
  have hlevel := hw.checkJournal (a := a)
  unfold World.approach
  rw [hlock]
  dsimp only
  generalize w.checkJournal n a home = undone at hserves hlevel ⊢
  obtain ⟨_ | e, undone⟩ := undone
  · exact hserves.isUnburdened_checkLog hlevel
  · exact hlevel.isUnburdened

end Approaching

section Ending

theorem alike_writePages (h : w.files.Houses n home) (hne : l ≠ home) :
    w.files.Alike (w.writePages n).files l := by
  unfold World.writePages changeFile
  split
  · next k f hf =>
    obtain ⟨hmem, hn⟩ := FileSystem.mem_of_findFile? hf
    obtain ⟨rfl, -⟩ := h.database hmem (by simpa using hn)
    exact .of_eq (w.files.lookup_insert_of_ne hne _)
  · rfl

variable (hl : ∀ c, ¬home.companion c <+: l)

include hl

theorem alike_stopUsing (h : w.files.Houses n home)
    (hhome : l = home → log.isFilled = true → log.users.erase a.cache ≠ []) :
    w.files.Alike (w.stopUsing n a home log).files l := by
  have hdiscard (c : Companion) (v : World) : v.files.Alike (v.discardCompanion home c).files l :=
    FileSystem.alike_discard (hl c)
  have hdiscards (v : World) (hasIndex : Bool) :
      let v' := v.discardCompanion home .log
      v.files.Alike (if hasIndex then v'.discardCompanion home .index else v').files l := by
    intro v'
    cases hasIndex with
    | true => exact (hdiscard .log v).trans (hdiscard .index v')
    | false => exact hdiscard .log v
  unfold World.stopUsing
  dsimp only
  split
  · rfl
  · next hlast =>
    have hlast : log.users.erase a.cache = [] := by
      rwa [Bool.not_eq_true', Bool.not_eq_false, List.isEmpty_iff] at hlast
    split
    · refine Alike.trans ?_ (hdiscards _ _)
      split
      · next hfilled => exact alike_writePages h fun he ↦ hhome he hfilled hlast
      · rfl
    · rfl

theorem Serves.alike_leave (h : w.Serves n home) (ha : a.IsOrdinary) (hr : a.residence = .file home)
    (hhome : l = home → w.IsUnburdened n a.cache) :
    w.files.Alike (w.leave n a).files l := by
  obtain ⟨v, rest, log, sessions, -, hfiles, hold, -, hstops, hleave⟩ := h.leave_cases ha hr
  rw [hleave, ← hfiles]
  rcases hstops with rfl | ⟨hmem, rfl⟩
  · rfl
  · exact alike_stopUsing hl (hfiles ▸ h.houses) fun he ↦ hhome he log hold hmem

end Ending

/-- To look at the database changes nothing but what stands beside its file. -/
theorem Serves.alike_look (h : w.Serves n home) (hs : s.IsHandle n home)
    (hl : ∀ c, ¬home.companion c <+: l) : w.files.Alike (s.look w).files l := by
  have hspares : w.files.Spares s.database := hs.database ▸ h.holds.untouched
  refine (s.look_leaves hspares fun home' hr ↦ ?_).2 l fun home' c hr ↦ ?_ <;>
    obtain rfl : home = home' := Residence.file.inj (hs.residence.symm.trans hr)
  · exact hs.database ▸ h.isSettled
  · exact hl c

section Looking

variable (h : w.Serves n home) (hs : s.IsHandle n home)
  (hbusy : (w.database n).isBusy s.access = false)

include h hs hbusy

theorem Serves.tracks_look : w.Tracks (s.look w) n home (w.database n) := by
  obtain ⟨sight, j, v, hreach, htracks, -⟩ := h.reach hs.ordinary hs.residence hbusy
  rw [look_eq hs hreach]
  exact htracks.trans (htracks.serves.learn _) htracks.agrees

theorem Serves.isUnburdened_look (hw : w.IsLevel n s.access.cache home) :
    (s.look w).IsUnburdened n s.access.cache := by
  obtain ⟨j, hreach⟩ := h.reach_eq hs.ordinary hs.residence hbusy
  rw [look_eq hs hreach]
  refine (h.isUnburdened_approach hs.ordinary hw).congr ?_
  rw [World.learn, (h.approach hs.ordinary).1.serves.holds.database_setDatabase]
  exact (learn_agrees _ _).2

/-- A session that looks at its database and ends leaves the files alone, those apart that stand
beside the file of the database. The file itself is written only if a log that nobody uses has been
left with changes. -/
theorem Serves.alike_look_close (hl : ∀ c, ¬home.companion c <+: l)
    (hhome : l = home → w.IsLevel n s.access.cache home) :
    w.files.Alike (s.close (s.look w)).files l := by
  have hlooked := h.tracks_look hs hbusy
  refine (h.alike_look hs hl).trans ?_
  have hdatabase := hs.database
  unfold Store.close
  rw [hdatabase]
  refine hlooked.serves.alike_leave hl hs.ordinary hs.residence fun he ↦ ?_
  exact h.isUnburdened_look hs hbusy (hhome he)

end Looking

section Aside

variable {p : Path} (h : w.Serves n home) (hl : home.isAside l = true)

include h hl

theorem Serves.alike_close (hs : s.IsHandle n home) : w.files.Alike (s.close w).files l := by
  obtain ⟨hne, hbeside⟩ := Location.isAside_iff.1 hl
  have hdatabase := hs.database
  unfold Store.close
  rw [hdatabase]
  exact h.alike_leave hbeside hs.ordinary hs.residence fun he ↦ absurd he hne

theorem Serves.alike_openExisting (hp : w.Finds p home) (config : Config) :
    w.files.Alike (Store.openExisting w p config).2.files l := by
  obtain ⟨hne, hbeside⟩ := Location.isAside_iff.1 hl
  obtain ⟨o, ho, hn, hordinary, hresidence, -, -, sessions, hworld⟩ := h.openDatabase hp (.inl rfl)
  have hserves : o.world.Serves n home := hworld ▸ h.withSessions _ _
  have hclosed : w.files.Alike (o.world.leave o.database o.access).files l := by
    have hfiles : o.world.files = w.files := by rw [hworld]
    rw [hn, ← hfiles]
    exact hserves.alike_leave hbeside hordinary hresidence fun he ↦ absurd he hne
  simp only [Store.openExisting, Store.connect, ho]
  split
  · exact hclosed
  · split
    · exact hclosed
    · rw [hworld]
      rfl

end Aside

end FindingStore.World
