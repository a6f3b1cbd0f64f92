import FindingStore.Proofs.World.Looking

namespace FindingStore.World

variable {w v : World} {n : Nat} {home : Location} {a : Access} {e : SqlError} {log : Log}
  {contents : Contents}

/-- Nobody uses the log of a database, and whoever wants to finds a link where its index belongs. -/
def LacksIndex (w : World) (n : Nat) (home : Location) : Prop :=
  ∃ log, (w.database n).log = some log ∧ log.users = [] ∧ (w.database n).isClaimed = false ∧
    ∃ target, w.files.lookup (home.companion .index) = some (.link target)

theorem LacksIndex.discardCompanion (h : w.LacksIndex n home) :
    (w.discardCompanion home .journal).LacksIndex n home := by
  obtain ⟨log, hlog, husers, hclaimed, target, hlink⟩ := h
  refine ⟨log, hlog, husers, hclaimed, target,
    (FileSystem.alike_discard fun hle ↦ ?_).lookup_link hlink⟩
  cases Location.companion_injective (hle.eq_of_length_le (home.length_le_companion _ _).2)

theorem alike_index_provideCompanion (w : World) (n : Nat) (home : Location) :
    w.files.Alike (w.provideCompanion n home .log []).files (home.companion .index) :=
  FileSystem.alike_provide (fun he ↦ by cases Location.companion_injective he) _ _

theorem useLog_eq_error (hlog : (w.database n).log = some log) (hfits : w.Fits home log contents)
    (huse : w.useLog n a home log = (some e, v)) : v.LacksIndex n home := by
  have hnumber (husers : log.users ≠ []) :
      (w.provideCompanion n home .log []).files.logAt? (home.companion .log) = some log.number :=
    (w.files.logAt?_provide home .log [] _).trans (hfits.inUse husers)
  unfold World.useLog at huse
  dsimp only at huse
  split at huse
  · next husers =>
    simp only [hnumber (by simpa using husers), bne_self_eq_false, Bool.and_false,
      Bool.false_eq_true, if_false] at huse
    cases huse
  · next husers =>
    split at huse
    · cases huse
    · next hclaimed =>
      split at huse
      · next target hlink =>
        cases huse
        exact ⟨log, hlog, by simpa using husers, Bool.eq_false_iff.2 hclaimed, target, hlink⟩
      · cases huse
      · cases huse

theorem Serves.checkLog_eq_error (h : w.Serves n home) (ha : a.IsOrdinary)
    (hcheck : w.checkLog n a home = (some e, v)) : v = w ∨ v.LacksIndex n home := by
  obtain ⟨log, hlog, hfits⟩ := h.log
  unfold World.checkLog at hcheck
  simp only [hlog, hfits.misled, List.contains_nil, Bool.false_eq_true, if_false, hfits.stored,
    ha.keepsLog, Bool.not_true] at hcheck
  split at hcheck
  · cases hcheck
  · split at hcheck
    · cases hcheck
      exact .inl rfl
    · exact .inr (useLog_eq_error hlog hfits hcheck)

theorem Serves.checkLog_of_lacksIndex (h : w.Serves n home) (ha : a.IsOrdinary)
    (hlacks : w.LacksIndex n home) : ∃ e, (w.checkLog n a home).1 = some e := by
  obtain ⟨log, hlog, husers, hclaimed, target, hlink⟩ := hlacks
  obtain ⟨log', hlog', hfits⟩ := h.log
  obtain rfl : log = log' := Option.some.inj (hlog.symm.trans hlog')
  unfold World.checkLog
  simp only [hlog, hfits.misled, husers, List.contains_nil, Bool.false_eq_true, if_false,
    hfits.stored, ha.keepsLog, Bool.not_true]
  cases w.companionError? home .log with
  | some e => exact ⟨e, rfl⟩
  | none =>
    have hclaimed : ((w.provideCompanion n home .log []).database n).isClaimed = false := hclaimed
    have hlink := (w.alike_index_provideCompanion n home).lookup_link hlink
    exact ⟨.cannotOpen, by simp [World.useLog, husers, hclaimed, hlink]⟩

theorem discardCompanion_cases (w : World) (home : Location) (c : Companion) :
    w.discardCompanion home c = w ∨
      (w.discardCompanion home c).files.lookup (home.companion c) = none := by
  unfold World.discardCompanion FileSystem.discard
  split
  · exact .inl rfl
  · have hparent : home.companion c ≠ (home.companion c).dropLast := fun he ↦ by
      have hlength := congrArg List.length he
      rw [List.length_dropLast] at hlength
      have hpos := List.length_pos_iff.2 (home.companion_ne_nil c)
      omega
    exact .inr ((FileSystem.lookup_touchDirectory_of_ne _ hparent).trans
      (FileSystem.lookup_eraseTree_self (home.companion_ne_nil c)))

theorem checkJournal_eq_error (hcheck : w.checkJournal n a home = (some e, v)) : v = w := by
  unfold World.checkJournal at hcheck
  dsimp only at hcheck
  repeat' split at hcheck
  all_goals cases hcheck <;> rfl

theorem checkJournal_again (hstored : (w.database n).stored ≠ .blank)
    (hcheck : w.checkJournal n a home = (none, v)) :
    v.checkJournal n a home = (none, v) ∨ ∃ e, (v.checkJournal n a home).1 = some e := by
  have hsame : v = w ∨ v = w.discardCompanion home .journal := by
    have hleaves := w.checkJournal_eq n a home
    rwa [hcheck] at hleaves
  rcases hsame with rfl | rfl
  · exact .inl hcheck
  · rcases w.discardCompanion_cases home .journal with hkept | hgone
    · rw [hkept] at hcheck ⊢
      exact .inl hcheck
    · have hstored : ((w.discardCompanion home .journal).database n).stored ≠ .blank := hstored
      unfold World.checkJournal
      simp only [hgone, hstored, if_false]
      split
      · exact .inl rfl
      · split <;> exact .inr ⟨_, rfl⟩

section Approach

variable (ha : a.IsOrdinary)

include ha

theorem approach_of_journal (hjournal : w.checkJournal n a home = (some e, v)) :
    w.approach n a home = (some e, v) := by
  simp only [World.approach, World.checkLock, ha.usesDirectory, Bool.not_false, if_true, hjournal]

theorem approach_of_no_journal (hjournal : w.checkJournal n a home = (none, v)) :
    w.approach n a home = v.checkLog n a home := by
  simp only [World.approach, World.checkLock, ha.usesDirectory, Bool.not_false, if_true, hjournal]

/-- An obstacle between a session and its file stays there. -/
theorem Serves.approach_again (h : w.Serves n home) (hfirst : w.approach n a home = (some e, v)) :
    ∃ e, (v.approach n a home).1 = some e := by
  have hserves : v.Serves n home := by
    have htracks := (h.approach ha).1
    rw [hfirst] at htracks
    exact htracks.serves
  rcases hjournal : w.checkJournal n a home with ⟨_ | e', u⟩
  · rw [approach_of_no_journal ha hjournal] at hfirst
    have hu : u.Serves n home := by
      have htracks := h.checkJournal a
      rw [hjournal] at htracks
      exact htracks.1.serves
    rcases hagain : v.checkJournal n a home with ⟨_ | e', x⟩
    · rw [approach_of_no_journal ha hagain]
      -- either the first look has left the log alone, or the link that it met is still there
      rcases hu.checkLog_eq_error ha hfirst with rfl | hlacks
      · obtain ⟨log, hlog, hfits⟩ := h.log
        have hstored : (w.database n).stored ≠ .blank := by
          rw [Database.stored, hlog]
          exact hfits.stored
        rcases checkJournal_again hstored hjournal with hsame | ⟨e', he⟩
        · cases hsame.symm.trans hagain
          exact ⟨e, congrArg Prod.fst hfirst⟩
        · rw [hagain] at he
          cases he
      · have hx : x.Serves n home ∧ x.LacksIndex n home := by
          have hleaves := v.checkJournal_eq n a home
          rw [hagain] at hleaves
          rcases hleaves with rfl | rfl
          · exact ⟨hserves, hlacks⟩
          · exact ⟨(hserves.discardCompanion (by decide)).serves, hlacks.discardCompanion⟩
        exact hx.1.checkLog_of_lacksIndex ha hx.2
    · exact ⟨e', by rw [approach_of_journal ha hagain]⟩
  · cases (approach_of_journal ha hjournal).symm.trans hfirst
    obtain rfl := checkJournal_eq_error hjournal
    exact ⟨e, by rw [approach_of_journal ha hjournal]⟩

variable (h : w.Serves n home) (hr : a.residence = .file home)

include h hr

/-- A session that has looked uses the log, or it meets an obstacle whenever it looks again. -/
theorem Serves.reach_settles (hbusy : (w.database n).isBusy a = false) :
    ∃ sight j v, w.reach n a = ({ a with sight, journalError := j }, v) ∧
      w.Tracks v n home (w.database n) ∧
      (sight = none ∧ v.UsesLog n a.cache ∨
        (∃ e, sight = some (.unusable e)) ∧ ((v.database n).isBusy a = false → ∃ e j x,
          v.reach n a = ({ a with sight := some (.unusable e), journalError := j }, x) ∧
            v.Tracks x n home (v.database n))) := by
  obtain ⟨j, hreach⟩ := h.reach_eq ha hr hbusy
  obtain ⟨htracks, huses⟩ := h.approach ha
  refine ⟨_, j, _, hreach, htracks, ?_⟩
  rcases hfirst : w.approach n a home with ⟨_ | e, v⟩ <;> rw [hfirst] at htracks huses
  · exact .inl ⟨rfl, huses rfl⟩
  · refine .inr ⟨⟨e, rfl⟩, fun hidle ↦ ?_⟩
    obtain ⟨e', he⟩ := h.approach_again ha hfirst
    obtain ⟨j', hagain⟩ := htracks.serves.reach_eq ha hr hidle
    rw [he] at hagain
    exact ⟨e', j', _, hagain, (htracks.serves.approach ha).1⟩

end Approach

end FindingStore.World
