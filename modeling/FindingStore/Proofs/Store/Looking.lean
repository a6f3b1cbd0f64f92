import FindingStore.Proofs.Lifetime.Reading
import FindingStore.Proofs.World.Obstacles

namespace FindingStore.World

variable {w v : World} {n : Nat} {home : Location} {x : Shared} {s : Store} {a : Access}

theorem look_eq (hs : s.IsHandle n home) (hreach : w.reach n s.access = (a, v)) :
    s.look w = v.learn n a := by
  rw [Store.look, hs.database, hreach]

theorem Keeps.learn (h : w.Keeps n x) (a : Access) : (w.learn n a).Keeps n x := by
  have hfollows := h.holds.learn a
  exact ⟨hfollows.holds, hfollows.agrees.stands h.stands, hfollows.agrees.isApart h.apart⟩

/-- To look again changes no file. -/
theorem Keeps.look (h : w.Keeps n x) (hs : s.IsHandle n home)
    (hown : x.own? s.access.session = none) (hu : w.UsesLog n s.access.cache) :
    (s.look w).Keeps n x ∧ (s.look w).files = w.files ∧
      ∀ {cache : Nat}, w.UsesLog n cache → (s.look w).UsesLog n cache := by
  obtain ⟨j, hreach⟩ := h.reach hs hown hu
  rw [look_eq hs hreach]
  exact ⟨h.learn _, rfl, (h.holds.learn _).usesLog⟩

theorem Shares.look (h : w.Shares n home x) (hs : s.IsHandle n home)
    (hown : x.own? s.access.session = none) :
    (s.look w).Keeps n x ∧
      (∀ {cache : Nat}, w.UsesLog n cache → (s.look w).UsesLog n cache) ∧
      ((s.look w).UsesLog n s.access.cache ∨ ∀ q : Query, ∃ e, s.ask (s.look w) q = .error e) := by
  have hwrites := hs.ordinary.writes
  have hfree := Shared.own?_eq_none.1 hown
  obtain ⟨sight, j, v, hreach, htracks, hsight⟩ :=
    h.serves.reach_settles hs.ordinary hs.residence (h.stands.isBusy hwrites hfree)
  have hstands := htracks.agrees.stands h.stands
  have hv : v.Keeps n x := ⟨htracks.serves.holds, hstands, htracks.agrees.isApart h.apart⟩
  have hfollows := hv.holds.learn { s.access with sight, journalError := j }
  rw [look_eq hs hreach]
  refine ⟨hv.learn _, fun hu ↦ hfollows.usesLog (htracks.usesLog hu), ?_⟩
  rcases hsight with ⟨rfl, huses⟩ | ⟨⟨e, rfl⟩, hagain⟩
  · exact .inl (hfollows.usesLog huses)
  · -- nothing has been learned, so that the session finds the world as it has left it
    obtain ⟨e', hview⟩ := hstands.view_of_blind
      (a := { s.access with sight := some (.unusable e), journalError := j })
      ⟨hwrites.1, hwrites.2, hwrites.3⟩ hfree rfl
    rw [learn_of_unusable hv.holds.opened hview]
    obtain ⟨e', j', y, hagain, htracks'⟩ := hagain (hstands.isBusy hwrites hfree)
    exact .inr (hv.blind_of_reach hs hown hagain htracks'.agrees)

end FindingStore.World
