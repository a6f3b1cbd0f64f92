import FindingStore.Proofs.Database.Logged

namespace FindingStore.Database

variable {d : Database} {a : Access} {w w' : Writer}

/-- The session in a transaction shares its cache with no other. -/
def IsApart (d : Database) : Prop := ∀ w ∈ d.writer, w.cache = w.session

theorem IsApart.setOwn (h : d.IsApart) (hw : w.cache = w.session) : (d.setOwn a w).IsApart := by
  unfold Database.setOwn
  split
  · rintro w ⟨⟩
    exact hw
  · exact h

theorem IsApart.dropOwn (h : d.IsApart) : (d.dropOwn a).IsApart := by
  unfold Database.dropOwn
  split
  · exact nofun
  · exact h

theorem IsApart.publish (h : d.IsApart) (contents : Contents) : (d.publish contents).IsApart := h

theorem IsApart.endReading (h : d.IsApart) (e : SqlError) : (d.endReading a e).2.IsApart := by
  unfold Database.endReading
  split <;> exact h

theorem IsApart.own? (h : d.IsApart) (ht : a.takesLocks = true) (hw : d.own? a = some w) :
    w.cache = w.session := by
  simp only [Database.own?, ht, if_true] at hw
  exact h w (Option.filter_eq_some_iff.1 hw).1

theorem IsApart.runAlone (h : d.IsApart) (q : Query) : (d.runAlone a q).2.IsApart := by
  unfold Database.runAlone
  split
  · exact h
  · split
    · exact h
    · exact h
    · dsimp only
      split
      · exact h
      · split <;> exact h

theorem IsApart.rollback (h : d.IsApart) : (d.rollback a).2.IsApart := by
  unfold Database.rollback
  split
  · exact h.endReading _
  · exact h.dropOwn

section Execute

variable (h : d.IsApart) (ht : a.takesLocks = true)

include h ht

theorem IsApart.run (q : Query) : (d.run a q).2.IsApart := by
  unfold Database.run
  split
  · exact h.runAlone q
  · next w hw =>
    have hset {w' : Writer} (hsession : w'.session = w.session) (hcache : w'.cache = w.cache) :
        (d.setOwn a w').IsApart :=
      h.setOwn (hcache.trans ((h.own? ht hw).trans hsession.symm))
    dsimp only
    split
    · dsimp only
      split
      · exact hset rfl rfl
      · exact h
    · split
      · dsimp only
        split
        · exact hset rfl rfl
        · exact h
      · split
        · unfold Database.failWriting
          split
          · exact h.dropOwn
          · exact hset rfl rfl
        · exact hset rfl rfl

theorem IsApart.execute (hc : a.cache = a.session) (s : Statement) :
    (d.execute a s).2.IsApart := by
  unfold Database.execute
  split
  · exact h
  · cases s with
    | begin =>
      simp only [Database.begin]
      repeat' split
      all_goals first
        | exact h
        | exact h.setOwn hc
    | commit =>
      simp only [Database.commit]
      repeat' split
      all_goals first
        | exact h
        | exact h.endReading _
        | exact h.dropOwn.publish _
        | exact h.dropOwn
    | rollback => exact h.rollback
    | deferForeignKeys =>
      simp only [Database.deferForeignKeys]
      split
      · exact h
      · next w hw =>
        have hown := h.own? ht hw
        exact h.setOwn hown
    | query q => exact h.run ht q

end Execute

theorem IsApart.neighbour? (h : d.IsApart) (hs : d.strays = []) (hc : a.cache = a.session) :
    d.neighbour? a = none := by
  simp only [Database.neighbour?, hs, List.append_nil, List.find?_eq_none, Option.mem_toList,
    Bool.and_eq_true, bne_iff_ne, beq_iff_eq, not_and]
  intro w hw hne he
  exact hne ((h w hw).symm.trans (he.trans hc))

end FindingStore.Database
