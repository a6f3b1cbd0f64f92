import FindingStore.Proofs.Ledger.Outdating
import FindingStore.Proofs.Lifetime.Rows

namespace FindingStore

theorem Store.Sees.isOk_start {s : Store} {w : World} {t : Tables} (h : s.Sees w t)
    (ht : t.IsReadable) : (Replay.start s w).isOk = true := by
  obtain ⟨paths, hpaths⟩ := ht.exists_paths
  rw [h.start_eq_ok (r := ⟨paths, []⟩).2 ⟨hpaths.symm, rfl⟩]
  rfl

namespace World

variable {w v : World} {n : Nat} {home : Location} {x : Shared} {s : Store}

theorem ask_of_reach (hs : s.IsHandle n home) {a : Access} (hreach : w.reach n s.access = (a, v))
    (q : Query) : s.ask w q = ((v.database n).execute a (.query q)).1 := by
  obtain rfl := hs.database
  exact Store.ask_of_reach hreach q

structure Keeps (w : World) (n : Nat) (x : Shared) : Prop where
  holds : w.Holds n
  stands : (w.database n).Stands x.tables x.holder
  apart : (w.database n).IsApart

theorem Shares.keeps (h : w.Shares n home x) : w.Keeps n x := ⟨h.serves.holds, h.stands, h.apart⟩

/-- A handle in no transaction that has nothing in its way sees the tables. -/
theorem Keeps.sees_of_reach (h : w.Keeps n x) (hs : s.IsHandle n home)
    (hown : x.own? s.access.session = none) {j : Option SqlError}
    (hreach : w.reach n s.access = ({ s.access with sight := none, journalError := j }, v))
    (hagrees : (v.database n).Agrees (w.database n)) : s.Sees w x.tables := by
  have hwrites : ({ s.access with sight := none, journalError := j } : Access).Writes :=
    ⟨hs.ordinary.writes.1, hs.ordinary.writes.2, hs.ordinary.writes.3⟩
  exact fun q hq ↦ (ask_of_reach hs hreach q).trans ((hagrees.stands h.stands).reply
    (hagrees.isApart h.apart) hwrites (Shared.own?_eq_none.1 hown) hs.cache rfl hq)

theorem Keeps.blind_of_reach (h : w.Keeps n x) (hs : s.IsHandle n home)
    (hown : x.own? s.access.session = none) {e : SqlError} {j : Option SqlError}
    (hreach : w.reach n s.access =
      ({ s.access with sight := some (.unusable e), journalError := j }, v))
    (hagrees : (v.database n).Agrees (w.database n)) (q : Query) : ∃ e, s.ask w q = .error e := by
  have hwrites :
      ({ s.access with sight := some (.unusable e), journalError := j } : Access).Writes :=
    ⟨hs.ordinary.writes.1, hs.ordinary.writes.2, hs.ordinary.writes.3⟩
  exact ((hagrees.stands h.stands).blind hwrites (Shared.own?_eq_none.1 hown) rfl q).imp
    fun _ he ↦ (ask_of_reach hs hreach q).trans he

theorem Keeps.reach (h : w.Keeps n x) (hs : s.IsHandle n home)
    (hown : x.own? s.access.session = none) (hu : w.UsesLog n s.access.cache) :
    ∃ j, w.reach n s.access = ({ s.access with sight := none, journalError := j }, w) := by
  obtain ⟨j, hreach⟩ := reach_of_usesLog h.holds hu hs.ordinary
  rw [h.stands.isBusy hs.ordinary.writes (Shared.own?_eq_none.1 hown)] at hreach
  exact ⟨j, hreach⟩

theorem Keeps.sees (h : w.Keeps n x) (hs : s.IsHandle n home)
    (hown : x.own? s.access.session = none) (hu : w.UsesLog n s.access.cache) :
    s.Sees w x.tables := by
  obtain ⟨j, hreach⟩ := h.reach hs hown hu
  exact h.sees_of_reach hs hown hreach (.refl _)

theorem Keeps.withFiles (h : w.Keeps n x) {fs : FileSystem} (hfs : fs.Spares n) :
    ({ w with files := fs } : World).Keeps n x :=
  ⟨⟨h.holds.opened, h.holds.logged, hfs⟩, h.stands, h.apart⟩

/-- A handle in no transaction sees the tables, or nothing at all. -/
theorem Shares.sees (h : w.Shares n home x) (hs : s.IsHandle n home)
    (hown : x.own? s.access.session = none) :
    s.Sees w x.tables ∨ ∀ q : Query, ∃ e, s.ask w q = .error e := by
  obtain ⟨sight, j, v, hreach, htracks, ⟨e, rfl⟩ | ⟨rfl, -⟩⟩ :=
    h.serves.reach hs.ordinary hs.residence
      (h.stands.isBusy hs.ordinary.writes (Shared.own?_eq_none.1 hown))
  · exact .inr (h.keeps.blind_of_reach hs hown hreach htracks.agrees)
  · exact .inl (h.keeps.sees_of_reach hs hown hreach htracks.agrees)

theorem Shares.sees_of_start (h : w.Shares n home x) (hs : s.IsHandle n home)
    (hown : x.own? s.access.session = none) (hstart : (Replay.start s w).isOk = true) :
    s.Sees w x.tables := by
  refine (h.sees hs hown).resolve_right fun hblind ↦ ?_
  obtain ⟨e, he⟩ := hblind .reportedPaths
  rw [Replay.start, he] at hstart
  cases hstart

end World

namespace Lifetime

variable {home : Location} {st : State} {past : List State}

/-- Every report of a store can be read. -/
theorem readable (h : Lifetime home (st :: past)) : st.tables.IsReadable := by
  generalize hstates : st :: past = states at h
  induction h generalizing st past with
  | created hw hp hs =>
    cases hstates
    rw [(State.Turns.created hw hp hs).tables]
    exact ⟨nofun, nofun⟩
  | step h hstep ih =>
    cases hstates
    obtain ⟨x, hx⟩ := turns h List.mem_cons_self
    have hreadable := hx.tables ▸ ih rfl
    obtain ⟨y, hy, ⟨-, hsame⟩ | ⟨-, job, hjob, answer, hlands⟩⟩ := hstep.turns hx
    · rw [hy.tables, hsame]
      exact hreadable
    · rw [hy.tables]
      exact hlands.isReadable (hx.job hjob).1 hreadable

end Lifetime

end FindingStore
