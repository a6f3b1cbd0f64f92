import FindingStore.Proofs.Store.Calls

namespace FindingStore

variable {β : Type} {lands : Tables → β → Tables → Prop} {fails : β → Prop} {w : World} {n : Nat}
  {home : Location} {x y : Shared} {s : Store} {l : Ledger} {source : Retry.Source}

namespace Shared

variable {session : Nat} {statement : Statement} {reply : Except SqlError statement.Reply}

theorem Takes.without_eq (h : x.Takes session statement reply y)
    (hcommit : ¬ (statement = .commit ∧ reply.isOk = true)) :
    y.without session = x.without session := by
  cases h with
  | begun | asked | deferred | undone => simp [without, own?]
  | committed => exact absurd ⟨rfl, rfl⟩ hcommit
  | refused => rfl

theorem without_of_own? (h : x.own? session = none) : x.without session = x := by
  rw [without, h]

end Shared

namespace World

/-- A program that keeps to the order ends with a failure outside of a transaction, or with what it
has landed. -/
theorem Shares.run {p : Program β} (h : w.Shares n home x) (hs : s.IsHandle n home)
    (hp : p.Obeys lands fails (x.standing s.access.session)) :
    let r := p.run s.connection w
    ∃ y, r.2.Shares n home y ∧
      (fails r.1 ∧ y = x.without s.access.session ∨
        lands x.tables r.1 y.tables ∧ y.holder = none) := by
  induction p generalizing w x with
  | done b =>
    have hout := Shared.standing_eq_none.1 hp.standing_of_done
    exact ⟨x, h, .inl ⟨hp.fails_of_done, (Shared.without_of_own? hout).symm⟩⟩
  | execute statement next ih =>
    obtain ⟨z, htakes, hshares, -⟩ := h.execute hs (.of_obeys hp)
    rcases htakes.obeys hp with ⟨hnext, htables, hcommit⟩ | ⟨-, hfree, b, hdone, hlands⟩
    · obtain ⟨y, hy, hend⟩ := ih _ hshares hnext
      rw [htakes.without_eq hcommit, htables] at hend
      exact ⟨y, hy, hend⟩
    · refine ⟨z, ?_, .inr ⟨?_, hfree⟩⟩
      · simp only [Program.run, hdone]
        exact hshares
      · simp only [Program.run, hdone]
        exact hlands

/-- A handle that is in no transaction commits a ledger: the run lands as a whole, or nothing
happens. -/
theorem Shares.commit (h : w.Shares n home x) (hs : s.IsHandle n home)
    (hfree : x.own? s.access.session = none) (hl : l.Reachable)
    (hr : ∀ f ∈ l.staged, f.toRemark.InRange) (source : Retry.Source) :
    let run := l.resolveMarks w.files
    let r := l.commit s source w
    (∀ counts, r.result = .ok counts →
        counts = x.tables.landCounts s.retention run.files run.staged ∧
          r.state.Shares n home ⟨x.tables.land s.retention run.files run.staged, none⟩) ∧
      ∀ e, r.result = .error e → r.state.Shares n home x := by
  intro run r
  have hsound := Store.Call.isSound_ofLedger hl hr w.files source
  have hobeys := Store.Call.obeys hsound s
  rw [← Shared.standing_eq_none.2 hfree] at hobeys
  obtain ⟨y, hy, hend⟩ := h.run hs hobeys
  rw [Store.Call.program_ofLedger] at hy hend
  rcases hend with ⟨⟨e, he⟩, rfl⟩ | ⟨⟨answer, he, hlands⟩, hholder⟩
  · refine ⟨fun counts hresult ↦ ?_, fun _ _ ↦ ?_⟩
    · rw [show (l.commit s source w).result = .ok counts from hresult] at he
      cases he
    · rwa [Shared.without_of_own? hfree] at hy
  · obtain ⟨counts, hresult, rfl⟩ := map_eq_ok.1 he
    obtain ⟨hcounts, htables⟩ := Prod.mk.inj (hlands.apply_eq hsound)
    obtain ⟨t, holder⟩ := y
    obtain rfl : holder = none := hholder
    obtain rfl : x.tables.land s.retention run.files run.staged = t := htables
    refine ⟨fun counts' hresult' ↦ ?_, fun e he ↦ ?_⟩
    · obtain rfl := Except.ok.inj (hresult.symm.trans hresult')
      exact ⟨(Store.Answer.landed.inj hcounts).symm, hy⟩
    · cases hresult.symm.trans he

end World

end FindingStore
