import FindingStore.Proofs.Store.Attempts
import FindingStore.Proofs.World.Receiving

namespace FindingStore

variable {σ τ α : Type} {conn : Connection σ} {idle : Tables → σ → Prop}
  {busy : Tables → Draft → σ → Prop} {t : Tables} {d u : Draft} {s : σ}

structure Connection.Grants (conn : Connection σ) (idle : Tables → σ → Prop)
    (busy : Tables → Draft → σ → Prop) : Prop where
  begin {t : Tables} {s : σ} : idle t s → ∃ s', conn .begin s = (.ok (), s') ∧ busy t t s'
  query {t u : Tables} {d : Draft} {s : σ} {q : Query} {reply : q.Reply} :
    busy t d s → d.tables.apply d.deferred q = .ok (reply, u) →
      ∃ s', conn (.query q) s = (.ok reply, s') ∧ busy t { d with tables := u } s'
  commit {t : Tables} {d : Draft} {s : σ} :
    busy t d s → d.deferred = false → ∃ s', conn .commit s = (.ok (), s') ∧ idle d.tables s'

theorem Work.IsDirect.run {work : Work τ α} (h : work.IsDirect) (hc : conn.Grants idle busy)
    {v : Verdict α} {memory : τ} (hr : work.Runs d (.ok v, memory) u) (hd : d.deferred = false)
    (hs : busy t d s) :
    ∃ s', work.run conn s = ((.ok v, memory), s') ∧ busy t u s' ∧ u.deferred = false := by
  induction h generalizing d s with
  | finish verdict memory =>
    cases hr
    exact ⟨s, rfl, hs, hd⟩
  | ask memory q _ ih =>
    cases hr with
    | query happly hr =>
      obtain ⟨s', he, hs'⟩ := hc.query hs happly
      obtain ⟨s'', hrest, hend⟩ := ih _ hr hd hs'
      refine ⟨s'', ?_, hend⟩
      simp only [Work.ask, Program.run, he]
      exact hrest
    | refused e hr => cases hr

theorem Transaction.run_program_of_grants {work : τ → Work τ α} {policy : Retry.Policy}
    (hc : conn.Grants idle busy) (hw : ∀ memory, (work memory).IsDirect)
    (hpolicy : 1 ≤ policy.maxAttempts) (source : Retry.Source) {memory memory' : τ} {v : α}
    (hr : (work memory).Runs t (.ok (.commit v), memory') u) (hs : idle t s) :
    let r := (program policy source work memory).run conn s
    r.1.result = .ok (.committed v) ∧ idle u.tables r.2 := by
  intro r
  obtain ⟨s₁, hbegin, hs₁⟩ := hc.begin hs
  obtain ⟨s₂, hrun, hs₂, hdeferred⟩ := (hw memory).run hc hr rfl hs₁
  obtain ⟨s₃, hcommit, hs₃⟩ := hc.commit hs₂ hdeferred
  obtain ⟨left, hleft⟩ : ∃ left, policy.maxAttempts = left + 1 :=
    ⟨_, (Nat.sub_add_cancel hpolicy).symm⟩
  rcases hdelay : policy.delay 1 source with ⟨delay, source'⟩
  have hattempt : (attempt work memory).run conn s =
      ((.settled (.committed v), memory'), s₃) := by
    simp only [attempt, Program.run, hbegin, Program.run_bind, hrun, Program.run_map, conclude,
      hcommit]
  have hprogram : r = (⟨.ok (.committed v), memory', source',
      (if delay = 0 then [] else [delay]).reverse⟩, s₃) := by
    simp only [r, program, hleft, attempts, hdelay, Program.run_bind, hattempt]
    rfl
  rw [hprogram]
  exact ⟨rfl, hs₃⟩

/-- Where no transaction can be begun, none succeeds. -/
theorem Transaction.run_program_of_blocked (blocked : σ → Prop)
    (h : ∀ s, blocked s → ∃ e s', conn .begin s = (.error e, s') ∧ blocked s')
    (policy : Retry.Policy) (source : Retry.Source) (work : τ → Work τ α) (memory : τ)
    (hs : blocked s) :
    ∃ e, ((program policy source work memory).run conn s).1.result = .error e := by
  unfold program
  generalize policy.maxAttempts = left
  generalize 1 = number
  generalize "no attempt made" = last
  generalize ([] : List Nat) = waited
  induction left generalizing number waited last source s with
  | zero => exact ⟨_, rfl⟩
  | succ left ih =>
    obtain ⟨e, s', hbegin, hs'⟩ := h s hs
    simp only [attempts, attempt, Program.run_bind, Program.run, hbegin, classify]
    cases e.isTransient with
    | true => exact ih _ hs' _ _ _
    | false => exact ⟨_, rfl⟩

open World in
/-- Nothing is refused to a store that uses the log while the others rest. -/
theorem Store.grants {s : Store} (caches : Nat → Prop) (hc : caches s.access.cache)
    (ha : s.access.IsOrdinary) :
    s.connection.Grants (Idle s.database caches) (Busy s.database caches s.access.session) where
  begin hw := hw.begin hc ha
  query {t u d w q reply} hw happly := by
    obtain ⟨v, ⟨e, herror, -⟩ | ⟨reply', changed, hok, hq, hbusy⟩⟩ := hw.query hc ha q
    · cases happly.symm.trans herror
    · cases happly.symm.trans hok
      exact ⟨v, hq, hbusy⟩
  commit hw hd := by
    obtain ⟨v, ⟨e, hdeferred, -⟩ | ⟨hcommit, hidle⟩⟩ := hw.commit hc ha
    · rw [hd] at hdeferred
      cases hdeferred
    · exact ⟨v, hcommit, hidle⟩

open World in
/-- The same holds of a store with nothing between it and its file. -/
theorem Store.grants_of_clear {s : Store} (ha : s.access.IsOrdinary) :
    s.connection.Grants
      (fun t w ↦ w.Awaits s.database s.access t ∧ w.IsClear s.database s.access)
      (Busy s.database (· = s.access.cache) s.access.session) where
  begin hw := by
    rcases hw.1.begin ha with ⟨-, v, hbegin, -, hbusy⟩ | ⟨hblocked, -⟩
    · exact ⟨v, hbegin, hbusy⟩
    · exact absurd hw.2 hblocked
  query hw happly := (Store.grants (· = s.access.cache) rfl ha).query hw happly
  commit hw hd := by
    obtain ⟨v, hcommit, hidle⟩ := (Store.grants (· = s.access.cache) rfl ha).commit hw hd
    exact ⟨v, hcommit, hidle.awaits rfl, hidle.isClear rfl ha⟩

theorem Store.report_transactOver (s : Store) (conn : Connection σ) (source : Retry.Source)
    (work : τ → Work τ α) (memory : τ) (state : σ) :
    (s.transactOver conn source work memory state).1 =
      ((Transaction.program s.policy source work memory).run conn state).1 := by
  unfold transactOver
  dsimp only
  split <;> rfl

open World in
theorem Store.result_of_not_isClear {s : Store} {w : World} {t : Tables} (ha : s.access.IsOrdinary)
    (hw : w.Awaits s.database s.access t) (hblocked : ¬w.IsClear s.database s.access)
    (source : Retry.Source) (work : τ → Work τ α) (memory : τ) :
    ∃ e, (s.transact source work memory w).1.result = .error e := by
  rw [transact, report_transactOver]
  refine Transaction.run_program_of_blocked
    (fun w ↦ w.Awaits s.database s.access t ∧ ¬w.IsClear s.database s.access) (fun w hw ↦ ?_)
    _ _ _ _ ⟨hw, hblocked⟩
  rcases hw.1.begin ha with ⟨hclear, -⟩ | ⟨-, e, v, hbegin, -, hv⟩
  · exact absurd hclear hw.2
  · exact ⟨e, v, hbegin, hv⟩

end FindingStore
