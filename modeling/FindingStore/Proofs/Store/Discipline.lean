import FindingStore.Proofs.Store.Attempts
import FindingStore.Proofs.Store.Turns

namespace FindingStore

variable {β γ : Type} {lands : Tables → β → Tables → Prop} {fails : β → Prop}

/-- Programs that keep to the order, outside of a transaction or inside of one, with the tables it
has found and its draft. A commit turns the one into the other and is the last statement; whatever
else ends is a failure. -/
inductive Program.Obeys (lands : Tables → β → Tables → Prop) (fails : β → Prop) :
    Option (Tables × Draft) → Program β → Prop
  | done {b : β} : fails b → Obeys lands fails none (.done b)
  | begin {next : Except SqlError Unit → Program β} :
      (∀ t : Tables, Obeys lands fails (some (t, t)) (next (.ok ()))) →
        (∀ e, Obeys lands fails none (next (.error e))) →
        Obeys lands fails none (.execute .begin next)
  | query {t : Tables} {d : Draft} {q : Query} {next : Except SqlError q.Reply → Program β} :
      (∀ reply u, d.tables.apply d.deferred q = .ok (reply, u) →
          Obeys lands fails (some (t, { d with tables := u })) (next (.ok reply))) →
        (∀ e, Obeys lands fails (some (t, d)) (next (.error e))) →
        Obeys lands fails (some (t, d)) (.execute (.query q) next)
  | defer {t : Tables} {d : Draft} {next : Except SqlError Unit → Program β} :
      Obeys lands fails (some (t, { d with deferred := true })) (next (.ok ())) →
        (∀ e, Obeys lands fails (some (t, d)) (next (.error e))) →
        Obeys lands fails (some (t, d)) (.execute .deferForeignKeys next)
  | commit {t : Tables} {d : Draft} {next : Except SqlError Unit → Program β} {b : β} :
      next (.ok ()) = .done b → lands t b d.tables →
        (∀ e, Obeys lands fails (some (t, d)) (next (.error e))) →
        Obeys lands fails (some (t, d)) (.execute .commit next)
  | rollback {t : Tables} {d : Draft} {next : Except SqlError Unit → Program β} :
      (∀ r, Obeys lands fails none (next r)) →
        Obeys lands fails (some (t, d)) (.execute .rollback next)

namespace Program

variable {p : Program γ} {standing : Option (Tables × Draft)}

theorem Obeys.map {f : γ → β}
    (h : p.Obeys (fun t c u ↦ lands t (f c) u) (fun c ↦ fails (f c)) standing) :
    (p.map f).Obeys lands fails standing := by
  induction h with
  | done hb => exact .done hb
  | begin _ _ hok herror => exact .begin hok herror
  | query _ _ hok herror => exact .query hok herror
  | defer _ _ hok herror => exact .defer hok herror
  | commit hnext hlands _ herror =>
    exact .commit (b := f _) (by rw [hnext]; rfl) hlands herror
  | rollback _ hnext => exact .rollback hnext

/-- What ends other than by a commit is outside of a transaction, and a failure. -/
theorem Obeys.fails_of_done {b : β} (h : (Program.done b).Obeys lands fails standing) :
    fails b := by
  cases h with
  | done hb => exact hb

theorem Obeys.standing_of_done {b : β} (h : (Program.done b).Obeys lands fails standing) :
    standing = none := by
  cases h with
  | done => rfl

theorem StaysInside.obeys_bind (hp : p.StaysInside) {t : Tables} {d : Draft}
    {next : γ → Program β}
    (h : ∀ b u, p.Runs d b u → (next b).Obeys lands fails (some (t, u))) :
    (p.bind next).Obeys lands fails (some (t, d)) := by
  induction hp generalizing d with
  | done b => exact h b d (.done b d)
  | query _ ih =>
    exact .query (fun reply u happly ↦ ih _ fun b v hr ↦ h b v (.query happly hr))
      fun e ↦ ih _ fun b v hr ↦ h b v (.refused e hr)
  | defer _ ih =>
    exact .defer (ih _ fun b v hr ↦ h b v (.defer hr))
      fun e ↦ ih _ fun b v hr ↦ h b v (.refused e hr)

end Program

namespace Shared

variable {x y : Shared} {session : Nat} {s : Statement}
  {next : Except SqlError s.Reply → Program β} {reply : Except SqlError s.Reply}

def standing (x : Shared) (session : Nat) : Option (Tables × Draft) :=
  (x.own? session).map (x.tables, ·)

theorem standing_eq_some {t : Tables} {d : Draft} :
    x.standing session = some (t, d) ↔ x = ⟨t, some (session, d)⟩ := by
  obtain ⟨u, holder⟩ := x
  simp only [standing, Option.map_eq_some_iff, own?_eq_some, Prod.mk.injEq, mk.injEq]
  constructor
  · rintro ⟨e, rfl, rfl, rfl⟩
    exact ⟨rfl, rfl⟩
  · rintro ⟨rfl, rfl⟩
    exact ⟨d, rfl, rfl, rfl⟩

theorem standing_eq_none : x.standing session = none ↔ x.own? session = none := by
  simp [standing]

@[simp] theorem standing_self (t : Tables) (d : Draft) :
    standing ⟨t, some (session, d)⟩ session = some (t, d) := standing_eq_some.2 rfl

theorem Admits.of_obeys
    (h : (Program.execute s next).Obeys lands fails (x.standing session)) :
    x.Admits session s := by
  generalize hstanding : x.standing session = standing at h
  unfold Admits
  cases h with
  | begin => simp [standing_eq_none.1 hstanding]
  | query | defer | commit | rollback => simp [own?, standing_eq_some.1 hstanding]

/-- A program that keeps to the order still does after an answer, unless it was the answer to its
commit: then it has landed and ends. -/
theorem Takes.obeys (ht : x.Takes session s reply y)
    (h : (Program.execute s next).Obeys lands fails (x.standing session)) :
    (next reply).Obeys lands fails (y.standing session) ∧ y.tables = x.tables ∧
        ¬ (s = .commit ∧ reply.isOk) ∨
      (s = .commit ∧ reply.isOk) ∧ y.holder = none ∧
        ∃ b, next reply = .done b ∧ lands x.tables b y.tables := by
  cases ht with
  | begun t =>
    cases h with
    | begin hok _ => exact .inl ⟨by simpa using hok t, rfl, by simp⟩
  | asked happly =>
    rw [standing_self] at h
    cases h with
    | query hok _ => exact .inl ⟨by simpa using hok _ _ happly, rfl, by simp⟩
  | deferred t d =>
    rw [standing_self] at h
    cases h with
    | defer hok _ => exact .inl ⟨by simpa using hok, rfl, by simp⟩
  | committed t d =>
    rw [standing_self] at h
    cases h with
    | commit hnext hlands _ => exact .inr ⟨⟨rfl, rfl⟩, rfl, _, hnext, hlands⟩
  | undone t d =>
    rw [standing_self] at h
    cases h with
    | rollback hnext => exact .inl ⟨hnext _, rfl, by simp⟩
  | refused e hne =>
    refine .inl ⟨?_, rfl, by simp [Except.isOk, Except.toBool]⟩
    generalize x.standing session = standing at h ⊢
    cases h with
    | begin _ herror | query _ herror | defer _ herror | commit _ _ herror => exact herror e
    | rollback => exact absurd rfl hne

end Shared

namespace Transaction

variable {τ α : Type} {work : τ → Work τ α} {lands : Tables → Report τ α → Tables → Prop}
  {fails : Report τ α → Prop}

theorem classify_ne_settled (context : String) (e : SqlError) (r : Settlement α) :
    classify context e ≠ .settled r := by
  unfold classify
  split <;> exact nofun

theorem obeys_conclude {verdict : Except SqlError (Verdict α)} {memory : τ} {t : Tables} {d : Draft}
    {next : Attempt α × τ → Program (Report τ α)}
    (hcommit : ∀ v, verdict = .ok v → ∃ a report, v = .commit a ∧
      next (.settled (.committed a), memory) = .done report ∧ lands t report d.tables)
    (hnext : ∀ a : Attempt α, (∀ r, a ≠ .settled r) →
      (next (a, memory)).Obeys lands fails none) :
    (((conclude verdict).map fun a ↦ (a, memory)).bind next).Obeys lands fails (some (t, d)) := by
  rcases verdict with e | v
  · exact .rollback fun _ ↦ hnext _ (classify_ne_settled _ e)
  · obtain ⟨a, report, rfl, hreport, hlands⟩ := hcommit v rfl
    exact .commit hreport hlands fun e ↦ .rollback fun _ ↦ hnext _ (classify_ne_settled _ e)

def afterAttempt (policy : Retry.Policy) (work : τ → Work τ α) (left number : Nat)
    (waited : List Nat) (source : Retry.Source) : Attempt α × τ → Program (Report τ α)
  | (.settled r, memory) => .done { result := .ok r, memory, source, delays := waited.reverse }
  | (.failed e, memory) => .done { result := .error e, memory, source, delays := waited.reverse }
  | (.transient message, memory) =>
    attempts policy work left (number + 1) waited message source memory

theorem attempts_succ (policy : Retry.Policy) (left number : Nat) (waited : List Nat)
    (last : String) (source : Retry.Source) (memory : τ) :
    ∃ waited' source', attempts policy work (left + 1) number waited last source memory =
      (attempt work memory).bind (afterAttempt policy work left number waited' source') := by
  rcases hd : policy.delay number source with ⟨delay, source'⟩
  refine ⟨if delay = 0 then waited else delay :: waited, source', ?_⟩
  simp only [attempts, hd]
  rfl

theorem obeys_attempts (policy : Retry.Policy) (hw : ∀ memory, (work memory).StaysInside)
    (hlands : ∀ {memory memory' : τ} {t : Tables} {v : Verdict α} {u : Draft},
      (work memory).Runs t (.ok v, memory') u → ∃ a, v = .commit a ∧
        ∀ report : Report τ α, report.result = .ok (.committed a) → lands t report u.tables)
    (hfails : ∀ (report : Report τ α) e, report.result = .error e → fails report)
    (left number : Nat) (waited : List Nat) (last : String) (source : Retry.Source) (memory : τ) :
    (attempts policy work left number waited last source memory).Obeys lands fails none := by
  induction left generalizing number waited last source memory with
  | zero => exact .done (hfails _ _ rfl)
  | succ left ih =>
    obtain ⟨waited, source, hattempts⟩ :=
      attempts_succ policy left number waited last source memory
    have hnext (a : Attempt α) (ha : ∀ r, a ≠ .settled r) (memory : τ) :
        Program.Obeys lands fails none
          (afterAttempt policy work left number waited source (a, memory)) := by
      cases a with
      | settled r => exact absurd rfl (ha r)
      | failed e => exact .done (hfails _ e rfl)
      | transient message => exact ih _ _ _ _ _
    rw [hattempts]
    refine .begin (fun t ↦ ?_) fun e ↦ hnext _ (classify_ne_settled _ e) memory
    rw [Program.bind_assoc]
    refine (hw memory).obeys_bind ?_
    rintro ⟨verdict, memory'⟩ u hruns
    refine obeys_conclude (fun v hv ↦ ?_) fun a ha ↦ hnext a ha memory'
    obtain ⟨a, ha, hreport⟩ := hlands (hv ▸ hruns)
    exact ⟨a, _, ha, rfl, hreport _ rfl⟩

/-- A transaction keeps to the order, if its unit of work does nothing but its work and asks for a
commit in the end. -/
theorem obeys_program (policy : Retry.Policy) (hw : ∀ memory, (work memory).StaysInside)
    (hlands : ∀ {memory memory' : τ} {t : Tables} {v : Verdict α} {u : Draft},
      (work memory).Runs t (.ok v, memory') u → ∃ a, v = .commit a ∧
        ∀ report : Report τ α, report.result = .ok (.committed a) → lands t report u.tables)
    (hfails : ∀ (report : Report τ α) e, report.result = .error e → fails report)
    (source : Retry.Source) (memory : τ) :
    (program policy source work memory).Obeys lands fails none :=
  obeys_attempts policy hw hlands hfails _ _ _ _ _ _

end Transaction

end FindingStore
