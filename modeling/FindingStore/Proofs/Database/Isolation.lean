import FindingStore.Database.Program

namespace FindingStore

variable {σ β : Type}

structure Draft where
  tables : Tables
  deferred : Bool := false

instance : Coe Tables Draft := ⟨fun t ↦ { tables := t }⟩

/-- The runs of a program in a transaction. A query acts on the draft, or it is refused and leaves
the draft as it is. -/
inductive Program.Runs : Program β → Draft → β → Draft → Prop
  | done (b : β) (d : Draft) : Runs (.done b) d b d
  | query {q : Query} {next : Except SqlError q.Reply → Program β} {reply : q.Reply}
      {d u : Draft} {t : Tables} {b : β} :
      d.tables.apply d.deferred q = .ok (reply, t) →
        Runs (next (.ok reply)) { d with tables := t } b u → Runs (.execute (.query q) next) d b u
  | defer {next : Except SqlError Unit → Program β} {d u : Draft} {b : β} :
      Runs (next (.ok ())) { d with deferred := true } b u →
        Runs (.execute .deferForeignKeys next) d b u
  | refused {s : Statement} {next : Except SqlError s.Reply → Program β} {d u : Draft} {b : β}
      (e : SqlError) : Runs (next (.error e)) d b u → Runs (.execute s next) d b u

inductive Program.StaysInside : Program β → Prop
  | done (b : β) : StaysInside (.done b)
  | query {q : Query} {next : Except SqlError q.Reply → Program β} :
      (∀ reply, StaysInside (next reply)) → StaysInside (.execute (.query q) next)
  | defer {next : Except SqlError Unit → Program β} :
      (∀ reply, StaysInside (next reply)) → StaysInside (.execute .deferForeignKeys next)

namespace Connection

/-- The states of a connection outside of a transaction, given the tables, and inside of one,
given the tables and their draft, behave as those of a session that alone writes. -/
structure Isolates (conn : Connection σ) (idle : Tables → σ → Prop)
    (busy : Tables → Draft → σ → Prop) : Prop where
  begin_ok {t : Tables} {s s' : σ} {r : Unit} :
    idle t s → conn .begin s = (.ok r, s') → busy t t s'
  begin_error {t : Tables} {s s' : σ} {e : SqlError} :
    idle t s → conn .begin s = (.error e, s') → idle t s'
  query_ok {t : Tables} {d : Draft} {s s' : σ} {q : Query} {reply : q.Reply} :
    busy t d s → conn (.query q) s = (.ok reply, s') →
      ∃ u, d.tables.apply d.deferred q = .ok (reply, u) ∧ busy t { d with tables := u } s'
  query_error {t : Tables} {d : Draft} {s s' : σ} {q : Query} {e : SqlError} :
    busy t d s → conn (.query q) s = (.error e, s') → busy t d s'
  defer_ok {t : Tables} {d : Draft} {s s' : σ} {r : Unit} :
    busy t d s → conn .deferForeignKeys s = (.ok r, s') → busy t { d with deferred := true } s'
  defer_error {t : Tables} {d : Draft} {s s' : σ} {e : SqlError} :
    busy t d s → conn .deferForeignKeys s = (.error e, s') → busy t d s'
  commit_ok {t : Tables} {d : Draft} {s s' : σ} {r : Unit} :
    busy t d s → conn .commit s = (.ok r, s') → idle d.tables s'
  commit_error {t : Tables} {d : Draft} {s s' : σ} {e : SqlError} :
    busy t d s → conn .commit s = (.error e, s') → busy t d s'
  rollback {t : Tables} {d : Draft} {s : σ} :
    busy t d s → ∃ s', conn .rollback s = (.ok (), s') ∧ idle t s'

/-- The connection with statements refused by a schedule: the next entry is the error that the
next statement meets, if any. A rollback is never refused. -/
def failing (conn : Connection σ) : Connection (List (Option SqlError) × σ) := fun statement s ↦
  match decide (statement = .rollback), s with
  | false, (some e :: rest, s) => (.error e, rest, s)
  | false, (none :: rest, s) => ((conn statement s).1, rest, (conn statement s).2)
  | _, (faults, s) => ((conn statement s).1, faults, (conn statement s).2)

section

variable {conn : Connection σ}

theorem failing_ok {statement : Statement} {s s' : List (Option SqlError) × σ}
    {reply : statement.Reply} (h : conn.failing statement s = (.ok reply, s')) :
    conn statement s.2 = (.ok reply, s'.2) := by
  unfold failing at h
  split at h
  · cases h
  · obtain ⟨hr, rfl⟩ := Prod.mk.inj h
    exact Prod.ext hr rfl
  · obtain ⟨hr, rfl⟩ := Prod.mk.inj h
    exact Prod.ext hr rfl

theorem failing_error {statement : Statement} {s s' : List (Option SqlError) × σ} {e : SqlError}
    (h : conn.failing statement s = (.error e, s')) :
    s'.2 = s.2 ∨ conn statement s.2 = (.error e, s'.2) := by
  unfold failing at h
  split at h
  · cases h
    exact .inl rfl
  · obtain ⟨hr, rfl⟩ := Prod.mk.inj h
    exact .inr (Prod.ext hr rfl)
  · obtain ⟨hr, rfl⟩ := Prod.mk.inj h
    exact .inr (Prod.ext hr rfl)

theorem failing_rollback (conn : Connection σ) (s : List (Option SqlError) × σ) :
    conn.failing .rollback s = ((conn .rollback s.2).1, s.1, (conn .rollback s.2).2) := rfl

variable {idle : Tables → σ → Prop} {busy : Tables → Draft → σ → Prop}

theorem Isolates.failing (h : conn.Isolates idle busy) :
    conn.failing.Isolates (fun t s ↦ idle t s.2) (fun t d s ↦ busy t d s.2) where
  begin_ok hs he := h.begin_ok hs (failing_ok he)
  begin_error hs he := by
    rcases failing_error he with hsame | he
    · exact hsame ▸ hs
    · exact h.begin_error hs he
  query_ok hs he := h.query_ok hs (failing_ok he)
  query_error hs he := by
    rcases failing_error he with hsame | he
    · exact hsame ▸ hs
    · exact h.query_error hs he
  defer_ok hs he := h.defer_ok hs (failing_ok he)
  defer_error hs he := by
    rcases failing_error he with hsame | he
    · exact hsame ▸ hs
    · exact h.defer_error hs he
  commit_ok hs he := h.commit_ok hs (failing_ok he)
  commit_error hs he := by
    rcases failing_error he with hsame | he
    · exact hsame ▸ hs
    · exact h.commit_error hs he
  rollback {t d s} hs := by
    obtain ⟨s', he, hs'⟩ := h.rollback hs
    exact ⟨(s.1, s'), by rw [failing_rollback, he], hs'⟩

theorem Isolates.run (h : conn.Isolates idle busy) {p : Program β} (hp : p.StaysInside)
    {t : Tables} {d : Draft} {s : σ} (hs : busy t d s) :
    ∃ u, p.Runs d (p.run conn s).1 u ∧ busy t u (p.run conn s).2 := by
  induction hp generalizing d s with
  | done b => exact ⟨d, .done b d, hs⟩
  | @query q next _ ih =>
    simp only [Program.run]
    rcases he : conn (.query q) s with ⟨e | reply, s'⟩
    · obtain ⟨u, hr, hb⟩ := ih (.error e) (h.query_error hs he)
      exact ⟨u, .refused e hr, hb⟩
    · obtain ⟨v, ha, hs'⟩ := h.query_ok hs he
      obtain ⟨u, hr, hb⟩ := ih (.ok reply) hs'
      exact ⟨u, .query ha hr, hb⟩
  | @defer next _ ih =>
    simp only [Program.run]
    rcases he : conn .deferForeignKeys s with ⟨e | ⟨⟩, s'⟩
    · obtain ⟨u, hr, hb⟩ := ih (.error e) (h.defer_error hs he)
      exact ⟨u, .refused e hr, hb⟩
    · obtain ⟨u, hr, hb⟩ := ih (.ok ()) (h.defer_ok hs he)
      exact ⟨u, .defer hr, hb⟩

end

end Connection

end FindingStore
