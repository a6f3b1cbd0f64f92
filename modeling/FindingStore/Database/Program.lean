import FindingStore.Database.Session

/-!
Programs of a session: trees of statements that branch on the results. A program is run against
any connection, be it to a database alone, to one that other sessions use in between, or to one
that fails by a schedule.
-/

namespace FindingStore

/-- Something that executes statements in a state. -/
abbrev Connection (σ : Type) := (s : Statement) → σ → Except SqlError s.Reply × σ

inductive Program (β : Type)
  | done (result : β)
  | execute (s : Statement) (next : Except SqlError s.Reply → Program β)

namespace Program

variable {σ β γ : Type}

def bind (p : Program β) (f : β → Program γ) : Program γ :=
  match p with
  | done b => f b
  | execute s next => execute s fun r ↦ (next r).bind f

def map (f : β → γ) (p : Program β) : Program γ := p.bind fun b ↦ done (f b)

def run (conn : Connection σ) : Program β → σ → β × σ
  | done b, s => (b, s)
  | execute statement next, s =>
    let (reply, s) := conn statement s
    run conn (next reply) s

theorem run_bind (conn : Connection σ) (p : Program β) (f : β → Program γ) (s : σ) :
    (p.bind f).run conn s = (f (p.run conn s).1).run conn (p.run conn s).2 := by
  induction p generalizing s with
  | done b => rfl
  | execute statement next ih => exact ih _ _

theorem run_map (conn : Connection σ) (f : β → γ) (p : Program β) (s : σ) :
    (p.map f).run conn s = (f (p.run conn s).1, (p.run conn s).2) := run_bind conn p _ s

theorem bind_assoc {δ : Type} (p : Program β) (f : β → Program γ) (g : γ → Program δ) :
    (p.bind f).bind g = p.bind fun b ↦ (f b).bind g := by
  induction p with
  | done b => rfl
  | execute s next ih => exact congrArg (execute s) (funext ih)

end Program

end FindingStore
