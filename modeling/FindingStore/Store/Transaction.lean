import FindingStore.Database.Program
import FindingStore.Retry
import FindingStore.Store.Error

/-!
The protocol that runs a unit of work in a transaction. An attempt that meets contention is rolled
back and repeated after a delay; every other end of an attempt ends the transaction. The whole
transaction is a program, so that several of them can be run step by step beside each other.
-/

namespace FindingStore

inductive Verdict (α : Type)
  | commit (value : α)
  | rollback (value : α)
  | retry
  | abort (message : String)
  deriving DecidableEq, Repr

inductive Settlement (α : Type)
  | committed (value : α)
  | rolledBack (value : α)
  deriving DecidableEq, Repr

def Settlement.value {α : Type} : Settlement α → α
  | .committed v | .rolledBack v => v

/-- One run of a unit of work. It ends with what it asks for or an error, and with the memory that
it leaves to the next run. -/
abbrev Work (τ α : Type) := Program (Except SqlError (Verdict α) × τ)

namespace Work

variable {τ α : Type}

def finish (verdict : Except SqlError (Verdict α)) (memory : τ) : Work τ α :=
  .done (verdict, memory)

def ask (memory : τ) (q : Query) (next : q.Reply → Work τ α) : Work τ α :=
  .execute (.query q) fun
    | .ok reply => next reply
    | .error e => finish (.error e) memory

end Work

namespace Transaction

variable {τ α : Type}

inductive Attempt (α : Type)
  | settled (r : Settlement α)
  | transient (message : String)
  | failed (e : StoreError)
  deriving DecidableEq, Repr

/-- Contention may pass, any other error stays. -/
def classify (context : String) (e : SqlError) : Attempt α :=
  if e.isTransient then .transient (StoreError.sqlText context e) else .failed (.sql context e)

def rollbackThen (a : Attempt α) : Program (Attempt α) := .execute .rollback fun _ ↦ .done a

/-- Ends an attempt as its unit of work asks for. A commit that fails is rolled back. -/
def conclude : Except SqlError (Verdict α) → Program (Attempt α)
  | .error e => rollbackThen (classify "unit of work" e)
  | .ok (.commit v) => .execute .commit fun
    | .ok _ => .done (.settled (.committed v))
    | .error e => rollbackThen (classify "COMMIT" e)
  | .ok (.rollback v) => .execute .rollback fun
    | .ok _ => .done (.settled (.rolledBack v))
    | .error e => .done (.failed (.sql "ROLLBACK" e))
  | .ok .retry => rollbackThen (.transient "unit of work requested a retry")
  | .ok (.abort message) => rollbackThen (.failed (.aborted message))

def attempt (work : τ → Work τ α) (memory : τ) : Program (Attempt α × τ) :=
  .execute .begin fun
    | .error e => .done (classify "BEGIN" e, memory)
    | .ok _ => (work memory).bind fun (verdict, memory) ↦
      (conclude verdict).map fun a ↦ (a, memory)

structure Report (τ α : Type) where
  result : Except StoreError (Settlement α)
  memory : τ
  source : Retry.Source
  /-- The delays that were waited for, in microseconds. -/
  delays : List Nat := []

/-- Makes at most the given number of attempts, starting with the one of the given number; the
delays that have been waited for come latest first, and the text is that of the last transient
failure. -/
def attempts (policy : Retry.Policy) (work : τ → Work τ α) :
    (left number : Nat) → List Nat → String → Retry.Source → τ → Program (Report τ α)
  | 0, _, waited, last, source, memory =>
    .done
      { result := .error (.retriesExhausted policy.maxAttempts last)
        memory, source, delays := waited.reverse }
  | left + 1, number, waited, _, source, memory =>
    let (delay, source) := policy.delay number source
    let waited := if delay = 0 then waited else delay :: waited
    (attempt work memory).bind fun
      | (.settled r, memory) =>
        .done { result := .ok r, memory, source, delays := waited.reverse }
      | (.failed e, memory) =>
        .done { result := .error e, memory, source, delays := waited.reverse }
      | (.transient message, memory) =>
        attempts policy work left (number + 1) waited message source memory

def program (policy : Retry.Policy) (source : Retry.Source) (work : τ → Work τ α) (memory : τ) :
    Program (Report τ α) :=
  attempts policy work policy.maxAttempts 1 [] "no attempt made" source memory

end Transaction

end FindingStore
