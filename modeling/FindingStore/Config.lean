import FindingStore.Text.Basic
import FindingStore.Text.Utf8

namespace FindingStore

inductive Retention
  | keepAll
  | pruneSuperseded
  deriving DecidableEq, Repr

structure RetentionError where
  policy : String
  deriving DecidableEq, Repr

def RetentionError.message (e : RetentionError) : String :=
  s!"unknown retention policy: {e.policy}"

def Retention.parse (value : String) : Except RetentionError Retention :=
  let policy := Text.trim value
  if policy = "keep-all" then .ok .keepAll
  else if policy = "prune-superseded" then .ok .pruneSuperseded
  else .error ⟨policy⟩

structure Config where
  maxAttempts : Nat := 6
  backoffBaseMs : Nat := 100
  busyTimeoutMs : Nat := 15000
  retention : Retention := .keepAll
  deriving DecidableEq, Repr

abbrev Environment := List (String × Bytes)

def Environment.text? (env : Environment) (name : String) : Option String :=
  (env.lookup name).bind Utf8.decode?

namespace Config

def micros (milliseconds : Nat) : Nat := milliseconds * 1000

def ofEnvironment (env : Environment) : Config :=
  let read {α : Type} (name : String) (parse : String → Option α) (fallback : α) : α :=
    ((env.text? name).bind parse).getD fallback
  let base : Config := {}
  { maxAttempts :=
      max 1 (read "FINDSTORE_MAX_ATTEMPTS" (Text.numeral? 0xFFFFFFFF) base.maxAttempts)
    backoffBaseMs :=
      read "FINDSTORE_BACKOFF_BASE_MS" (Text.numeral? 0xFFFFFFFFFFFFFFFF) base.backoffBaseMs
    busyTimeoutMs :=
      read "FINDSTORE_BUSY_TIMEOUT_MS" (Text.numeral? 0xFFFFFFFFFFFFFFFF) base.busyTimeoutMs
    retention :=
      read "FINDSTORE_RETENTION" (fun s ↦ (Retention.parse s).toOption) base.retention }

def logFilter (verbose : Bool) : String := if verbose then "debug" else "info"

end Config

end FindingStore
