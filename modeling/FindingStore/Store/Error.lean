import FindingStore.Database.Error
import FindingStore.FileSystem.Basic
import FindingStore.Store.Address

namespace FindingStore

inductive OpenFailure
  | unable (path : Path)
  | nulByte (position : Nat)
  | address (e : AddressError)
  deriving DecidableEq, Repr

namespace OpenFailure

def message : OpenFailure → String
  | .unable path => s!"unable to open database file: {Path.display path}"
  | .nulByte position => s!"nul byte found in provided data at position: {position}"
  | .address e => e.message

def code : OpenFailure → Option Int
  | .unable _ => some 14
  | .nulByte _ => none
  | .address e => some e.code

end OpenFailure

inductive StoreError
  | cannotOpen (path : Path) (cause : OpenFailure)
  | notFound (start : Path)
  | cannotResolve (path : Path) (cause : IoError)
  | sql (context : String) (cause : SqlError)
  | unboundParameters (text : String)
  | aborted (message : String)
  | retriesExhausted (attempts : Nat) (last : String)
  /-- The busy timeout does not fit the number of milliseconds that the engine takes. -/
  | timeoutTooLong
  deriving DecidableEq, Repr

def storeFileName : String := "findstore.sqlite"

namespace StoreError

def sqlText (context : String) (cause : SqlError) : String := s!"{cause.message} [{context}]"

def message : StoreError → String
  | .cannotOpen path cause => s!"could not open {Path.display path}: {cause.message}"
  | .notFound start =>
    s!"could not find {storeFileName} in {Path.display start} or its parent directories"
  | .cannotResolve path cause =>
    s!"could not resolve directory {Path.display path}: {cause.message}"
  | .sql context cause => sqlText context cause
  | .unboundParameters text => s!"trying to execute statement with unbound parameters: {text}"
  | .aborted message => s!"transaction aborted: {message}"
  | .retriesExhausted attempts last => s!"transaction failed after {attempts} attempts: {last}"
  | .timeoutTooLong => "too big"

def chain (e : StoreError) : List String :=
  e.message :: match e with
    | .cannotOpen _ cause => cause.message :: (cause.code.map SqlError.codeText).toList
    | .cannotResolve _ cause => [cause.message]
    | .sql _ cause => cause.chain
    | _ => []

end StoreError

end FindingStore
