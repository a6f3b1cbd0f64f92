import FindingStore.Text.Utf8

namespace FindingStore

inductive StorageClass
  | real
  | text
  | blob
  deriving DecidableEq, Repr

def StorageClass.name : StorageClass → String
  | .real => "Real"
  | .text => "Text"
  | .blob => "Blob"

inductive SqlError
  | locked
  | tableLocked
  /-- Another session of the same cache has changed a table that is read. -/
  | tableInUse (name : String)
  | schemaLocked
  | notADatabase
  | malformed
  | readOnly
  /-- A journal asks for changes to be undone in a file that may only be read. -/
  | unfinished
  | moved
  | cannotOpen
  | unreadableJournal
  | undeletableLog
  | shortLog
  | lostFile
  | noSuchTable (name : String)
  | columnCount (table : String) (columns supplied : Nat)
  | valueCount (columns supplied : Nat)
  | noSuchColumn (table column : String)
  | syntaxError (near : String)
  | unrecognizedToken (text : String)
  | nestedTransaction
  | nothingToCommit
  | nothingToRollBack
  | notNull (column : String)
  | unique (column : String)
  | foreignKey
  | typeMismatch
  | rejected (message : String)
  | noRows
  | outOfRange (value : Int) (index : Nat)
  | wrongClass (stored : StorageClass) (index : Nat) (column : String)
  | notText (flaw : Utf8.Flaw) (index : Nat)
  /-- A result code reported from elsewhere, with or without a text. -/
  | reported (code : Int) (message : Option String)
  deriving DecidableEq, Repr

/-- The result codes busy and locked, of which extended codes keep the low byte, signal that
another connection is at work. -/
def isContention (code : Option Int) : Bool :=
  match code with
  | some c => c % 256 == 5 || c % 256 == 6
  | none => false

def resultText (code : Int) : String :=
  match code with
  | 1 => "SQL error or missing database"
  | 3 => "Access permission denied"
  | 4 => "Callback routine requested an abort"
  | 5 => "The database file is locked"
  | 6 => "A table in the database is locked"
  | 7 => "A malloc() failed"
  | 8 => "Attempt to write a readonly database"
  | 10 => "Some kind of disk I/O error occurred"
  | 11 => "The database disk image is malformed"
  | 13 => "Insertion failed because database is full"
  | 14 => "Unable to open the database file"
  | 15 => "Database lock protocol error"
  | 17 => "The database schema changed"
  | 18 => "String or BLOB exceeds size limit"
  | 19 => "Abort due to constraint violation"
  | 20 => "Data type mismatch"
  | 21 => "Library used incorrectly"
  | 22 => "Uses OS features not supported on host"
  | 23 => "Authorization denied"
  | 26 => "File opened that is not a database file"
  | 262 => "Locking conflict due to another connection with a shared cache"
  | 266 => "Error reading from disk"
  | 522 => "Unable to obtain number of requested bytes (file truncated?)"
  | 787 => "Foreign key constraint failed"
  | 1032 => "Database cannot be modified because database file has moved"
  | 1299 => "A NOT NULL constraint failed"
  | 1555 => "A PRIMARY KEY constraint failed"
  | 1811 => "A RAISE function within a trigger fired"
  | 2570 => "Error deleting file"
  | _ => "Unknown error code"

namespace SqlError

/-- The result code; none for what is found only when a row is read. -/
def code : SqlError → Option Int
  | .locked => some 5
  | .tableLocked | .tableInUse _ | .schemaLocked => some 262
  | .readOnly => some 8
  | .unfinished => some 776
  | .moved => some 1032
  | .malformed => some 11
  | .cannotOpen => some 14
  | .notADatabase => some 26
  | .unreadableJournal => some 266
  | .shortLog => some 522
  | .lostFile => some 1802
  | .undeletableLog => some 2570
  | .noSuchTable _ | .columnCount .. | .valueCount .. | .noSuchColumn .. | .syntaxError _
  | .unrecognizedToken _ | .nestedTransaction | .nothingToCommit | .nothingToRollBack => some 1
  | .notNull _ => some 1299
  | .unique _ => some 1555
  | .foreignKey => some 787
  | .typeMismatch => some 20
  | .rejected _ => some 1811
  | .noRows | .outOfRange .. | .wrongClass .. | .notText .. => none
  | .reported c _ => some c

def codeText (code : Int) : String := s!"Error code {code}: {resultText code}"

def message : SqlError → String
  | .locked => "database is locked"
  | .tableLocked => "database table is locked"
  | .tableInUse name => s!"database table is locked: {name}"
  | .schemaLocked => "database schema is locked: main"
  | .readOnly | .unfinished | .moved => "attempt to write a readonly database"
  | .malformed => "database disk image is malformed"
  | .cannotOpen => "unable to open database file"
  | .unreadableJournal | .undeletableLog | .shortLog | .lostFile => "disk I/O error"
  | .notADatabase => "file is not a database"
  | .noSuchTable name => s!"no such table: {name}"
  | .columnCount table columns supplied =>
    s!"table {table} has {columns} columns but {supplied} values were supplied"
  | .valueCount columns supplied => s!"{supplied} values for {columns} columns"
  | .noSuchColumn table column => s!"table {table} has no column named {column}"
  | .syntaxError near => "near \"" ++ near ++ "\": syntax error"
  | .unrecognizedToken text => "unrecognized token: \"" ++ text ++ "\""
  | .nestedTransaction => "cannot start a transaction within a transaction"
  | .nothingToCommit => "cannot commit - no transaction is active"
  | .nothingToRollBack => "cannot rollback - no transaction is active"
  | .notNull column => s!"NOT NULL constraint failed: {column}"
  | .unique column => s!"UNIQUE constraint failed: {column}"
  | .foreignKey => "FOREIGN KEY constraint failed"
  | .typeMismatch => "datatype mismatch"
  | .rejected message => s!"{message} rejected"
  | .noRows => "Query returned no rows"
  | .outOfRange value index => s!"Integer {value} out of range at index {index}"
  | .wrongClass stored index column =>
    s!"Invalid column type {stored.name} at index: {index}, name: {column}"
  | .notText flaw index =>
    s!"Conversion error from type Text at index: {index}, {flaw.message}"
  | .reported _ (some text) => text
  | .reported c none => codeText c

def isTransient (e : SqlError) : Bool := isContention e.code

/-- Whether the error is found before the statement runs. -/
def isStatic : SqlError → Bool
  | .noSuchTable _ | .columnCount .. | .valueCount .. | .noSuchColumn ..
  | .syntaxError _ | .unrecognizedToken _ => true
  | _ => false

def isFileFailure : SqlError → Bool
  | .unreadableJournal | .undeletableLog | .shortLog | .lostFile => true
  | _ => false

def chain (e : SqlError) : List String :=
  e.message :: match e with
    | .notText flaw _ => [flaw.message]
    | _ => (e.code.map codeText).toList

end SqlError

end FindingStore
