import FindingStore.Database.Session
import FindingStore.Text.Basic

namespace FindingStore.Script

inductive Token
  | word (s : String)
  | number (n : Int)
  | quoted (s : String)
  | parameter
  | mark (c : Char)
  deriving DecidableEq, Repr

def isSpace (c : Char) : Bool := [' ', '\t', '\n', '\x0c', '\r'].contains c

/-- The texts of the statements. Semicolons with nothing before them belong to the text of the
statement that follows. -/
def split : (text : List Char) → (empty inQuotes : Bool) → List Char → List (List Char)
  | text, empty, _, [] => if empty then [] else [text]
  | text, empty, inQuotes, c :: rest =>
    if inQuotes then split (text ++ [c]) false (c != '\'') rest
    else if c = ';' then
      if empty then split (text ++ [c]) true false rest
      else (text ++ [c]) :: split [] true false rest
    else split (text ++ [c]) (empty && isSpace c) (c == '\'') rest

/-- A NUL ends a script, whatever follows it. -/
def statements (script : String) : List (List Char) :=
  split [] true false (script.toList.takeWhile (· != '\x00'))

def quotedText? : List Char → Option (List Char × List Char)
  | [] => none
  | [c] => if c = '\'' then some ([], []) else none
  | c :: d :: rest =>
    if c = '\'' then
      if d = '\'' then (quotedText? rest).map fun (s, rest) ↦ ('\'' :: s, rest)
      else some ([], d :: rest)
    else (quotedText? (d :: rest)).map fun (s, rest) ↦ (c :: s, rest)

def isWordChar (c : Char) : Bool := c.isAlphanum || c == '_'

/-- Reads tokens from a text of at most the given length. A quote that is not closed is no token;
the failure gives the text from there on. -/
def tokensWithin : Nat → List Char → Except String (List Token)
  | _, [] => .ok []
  | 0, cs => .error (String.ofList cs)
  | n + 1, c :: cs =>
    if isSpace c || c == ';' then tokensWithin n cs
    else if c = '?' then (tokensWithin n cs).map (.parameter :: ·)
    else if c = '\'' then
      match quotedText? cs with
      | some (s, rest) => (tokensWithin n rest).map (.quoted (String.ofList s) :: ·)
      | none => .error (String.ofList (c :: cs))
    else if c.isDigit then
      (tokensWithin n (cs.dropWhile Char.isDigit)).map
        (.number (Text.digitsValue (c :: cs.takeWhile Char.isDigit)) :: ·)
    else if isWordChar c then
      (tokensWithin n (cs.dropWhile isWordChar)).map
        (.word (String.ofList (c :: cs.takeWhile isWordChar)) :: ·)
    else (tokensWithin n cs).map (.mark c :: ·)

def tokens (text : List Char) : Except String (List Token) := tokensWithin text.length text

inductive Term
  | given (v : SqlValue)
  | parameter
  deriving DecidableEq, Repr

def keyword? : Token → Option String
  | .word s => some (String.ofList (s.toList.map Char.toUpper))
  | _ => none

def terms? : List Token → Option (List Term)
  | .parameter :: more => rest? .parameter more
  | .quoted s :: more => rest? (.given (.text s)) more
  | .number n :: more => rest? (.given (.integer n)) more
  | .mark '-' :: .number n :: more => rest? (.given (.integer (-n))) more
  | .mark '+' :: .number n :: more => rest? (.given (.integer n)) more
  | .word s :: more => if keyword? (.word s) = some "NULL" then rest? (.given .null) more else none
  | _ => none
where
  rest? (t : Term) : List Token → Option (List Term)
    | [.mark ')'] => some [t]
    | .mark ',' :: more => (terms? more).map (t :: ·)
    | _ => none

def columns? : List Token → Option (List String × List Token)
  | .word s :: .mark ')' :: more => some ([s], more)
  | .word s :: .mark ',' :: more => (columns? more).map fun (names, more) ↦ (s :: names, more)
  | _ => none

inductive Command
  | insert (table : String) (columns : Option (List String)) (terms : List Term)
  | deleteAll (table : String)
  | deleteRow (table : String) (id : Term)
  deriving DecidableEq, Repr

def values? (table : String) (columns : Option (List String)) : List Token → Option Command
  | values :: .mark '(' :: more =>
    if keyword? values = some "VALUES" then (terms? more).map (.insert table columns) else none
  | _ => none

def insert? (table : String) : List Token → Option Command
  | .mark '(' :: more => do
    let (names, more) ← columns? more
    values? table (some names) more
  | more => values? table none more

def delete? (table : String) : List Token → Option Command
  | [] => some (.deleteAll table)
  | condition :: .word column :: .mark '=' :: more =>
    if keyword? condition = some "WHERE" ∧ column = "id" then
      match terms? (more ++ [.mark ')']) with
      | some [id] => some (.deleteRow table id)
      | _ => none
    else none
  | _ => none

def command? : List Token → Option Command
  | verb :: link :: .word table :: more =>
    match keyword? verb, keyword? link with
    | some "INSERT", some "INTO" => insert? table more
    | some "DELETE", some "FROM" => delete? table more
    | _, _ => none
  | _ => none

def fileColumns : List String := ["id", "path", "mtime", "size"]

def reportColumns : List String := ["file", "line", "column", "tool", "message"]

def columnsOf? (table : String) : Option (List String) :=
  if table = "files" then some fileColumns
  else if table = "reports" then some reportColumns
  else none

def Term.value : Term → SqlValue
  | .given v => v
  | .parameter => .null

def arrange (names columns : List String) (terms : List Term) : List SqlValue :=
  names.map fun name ↦ (((columns.zip terms).lookup name).map Term.value).getD .null

structure Prepared where
  query : Query
  isOpen : Bool
  deriving DecidableEq, Repr

def insertQuery? (table : String) : List SqlValue → Option Query
  | [id, path, mtime, size] =>
    if table = "files" then some (.insertFile id path mtime size) else none
  | [file, line, column, tool, message] =>
    if table = "reports" then some (.insertReport file line column tool message) else none
  | _ => none

def prepareInsert (table : String) (names : List String) (columns : Option (List String))
    (terms : List Term) : Except SqlError Prepared := do
  match columns with
  | none =>
    if names.length ≠ terms.length then throw (.columnCount table names.length terms.length)
  | some columns =>
    if let some unknown := columns.find? fun c ↦ !names.contains c then
      throw (.noSuchColumn table unknown)
    if columns.length ≠ terms.length then throw (.valueCount columns.length terms.length)
  match insertQuery? table (arrange names (columns.getD names) terms) with
  | some query => .ok ⟨query, terms.contains .parameter⟩
  | none => .error (.syntaxError table)

def Command.prepare (c : Contents) (command : Command) : Except SqlError Prepared :=
  let table := match command with
    | .insert table .. | .deleteAll table | .deleteRow table _ => table
  match c, columnsOf? table with
  | .unusable e, _ => .error e
  | .blank, _ | .bare, _ | _, none => .error (.noSuchTable table)
  | .tables _, some names =>
    match command with
    | .insert table columns terms => prepareInsert table names columns terms
    | .deleteAll "files" => .ok ⟨.deleteAllFiles, false⟩
    | .deleteRow "files" id => .ok ⟨.deleteFile id.value, id == .parameter⟩
    | .deleteAll _ | .deleteRow .. => .error (.syntaxError table)

def prepare (c : Contents) (text : List Char) : Except SqlError Prepared :=
  match tokens text with
  | .error rest => .error (.unrecognizedToken rest)
  | .ok tokens =>
    match command? tokens with
    | some command => command.prepare c
    | none => .error (.syntaxError (String.ofList (text.take 16)))

def expanded : (inQuotes : Bool) → List Char → List Char
  | _, [] => []
  | inQuotes, c :: rest =>
    if c = '\'' then c :: expanded (!inQuotes) rest
    else if c = '?' ∧ !inQuotes then 'N' :: 'U' :: 'L' :: 'L' :: expanded inQuotes rest
    else c :: expanded inQuotes rest

inductive Failure
  | unprepared (e : SqlError)
  | openParameters (text : String)
  | failed (text : String) (e : SqlError)
  deriving DecidableEq, Repr

def runStatement (a : Access) (text : List Char) (d : Database) :
    Except Failure Unit × Database :=
  match prepare (d.schema a) text with
  | .error e => (.error (.unprepared e), d)
  | .ok prepared =>
    let text := String.ofList (expanded false text)
    if prepared.isOpen then (.error (.openParameters text), d)
    else
      match d.run a prepared.query with
      | (.ok _, d) => (.ok (), d)
      | (.error e, d) => (.error (.failed text e), d)

end FindingStore.Script
