namespace FindingStore.Json

inductive Value
  | null
  | bool (b : Bool)
  | natural (n : Nat)
  | otherNumber
  | string (s : String)
  | array (items : List Value)
  | object (fields : List (String × Value))
  deriving Repr, Inhabited

/-- Of several fields with one key the last counts. -/
def Value.field? (key : String) : Value → Option Value
  | .object fields => (fields.reverse.find? (·.1 == key)).map (·.2)
  | _ => none

def Value.items? : Value → Option (List Value)
  | .array items => some items
  | _ => none

def Value.text? : Value → Option String
  | .string s => some s
  | _ => none

def Value.natural? : Value → Option Nat
  | .natural n => some n
  | _ => none

def hexChar (n : Nat) : Char := if n < 10 then Char.ofNat (48 + n) else Char.ofNat (87 + n)

def escapeChar (c : Char) : List Char :=
  match c with
  | '"' => ['\\', '"']
  | '\\' => ['\\', '\\']
  | '\x08' => ['\\', 'b']
  | '\x0c' => ['\\', 'f']
  | '\n' => ['\\', 'n']
  | '\r' => ['\\', 'r']
  | '\t' => ['\\', 't']
  | c =>
    if c.toNat < 0x20 then ['\\', 'u', '0', '0', hexChar (c.toNat / 16), hexChar (c.toNat % 16)]
    else [c]

inductive Atom
  | integer (n : Int)
  | string (s : String)
  deriving DecidableEq, Repr

def stringChars (s : String) : List Char := '"' :: s.toList.flatMap escapeChar ++ ['"']

def Atom.chars : Atom → List Char
  | .integer n => (toString n).toList
  | .string s => stringChars s

def fieldChars (field : String × Atom) : List Char :=
  stringChars field.1 ++ ':' :: field.2.chars

def writeObject (fields : List (String × Atom)) : String :=
  String.ofList ('{' :: List.intercalate [','] (fields.map fieldChars) ++ ['}'])

end FindingStore.Json
