import FindingStore.Json.Number
import FindingStore.Text.Utf8

namespace FindingStore.Json

inductive Token
  | openBrace
  | closeBrace
  | openBracket
  | closeBracket
  | colon
  | comma
  | null
  | bool (b : Bool)
  | number (n : Number)
  | string (s : String)
  deriving DecidableEq, Repr

def isSpace (c : Char) : Bool := c == ' ' || c == '\t' || c == '\n' || c == '\r'

def hexDigit? (c : Char) : Option Nat :=
  if '0' ≤ c ∧ c ≤ '9' then some (c.toNat - '0'.toNat)
  else if 'a' ≤ c ∧ c ≤ 'f' then some (c.toNat - 'a'.toNat + 10)
  else if 'A' ≤ c ∧ c ≤ 'F' then some (c.toNat - 'A'.toNat + 10)
  else none

def hexUnit? (a b c d : Char) : Option Nat := do
  let a ← hexDigit? a
  let b ← hexDigit? b
  let c ← hexDigit? c
  let d ← hexDigit? d
  some (((a * 16 + b) * 16 + c) * 16 + d)

def isHighSurrogate (n : Nat) : Bool := decide (0xD800 ≤ n) && decide (n < 0xDC00)

def isLowSurrogate (n : Nat) : Bool := decide (0xDC00 ≤ n) && decide (n < 0xE000)

def escaped? : Char → Option Char
  | '"' => some '"'
  | '\\' => some '\\'
  | '/' => some '/'
  | 'b' => some '\x08'
  | 'f' => some '\x0c'
  | 'n' => some '\n'
  | 'r' => some '\r'
  | 't' => some '\t'
  | _ => none

/-- Reads a string behind its opening quote, up to and with the closing one. Control characters
must be escaped, and the two halves of a surrogate pair must follow one another. -/
def stringBody? : List Char → Option (List Char × List Char)
  | [] => none
  | c :: rest =>
    if c = '"' then some ([], rest)
    else if c = '\\' then
      match rest with
      | [] => none
      | e :: rest =>
        if e = 'u' then
          match rest with
          | a :: b :: c :: d :: rest =>
            match hexUnit? a b c d with
            | none => none
            | some n =>
              if isHighSurrogate n then
                match rest with
                | x :: y :: a :: b :: c :: d :: rest =>
                  match hexUnit? a b c d with
                  | none => none
                  | some m =>
                    if x = '\\' ∧ y = 'u' ∧ isLowSurrogate m then
                      (stringBody? rest).map fun (s, rest) ↦
                        (Char.ofNat (0x10000 + (n - 0xD800) * 0x400 + (m - 0xDC00)) :: s, rest)
                    else none
                | _ => none
              else if isLowSurrogate n then none
              else (stringBody? rest).map fun (s, rest) ↦ (Char.ofNat n :: s, rest)
          | _ => none
        else
          match escaped? e with
          | none => none
          | some ch => (stringBody? rest).map fun (s, rest) ↦ (ch :: s, rest)
    else if c.toNat < 0x20 then none
    else (stringBody? rest).map fun (s, rest) ↦ (c :: s, rest)

def after? : List Char → List Char → Option (List Char)
  | [], cs => some cs
  | w :: ws, c :: cs => if w = c then after? ws cs else none
  | _ :: _, [] => none

def word? (w : List Char) (t : Token) (cs : List Char) : Option (Token × List Char) :=
  (after? w cs).map fun rest ↦ (t, rest)

def number? (cs : List Char) : Option (Token × List Char) := do
  let (numeral, rest) ← Numeral.read? cs
  let n ← numeral.number?
  some (.number n, rest)

def Token.read? (c : Char) (rest : List Char) : Option (Token × List Char) :=
  match c with
  | '{' => some (.openBrace, rest)
  | '}' => some (.closeBrace, rest)
  | '[' => some (.openBracket, rest)
  | ']' => some (.closeBracket, rest)
  | ':' => some (.colon, rest)
  | ',' => some (.comma, rest)
  | '"' => (stringBody? rest).map fun (s, rest) ↦ (.string (String.ofList s), rest)
  | 'n' => word? ['u', 'l', 'l'] .null rest
  | 't' => word? ['r', 'u', 'e'] (.bool true) rest
  | 'f' => word? ['a', 'l', 's', 'e'] (.bool false) rest
  | c => if c = '-' ∨ c.isDigit then number? (c :: rest) else none

structure Lexed where
  tokens : List Token
  unread : Option (List Char)
  deriving Repr

def lexWithin : Nat → List Char → Lexed
  | _, [] => ⟨[], none⟩
  | 0, cs => ⟨[], some cs⟩
  | n + 1, c :: cs =>
    if isSpace c then lexWithin n cs
    else
      match Token.read? c cs with
      | none => ⟨[], some (c :: cs)⟩
      | some (t, rest) =>
        let more := lexWithin n rest
        ⟨t :: more.tokens, more.unread⟩

def lex (cs : List Char) : Lexed := lexWithin cs.length cs

end FindingStore.Json
