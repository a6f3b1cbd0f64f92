import FindingStore.Json.Token
import FindingStore.Json.Value

namespace FindingStore.Json

inductive Frame
  | array (before : List Value)
  | object (before : List (String × Value)) (key : String)
  deriving Repr

/-- What has been read inside the open frames, and so what may follow. -/
inductive State
  | value (stack : List Frame)
  | arrayStart (stack : List Frame)
  | objectStart (stack : List Frame)
  | key (before : List (String × Value)) (stack : List Frame)
  | colon (before : List (String × Value)) (key : String) (stack : List Frame)
  | complete (v : Value) (stack : List Frame)
  deriving Repr

/-- Arrays and objects nest at most this deep. -/
def maxDepth : Nat := 127

def beginValue (stack : List Frame) : Token → Option State
  | .openBrace => if stack.length < maxDepth then some (.objectStart stack) else none
  | .openBracket => if stack.length < maxDepth then some (.arrayStart stack) else none
  | .null => some (.complete .null stack)
  | .bool b => some (.complete (.bool b) stack)
  | .number (.natural n) => some (.complete (.natural n) stack)
  | .number .other => some (.complete .otherNumber stack)
  | .string s => some (.complete (.string s) stack)
  | _ => none

def State.next? : State → Token → Option State
  | .value stack, t => beginValue stack t
  | .arrayStart stack, .closeBracket => some (.complete (.array []) stack)
  | .arrayStart stack, t => beginValue (.array [] :: stack) t
  | .objectStart stack, .closeBrace => some (.complete (.object []) stack)
  | .objectStart stack, .string k => some (.colon [] k stack)
  | .key before stack, .string k => some (.colon before k stack)
  | .colon before k stack, .colon => some (.value (.object before k :: stack))
  | .complete v (.array before :: stack), .comma =>
    some (.value (.array (before ++ [v]) :: stack))
  | .complete v (.array before :: stack), .closeBracket =>
    some (.complete (.array (before ++ [v])) stack)
  | .complete v (.object before k :: stack), .comma => some (.key (before ++ [(k, v)]) stack)
  | .complete v (.object before k :: stack), .closeBrace =>
    some (.complete (.object (before ++ [(k, v)])) stack)
  | _, _ => none

def State.run? (s : State) (ts : List Token) : Option State := ts.foldlM State.next? s

structure Place where
  line : Nat
  column : Nat
  deriving DecidableEq, Repr

def Place.behind (cs : List Char) : Place :=
  ⟨1 + cs.count '\n', (Utf8.ofChars (cs.reverse.takeWhile (· != '\n'))).length⟩

inductive ReadError
  | endOfText (place : Place)
  | noValue (place : Place)
  | malformed (place : Place)
  deriving DecidableEq, Repr

def ReadError.message : ReadError → String
  | .endOfText p => s!"EOF while parsing a value at line {p.line} column {p.column}"
  | .noValue p => s!"expected value at line {p.line} column {p.column + 1}"
  | .malformed p => s!"malformed JSON at line {p.line} column {p.column}"

def read (source : String) : Except ReadError Value :=
  let cs := source.toList
  let lexed := lex cs
  match lexed.unread, State.run? (.value []) lexed.tokens with
  | none, some (.complete v []) => .ok v
  | none, some _ => .error (.endOfText (.behind cs))
  | some unread, some (.value _) =>
    .error (.noValue (.behind (cs.take (cs.length - unread.length))))
  | _, _ => .error (.malformed (.behind cs))

end FindingStore.Json
