/-!
Text as bytes. A byte string falls into pieces: encoded characters, and longest beginnings of a
character that the next byte does not continue. Showing a byte string puts the replacement
character in the place of each broken piece; reading it as text asks for no broken piece at all.
-/

namespace FindingStore

abbrev Bytes := List UInt8

namespace Utf8

def ofChars (cs : List Char) : Bytes := cs.flatMap String.utf8EncodeChar

def encode (s : String) : Bytes := ofChars s.toList

inductive Piece
  | scalar (c : Char)
  | broken (bytes : Bytes)
  deriving DecidableEq, Repr

/-- A character whose first bytes have been read; the next byte must lie within the bounds. -/
structure Pending where
  taken : Bytes
  value : Nat
  missing : Nat
  low : Nat
  high : Nat
  deriving DecidableEq, Repr

/-- The first byte of a character fixes its length, and it bounds the second byte so that no
character has two encodings, none is a surrogate and none lies above the last code point. -/
def start (b : UInt8) : List Piece × Option Pending :=
  let n := b.toNat
  if n < 0x80 then ([.scalar (Char.ofNat n)], none)
  else if n < 0xC2 then ([.broken [b]], none)
  else if n < 0xE0 then ([], some ⟨[b], n - 0xC0, 1, 0x80, 0xBF⟩)
  else if n < 0xF0 then
    ([], some ⟨[b], n - 0xE0, 2, if n = 0xE0 then 0xA0 else 0x80, if n = 0xED then 0x9F else 0xBF⟩)
  else if n < 0xF5 then
    ([], some ⟨[b], n - 0xF0, 3, if n = 0xF0 then 0x90 else 0x80, if n = 0xF4 then 0x8F else 0xBF⟩)
  else ([.broken [b]], none)

def Pending.accepts (p : Pending) (b : UInt8) : Bool :=
  decide (p.low ≤ b.toNat) && decide (b.toNat ≤ p.high)

def Pending.advance (p : Pending) (b : UInt8) : List Piece × Option Pending :=
  let value := p.value * 64 + (b.toNat - 0x80)
  if p.missing ≤ 1 then ([.scalar (Char.ofNat value)], none)
  else ([], some ⟨p.taken ++ [b], value, p.missing - 1, 0x80, 0xBF⟩)

def step (s : Option Pending) (b : UInt8) : List Piece × Option Pending :=
  match s with
  | none => start b
  | some p =>
    if p.accepts b then p.advance b
    else (.broken p.taken :: (start b).1, (start b).2)

def finish : Option Pending → List Piece
  | none => []
  | some p => [.broken p.taken]

def piecesFrom : Option Pending → Bytes → List Piece
  | s, [] => finish s
  | s, b :: bs => (step s b).1 ++ piecesFrom (step s b).2 bs

def pieces (bs : Bytes) : List Piece := piecesFrom none bs

def Piece.bytes : Piece → Bytes
  | .scalar c => String.utf8EncodeChar c
  | .broken bs => bs

def Piece.shown : Piece → Char
  | .scalar c => c
  | .broken _ => '\uFFFD'

def Piece.char? : Piece → Option Char
  | .scalar c => some c
  | .broken _ => none

def shownChars (bs : Bytes) : List Char := (pieces bs).map Piece.shown

def decodeLossy (bs : Bytes) : String := String.ofList (shownChars bs)

def decode? (bs : Bytes) : Option String := ((pieces bs).mapM Piece.char?).map String.ofList

/-- Where a byte string stops being text, and how many bytes are wrong there; none if it ends within
a character. -/
structure Flaw where
  position : Nat
  length : Option Nat
  deriving DecidableEq, Repr

def Flaw.message (f : Flaw) : String :=
  match f.length with
  | none => s!"incomplete utf-8 byte sequence from index {f.position}"
  | some length => s!"invalid utf-8 sequence of {length} bytes from index {f.position}"

def flawFrom (position : Nat) : List Piece → Flaw
  | [] => ⟨position, none⟩
  | .scalar c :: rest => flawFrom (position + (String.utf8EncodeChar c).length) rest
  | .broken bs :: rest =>
    let isCutOff := rest.isEmpty && bs.head?.any fun b ↦ (start b).2.isSome
    ⟨position, if isCutOff then none else some bs.length⟩

def flaw (bs : Bytes) : Flaw := flawFrom 0 (pieces bs)

end Utf8

def textLe (a b : String) : Bool := decide (Utf8.encode a ≤ Utf8.encode b)

end FindingStore
