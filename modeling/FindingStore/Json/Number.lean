import FindingStore.Text.Basic

/-!
JSON numbers. A number without sign, fraction and exponent that fits 64 bits is a natural number;
any other must have a value within the range of double precision. The value is computed in two
roundings, that of the leading digits and that of their product with the power of ten.
-/

namespace FindingStore.Json

open Text (digitsValue)

/-- A number as it is written; the exponent carries whether it is negative. -/
structure Numeral where
  negative : Bool
  whole : List Char
  fraction : List Char
  exponent : Option (Bool × List Char)
  deriving Repr

def maxNatural : Nat := 0xFFFFFFFFFFFFFFFF

/-- The nearest natural number with 53 significant bits; a tie goes to the even one. -/
def nearestDouble (n : Nat) : Nat :=
  let unit := 1 <<< (n.log2 + 1 - 53)
  let quotient := n / unit
  let remainder := n % unit
  let up := unit < 2 * remainder || (unit == 2 * remainder && quotient % 2 == 1)
  (if up then quotient + 1 else quotient) * unit

/-- Digits times a power of ten; both factors and the product are rounded. -/
def roundedProduct (significand exponent : Nat) : Nat :=
  nearestDouble (nearestDouble significand * nearestDouble (Nat.pow 10 exponent))

def inDoubleRange (significand : Nat) (exponent : Int) : Bool :=
  match exponent with
  | .negSucc _ => true
  | .ofNat e =>
    significand == 0 || (decide (e ≤ 308) && decide (roundedProduct significand e < 1 <<< 1024))

def takeSignificant (n : Nat) : List Char → Nat × List Char
  | [] => (n, [])
  | d :: ds =>
    let next := n * 10 + digitsValue [d]
    if next ≤ maxNatural then takeSignificant next ds else (n, d :: ds)

/-- Digits of the whole part that no longer fit scale the number, those of the fraction are
dropped. -/
def Numeral.inRange (x : Numeral) : Bool :=
  let (high, unread) := takeSignificant 0 x.whole
  let (significand, dropped) := takeSignificant high x.fraction
  let scale : Int := (unread.length : Int) - ((x.fraction.length - dropped.length : Nat) : Int)
  match x.exponent with
  | none => inDoubleRange significand scale
  | some (down, digits) =>
    let e := digitsValue digits
    if 0x80000000 ≤ e then down || significand == 0
    else inDoubleRange significand (if down then scale - e else scale + e)

inductive Number
  | natural (n : Nat)
  | other
  deriving DecidableEq, Repr

def Numeral.number? (x : Numeral) : Option Number :=
  if !x.negative && x.fraction.isEmpty && x.exponent.isNone &&
      decide (digitsValue x.whole ≤ maxNatural) then
    some (.natural (digitsValue x.whole))
  else if x.inRange then some .other
  else none

def digits? (cs : List Char) : Option (List Char × List Char) :=
  match cs.takeWhile Char.isDigit with
  | [] => none
  | ds => some (ds, cs.dropWhile Char.isDigit)

def whole? : List Char → Option (List Char × List Char)
  | '0' :: rest => some (['0'], rest)
  | cs => digits? cs

def fraction? : List Char → Option (List Char × List Char)
  | '.' :: rest => digits? rest
  | cs => some ([], cs)

def exponentDigits? (down : Bool) (cs : List Char) :
    Option (Option (Bool × List Char) × List Char) :=
  (digits? cs).map fun (ds, rest) ↦ (some (down, ds), rest)

def exponent? : List Char → Option (Option (Bool × List Char) × List Char)
  | [] => some (none, [])
  | c :: rest =>
    if c = 'e' ∨ c = 'E' then
      match rest with
      | '-' :: more => exponentDigits? true more
      | '+' :: more => exponentDigits? false more
      | more => exponentDigits? false more
    else some (none, c :: rest)

def unsigned? (negative : Bool) (cs : List Char) : Option (Numeral × List Char) := do
  let (whole, cs) ← whole? cs
  let (fraction, cs) ← fraction? cs
  let (exponent, cs) ← exponent? cs
  some (⟨negative, whole, fraction, exponent⟩, cs)

def Numeral.read? : List Char → Option (Numeral × List Char)
  | '-' :: rest => unsigned? true rest
  | cs => unsigned? false cs

end FindingStore.Json
