import FindingStore.Database.Error

namespace FindingStore

inductive Data
  | text (s : String)
  /-- A text that is not encoded as one. -/
  | garbled (bytes : { bytes : Bytes // Utf8.decode? bytes = none })
  | blob (bytes : Bytes)
  deriving DecidableEq, Repr

namespace Data

instance : Coe String Data := ⟨text⟩

def bytes : Data → Bytes
  | .text s => Utf8.encode s
  | .garbled bytes => bytes
  | .blob bytes => bytes

def isBlob : Data → Bool
  | .blob _ => true
  | _ => false

def storageClass (d : Data) : StorageClass := if d.isBlob then .blob else .text

def le (a b : Data) : Bool :=
  !a.isBlob && b.isBlob || a.isBlob == b.isBlob && decide (a.bytes ≤ b.bytes)

def text? (index : Nat) (column : String) : Data → Except SqlError String
  | .text s => .ok s
  | .garbled bytes => .error (.notText (Utf8.flaw bytes) index)
  | .blob _ => .error (.wrongClass .blob index column)

end Data

/-- A value in a column for integers, where a real number that equals one is stored as one. -/
inductive Cell
  | integer (n : Int)
  | real (bits : UInt64)
  | data (d : Data)
  deriving DecidableEq, Repr

namespace Cell

instance : Coe Int Cell := ⟨integer⟩

/-- The largest 32-bit number, up to which a line or column can be read. -/
def maxCoordinate : Int := 0xFFFFFFFF

def integer? (index : Nat) (column : String) : Cell → Except SqlError Int
  | .integer n => .ok n
  | .real _ => .error (.wrongClass .real index column)
  | .data d => .error (.wrongClass d.storageClass index column)

def coordinate? (index : Nat) (column : String) (cell : Cell) : Except SqlError Nat := do
  let n ← cell.integer? index column
  if 0 ≤ n ∧ n ≤ maxCoordinate then .ok n.toNat else .error (.outOfRange n index)

end Cell

end FindingStore
