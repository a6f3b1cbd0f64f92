import FindingStore.Database.Access
import FindingStore.Text.Basic

namespace FindingStore

/-- What may be done with a database file: it is only read, it is written, or it is even created;
or there is no file, because the database lies in memory. -/
inductive AccessMode
  | readOnly
  | readWrite
  | create
  | memory
  deriving DecidableEq, Repr

namespace AccessMode

def rank : AccessMode → Nat
  | .readOnly => 0
  | .readWrite => 1
  | .create => 2
  | .memory => 3

def allows (current asked : AccessMode) : Bool :=
  asked == .memory || decide (asked.rank ≤ current.rank)

def ofName? (name : Bytes) : Option AccessMode :=
  [("ro", readOnly), ("rw", readWrite), ("rwc", create), ("memory", memory)].findSome?
    fun (s, mode) ↦ if Path.ofText s = name then some mode else none

end AccessMode

structure Address where
  path : Path
  mode : AccessMode
  shared : Bool := false
  layer : FileLayer := .standard
  ignoresLocks : Bool := false
  isFrozen : Bool := false
  deriving DecidableEq, Repr

inductive AddressError
  | authority (name : Bytes)
  | accessMode (name : Bytes)
  | forbidden (name : Bytes)
  | cacheMode (name : Bytes)
  | fileLayer (name : Bytes)
  deriving DecidableEq, Repr

namespace AddressError

def message : AddressError → String
  | .authority name => s!"invalid uri authority: {Path.display name}"
  | .accessMode name => s!"no such access mode: {Path.display name}"
  | .forbidden name => s!"access mode not allowed: {Path.display name}"
  | .cacheMode name => s!"no such cache mode: {Path.display name}"
  | .fileLayer name => s!"no such vfs: {Path.display name}"

def code : AddressError → Int
  | .forbidden _ => 3
  | _ => 1

end AddressError

namespace Address

def percent : UInt8 := 0x25

def hexDigit? (b : UInt8) : Option UInt8 :=
  if 0x30 ≤ b ∧ b ≤ 0x39 then some (b - 0x30)
  else if 0x41 ≤ b ∧ b ≤ 0x46 then some (b - 0x37)
  else if 0x61 ≤ b ∧ b ≤ 0x66 then some (b - 0x57)
  else none

/-- Replaces a percent sign and two hexadecimal digits by the byte that they give. A byte zero
that is given so ends the text. -/
def decode : Bytes → Bytes
  | a :: b :: c :: rest =>
    match (if a = percent then hexDigit? b else none), hexDigit? c with
    | some high, some low =>
      if high = 0 ∧ low = 0 then [] else (high * 16 + low) :: decode rest
    | _, _ => a :: decode (b :: c :: rest)
  | short => short

def cut (b : UInt8) (text : Bytes) : Bytes × Bytes :=
  (text.takeWhile (· != b), (text.dropWhile (· != b)).drop 1)

def ampersand : UInt8 := 0x26

def question : UInt8 := 0x3F

def hash : UInt8 := 0x23

def equals : UInt8 := 0x3D

def options (query : Bytes) : List (Bytes × Bytes) :=
  ((query.splitOn ampersand).map fun option ↦
    let (name, value) := cut equals option
    (decode name, decode value)).filter fun option ↦ !option.1.isEmpty

def adjust (a : Address) (name value : Bytes) : Except AddressError Address :=
  if name = Path.ofText "mode" then
    match AccessMode.ofName? value with
    | none => .error (.accessMode value)
    | some mode => if a.mode.allows mode then .ok { a with mode } else .error (.forbidden value)
  else if name = Path.ofText "cache" then
    if value = Path.ofText "shared" then .ok { a with shared := true }
    else if value = Path.ofText "private" then .ok { a with shared := false }
    else .error (.cacheMode value)
  else .ok a

def fileLayer? (name : Bytes) : Option FileLayer :=
  [("unix", .standard), ("unix-none", .unlocked), ("unix-dotfile", .lockDirectory),
    ("unix-excl", .exclusive), ("memdb", .memory)].findSome?
    fun (s, layer) ↦ if Path.ofText s = name then some layer else none

def layerOf (options : List (Bytes × Bytes)) : Except AddressError FileLayer :=
  match options.reverse.lookup (Path.ofText "vfs") with
  | none => .ok .standard
  | some name =>
    match fileLayer? name with
    | some layer => .ok layer
    | none => .error (.fileLayer name)

def maxNumber : Nat := 0x7FFFFFFF

/-- Whether a value stands for yes. Of a number only the lowest byte counts. -/
def isYes (value : Bytes) : Bool :=
  let letters := (Utf8.shownChars value).map Char.toLower
  match letters.takeWhile Char.isDigit with
  | [] => ["on", "yes", "true"].any fun word ↦ word.toList == letters
  | digits =>
    let n := Text.digitsValue digits
    decide (n ≤ maxNumber) && n % 0x100 != 0

def isOn (options : List (Bytes × Bytes)) (name : String) : Bool :=
  ((options.lookup (Path.ofText name)).map isYes).getD false

def guard (a : Address) (options : List (Bytes × Bytes)) : Except AddressError Address := do
  let layer ← layerOf options
  .ok
    { a with
      layer
      ignoresLocks := isOn options "nolock"
      isFrozen := isOn options "immutable" }

def scheme : Bytes := Path.ofText "file:"

def afterAuthority (body : Bytes) : Except AddressError Bytes :=
  match body with
  | a :: b :: rest =>
    if a = Path.slash ∧ b = Path.slash then
      let name := rest.takeWhile (· != Path.slash)
      if name.isEmpty || name == Path.ofText "localhost" then .ok (rest.drop name.length)
      else .error (.authority name)
    else .ok body
  | _ => .ok body

def parse (mode : AccessMode) (p : Path) : Except AddressError Address :=
  if scheme.isPrefixOf p then do
    let body ← afterAuthority (p.drop scheme.length)
    let (path, query) := cut question (cut hash body).1
    let options := options query
    let address ← options.foldlM (fun a (name, value) ↦ a.adjust name value)
      ({ path := decode path, mode } : Address)
    address.guard options
  else .ok { path := p, mode }

theorem parse_of_not_scheme {mode : AccessMode} {p : Path} (h : scheme.isPrefixOf p = false) :
    parse mode p = .ok { path := p, mode } := by
  simp [parse, h]

def inMemory : Path := Path.ofText ":memory:"

def isInMemory (a : Address) : Bool := a.mode == .memory || a.path == inMemory

end Address

end FindingStore
