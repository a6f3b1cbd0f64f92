import FindingStore.Path

namespace FindingStore

/-- The names that lead from the root to an entry; the root itself has none. -/
abbrev Location := List Bytes

def Location.toPath (l : Location) : Path :=
  if l.isEmpty then [Path.slash] else l.flatMap (Path.slash :: ·)

structure Timestamp where
  seconds : Int := 0
  nanoseconds : Nat := 0
  deriving DecidableEq, Repr

/-- Whole seconds, rounded toward zero. -/
def Timestamp.wholeSeconds (t : Timestamp) : Int :=
  Int.tdiv (t.seconds * 1000000000 + t.nanoseconds) 1000000000

structure File where
  content : Bytes := []
  modified : Timestamp
  mode : Nat
  database : Option Nat := none
  log : Option Nat := none
  /-- Whether the content has been replaced since somebody last took care of the database or log. -/
  isRewritten : Bool := false
  deriving DecidableEq, Repr

def File.isReadable (f : File) : Bool := f.mode.testBit 8

def File.isWritable (f : File) : Bool := f.mode.testBit 7

/-- What a directory has apart from the entries in it. Its permissions keep nobody out. -/
structure Directory where
  modified : Timestamp := {}
  mode : Nat := 0o755
  deriving DecidableEq, Repr

instance : Coe Timestamp Directory := ⟨fun modified ↦ { modified }⟩

inductive Entry
  | directory (directory : Directory)
  | file (file : File)
  | link (target : Path)
  deriving DecidableEq, Repr

def Entry.mode : Entry → Nat
  | .directory d => d.mode
  | .file f => f.mode
  | .link _ => 0o777

inductive IoError
  | notFound
  | notADirectory
  | isADirectory
  | tooManyLinks
  | nameTooLong
  | alreadyExists
  | notEmpty
  | invalidArgument
  | busy
  | permissionDenied
  | nulInName
  | notText
  deriving DecidableEq, Repr

def IoError.message : IoError → String
  | .notFound => "No such file or directory (os error 2)"
  | .notADirectory => "Not a directory (os error 20)"
  | .isADirectory => "Is a directory (os error 21)"
  | .tooManyLinks => "Too many levels of symbolic links (os error 40)"
  | .nameTooLong => "File name too long (os error 36)"
  | .alreadyExists => "File exists (os error 17)"
  | .notEmpty => "Directory not empty (os error 39)"
  | .invalidArgument => "Invalid argument (os error 22)"
  | .busy => "Device or resource busy (os error 16)"
  | .permissionDenied => "Permission denied (os error 13)"
  | .nulInName => "file name contained an unexpected NUL byte"
  | .notText => "stream did not contain valid UTF-8"

structure FileSystem where
  entries : List (Location × Entry) := []
  workingDirectory : Location := []
  now : Timestamp := {}
  deriving Repr

namespace FileSystem

def lookup (fs : FileSystem) (l : Location) : Option Entry :=
  if l = [] then some (.directory {}) else fs.entries.lookup l

def isDirectory (fs : FileSystem) (l : Location) : Bool :=
  match fs.lookup l with
  | some (.directory _) => true
  | _ => false

def insert (fs : FileSystem) (l : Location) (e : Entry) : FileSystem :=
  { fs with entries := (l, e) :: fs.entries.filter (·.1 != l) }

def erase (fs : FileSystem) (l : Location) : FileSystem :=
  { fs with entries := fs.entries.filter (·.1 != l) }

def eraseTree (fs : FileSystem) (l : Location) : FileSystem :=
  { fs with entries := fs.entries.filter fun e ↦ !l.isPrefixOf e.1 }

def touchDirectory (fs : FileSystem) (l : Location) : FileSystem :=
  match fs.lookup l with
  | some (.directory d) =>
    if l.isEmpty then fs else fs.insert l (.directory { d with modified := fs.now })
  | _ => fs

def addEntry (fs : FileSystem) (l : Location) (e : Entry) : FileSystem :=
  (fs.insert l e).touchDirectory l.dropLast

def findFile? (fs : FileSystem) (p : File → Bool) : Option (Location × File) :=
  fs.entries.findSome? fun
    | (l, .file f) => if p f then some (l, f) else none
    | _ => none

def databaseFile? (fs : FileSystem) (n : Nat) : Option (Location × File) :=
  fs.findFile? fun f ↦ f.database == some n

def dropEntry (fs : FileSystem) (l : Location) : FileSystem :=
  (fs.eraseTree l).touchDirectory l.dropLast

def below (fs : FileSystem) (l : Location) : List (Location × Entry) :=
  fs.entries.filterMap fun (k, e) ↦
    if l.isPrefixOf k && k != l then some (k.drop l.length, e) else none

def children (fs : FileSystem) (l : Location) : List Bytes :=
  (fs.below l).filterMap fun
    | ([name], _) => some name
    | _ => none

section Lookup

variable (fs : FileSystem)

theorem lookup_root : fs.lookup [] = some (.directory {}) := if_pos rfl

theorem lookup_filter_of_kept (keep : Location → Bool) {l : Location} (h : keep l = true)
    (entries : List (Location × Entry)) :
    (entries.filter fun e ↦ keep e.1).lookup l = entries.lookup l := by
  induction entries with
  | nil => rfl
  | cons e rest ih =>
    obtain ⟨k, e⟩ := e
    by_cases hk : l = k
    · subst hk
      simp [h]
    · have hk : (l == k) = false := beq_eq_false_iff_ne.2 hk
      cases hkeep : keep k <;> simp [hkeep, List.lookup_cons, hk, ih]

theorem lookup_filter_of_dropped (keep : Location → Bool) {l : Location} (h : keep l = false)
    (entries : List (Location × Entry)) :
    (entries.filter fun e ↦ keep e.1).lookup l = none := by
  induction entries with
  | nil => rfl
  | cons e rest ih =>
    obtain ⟨k, e⟩ := e
    by_cases hk : l = k
    · subst hk
      simpa [h] using ih
    · have hk : (l == k) = false := beq_eq_false_iff_ne.2 hk
      cases hkeep : keep k <;> simp [hkeep, List.lookup_cons, hk, ih]

theorem lookup_insert_self {l : Location} (hl : l ≠ []) (e : Entry) :
    (fs.insert l e).lookup l = some e := by
  simp [lookup, insert, hl]

theorem lookup_insert_of_ne {k l : Location} (h : k ≠ l) (e : Entry) :
    (fs.insert l e).lookup k = fs.lookup k := by
  have hk : (k == l) = false := by simpa using h
  simp only [lookup, insert, List.lookup_cons, hk,
    lookup_filter_of_kept (fun n ↦ n != l) (bne_iff_ne.2 h) fs.entries]

theorem lookup_touchDirectory_of_ne {k l : Location} (h : k ≠ l) :
    (fs.touchDirectory l).lookup k = fs.lookup k := by
  unfold touchDirectory
  split
  · split
    · rfl
    · exact fs.lookup_insert_of_ne h _
  · rfl

theorem ne_dropLast {l : Location} (hl : l ≠ []) : l ≠ l.dropLast := fun h ↦ by
  have hlength := congrArg List.length h
  have hpos := List.length_pos_iff.2 hl
  rw [List.length_dropLast] at hlength
  omega

theorem lookup_addEntry_self {l : Location} (hl : l ≠ []) (e : Entry) :
    (fs.addEntry l e).lookup l = some e :=
  (lookup_touchDirectory_of_ne _ (ne_dropLast hl)).trans (fs.lookup_insert_self hl e)

theorem lookup_addEntry_of_ne {k l : Location} (h : k ≠ l) (hp : k ≠ l.dropLast) (e : Entry) :
    (fs.addEntry l e).lookup k = fs.lookup k :=
  (lookup_touchDirectory_of_ne _ hp).trans (fs.lookup_insert_of_ne h e)

end Lookup

end FileSystem

end FindingStore
