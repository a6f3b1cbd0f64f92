import FindingStore.Path

namespace FindingStore

inductive Command
  | init (db : Option Path)
  | report (db : Option Path) (source json : Bool)
  | patch (db : Option Path) (tool : String) (rewrites : List String) (dryRun : Bool)
  | ingest (db : Option Path) (log : Path) (marks : List Path)
  | prune (db : Option Path)
  deriving DecidableEq, Repr

inductive Request
  | version
  | help
  | run (verbose : Bool) (command : Command)
  deriving DecidableEq, Repr

namespace Arguments

inductive Kind
  | flag
  | text
  | path
  deriving DecidableEq, Repr

structure Switch where
  name : String
  letter : Option Char := none
  kind : Kind := .flag
  repeatable : Bool := false
  deriving DecidableEq, Repr

/-- Options that were given, with their values; a flag has an empty one. -/
abbrev Given := List (String × Bytes)

inductive Shape
  | separator
  | long (name : String) (value : Option Bytes)
  /-- Letters behind one dash; none in the place of bytes that are no letter. -/
  | letters (cs : List (Option Char))
  | plain
  | unreadable
  deriving DecidableEq, Repr

def dash : UInt8 := 0x2D

def equals : UInt8 := 0x3D

def shape : Bytes → Shape
  | a :: b :: rest =>
    if a = dash then
      if b = dash then
        if rest.isEmpty then .separator
        else
          match Utf8.decode? (rest.takeWhile (· != equals)), rest.dropWhile (· != equals) with
          | none, _ => .unreadable
          | some name, [] => .long name none
          | some name, _ :: value => .long name (some value)
      else .letters ((Utf8.pieces (b :: rest)).map Utf8.Piece.char?)
    else .plain
  | _ => .plain

def isValue (arg : Bytes) : Bool := shape arg == .plain

def Kind.accepts : Kind → Bytes → Bool
  | .flag, v => v.isEmpty
  | .text, v => (Utf8.decode? v).isSome
  | .path, v => !v.isEmpty

def add? (given : Given) (o : Switch) (value : Bytes) : Option Given :=
  if !o.repeatable && given.any (·.1 == o.name) then none
  else if o.kind.accepts value then some (given ++ [(o.name, value)])
  else none

def addLetters? (options : List Switch) : Given → List (Option Char) → Option Given
  | given, [] => some given
  | given, c :: cs => do
    let letter ← c
    let o ← options.find? (·.letter == some letter)
    let given ← add? given o []
    addLetters? options given cs

def options? (options : List Switch) : Given → List Bytes → Option Given
  | given, [] => some given
  | given, arg :: rest =>
    match shape arg with
    | .separator => if rest.isEmpty then some given else none
    | .plain | .unreadable => none
    | .letters cs =>
      match addLetters? options given cs with
      | none => none
      | some given => options? options given rest
    | .long name value =>
      match options.find? (·.name == name) with
      | none => none
      | some o =>
        match o.kind, value, rest with
        | .flag, some _, _ => none
        | .flag, none, rest =>
          match add? given o [] with
          | none => none
          | some given => options? options given rest
        | _, some value, rest =>
          match add? given o value with
          | none => none
          | some given => options? options given rest
        | _, none, value :: rest =>
          if isValue value then
            match add? given o value with
            | none => none
            | some given => options? options given rest
          else none
        | _, none, [] => none

def verbose : Switch := { name := "verbose", letter := some 'v' }

def db : Switch := { name := "db", kind := .path }

def optionsOf? : String → Option (List Switch)
  | "init" => some [verbose, db]
  | "report" => some [verbose, db, { name := "source" }, { name := "json" }]
  | "patch" => some [verbose, db, { name := "tool", kind := .text },
      { name := "rewrite", kind := .text, repeatable := true },
      { name := "dry-run", letter := some 'n' }]
  | "import" => some [verbose, db, { name := "sarif", kind := .path },
      { name := "mark", kind := .path, repeatable := true }]
  | "prune" => some [verbose, db]
  | _ => none

def Given.has (given : Given) (name : String) : Bool := given.any (·.1 == name)

def Given.values (given : Given) (name : String) : List Bytes :=
  (given.filter (·.1 == name)).map (·.2)

def Given.texts (given : Given) (name : String) : List String :=
  (given.values name).filterMap Utf8.decode?

def command? (name : String) (given : Given) : Option Command :=
  let db := given.lookup "db"
  match name with
  | "init" => some (.init db)
  | "report" =>
    if given.has "source" && given.has "json" then none
    else some (.report db (given.has "source") (given.has "json"))
  | "patch" =>
    match given.texts "tool", given.texts "rewrite" with
    | tool :: _, rule :: rules => some (.patch db tool (rule :: rules) (given.has "dry-run"))
    | _, _ => none
  | "import" => (given.lookup "sarif").map fun log ↦ .ingest db log (given.values "mark")
  | "prune" => some (.prune db)
  | _ => none

def request? (isVerbose : Bool) (name : Bytes) (args : List Bytes) : Option Request := do
  let name ← Utf8.decode? name
  if name = "help" then some .help
  else
    let options ← optionsOf? name
    let given ← options? options [] args
    let command ← command? name given
    some (.run (isVerbose || given.has verbose.name) command)

inductive Leading
  | verbose
  | version
  | help
  deriving DecidableEq, Repr

def leadingName? : String → Option Leading
  | "verbose" => some .verbose
  | "version" => some .version
  | "help" => some .help
  | _ => none

def leadingLetter? : Char → Option Leading
  | 'v' => some .verbose
  | 'V' => some .version
  | 'h' => some .help
  | _ => none

def leading? : Bool → List (Option Leading) → Option (Bool ⊕ Request)
  | isVerbose, [] => some (.inl isVerbose)
  | isVerbose, flag :: rest =>
    match flag with
    | none => none
    | some .version => some (.inr .version)
    | some .help => some (.inr .help)
    | some .verbose => if isVerbose then none else leading? true rest

def parse? : Bool → List Bytes → Option Request
  | _, [] => none
  | isVerbose, arg :: rest =>
    let flags? := match shape arg with
      | .letters cs => some (cs.map (·.bind leadingLetter?))
      | .long name none => some [leadingName? name]
      | _ => none
    match shape arg, flags? with
    | .plain, _ => request? isVerbose arg rest
    | _, none => none
    | _, some flags =>
      match leading? isVerbose flags with
      | none => none
      | some (.inr request) => some request
      | some (.inl isVerbose) => parse? isVerbose rest

end Arguments

end FindingStore
