import FindingStore.FileSystem.Replace
import FindingStore.LineBuffer
import FindingStore.Replay
import FindingStore.Text.Basic

/-!
Rewriting identifiers at the places that a tool reported. All patches are made in memory first;
files are written only if every finding of the tool could be patched and no path was missing.
-/

namespace FindingStore

def LineBuffer.read (fs : FileSystem) (p : Path) : Except IoError LineBuffer :=
  (fs.read p).map LineBuffer.ofBytes

def LineBuffer.write (b : LineBuffer) (device : FileSystem.Device) (fs : FileSystem) (p : Path) :
    Except IoError Unit × FileSystem :=
  fs.replaceFile device p (b.lines.map (· ++ [newline]))

namespace Rewrite

/-- The identifier named by a message: what stands before the first parenthesis. -/
def identifier (message : String) : String :=
  Text.trim (String.ofList (message.toList.takeWhile (· != '(')))

/-- Old names with their new names; of two rules for one name the last counts. -/
structure Rules where
  pairs : List (String × String) := []
  deriving DecidableEq, Repr

structure RuleError where
  pair : String
  deriving DecidableEq, Repr

def RuleError.message (e : RuleError) : String := s!"rewrite rule must be OLD=NEW: {e.pair}"

/-- A pair is split at its first equality sign, and both sides must hold more than blanks. -/
def parseRule (pair : String) : Except RuleError (String × String) :=
  let cs := pair.toList
  match cs.dropWhile (· != '=') with
  | [] => .error ⟨pair⟩
  | _ :: right =>
    let old := Text.trimChars (cs.takeWhile (· != '='))
    let new := Text.trimChars right
    if old.isEmpty || new.isEmpty then .error ⟨pair⟩
    else .ok (String.ofList old, String.ofList new)

def Rules.parse (pairs : List String) : Except RuleError Rules :=
  (pairs.mapM parseRule).map Rules.mk

def Rules.get? (rules : Rules) (old : String) : Option String :=
  (rules.pairs.reverse.find? (·.1 == old)).map (·.2)

inductive FailureReason
  | unreadable (e : IoError)
  | noRule (name : String)
  | patch (e : PatchError)
  deriving DecidableEq, Repr

def FailureReason.message : FailureReason → String
  | .unreadable e => s!"could not read file: {e.message}"
  | .noRule name => s!"no rewrite rule for '{name}'"
  | .patch e => e.message

structure Failure where
  finding : Finding
  reason : FailureReason
  sourceLine : Option Bytes
  deriving DecidableEq, Repr

def nameOf (f : Finding) : String := identifier f.message

def Failure.width (f : Failure) : Nat := (Utf8.encode (nameOf f.finding)).length

structure Summary where
  applied : Nat := 0
  failures : List Failure := []
  /-- Whether every stored path was found and had a matching report. -/
  clean : Bool := true
  written : List String := []
  deriving DecidableEq, Repr

def Summary.succeeded (s : Summary) : Bool := s.clean && s.failures.isEmpty

def collect (s : Store) (w : World) (tool : String) : Except StoreError (List Finding × Bool) :=
  let scan := Replay.scan s w (β := List Finding)
    (fun found f ↦ (if f.tool = tool then found ++ [f] else found, .proceed)) []
  match scan.failure with
  | some e => .error e
  | none => .ok (scan.state, scan.clean)

/-- Last position first, so that a replacement never shifts a place that is still to be
patched. -/
def laterFirst (a b : Finding) : Bool :=
  decide (b.line < a.line) || (b.line == a.line && decide (b.column ≤ a.column))

def byPath (found : List Finding) : List (String × List Finding) :=
  (Order.sortBy textLe (Order.firstOccurrences (found.map Finding.path))).map fun path ↦
    (path, Order.sortBy laterFirst (found.filter (·.path == path)))

def patchFinding (rules : Rules) (buffer : LineBuffer) (f : Finding) :
    Except Failure LineBuffer :=
  match rules.get? (nameOf f) with
  | none => .error ⟨f, .noRule (nameOf f), none⟩
  | some new =>
    (buffer.patch f.line f.column (nameOf f) new).mapError fun e ↦
      ⟨f, .patch e, buffer.line? f.line⟩

structure Patched where
  buffer : LineBuffer
  applied : Nat := 0
  failures : List Failure := []
  deriving DecidableEq, Repr

def patchStep (rules : Rules) (p : Patched) (f : Finding) : Patched :=
  match patchFinding rules p.buffer f with
  | .ok buffer => { p with buffer, applied := p.applied + 1 }
  | .error failure => { p with failures := failure :: p.failures }

def patchAll (rules : Rules) (buffer : LineBuffer) (findings : List Finding) : Patched :=
  findings.foldl (patchStep rules) { buffer }

structure Plan where
  applied : Nat := 0
  failures : List Failure := []
  buffers : List (String × LineBuffer) := []
  deriving DecidableEq, Repr

def unreadable (e : IoError) (findings : List Finding) : List Failure :=
  findings.reverse.map fun f ↦ ⟨f, .unreadable e, none⟩

def planFile (fs : FileSystem) (rules : Rules) (plan : Plan) (path : String)
    (findings : List Finding) : Plan :=
  match LineBuffer.read fs (Path.ofText path) with
  | .error e => { plan with failures := plan.failures ++ unreadable e findings }
  | .ok buffer =>
    let p := patchAll rules buffer findings
    { applied := plan.applied + p.applied
      failures := plan.failures ++ p.failures
      buffers := plan.buffers ++ [(path, p.buffer)] }

def plan (fs : FileSystem) (rules : Rules) (found : List Finding) : Plan :=
  (byPath found).foldl (fun plan (path, findings) ↦ planFile fs rules plan path findings) {}

inductive RewriteError
  | store (e : StoreError)
  | write (path : String) (e : IoError)
  deriving DecidableEq, Repr

def RewriteError.message : RewriteError → String
  | .store e => e.message
  | .write path _ => s!"write {path}"

def RewriteError.chain : RewriteError → List String
  | .store e => e.chain
  | .write path e => [s!"write {path}", e.message]

def writeAll (device : String → FileSystem.Device) (fs : FileSystem) :
    List (String × LineBuffer) → Except RewriteError Unit × FileSystem
  | [] => (.ok (), fs)
  | (path, buffer) :: rest =>
    match buffer.write (device path) fs (Path.ofText path) with
    | (.error e, fs) => (.error (.write path e), fs)
    | (.ok (), fs) => writeAll device fs rest

/-- Patches the findings of a tool, and writes the files unless it is a dry run or something
failed. -/
def applyWith (device : String → FileSystem.Device) (s : Store) (w : World) (tool : String)
    (rules : Rules) (dryRun : Bool) : Except RewriteError Summary × World :=
  match collect s w tool with
  | .error e => (.error (.store e), w)
  | .ok (found, clean) =>
    let plan := plan w.files rules found
    let summary : Summary := { applied := plan.applied, failures := plan.failures, clean }
    if dryRun || !summary.succeeded then (.ok summary, w)
    else
      match writeAll device w.files plan.buffers with
      | (.error e, files) => (.error e, { w with files })
      | (.ok (), files) =>
        (.ok { summary with written := plan.buffers.map Prod.fst }, { w with files })

def apply (s : Store) (w : World) (tool : String) (rules : Rules) (dryRun : Bool) :
    Except RewriteError Summary × World :=
  applyWith (fun _ ↦ .sound) s (s.look w) tool rules dryRun

end Rewrite

end FindingStore
