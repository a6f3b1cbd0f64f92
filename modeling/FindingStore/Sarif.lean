import FindingStore.Finding
import FindingStore.Json.Reader
import FindingStore.Path
import FindingStore.Text.Basic

namespace FindingStore.Sarif

open Json (Value)

structure Result extends Remark where
  path : Path
  deriving DecidableEq, Repr

def lookup? (v : Value) (keys : List String) : Option Value := keys.foldlM (fun v k ↦ v.field? k) v

def textAt? (v : Value) (keys : List String) : Option String := (lookup? v keys).bind Value.text?

def itemsAt (v : Value) (keys : List String) : List Value :=
  ((lookup? v keys).bind Value.items?).getD []

def driverName (run : Value) : String := (textAt? run ["tool", "driver", "name"]).getD "sarif"

def rules (run : Value) : List Value := itemsAt run ["tool", "driver", "rules"]

/-- The first of the three forms of a message that is a text, even an empty one. -/
def message (result : Value) : String :=
  ((textAt? result ["message", "text"]).or
    ((textAt? result ["message", "markdown"]).or (textAt? result ["message"]))).getD ""

def ruleId? (rules : List Value) (result : Value) : Option String :=
  (textAt? result ["ruleId"]).or
    ((textAt? result ["rule", "id"]).or
      (do
        let index ← (result.field? "ruleIndex").bind Value.natural?
        let rule ← rules[index]?
        textAt? rule ["id"]))

def dropBeginning (s : String) : List String → String
  | [] => s
  | b :: bs =>
    if b.toList.isPrefixOf s.toList then String.ofList (s.toList.drop b.toList.length)
    else dropBeginning s bs

/-- The path that a uri names; a blank uri names none. -/
def uriPath? (base : Path) (uri : String) : Option Path :=
  let uri := Text.trim uri
  if uri.isEmpty then none
  else some (Path.join base (Path.ofText (dropBeginning uri ["file://", "file:"])))

/-- Lines and columns are capped at the largest 32-bit number. -/
def maxPosition : Nat := 0xFFFFFFFF

def position? (location : Value) (key : String) : Option Nat :=
  ((lookup? location ["physicalLocation", "region", key]).bind Value.natural?).map
    fun n ↦ min n maxPosition

def finding? (base : Path) (run result : Value) : Option Result := do
  let message := message result
  if message.isEmpty then none
  let location ← (itemsAt result ["locations"]).head?
  let path ← (textAt? location ["physicalLocation", "artifactLocation", "uri"]).bind (uriPath? base)
  let line := (position? location "startLine").getD 0
  let column := (position? location "startColumn").getD (if 0 < line then 1 else 0)
  let tool := (ruleId? (rules run) result).getD (driverName run)
  some { path, line, column, tool, message }

def findings (base : Path) (log : Value) : List Result :=
  (itemsAt log ["runs"]).flatMap fun run ↦ (itemsAt run ["results"]).filterMap (finding? base run)

def parse (source : String) (base : Path) : Except Json.ReadError (List Result) :=
  (Json.read source).map (findings base)

end FindingStore.Sarif
