import FindingStore.Text.Basic
import FindingStore.Text.Utf8

namespace FindingStore

structure LineBuffer where
  lines : List Bytes := []
  deriving DecidableEq, Repr

inductive PatchError
  | lineOutOfRange (line count : Nat)
  | columnOutOfRange (line column length : Nat)
  | mismatch (line column : Nat) (expected : String)
  deriving DecidableEq, Repr

def PatchError.message : PatchError → String
  | .lineOutOfRange line count => s!"line {line} outside of file with {count} lines"
  | .columnOutOfRange line column length =>
    s!"column {column} outside of line {line} with {length} bytes"
  | .mismatch line column expected =>
    s!"expected {Text.quote expected} at {line}:{column}"

namespace LineBuffer

def newline : UInt8 := 0x0A

/-- One line per newline, and one more for bytes behind the last newline. -/
def ofBytes (content : Bytes) : LineBuffer :=
  let parts := content.splitOn newline
  ⟨if parts.getLast? = some [] then parts.dropLast else parts⟩

def toBytes (b : LineBuffer) : Bytes := b.lines.flatMap (· ++ [newline])

def count (b : LineBuffer) : Nat := b.lines.length

def line? (b : LineBuffer) : (number : Nat) → Option Bytes
  | 0 => none
  | n + 1 => b.lines[n]?

def replaceSpan? (text : Bytes) (start : Nat) (old new : Bytes) : Option Bytes :=
  let behind := text.drop start
  if old.isPrefixOf behind then some (text.take start ++ new ++ behind.drop old.length)
  else none

/-- Replaces the old text at a line and column, counted from one, by the new text. The column must
lie within the line, even for an empty text. -/
def patch (b : LineBuffer) (line column : Nat) (old new : String) :
    Except PatchError LineBuffer :=
  match b.line? line with
  | none => .error (.lineOutOfRange line b.count)
  | some text =>
    if column = 0 ∨ text.length < column then
      .error (.columnOutOfRange line column text.length)
    else
      match replaceSpan? text (column - 1) (Utf8.encode old) (Utf8.encode new) with
      | none => .error (.mismatch line column old)
      | some patched => .ok ⟨b.lines.set (line - 1) patched⟩

end LineBuffer

/-- A tab is kept, so that the marker stands below the marked place however wide a tab is. -/
def markerBlank (c : Char) : Char := if c = '\t' then '\t' else ' '

/-- Column zero marks nothing; a column behind the end of the line is reached with blanks. -/
def carets (text : Bytes) (column width : Nat) : String :=
  match column with
  | 0 => ""
  | before + 1 =>
    String.ofList <|
      (Utf8.shownChars (text.take before)).map markerBlank ++
        List.replicate (before - text.length) ' ' ++ List.replicate width '^'

end FindingStore
