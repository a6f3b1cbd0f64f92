import FindingStore.Database.Session
import FindingStore.Json.Reader

namespace FindingStore.Snapshot

open Json (Atom Value)

def heading : String := Json.writeObject [("format", .string "finding store")]

def bytesText (bs : Bytes) : String := ".".intercalate (bs.map fun b ↦ toString b.toNat)

def bytesOf? (s : String) : Option Bytes :=
  if s.isEmpty then some []
  else ((s.splitOn ".").mapM String.toNat?).map (·.map UInt8.ofNat)

def dataText : Data → String
  | .text s => s!"t{s}"
  | .garbled bytes => s!"g{bytesText bytes}"
  | .blob bytes => s!"b{bytesText bytes}"

def dataOf? (s : String) : Option Data :=
  let rest := String.ofList (s.toList.drop 1)
  match s.toList.head? with
  | some 't' => some (.text rest)
  | some 'g' => do
    let bytes ← bytesOf? rest
    if h : Utf8.decode? bytes = none then some (.garbled ⟨bytes, h⟩) else none
  | some 'b' => (bytesOf? rest).map .blob
  | _ => none

def cellText : Cell → String
  | .integer n => s!"i{n}"
  | .real bits => s!"r{bits.toNat}"
  | .data d => dataText d

def cellOf? (s : String) : Option Cell :=
  let rest := String.ofList (s.toList.drop 1)
  match s.toList.head? with
  | some 'i' => rest.toInt?.map .integer
  | some 'r' => rest.toNat?.map fun n ↦ .real (UInt64.ofNat n)
  | _ => (dataOf? s).map .data

def fileLine (r : FileRow) : String :=
  Json.writeObject
    [("id", .string (toString r.id)), ("path", .string (dataText r.path)),
      ("mtime", .string (cellText r.mtime)), ("size", .string (cellText r.size))]

def reportLine (r : ReportRow) : String :=
  Json.writeObject
    [("file", .string (cellText r.file)), ("line", .string (cellText r.line)),
      ("column", .string (cellText r.column)),
      ("tool", .string (dataText r.tool)), ("message", .string (dataText r.message))]

def rejectedLine (message : String) : String := Json.writeObject [("rejected", .string message)]

def lines (t : Tables) : List String :=
  heading :: t.files.map fileLine ++ t.reports.map reportLine ++ t.rejected.map rejectedLine

def encode (t : Tables) : Bytes := (lines t).flatMap fun l ↦ Utf8.encode l ++ [0x0A]

def text? (v : Value) (key : String) : Option String := (v.field? key).bind Value.text?

def integer? (v : Value) (key : String) : Option Int := (text? v key).bind String.toInt?

def cell? (v : Value) (key : String) : Option Cell := (text? v key).bind cellOf?

def data? (v : Value) (key : String) : Option Data := (text? v key).bind dataOf?

def fileRow? (v : Value) : Option FileRow := do
  some ⟨← integer? v "id", ← data? v "path", ← cell? v "mtime", ← cell? v "size"⟩

def reportRow? (v : Value) : Option ReportRow := do
  let file ← cell? v "file"
  let line ← cell? v "line"
  let column ← cell? v "column"
  let tool ← data? v "tool"
  let message ← data? v "message"
  some { file, line, column, tool, message }

def addLine? (t : Tables) (line : String) : Option Tables := do
  let v ← (Json.read line).toOption
  match fileRow? v, reportRow? v, text? v "rejected" with
  | some r, _, _ => some { t with files := t.files ++ [r] }
  | none, some r, _ => some { t with reports := t.reports ++ [r] }
  | none, none, some m => some { t with rejected := t.rejected ++ [m] }
  | none, none, none => none

def decode? (content : Bytes) : Option Tables := do
  match (← Utf8.decode? content).toList.splitOn '\n' with
  | first :: rest =>
    if String.ofList first = heading then
      (rest.filter (!·.isEmpty)).foldlM (fun t line ↦ addLine? t (String.ofList line)) {}
    else none
  | [] => none

def ofContents : Contents → Option Bytes
  | .tables t => some (encode t)
  | .unusable _ | .blank | .bare => none

end FindingStore.Snapshot
