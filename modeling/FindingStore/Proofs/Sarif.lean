import Mathlib.Data.List.TakeWhile
import FindingStore.Proofs.Outcome
import FindingStore.Sarif

namespace FindingStore

namespace Text

theorem trimChars_eq_nil_iff {cs : List Char} :
    trimChars cs = [] ↔ ∀ c ∈ cs, isBlank c = true := by
  rw [trimChars, List.reverse_eq_nil_iff, List.dropWhile_eq_nil_iff]
  constructor
  · intro h
    rw [← List.dropWhile_eq_nil_iff]
    cases hrest : cs.dropWhile isBlank with
    | nil => rfl
    | cons c rest =>
      -- the first character that is kept at the front is kept at the end as well
      have hkept := List.head?_dropWhile_not isBlank cs
      rw [hrest] at hkept
      have hblank := h c (by simp [hrest])
      cases hblank.symm.trans hkept
  · intro h c hc
    exact h c ((List.dropWhile_sublist isBlank).subset (List.mem_reverse.1 hc))

end Text

namespace Sarif

open Json (Value)

variable {base : Path} {log run result location : Value} {r : Result} {source : String}
  {xs : List (Value × Value)} {rs : List Result}

def messageTexts (result : Value) : List String :=
  [["message", "text"], ["message", "markdown"], ["message"]].filterMap (textAt? result)

def uri? (location : Value) : Option String :=
  (textAt? location ["physicalLocation", "artifactLocation", "uri"]).filter
    fun uri ↦ uri.toList.any fun c ↦ !Text.isBlank c

def locations (result : Value) : List Value := itemsAt result ["locations"]

def filePath (base : Path) (uri : String) : Path :=
  Path.join base (Path.ofText (dropBeginning (Text.trim uri) ["file://", "file:"]))

structure Lies (base : Path) (run result location : Value) (r : Result) : Prop where
  path : ∃ uri, uri? location = some uri ∧ r.path = filePath base uri
  line : r.line = (position? location "startLine").getD 0
  column : r.column = (position? location "startColumn").getD (if 0 < r.line then 1 else 0)
  tool : r.tool = (ruleId? (rules run) result).getD (driverName run)

/-- The finding for a result: its first message that is not empty, at its first location with a
file. -/
def Describes (base : Path) (run result : Value) (r : Result) : Prop :=
  (messageTexts result).find? (· != "") = some r.message ∧
    ∃ location, (locations result).find? (fun l ↦ (uri? l).isSome) = some location ∧
      Lies base run result location r

/-- An empty text stands in front of a message, or a location without a file in front of one that
has a file. -/
inductive IsMasked (result : Value) : Prop
  | text (hhead : (messageTexts result).head? = some "") (hsome : ∃ m ∈ messageTexts result, m ≠ "")
  | location {l : Value} (hhead : (locations result).head? = some l) (hnone : uri? l = none)
      (hsome : ∃ k ∈ locations result, uri? k ≠ none)

theorem message_eq (result : Value) : message result = (messageTexts result).head?.getD "" := by
  simp only [message, messageTexts, List.filterMap_cons, List.filterMap_nil]
  rcases textAt? result ["message", "text"] with _ | _ <;>
    rcases textAt? result ["message", "markdown"] with _ | _ <;>
      rcases textAt? result ["message"] with _ | _ <;> rfl

theorem uriPath?_eq_some_iff {uri : String} {p : Path} : uriPath? base uri = some p ↔
    (uri.toList.any fun c ↦ !Text.isBlank c) = true ∧ p = filePath base uri := by
  have hblank : (Text.trim uri).isEmpty = true ↔
      (uri.toList.any fun c ↦ !Text.isBlank c) = false := by
    rw [String.isEmpty_iff, Text.trim, ← String.toList_eq_nil_iff, String.toList_ofList,
      Text.trimChars_eq_nil_iff]
    simp
  unfold uriPath?
  dsimp only
  split
  · next h => simp [hblank.1 h]
  · next h =>
    rw [hblank, Bool.not_eq_false] at h
    simp [h, filePath, eq_comm]

theorem uri?_eq_some_iff {uri : String} : uri? location = some uri ↔
    textAt? location ["physicalLocation", "artifactLocation", "uri"] = some uri ∧
      (uri.toList.any fun c ↦ !Text.isBlank c) = true := by
  rw [uri?, Option.filter_eq_some_iff]

theorem finding?_eq_some_iff : finding? base run result = some r ↔
    (messageTexts result).head? = some r.message ∧ r.message ≠ "" ∧
      ∃ location, (locations result).head? = some location ∧ Lies base run result location r := by
  constructor
  · intro h
    unfold finding? at h
    dsimp only at h
    split at h
    · cases h
    · next hmessage =>
      obtain ⟨location, hlocation, h⟩ := Option.bind_eq_some_iff.1 h
      obtain ⟨path, hpath, h⟩ := Option.bind_eq_some_iff.1 h
      obtain ⟨uri, huri, hpath⟩ := Option.bind_eq_some_iff.1 hpath
      obtain ⟨hblank, hpath⟩ := uriPath?_eq_some_iff.1 hpath
      cases h
      rw [String.isEmpty_iff] at hmessage
      refine ⟨?_, hmessage, location, hlocation, ?_⟩
      · rw [message_eq] at hmessage ⊢
        cases hhead : (messageTexts result).head? with
        | none =>
          rw [hhead] at hmessage
          exact absurd rfl hmessage
        | some m => rfl
      · exact ⟨⟨uri, uri?_eq_some_iff.2 ⟨huri, hblank⟩, hpath⟩, rfl, rfl, rfl⟩
  · intro ⟨hhead, hmessage, location, hlocation, hlies⟩
    obtain ⟨⟨uri, huri, hpath⟩, hline, hcolumn, htool⟩ := hlies
    obtain ⟨huri, hblank⟩ := uri?_eq_some_iff.1 huri
    have htext : message result = r.message := by
      rw [message_eq, hhead]
      rfl
    have hpath := uriPath?_eq_some_iff.2 ⟨hblank, hpath⟩
    unfold finding?
    rw [htext]
    obtain ⟨⟨line, column, tool, text⟩, path⟩ := r
    dsimp only at *
    subst hline
    rw [locations] at hlocation
    simp [hlocation, huri, hpath, hmessage, hcolumn, htool]

/-- A result has a finding if it has a message and a location with a file. -/
theorem exists_describes_iff : (∃ r, Describes base run result r) ↔
    (∃ m ∈ messageTexts result, m ≠ "") ∧ ∃ l ∈ locations result, uri? l ≠ none := by
  constructor
  · intro ⟨r, hmessage, location, hlocation, hlies⟩
    obtain ⟨uri, huri, -⟩ := hlies.path
    refine ⟨⟨r.message, List.mem_of_find?_eq_some hmessage, ?_⟩, location,
      List.mem_of_find?_eq_some hlocation, ?_⟩
    · simpa using List.find?_some hmessage
    · rw [huri]
      exact Option.some_ne_none uri
  · intro ⟨⟨m, hm, hempty⟩, l, hl, huri⟩
    obtain ⟨message, hmessage⟩ := Option.isSome_iff_exists.1
      (List.find?_isSome (p := (· != "")).2 ⟨m, hm, by simpa using hempty⟩)
    obtain ⟨location, hlocation⟩ := Option.isSome_iff_exists.1
      (List.find?_isSome (p := fun l ↦ (uri? l).isSome).2
        ⟨l, hl, Option.isSome_iff_ne_none.2 huri⟩)
    have hsome : (uri? location).isSome = true :=
      List.find?_some (p := fun l ↦ (uri? l).isSome) hlocation
    obtain ⟨uri, huri⟩ := Option.isSome_iff_exists.1 hsome
    let line := (position? location "startLine").getD 0
    let column := (position? location "startColumn").getD (if 0 < line then 1 else 0)
    let tool := (ruleId? (rules run) result).getD (driverName run)
    refine ⟨⟨⟨line, column, tool, message⟩, filePath base uri⟩, hmessage, location, hlocation, ?_⟩
    constructor
    · refine ⟨uri, huri, ?_⟩
      dsimp only
    · rfl
    · rfl
    · rfl

theorem not_isMasked_of_finding? (h : finding? base run result = some r) : ¬ IsMasked result := by
  obtain ⟨hhead, hempty, location, hlocation, hlies⟩ := finding?_eq_some_iff.1 h
  intro hmasked
  cases hmasked with
  | text hhead' _ => exact hempty (Option.some.inj (hhead.symm.trans hhead'))
  | location hhead' hnone _ =>
    obtain ⟨uri, huri, -⟩ := hlies.path
    rw [Option.some.inj (hlocation.symm.trans hhead'), hnone] at huri
    cases huri

theorem describes_of_finding? (h : finding? base run result = some r) :
    Describes base run result r := by
  obtain ⟨hhead, hempty, location, hlocation, hlies⟩ := finding?_eq_some_iff.1 h
  obtain ⟨uri, huri, -⟩ := hlies.path
  obtain ⟨texts, htexts⟩ := List.head?_eq_some_iff.1 hhead
  obtain ⟨others, hothers⟩ := List.head?_eq_some_iff.1 hlocation
  refine ⟨?_, location, ?_, hlies⟩
  · rw [htexts]
    exact List.find?_cons_of_pos (by simpa using hempty)
  · rw [hothers]
    exact List.find?_cons_of_pos (by rw [huri, Option.isSome_some])

theorem finding?_of_describes (hmasked : ¬ IsMasked result) (h : Describes base run result r) :
    finding? base run result = some r := by
  obtain ⟨hmessage, location, hlocation, hlies⟩ := h
  have hmem := List.mem_of_find?_eq_some hmessage
  have hmem' := List.mem_of_find?_eq_some hlocation
  have hempty : r.message ≠ "" := by simpa using List.find?_some hmessage
  obtain ⟨uri, huri, -⟩ := hlies.path
  refine finding?_eq_some_iff.2 ⟨?_, hempty, location, ?_, hlies⟩
  · cases htexts : messageTexts result with
    | nil => simp [htexts] at hmem
    | cons m texts =>
      rw [htexts, List.find?_cons] at hmessage
      split at hmessage
      · exact hmessage
      · next hhead =>
        refine absurd (.text ?_ ⟨r.message, hmem, hempty⟩) hmasked
        rw [htexts, List.head?_cons]
        simpa using hhead
  · cases hlocations : locations result with
    | nil => simp [hlocations] at hmem'
    | cons l others =>
      rw [hlocations, List.find?_cons] at hlocation
      split at hlocation
      · exact hlocation
      · next hhead =>
        refine absurd (.location (l := l) ?_ ?_ ⟨location, hmem', ?_⟩) hmasked
        · rw [hlocations, List.head?_cons]
        · simpa using hhead
        · rw [huri]
          exact Option.some_ne_none uri

def results (log : Value) : List (Value × Value) :=
  (itemsAt log ["runs"]).flatMap fun run ↦ (itemsAt run ["results"]).map (run, ·)

/-- Results give findings in their order: one each, none if something is masked or if there is no
message or no location with a file. -/
inductive Gives (base : Path) : List (Value × Value) → List Result → Prop
  | nil : Gives base [] []
  | found {run result : Value} {r : Result} {xs : List (Value × Value)} {rs : List Result}
      (hmasked : ¬ IsMasked result) (h : Describes base run result r) (hrest : Gives base xs rs) :
      Gives base ((run, result) :: xs) (r :: rs)
  | passed {run result : Value} {xs : List (Value × Value)} {rs : List Result}
      (h : IsMasked result ∨ (∀ m ∈ messageTexts result, m = "") ∨
        ∀ l ∈ locations result, uri? l = none)
      (hrest : Gives base xs rs) : Gives base ((run, result) :: xs) rs

theorem finding?_eq_none_iff : finding? base run result = none ↔
    IsMasked result ∨ (∀ m ∈ messageTexts result, m = "") ∨
      ∀ l ∈ locations result, uri? l = none := by
  constructor
  · intro h
    by_cases hmasked : IsMasked result
    · exact .inl hmasked
    · have hnone : ¬ ∃ r, Describes base run result r := by
        intro ⟨r, hr⟩
        rw [finding?_of_describes hmasked hr] at h
        cases h
      rw [exists_describes_iff, not_and_or] at hnone
      push Not at hnone
      exact .inr hnone
  · intro h
    cases hfound : finding? base run result with
    | none => rfl
    | some r =>
      obtain ⟨⟨m, hm, hempty⟩, l, hl, huri⟩ :=
        exists_describes_iff.1 ⟨r, describes_of_finding? hfound⟩
      rcases h with hmasked | hmessage | hlocation
      · exact absurd hmasked (not_isMasked_of_finding? hfound)
      · exact absurd (hmessage m hm) hempty
      · exact absurd (hlocation l hl) huri

theorem gives_iff : Gives base xs rs ↔ xs.filterMap (fun x ↦ finding? base x.1 x.2) = rs := by
  constructor
  · intro h
    induction h with
    | nil => rfl
    | found hmasked h _ ih => simp only [List.filterMap_cons, finding?_of_describes hmasked h, ih]
    | passed h _ ih => simp only [List.filterMap_cons, finding?_eq_none_iff.2 h, ih]
  · intro h
    subst h
    induction xs with
    | nil => exact .nil
    | cons x xs ih =>
      obtain ⟨run, result⟩ := x
      cases hfound : finding? base run result with
      | none =>
        simp only [List.filterMap_cons, hfound]
        exact .passed (finding?_eq_none_iff.1 hfound) ih
      | some r =>
        simp only [List.filterMap_cons, hfound]
        exact .found (not_isMasked_of_finding? hfound) (describes_of_finding? hfound) ih

theorem findings_eq (base : Path) (log : Value) :
    findings base log = (results log).filterMap fun x ↦ finding? base x.1 x.2 := by
  simp [findings, results, List.filterMap_flatMap, List.filterMap_map]

/-- For every log that can be read, the findings are those that its results give, in the order of
runs and results. -/
theorem results_give_findings (hlog : Json.read source = .ok log) (base : Path)
    (rs : List Result) : parse source base = .ok rs ↔ Gives base (results log) rs := by
  rw [gives_iff, ← findings_eq, parse, hlog]
  constructor
  · intro h
    exact Except.ok.inj h
  · intro h
    exact congrArg Except.ok h

def placed : Value :=
  .object [("physicalLocation", .object [("artifactLocation", .object [("uri", .string "a")])])]

def emptied : Value :=
  .object [("message", .object [("text", .string ""), ("markdown", .string "m")]),
    ("locations", .array [placed])]

def plain : Value := .object [("message", .string "n"), ("locations", .array [placed])]

def emptiedRun : Value := .object [("results", .array [emptied, plain])]

def emptiedLog : Value := .object [("runs", .array [emptiedRun])]

def emptiedParts : List String :=
  let placed := "[\x7b\"physicalLocation\":\x7b\"artifactLocation\":\x7b\"uri\":\"a\"\x7d\x7d\x7d]"
  ["\x7b\"runs\":[\x7b\"results\":[\x7b\"message\":",
    "\x7b\"text\":\"\",\"markdown\":\"m\"\x7d,\"locations\":", placed,
    "\x7d,\x7b\"message\":\"n\",\"locations\":", placed, "\x7d]\x7d]\x7d"]

def emptiedSource : String := .ofList (emptiedParts.flatMap String.toList)

theorem toList_emptiedSource : emptiedSource.toList = emptiedParts.flatMap String.toList :=
  String.toList_ofList

set_option maxRecDepth 100000 in
theorem read_emptiedSource : Json.read emptiedSource = .ok emptiedLog := by
  rw [Json.read, toList_emptiedSource]
  cbv

theorem findings_emptiedLog : findings (Path.ofText "/repo") emptiedLog =
    [⟨⟨0, 0, "sarif", "n"⟩, Path.ofText "/repo/a"⟩] := by decide +kernel

theorem emptied_gives_plain :
    Json.read emptiedSource = .ok emptiedLog ∧
      Gives (Path.ofText "/repo") (results emptiedLog)
        [⟨⟨0, 0, "sarif", "n"⟩, Path.ofText "/repo/a"⟩] := by
  refine ⟨read_emptiedSource, ?_⟩
  apply (results_give_findings read_emptiedSource _ _).1
  rw [parse, read_emptiedSource, ← findings_emptiedLog]
  rfl

/-- A result with a message and a location gives no finding, as a text in front of the message is
empty. -/
theorem emptied_gives_nothing :
    Json.read emptiedSource = .ok emptiedLog ∧
      results emptiedLog = [(emptiedRun, emptied), (emptiedRun, plain)] ∧
      Describes (Path.ofText "/repo") emptiedRun emptied
        ⟨⟨0, 0, "sarif", "m"⟩, Path.ofText "/repo/a"⟩ ∧
      parse emptiedSource (Path.ofText "/repo") =
        .ok [⟨⟨0, 0, "sarif", "n"⟩, Path.ofText "/repo/a"⟩] := by
  refine ⟨read_emptiedSource, rfl, ⟨by decide, placed, rfl, ?_⟩, ?_⟩
  · exact ⟨⟨"a", by decide +kernel, by decide +kernel⟩, by decide, by decide, by decide⟩
  · rw [parse, read_emptiedSource, ← findings_emptiedLog]
    rfl

end Sarif

end FindingStore
