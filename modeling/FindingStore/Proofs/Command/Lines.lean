import FindingStore.Proofs.Command.Listing
import FindingStore.Proofs.Json.Objects

namespace FindingStore

def Finding.object (f : Finding) : Json.Value :=
  .object
    [("path", .string f.path), ("line", .natural f.line), ("column", .natural f.column),
      ("tool", .string f.tool), ("message", .string f.message)]

namespace Finding

theorem object_injective : Function.Injective Finding.object := by
  intro f g h
  simp only [object, Json.Value.object.injEq, List.cons.injEq, Prod.mk.injEq,
    Json.Value.string.injEq, Json.Value.natural.injEq, true_and, and_true] at h
  obtain ⟨hpath, hline, hcolumn, htool, hmessage⟩ := h
  obtain ⟨⟨line, column, tool, message⟩, path⟩ := f
  cases hpath
  cases hline
  cases hcolumn
  cases htool
  cases hmessage
  rfl

def fields (f : Finding) : List (String × Json.Atom) :=
  [("path", .string f.path), ("line", .integer f.line), ("column", .integer f.column),
    ("tool", .string f.tool), ("message", .string f.message)]

variable {f : Finding} (h : f.toRemark.InRange)

include h

theorem isNatural_fields : ∀ field ∈ f.fields, field.2.IsNatural := by
  have hmax : Cell.maxCoordinate ≤ Json.maxNatural := by decide
  have hline : (f.line : Int) ≤ Json.maxNatural := Int.le_trans h.1 hmax
  have hcolumn : (f.column : Int) ≤ Json.maxNatural := Int.le_trans h.2 hmax
  simp [fields, Json.Atom.IsNatural, hline, hcolumn]

theorem read_json : Json.read f.json = .ok f.object :=
  Json.read_writeObject (isNatural_fields h)

theorem newline_not_mem_json : '\n' ∉ f.json.toList :=
  Json.newline_not_mem_writeObject (isNatural_fields h)

end Finding

theorem Contents.inRange_of_apply {deferred : Bool} {c c' : Contents} {id : Int}
    {remarks : List Remark} (h : c.apply deferred (.reportsOf id) = .ok (remarks, c'))
    {r : Remark} (hr : r ∈ remarks) : r.InRange := by
  cases c with
  | unusable e => cases h
  | blank => cases h
  | bare => cases h
  | tables t =>
    unfold apply Tables.apply at h
    obtain ⟨reply, hreply, he⟩ := map_eq_ok.1 h
    obtain ⟨rows, hrows, rfl⟩ := map_eq_ok.1 hreply
    cases he
    obtain ⟨cells, -, hcells⟩ := exists_of_mapM_eq_ok hrows hr
    exact (ReportCells.remark?_eq_ok.1 hcells).1

/-- A finding that is replayed has been read from a row, and its place fits the row. -/
theorem Store.inRange_of_enter {s : Store} {w : World} {path : String} {findings : List Finding}
    (henter : (s.reads w path).enter path = .ok findings) {f : Finding} (hf : f ∈ findings) :
    f.toRemark.InRange := by
  unfold PathReads.enter at henter
  split at henter
  · cases henter
  · split at henter
    · cases henter
    · cases henter
    · next id _ =>
      split at henter
      · cases henter
      · next remarks hreports =>
        cases henter
        obtain ⟨remark, hremark, rfl⟩ := List.mem_map.1 hf
        obtain ⟨deferred, c, c', happly⟩ := exists_apply_of_ask hreports
        exact Contents.inRange_of_apply happly hremark

namespace Command

open Replay

variable {s : Store} {w : World} {f : Finding} {findings others : List Finding}

def lines (text : String) : List String := (text.split '\n').toList.map String.Slice.copy

theorem lines_eq (text : String) :
    lines text = (text.toList.splitOn '\n').map String.ofList :=
  String.toList_split_char

theorem lines_of_not_mem {line : String} (h : '\n' ∉ line.toList) : lines line = [line] := by
  rw [lines_eq, List.splitOn_eq_singleton h, List.map_singleton, String.ofList_toList]

theorem lines_append (text more : String) :
    lines (text ++ "\n" ++ more) = lines text ++ lines more := by
  have htext : (text ++ "\n" ++ more).toList = text.toList ++ '\n' :: more.toList := by simp
  have hsplit : (text.toList ++ '\n' :: more.toList).splitOn '\n' =
      text.toList.splitOn '\n' ++ more.toList.splitOn '\n' :=
    List.splitOnP_append_cons _ _ (beq_self_eq_true '\n')
  rw [lines_eq, lines_eq, lines_eq, htext, hsplit, List.map_append]

theorem lines_unlines (texts : List String) :
    lines (unlines texts) = texts.flatMap lines ++ [""] := by
  induction texts with
  | nil => exact lines_of_not_mem List.not_mem_nil
  | cons text texts ih =>
    have htexts : unlines (text :: texts) = text ++ "\n" ++ unlines texts := by
      rw [← unlines_singleton, ← unlines_append, List.singleton_append]
    rw [htexts, lines_append, ih, List.flatMap_cons, List.append_assoc]

def listed (fs : FileSystem) (format : Format) (findings : List Finding) : String :=
  (findings.foldl (fun l f ↦ Listing.showFinding l fs format f) {}).output.stdout

theorem listed_eq (fs : FileSystem) (format : Format) (findings : List Finding) :
    listed fs format findings = unlines (findings.flatMap (format.lines fs)) := by
  have hnil : Lists fs format [] {} := lists_nil
  have hshown := hnil.foldl (findings.map findingItem)
  have hfindings : (findings.map findingItem).filterMap finding? = findings := by
    rw [List.filterMap_map]
    exact List.filterMap_some
  rw [List.nil_append, List.foldl_map] at hshown
  have hstdout := hshown.stdout
  rwa [hfindings] at hstdout

/-- A text whose lines are read as findings, one on each line. -/
def Tells (text : String) (findings : List Finding) : Prop :=
  ∃ rows, lines text = rows ++ [""] ∧ rows.map Json.read = (findings.map Finding.object).map .ok

/-- A text tells one list of findings. -/
theorem Tells.unique {text : String} (h : Tells text findings) (h' : Tells text others) :
    findings = others := by
  obtain ⟨rows, hrows, hread⟩ := h
  obtain ⟨rows', hrows', hread'⟩ := h'
  have hsame : rows = rows' := List.append_cancel_right (hrows.symm.trans hrows')
  have hok : Function.Injective (Except.ok : _ → Except Json.ReadError Json.Value) :=
    fun _ _ ↦ Except.ok.inj
  refine Finding.object_injective.list_map (hok.list_map ?_)
  rw [← hread, ← hread', hsame]

/-- The lines of findings in JSON tell them. -/
theorem tells_listed (fs : FileSystem) (h : ∀ f ∈ findings, f.toRemark.InRange) :
    Tells (listed fs .json findings) findings := by
  refine ⟨findings.map Finding.json, ?_, ?_⟩
  · have hlines : findings.flatMap (Format.json.lines fs) = findings.map Finding.json :=
      List.map_eq_flatMap.symm
    have hone : (findings.map Finding.json).flatMap lines = findings.map Finding.json := by
      rw [List.flatMap_map, List.map_eq_flatMap]
      refine List.flatMap_congr fun f hf ↦ ?_
      exact lines_of_not_mem (Finding.newline_not_mem_json (h f hf))
    rw [listed_eq, hlines, lines_unlines, hone]
  · rw [List.map_map, List.map_map]
    refine List.map_congr_left fun f hf ↦ ?_
    rw [Function.comp_apply, Finding.read_json (h f hf), Function.comp_apply]

theorem inRange_of_heard (hf : f ∈ (heard s w).state) : f.toRemark.InRange := by
  rw [state_heard, findings_eq_filterMap, List.mem_filterMap] at hf
  obtain ⟨item, hitem, hfinding⟩ := hf
  have he : item = findingItem f := by
    rcases item with e | (g | path | path) <;> cases hfinding
    rfl
  cases hstart : start s w with
  | error e =>
    rw [replay_of_start_error hstart, he] at hitem
    cases List.mem_singleton.1 hitem
  | ok r =>
    rw [replay_of_start hstart, start_eq_ok hstart, items_eq_itemsOf, he] at hitem
    obtain ⟨found, henter, hmem⟩ := enter_of_mem_itemsOf hitem
    exact Store.inRange_of_enter henter hmem

/-- A report, beside the findings that a scan of the store is given. There are none if the store
cannot be opened. -/
inductive IsReport (source json : Bool) : List Finding → Result → Prop
  | opened {w v : World} {config : Config} {db : Option Path} {s : Store}
      (hopen : openStore w config db = (.ok s, v)) :
      IsReport source json (heard s (s.look v)).state (run w config (.report db source json))
  | unopened {w v : World} {config : Config} {db : Option Path} {e : StoreError}
      (hopen : openStore w config db = (.error e, v)) :
      IsReport source json [] (run w config (.report db source json))

section Report

variable {source json : Bool} {r : Result}

theorem IsReport.of_run (w : World) (config : Config) (db : Option Path) (source json : Bool) :
    ∃ findings, IsReport source json findings (run w config (.report db source json)) := by
  rcases hopen : openStore w config db with ⟨e | s, v⟩
  · exact ⟨_, .unopened hopen⟩
  · exact ⟨_, .opened hopen⟩

/-- The findings of a report, where they can be computed. -/
theorem IsReport.of_heard {w : World} {config : Config} {db : Option Path}
    (h : (openStore w config db).1.toOption.map (fun s ↦
      (heard s (s.look (openStore w config db).2)).state) = some findings) :
    IsReport source json findings (run w config (.report db source json)) := by
  rcases hopen : openStore w config db with ⟨e | s, v⟩
  · rw [hopen] at h
    cases h
  · rw [hopen] at h
    rw [← Option.some.inj h]
    exact .opened hopen

theorem IsReport.inRange (h : IsReport source json findings r) :
    ∀ f ∈ findings, f.toRemark.InRange := by
  cases h with
  | opened hopen => exact fun f ↦ inRange_of_heard
  | unopened hopen => exact nofun

theorem IsReport.stdout_eq (h : IsReport source json findings r) :
    ∃ fs, r.output.stdout = listed fs (.of source json) findings := by
  cases h with
  | @opened w v config db s hopen =>
    refine ⟨(s.look v).files, ?_⟩
    obtain ⟨l, hlists, hreport⟩ := reportFindings_eq (.of source json) s v
    rw [run_report hopen, listed_eq, hreport]
    exact hlists.stdout_eq
  | unopened hopen =>
    refine ⟨{}, ?_⟩
    simp only [run, withStore, hopen, stdout_die]
    rfl

end Report

/-- What is printed in JSON is read back line by line: whatever texts there are in findings, each
has one line, which is read as its data. Therefore two reports that print the same show the same
findings. -/
theorem json_report_read_back :
    (∀ (fs : FileSystem) {findings : List Finding}, (∀ f ∈ findings, f.toRemark.InRange) →
      Tells (listed fs .json findings) findings) ∧
    (∀ {fs fs' : FileSystem} {findings others : List Finding},
      (∀ f ∈ findings, f.toRemark.InRange) → (∀ f ∈ others, f.toRemark.InRange) →
      listed fs .json findings = listed fs' .json others → findings = others) ∧
    (∀ {source : Bool} {findings : List Finding} {r : Result}, IsReport source true findings r →
      Tells r.output.stdout findings) ∧
    ∀ {source source' : Bool} {findings others : List Finding} {r r' : Result},
      IsReport source true findings r → IsReport source' true others r' →
      r.output.stdout = r'.output.stdout → findings = others := by
  have hreport {source : Bool} {findings : List Finding} {r : Result}
      (h : IsReport source true findings r) : Tells r.output.stdout findings := by
    obtain ⟨fs, hstdout⟩ := h.stdout_eq
    rw [hstdout]
    exact tells_listed fs h.inRange
  refine ⟨fun fs _ ↦ tells_listed fs, fun {fs fs' _ _} h h' he ↦ ?_, hreport, fun h h' he ↦ ?_⟩
  · exact (tells_listed fs h).unique (he ▸ tells_listed fs' h')
  · exact (hreport h).unique (he ▸ hreport h')

def escaping : Tables where
  files := [⟨1, "/file", .integer 0, .integer 0⟩]
  reports := [⟨(⟨4294967295, 0, "\"t\"", "one\ntwo\\n\x01"⟩ : Remark).cells, .integer 1⟩]

theorem escaping_read_back :
    let w := World.stored escaping []
    let f : Finding := ⟨⟨4294967295, 0, "\"t\"", "one\ntwo\\n\x01"⟩, "/file"⟩
    let r := run w {} (.report (some (Path.ofText "/store")) false true)
    r.output.stdout = "\x7b\"path\":\"/file\",\"line\":4294967295,\"column\":0," ++
        "\"tool\":\"\\\"t\\\"\",\"message\":\"one\\ntwo\\\\n\\u0001\"\x7d\n" ∧
      IsReport false true [f] r ∧ Tells r.output.stdout [f] ∧
      (∀ {others : List Finding} {r' : Result}, IsReport false true others r' →
        r.output.stdout = r'.output.stdout → [f] = others) ∧
      f.toRemark.InRange ∧ Tells (listed {} .json [f, f]) [f, f] ∧
      ∀ {others : List Finding}, (∀ f ∈ others, f.toRemark.InRange) →
        listed {} .json [f, f] = listed {} .json others → [f, f] = others := by
  intro w f r
  have hreport : IsReport false true [f] r := .of_heard (by decide +kernel)
  have hrange : f.toRemark.InRange := ⟨by decide, by decide⟩
  have hboth : ∀ g ∈ [f, f], g.toRemark.InRange := by
    intro g hg
    simp only [List.mem_cons, List.not_mem_nil, or_false, or_self] at hg
    exact hg ▸ hrange
  obtain ⟨hlisted, hdistinct, htells, hunique⟩ := json_report_read_back
  exact ⟨by decide +kernel, hreport, htells hreport, hunique hreport, hrange, hlisted {} hboth,
    hdistinct hboth⟩

end Command

end FindingStore
