import FindingStore.Proofs.Command.Lines

namespace FindingStore

open Text (digitsValue)

namespace Command

section Numerals

open Json (isDigit_of_mem_toDigits)

def position? (cs : List Char) : Option (Nat × List Char) :=
  let digits := cs.takeWhile Char.isDigit
  if Nat.toDigits 10 (digitsValue digits) = digits ∧
      (digitsValue digits : Int) ≤ Cell.maxCoordinate then
    some (digitsValue digits, cs.dropWhile Char.isDigit)
  else none

variable {n : Nat} {cs rest x : List Char}

theorem position?_eq_some {c : Char} (hc : c.isDigit = false) :
    position? cs = some (n, c :: rest) ↔
      cs = Nat.toDigits 10 n ++ c :: rest ∧ (n : Int) ≤ Cell.maxCoordinate := by
  unfold position?
  dsimp only
  constructor
  · intro h
    split at h
    · next hdigits =>
      obtain ⟨rfl, hrest⟩ := Prod.mk.inj (Option.some.inj h)
      refine ⟨?_, hdigits.2⟩
      rw [hdigits.1, ← hrest, List.takeWhile_append_dropWhile]
    · cases h
  · rintro ⟨rfl, hn⟩
    have hdigits : ∀ d ∈ Nat.toDigits 10 n, d.isDigit = true := fun _ ↦ isDigit_of_mem_toDigits
    rw [List.takeWhile_append_of_pos hdigits, List.dropWhile_append_of_pos hdigits,
      List.takeWhile_cons_of_neg (by simp [hc]), List.dropWhile_cons_of_neg (by simp [hc]),
      List.append_nil, Json.digitsValue_toDigits]
    exact if_pos ⟨rfl, hn⟩

theorem colon_not_mem_toDigits (n : Nat) : ':' ∉ Nat.toDigits 10 n :=
  fun h ↦ nomatch isDigit_of_mem_toDigits h

theorem blank_cons_ne_toDigits_append : ' ' :: x ≠ Nat.toDigits 10 n ++ rest := by
  obtain ⟨d, ds, hds⟩ := List.exists_cons_of_ne_nil (Nat.toDigits_ne_nil (n := n) (b := 10))
  have hd : d.isDigit = true := isDigit_of_mem_toDigits (hds ▸ List.mem_cons_self)
  rw [hds, List.cons_append]
  intro h
  rw [← (List.cons.inj h).1] at hd
  cases hd

end Numerals

def placeMark (line column : Nat) : List Char :=
  ':' :: Nat.toDigits 10 line ++ ':' :: Nat.toDigits 10 column ++ [':', ' ', '(']

def HoldsPlace (cs : List Char) : Prop :=
  ∃ line column : Nat, (line : Int) ≤ Cell.maxCoordinate ∧ (column : Int) ≤ Cell.maxCoordinate ∧
    placeMark line column <:+: cs

def place? : List Char → Option ((Nat × Nat) × List Char)
  | ':' :: cs =>
    match position? cs with
    | some (line, ':' :: cs) =>
      match position? cs with
      | some (column, ':' :: ' ' :: '(' :: rest) => some ((line, column), rest)
      | _ => none
    | _ => none
  | _ => none

def closing? : List Char → Option (List Char)
  | ')' :: ' ' :: rest => some rest
  | _ => none

/-- What stands before the first place where something can be read, and what is read there. -/
def upTo? {α : Type} (read : List Char → Option α) : List Char → Option (List Char × α)
  | [] => none
  | c :: cs =>
    match read (c :: cs) with
    | some a => some ([], a)
    | none => (upTo? read cs).map fun (before, a) ↦ (c :: before, a)

def heading? (line : String) : Option Finding := do
  let (path, (line, column), cs) ← upTo? place? line.toList
  let (tool, message) ← upTo? closing? cs
  if path.head? = some '/' then
    some ⟨⟨line, column, String.ofList tool, String.ofList message⟩, String.ofList path⟩
  else none

section Separators

variable {α : Type} {sep : α} {a s x y : List α}

theorem append_cons_eq (ha : sep ∉ a) (h : a ++ sep :: x = s ++ sep :: y) :
    s = a ∧ x = y ∨ ∃ more, s = a ++ sep :: more ∧ x = more ++ sep :: y := by
  rcases List.append_eq_append_iff.1 h with ⟨_ | ⟨d, more⟩, hs, hx⟩ | ⟨_ | ⟨d, more⟩, hs, hy⟩
  · exact .inl ⟨by simpa using hs, (List.cons.inj hx).2⟩
  · cases hx
    exact .inr ⟨more, hs, rfl⟩
  · exact .inl ⟨by simpa using hs.symm, (List.cons.inj hy).2.symm⟩
  · obtain ⟨rfl, -⟩ := List.cons.inj hy
    exact absurd (hs ▸ List.mem_append_right s List.mem_cons_self) ha

end Separators

section Reading

variable {line column line' column' : Nat} {cs rest rest' s : List Char}

theorem place?_eq_some : place? cs = some ((line, column), rest) ↔
    cs = placeMark line column ++ rest ∧ (line : Int) ≤ Cell.maxCoordinate ∧
      (column : Int) ≤ Cell.maxCoordinate := by
  have hcolon : (':').isDigit = false := rfl
  constructor
  · intro h
    unfold place? at h
    split at h
    · split at h
      · next hline =>
        split at h
        · next hcolumn =>
          cases h
          obtain ⟨rfl, hl⟩ := (position?_eq_some hcolon).1 hline
          obtain ⟨rfl, hc⟩ := (position?_eq_some hcolon).1 hcolumn
          exact ⟨by simp [placeMark], hl, hc⟩
        · cases h
      · cases h
    · cases h
  · rintro ⟨rfl, hl, hc⟩
    have hread {n : Nat} (hn : (n : Int) ≤ Cell.maxCoordinate) (more : List Char) :
        position? (Nat.toDigits 10 n ++ ':' :: more) = some (n, ':' :: more) :=
      (position?_eq_some hcolon).2 ⟨rfl, hn⟩
    simp only [placeMark, List.cons_append, List.append_assoc, List.nil_append, place?, hread hl,
      hread hc]

theorem closing?_eq_some : closing? cs = some rest ↔ cs = ')' :: ' ' :: rest := by
  constructor
  · intro h
    unfold closing? at h
    split at h
    · cases h
      rfl
    · cases h
  · rintro rfl
    rfl

theorem isPrefix_of_placeMark (hs : s ≠ [])
    (h : placeMark line' column' ++ rest' = s ++ (placeMark line column ++ rest)) :
    placeMark line' column' <+: s := by
  simp only [placeMark, List.cons_append, List.append_assoc, List.nil_append] at h
  rcases append_cons_eq (a := []) List.not_mem_nil h with ⟨hs', -⟩ | ⟨s₁, rfl, h₁⟩
  · exact absurd hs' hs
  rcases append_cons_eq (colon_not_mem_toDigits _) h₁ with ⟨-, h₂⟩ | ⟨s₂, rfl, h₂⟩
  · -- the column of the first mark would be the line of the second one
    rcases append_cons_eq (colon_not_mem_toDigits _) h₂ with ⟨-, h₃⟩ | ⟨more, hdigits, -⟩
    · exact absurd h₃ blank_cons_ne_toDigits_append
    · have hmem : ':' ∈ Nat.toDigits 10 line := by simp [hdigits]
      exact absurd hmem (colon_not_mem_toDigits _)
  rcases append_cons_eq (colon_not_mem_toDigits _) h₂ with ⟨-, h₃⟩ | ⟨s₃, rfl, h₃⟩
  · exact absurd h₃ blank_cons_ne_toDigits_append
  rcases s₃ with _ | ⟨c, _ | ⟨d, s₄⟩⟩
  · cases h₃
  · cases h₃
  · cases h₃
    exact ⟨s₄, by simp [placeMark]⟩

theorem isPrefix_of_closing (hs : s ≠ [])
    (h : ')' :: ' ' :: rest' = s ++ (')' :: ' ' :: rest)) : [')', ' '] <+: s := by
  rcases s with _ | ⟨c, _ | ⟨d, s⟩⟩
  · exact absurd rfl hs
  · cases h
  · cases h
    exact ⟨s, rfl⟩

variable {α : Type} {read : List Char → Option α} {before : List Char} {a : α}

theorem of_upTo?_eq_some (h : upTo? read cs = some (before, a)) :
    ∃ rest, cs = before ++ rest ∧ read rest = some a ∧
      ∀ s ≠ [], s <:+ before → read (s ++ rest) = none := by
  induction cs generalizing before with
  | nil => cases h
  | cons c cs ih =>
    unfold upTo? at h
    split at h
    · next hread =>
      cases h
      exact ⟨c :: cs, rfl, hread, fun s hs hsuffix ↦ absurd (List.suffix_nil.1 hsuffix) hs⟩
    · next hread =>
      obtain ⟨⟨first, b⟩, hfirst, he⟩ := Option.map_eq_some_iff.1 h
      cases he
      obtain ⟨rest, rfl, hrest, hnone⟩ := ih hfirst
      refine ⟨rest, rfl, hrest, fun s hs hsuffix ↦ ?_⟩
      rcases List.suffix_cons_iff.1 hsuffix with rfl | hsuffix
      · exact hread
      · exact hnone s hs hsuffix

theorem upTo?_append (hread : read rest = some a) (hne : rest ≠ [])
    (hnone : ∀ s ≠ [], s <:+ before → read (s ++ rest) = none) :
    upTo? read (before ++ rest) = some (before, a) := by
  induction before with
  | nil =>
    obtain ⟨c, cs, rfl⟩ := List.exists_cons_of_ne_nil hne
    simp only [List.nil_append, upTo?, hread]
  | cons c before ih =>
    have hfirst := hnone (c :: before) (List.cons_ne_nil _ _) (List.suffix_refl _)
    have hrest := ih fun s hs hsuffix ↦ hnone s hs (hsuffix.trans (List.suffix_cons c before))
    rw [List.cons_append] at hfirst ⊢
    simp only [upTo?, hfirst, hrest, Option.map_some]

theorem upTo?_place?_eq_some : upTo? place? cs = some (before, (line, column), rest) ↔
    cs = before ++ (placeMark line column ++ rest) ∧ (line : Int) ≤ Cell.maxCoordinate ∧
      (column : Int) ≤ Cell.maxCoordinate ∧ ¬HoldsPlace before := by
  constructor
  · intro h
    obtain ⟨behind, rfl, hread, hnone⟩ := of_upTo?_eq_some h
    obtain ⟨rfl, hline, hcolumn⟩ := place?_eq_some.1 hread
    refine ⟨rfl, hline, hcolumn, ?_⟩
    rintro ⟨l, c, hl, hc, first, last, rfl⟩
    have hearlier := hnone (placeMark l c ++ last) (by simp [placeMark]) ⟨first, by simp⟩
    rw [List.append_assoc, place?_eq_some.2 ⟨rfl, hl, hc⟩] at hearlier
    cases hearlier
  · rintro ⟨rfl, hline, hcolumn, hnone⟩
    refine upTo?_append (place?_eq_some.2 ⟨rfl, hline, hcolumn⟩) (by simp [placeMark]) ?_
    intro s hs hsuffix
    rw [Option.eq_none_iff_forall_ne_some]
    rintro ⟨⟨l, c⟩, more⟩ hread
    obtain ⟨hmark, hl, hc⟩ := place?_eq_some.1 hread
    have hstart := isPrefix_of_placeMark hs hmark.symm
    exact hnone ⟨l, c, hl, hc, hstart.isInfix.trans hsuffix.isInfix⟩

theorem upTo?_closing?_eq_some : upTo? closing? cs = some (before, rest) ↔
    cs = before ++ ')' :: ' ' :: rest ∧ ¬[')', ' '] <:+: before := by
  constructor
  · intro h
    obtain ⟨behind, rfl, hread, hnone⟩ := of_upTo?_eq_some h
    obtain rfl := closing?_eq_some.1 hread
    refine ⟨rfl, ?_⟩
    rintro ⟨first, last, rfl⟩
    have hearlier := hnone (')' :: ' ' :: last) (List.cons_ne_nil _ _) ⟨first, by simp⟩
    rw [List.cons_append, List.cons_append, closing?_eq_some.2 rfl] at hearlier
    cases hearlier
  · rintro ⟨rfl, hnone⟩
    refine upTo?_append (closing?_eq_some.2 rfl) (List.cons_ne_nil _ _) ?_
    intro s hs hsuffix
    rw [Option.eq_none_iff_forall_ne_some]
    intro more hread
    have hstart := isPrefix_of_closing hs (closing?_eq_some.1 hread).symm
    exact hnone (hstart.isInfix.trans hsuffix.isInfix)

end Reading

section Lines

variable {line text : String} {rows : List String}

theorem newline_not_mem_of_mem_lines (h : line ∈ lines text) : '\n' ∉ line.toList := by
  rw [lines_eq] at h
  obtain ⟨part, hpart, rfl⟩ := List.mem_map.1 h
  rw [String.toList_ofList]
  exact not_mem_of_mem_splitOn hpart

theorem lines_ne_nil (text : String) : lines text ≠ [] := by
  rw [lines_eq, Ne, List.map_eq_nil_iff]
  exact List.splitOn_ne_nil _ _

theorem intercalate_lines (text : String) : "\n".intercalate (lines text) = text := by
  rw [← String.toList_inj, String.toList_intercalate, lines_eq, List.map_map]
  have hparts : String.toList ∘ String.ofList = id := funext fun _ ↦ String.toList_ofList
  rw [hparts, List.map_id]
  exact List.intercalate_splitOn '\n'

theorem lines_injective : Function.Injective lines := fun text other h ↦ by
  rw [← intercalate_lines text, h, intercalate_lines]

theorem lines_intercalate (hne : rows ≠ []) (h : ∀ row ∈ rows, '\n' ∉ row.toList) :
    lines ("\n".intercalate rows) = rows := by
  have hsplit : (['\n'].intercalate (rows.map String.toList)).splitOn '\n' =
      rows.map String.toList :=
    List.splitOn_intercalate '\n' (by simpa using h) (by simpa using hne)
  have hrows : String.ofList ∘ String.toList = id := funext fun _ ↦ String.ofList_toList
  rw [lines_eq, String.toList_intercalate]
  exact (congrArg _ hsplit).trans (by rw [List.map_map, hrows, List.map_id])

end Lines

end Command

open Command

/-- A finding on an absolute path, at a place that fits a row. Neither its path nor its tool holds
what stands behind it in a line. -/
structure Finding.IsRegular (f : Finding) : Prop where
  absolute : f.path.toList.head? = some '/'
  inRange : f.toRemark.InRange
  path : '\n' ∉ f.path.toList
  place : ¬HoldsPlace f.path.toList
  tool : '\n' ∉ f.tool.toList
  closing : ¬[')', ' '] <:+: f.tool.toList

/-- A finding whose message has no line, except for the first one, that looks like a finding. -/
def Finding.IsPlain (f : Finding) : Prop :=
  f.IsRegular ∧ ∀ line ∈ (lines f.message).tail, heading? line = none

namespace Finding

variable {f : Finding}

theorem toList_render (f : Finding) :
    f.render.toList = f.path.toList ++ (placeMark f.line f.column ++
      (f.tool.toList ++ ')' :: ' ' :: f.message.toList)) := by
  have hself (s : String) : toString s = s := rfl
  simp [render, placeMark, hself, Nat.toList_repr]

theorem render_ambiguous (path tool tool' more message : String) (line column line' column' : Nat) :
    render ⟨⟨line, column, tool ++ ") " ++ more, message⟩, path⟩ =
        render ⟨⟨line, column, tool, more ++ ") " ++ message⟩, path⟩ ∧
      render ⟨⟨line', column', tool', message⟩, render ⟨⟨line, column, tool, more⟩, path⟩⟩ =
        render ⟨⟨line, column, tool, render ⟨⟨line', column', tool', message⟩, more⟩⟩, path⟩ := by
  have hself (s : String) : toString s = s := rfl
  constructor <;> simp [render, hself, String.append_assoc]

theorem heading?_render (h : f.IsRegular) : heading? f.render = some f := by
  have hplace := upTo?_place?_eq_some.2
    ⟨f.toList_render, h.inRange.1, h.inRange.2, h.place⟩
  have hclosing := upTo?_closing?_eq_some.2
    ⟨(rfl : f.tool.toList ++ ')' :: ' ' :: f.message.toList = _), h.closing⟩
  simp only [heading?, hplace, hclosing, Option.bind_eq_bind, Option.bind_some, h.absolute, if_true,
    String.ofList_toList]

/-- A line that is read is that of a finding. -/
theorem of_heading? {line : String} (h : heading? line = some f) :
    f.render = line ∧ ('\n' ∉ line.toList → f.IsRegular) := by
  unfold heading? at h
  obtain ⟨⟨path, ⟨n, k⟩, cs⟩, hplace, hread⟩ := Option.bind_eq_some_iff.1 h
  obtain ⟨⟨tool, message⟩, hclosing, hfinding⟩ := Option.bind_eq_some_iff.1 hread
  obtain ⟨hline, hn, hk, hpath⟩ := upTo?_place?_eq_some.1 hplace
  obtain ⟨rfl, htool⟩ := upTo?_closing?_eq_some.1 hclosing
  dsimp only at hfinding
  split at hfinding
  · next habsolute =>
    cases hfinding
    refine ⟨?_, fun hnewline ↦ ?_⟩
    · rw [← String.toList_inj, toList_render, hline]
      simp
    · simp only [hline, List.mem_append, not_or] at hnewline
      obtain ⟨hnewline, -, hnewline', -⟩ := hnewline
      constructor <;> simp only [String.toList_ofList]
      exacts [habsolute, ⟨hn, hk⟩, hnewline, hpath, hnewline', htool]
  · cases hfinding

theorem IsRegular.newline_not_mem_opening (h : f.IsRegular) : '\n' ∉ f.opening.toList := by
  have hdigits (n : Nat) : '\n' ∉ Nat.toDigits 10 n :=
    fun hmem ↦ nomatch Json.isDigit_of_mem_toDigits hmem
  have hself (s : String) : toString s = s := rfl
  simp [opening, hself, Nat.toList_repr, h.path, h.tool, hdigits]

theorem IsRegular.of_not_mem (absolute : f.path.toList.head? = some '/')
    (inRange : f.toRemark.InRange) (path : '\n' ∉ f.path.toList) (colon : ':' ∉ f.path.toList)
    (tool : '\n' ∉ f.tool.toList) (bracket : ')' ∉ f.tool.toList) : f.IsRegular where
  absolute := absolute
  inRange := inRange
  path := path
  place := fun ⟨_, _, _, _, h⟩ ↦ colon (h.subset List.mem_cons_self)
  tool := tool
  closing h := bracket (h.subset List.mem_cons_self)

theorem IsRegular.withMessage (h : f.IsRegular) (message : String) :
    { f with message }.IsRegular :=
  ⟨h.absolute, h.inRange, h.path, h.place, h.tool, h.closing⟩

theorem lines_render (h : f.IsRegular) {first : String} {more : List String}
    (hmessage : lines f.message = first :: more) :
    lines f.render = { f with message := first }.render :: more := by
  have hrender : f.render = "\n".intercalate ((f.opening ++ first) :: more) := by
    have happend : "\n".intercalate ((f.opening ++ first) :: more) =
        f.opening ++ "\n".intercalate (first :: more) := by
      cases more with
      | nil => simp
      | cons next more => simp [String.append_assoc]
    rw [happend, ← hmessage, intercalate_lines, render_eq]
  have hparts : ∀ row ∈ first :: more, '\n' ∉ row.toList :=
    fun row hrow ↦ newline_not_mem_of_mem_lines (hmessage ▸ hrow)
  obtain ⟨hfirst, hmore⟩ := List.forall_mem_cons.1 hparts
  rw [hrender]
  refine lines_intercalate (List.cons_ne_nil _ _) (List.forall_mem_cons.2 ⟨?_, hmore⟩)
  simp [h.newline_not_mem_opening, hfirst]

end Finding

namespace Command

/-- The lines before the first heading, and the findings from it on. -/
def regroup : List String → List String × List Finding
  | [] => ([], [])
  | line :: rest =>
    match heading? line with
    | none => (line :: (regroup rest).1, (regroup rest).2)
    | some f =>
      let message := "\n".intercalate (f.message :: (regroup rest).1)
      ([], { f with message } :: (regroup rest).2)

def readPlain (text : String) : List Finding := (regroup (lines text).dropLast).2

variable {rows rest : List String} {f : Finding} {findings others : List Finding}

theorem regroup_append (h : ∀ row ∈ rows, heading? row = none) :
    regroup (rows ++ rest) = (rows ++ (regroup rest).1, (regroup rest).2) := by
  induction rows with
  | nil => rfl
  | cons row rows ih =>
    obtain ⟨hrow, hrows⟩ := List.forall_mem_cons.1 h
    simp only [List.cons_append, regroup, hrow, ih hrows]

/-- What stands behind a heading does not matter to the lines before it. -/
theorem regroup_append_of_heading (h : (regroup rest).1 = []) :
    regroup (rows ++ rest) = ((regroup rows).1, (regroup rows).2 ++ (regroup rest).2) := by
  induction rows with
  | nil => exact Prod.ext h rfl
  | cons row rows ih => cases hread : heading? row <;> simp [regroup, hread, ih]

def rowsOf (findings : List Finding) : List String := findings.flatMap fun f ↦ lines f.render

theorem regroup_rowsOf_fst (h : ∀ f ∈ findings, f.IsRegular) :
    (regroup (rowsOf findings)).1 = [] := by
  cases findings with
  | nil => rfl
  | cons f findings =>
    have hregular := h f List.mem_cons_self
    obtain ⟨first, more, hmessage⟩ := List.exists_cons_of_ne_nil (lines_ne_nil f.message)
    simp only [rowsOf, List.flatMap_cons, Finding.lines_render hregular hmessage, List.cons_append,
      regroup, Finding.heading?_render (hregular.withMessage first)]

theorem regroup_rowsOf (h : ∀ f ∈ findings, f.IsPlain) :
    regroup (rowsOf findings) = ([], findings) := by
  induction findings with
  | nil => rfl
  | cons f findings ih =>
    obtain ⟨⟨hregular, hplain⟩, hfindings⟩ := List.forall_mem_cons.1 h
    obtain ⟨first, more, hmessage⟩ := List.exists_cons_of_ne_nil (lines_ne_nil f.message)
    rw [hmessage, List.tail_cons] at hplain
    -- the other lines of the message go up to the heading of the next finding
    have hrest : regroup (more ++ rowsOf findings) = (more, findings) := by
      rw [regroup_append hplain, ih hfindings, List.append_nil]
    have hrows : rowsOf (f :: findings) =
        { f with message := first }.render :: (more ++ rowsOf findings) := by
      rw [rowsOf, List.flatMap_cons, Finding.lines_render hregular hmessage]
      rfl
    have hwhole : "\n".intercalate (first :: more) = f.message := by
      rw [← hmessage, intercalate_lines]
    simp only [hrows, regroup, Finding.heading?_render (hregular.withMessage first), hrest, hwhole]

theorem regroup_sound (h : ∀ row ∈ rows, '\n' ∉ row.toList) :
    (regroup rows).1 ++ rowsOf (regroup rows).2 = rows ∧
      (∀ row ∈ (regroup rows).1, heading? row = none) ∧ ∀ f ∈ (regroup rows).2, f.IsPlain := by
  induction rows with
  | nil => exact ⟨rfl, nofun, nofun⟩
  | cons row rows ih =>
    obtain ⟨hrow, hrows⟩ := List.forall_mem_cons.1 h
    obtain ⟨hlines, hnone, hplain⟩ := ih hrows
    cases hread : heading? row with
    | none =>
      simp only [regroup, hread]
      exact ⟨congrArg (row :: ·) hlines, List.forall_mem_cons.2 ⟨hread, hnone⟩, hplain⟩
    | some f =>
      obtain ⟨hrender, hregular⟩ := Finding.of_heading? hread
      -- a heading takes the lines before the next one into its message
      have hmore : ∀ line ∈ (regroup rows).1, '\n' ∉ line.toList := fun line hline ↦
        hrows line (hlines ▸ List.mem_append_left _ hline)
      have hmessage : lines ("\n".intercalate (f.message :: (regroup rows).1)) =
          f.message :: (regroup rows).1 := by
        refine lines_intercalate (List.cons_ne_nil _ _) (List.forall_mem_cons.2 ⟨?_, hmore⟩)
        rw [← hrender, Finding.render_eq, String.toList_append, List.mem_append, not_or] at hrow
        exact hrow.2
      have hwhole := (hregular hrow).withMessage ("\n".intercalate (f.message :: (regroup rows).1))
      simp only [regroup, hread]
      refine ⟨?_, nofun, List.forall_mem_cons.2 ⟨⟨hwhole, ?_⟩, hplain⟩⟩
      · rw [List.nil_append, rowsOf, List.flatMap_cons, Finding.lines_render hwhole hmessage]
        exact congrArg₂ List.cons hrender hlines
      · rw [hmessage]
        exact hnone

theorem listed_plain (fs : FileSystem) (findings : List Finding) :
    listed fs .plain findings = unlines (findings.map Finding.render) := by
  rw [listed_eq, List.map_eq_flatMap]
  rfl

theorem lines_listed (fs : FileSystem) (findings : List Finding) :
    lines (listed fs .plain findings) = rowsOf findings ++ [""] := by
  rw [listed_plain, lines_unlines, List.flatMap_map]
  rfl

theorem readPlain_listed (fs : FileSystem) (findings : List Finding) :
    readPlain (listed fs .plain findings) = (regroup (rowsOf findings)).2 := by
  rw [readPlain, lines_listed, List.dropLast_concat]

/-- What is read from a plain report prints the same, and it is what has been printed if that is
plain. -/
theorem readPlain_listed_spec (fs : FileSystem) (h : ∀ f ∈ findings, f.IsRegular) :
    let read := readPlain (listed fs .plain findings)
    (∀ f ∈ read, f.IsPlain) ∧ (∀ fs', listed fs' .plain read = listed fs .plain findings) ∧
      (read = findings ↔ ∀ f ∈ findings, f.IsPlain) := by
  intro read
  have hread : read = (regroup (rowsOf findings)).2 := readPlain_listed fs findings
  have hnewline : ∀ row ∈ rowsOf findings, '\n' ∉ row.toList := by
    intro row hrow
    obtain ⟨f, -, hline⟩ := List.mem_flatMap.1 hrow
    exact newline_not_mem_of_mem_lines hline
  obtain ⟨hrows, -, hplain⟩ := regroup_sound hnewline
  rw [regroup_rowsOf_fst h, List.nil_append, ← hread] at hrows
  rw [← hread] at hplain
  refine ⟨hplain, fun fs' ↦ lines_injective ?_, fun he ↦ he ▸ hplain, fun hfindings ↦ ?_⟩
  · rw [lines_listed, lines_listed, hrows]
  · rw [hread, regroup_rowsOf hfindings]

theorem listed_merge (fs : FileSystem) (f g : Finding) (rest : List Finding) :
    listed fs .plain (f :: g :: rest) =
      listed fs .plain ({ f with message := f.message ++ "\n" ++ g.render } :: rest) := by
  have hline : unlines [f.render, g.render] =
      unlines [{ f with message := f.message ++ "\n" ++ g.render }.render] := by
    simp [unlines, Finding.render_eq, Finding.opening, String.append_assoc]
  have hwhole := congrArg (· ++ unlines (rest.map Finding.render)) hline
  rw [← unlines_append, ← unlines_append] at hwhole
  rw [listed_plain, listed_plain]
  exact hwhole

/-- The findings that are read from the lines of one. -/
def divide (f : Finding) : List Finding := readPlain (unlines [f.render])

theorem divide_eq (f : Finding) : divide f = (regroup (rowsOf [f])).2 := by
  have hlisted : listed {} .plain [f] = unlines [f.render] := listed_plain {} [f]
  rw [divide, ← hlisted, readPlain_listed]

theorem readPlain_listed_eq_flatMap (fs : FileSystem) (h : ∀ f ∈ findings, f.IsRegular) :
    readPlain (listed fs .plain findings) = findings.flatMap divide := by
  rw [readPlain_listed]
  induction findings with
  | nil => rfl
  | cons f findings ih =>
    obtain ⟨-, hfindings⟩ := List.forall_mem_cons.1 h
    have hrows : rowsOf (f :: findings) = rowsOf [f] ++ rowsOf findings := by simp [rowsOf]
    rw [hrows, regroup_append_of_heading (regroup_rowsOf_fst hfindings), ih hfindings, ← divide_eq,
      List.flatMap_cons]

theorem divide_eq_self_iff (h : f.IsRegular) : divide f = [f] ↔ f.IsPlain := by
  have hone : ∀ g ∈ [f], g.IsRegular := List.forall_mem_singleton.2 h
  obtain ⟨-, -, hiff⟩ := readPlain_listed_spec {} hone
  rw [readPlain_listed_eq_flatMap {} hone, List.flatMap_singleton] at hiff
  exact hiff.trans List.forall_mem_singleton

/-- Two plain reports print the same if and only if their findings are the same once each is divided
at the lines of its message that look like findings. So the lines determine the findings if there
are no such lines. Otherwise something else is read from them that is printed the same, as a finding
behind another one could always be a part of its message. -/
theorem plain_report_read_back {findings others : List Finding} {r r' : Result}
    (h : IsReport false false findings r) (h' : IsReport false false others r')
    (hregular : ∀ f ∈ findings, f.IsRegular) (hregular' : ∀ f ∈ others, f.IsRegular) :
    let read := readPlain r.output.stdout
    (r.output.stdout = r'.output.stdout ↔ findings.flatMap divide = others.flatMap divide) ∧
      (∀ f ∈ findings, divide f = [f] ↔ f.IsPlain) ∧
      ((∀ f ∈ findings, f.IsPlain) → (∀ f ∈ others, f.IsPlain) →
        r.output.stdout = r'.output.stdout → findings = others) ∧
      (∀ f ∈ read, f.IsPlain) ∧ (∀ fs, listed fs .plain read = r.output.stdout) ∧
      (read = findings ↔ ∀ f ∈ findings, f.IsPlain) ∧
      ∀ (fs : FileSystem) (f g : Finding) (rest : List Finding),
        listed fs .plain (f :: g :: rest) =
          listed fs .plain ({ f with message := f.message ++ "\n" ++ g.render } :: rest) := by
  obtain ⟨fs, hstdout⟩ := h.stdout_eq
  obtain ⟨fs', hstdout'⟩ := h'.stdout_eq
  rw [hstdout, hstdout']
  obtain ⟨hread, hlisted, hiff⟩ := readPlain_listed_spec fs hregular
  obtain ⟨-, hlisted', hiff'⟩ := readPlain_listed_spec fs' hregular'
  have hdivide := readPlain_listed_eq_flatMap fs hregular
  have hdivide' := readPlain_listed_eq_flatMap fs' hregular'
  refine ⟨⟨fun he ↦ ?_, fun he ↦ ?_⟩, fun f hf ↦ divide_eq_self_iff (hregular f hf),
    fun hplain hplain' he ↦ ?_, hread, hlisted, hiff, listed_merge⟩
  · rw [← hdivide, ← hdivide']
    exact congrArg readPlain he
  · rw [← hdivide, ← hdivide'] at he
    exact (hlisted {}).symm.trans ((congrArg (listed {} .plain) he).trans (hlisted' {}))
  · rw [← hiff.2 hplain, ← hiff'.2 hplain']
    exact congrArg readPlain he

def divided : Tables where
  files := [⟨1, "/file", .integer 0, .integer 0⟩]
  reports :=
    [⟨(⟨1, 1, "t", "one\n/file:2: two"⟩ : Remark).cells, .integer 1⟩,
      ⟨(⟨2, 2, "t", "three"⟩ : Remark).cells, .integer 1⟩]

def embedding : Tables where
  files := [⟨1, "/file", .integer 0, .integer 0⟩]
  reports := [⟨(⟨1, 1, "t", "one\n/file:2: two\n/file:2:2: (t) three"⟩ : Remark).cells, .integer 1⟩]

/-- A second line that does not look like a finding is read as a part of its message. -/
theorem divided_read_back :
    let f : Finding := ⟨⟨1, 1, "t", "one\n/file:2: two"⟩, "/file"⟩
    let g : Finding := ⟨⟨2, 2, "t", "three"⟩, "/file"⟩
    let r := run (World.stored divided []) {} (.report (some (Path.ofText "/store")) false false)
    IsReport false false [f, g] r ∧ (∀ h ∈ [f, g], h.IsPlain) ∧
      readPlain r.output.stdout = [f, g] ∧
      ∀ {others : List Finding} {r' : Result}, IsReport false false others r' →
        (∀ h ∈ others, h.IsPlain) → r.output.stdout = r'.output.stdout → [f, g] = others := by
  intro f g r
  have hreport : IsReport false false [f, g] r := .of_heard (by decide +kernel)
  have hf : f.IsRegular := .of_not_mem (by decide) ⟨by decide, by decide⟩ (by decide)
    (by decide) (by decide) (by decide)
  have hg : g.IsRegular := .of_not_mem (by decide) ⟨by decide, by decide⟩ (by decide)
    (by decide) (by decide) (by decide)
  have hplain : ∀ h ∈ [f, g], h.IsPlain := by
    refine List.forall_mem_cons.2 ⟨⟨hf, ?_⟩, List.forall_mem_singleton.2 ⟨hg, ?_⟩⟩
    · rw [lines_eq]
      decide +kernel
    · rw [lines_eq]
      decide +kernel
  have hregular : ∀ h ∈ [f, g], h.IsRegular := fun h hh ↦ (hplain h hh).1
  obtain ⟨-, -, -, -, -, hread, -⟩ := plain_report_read_back hreport hreport hregular hregular
  refine ⟨hreport, hplain, hread.2 hplain, fun h hothers he ↦ ?_⟩
  obtain ⟨-, -, hunique, -⟩ :=
    plain_report_read_back hreport h hregular fun h hh ↦ (hothers h hh).1
  exact hunique hplain hothers he

/-- Two reports of different findings print the same. -/
theorem embedding_confused :
    let f : Finding := ⟨⟨1, 1, "t", "one\n/file:2: two"⟩, "/file"⟩
    let g : Finding := ⟨⟨2, 2, "t", "three"⟩, "/file"⟩
    let h : Finding := ⟨⟨1, 1, "t", "one\n/file:2: two\n/file:2:2: (t) three"⟩, "/file"⟩
    let db := some (Path.ofText "/store")
    let r := run (World.stored divided []) {} (.report db false false)
    let r' := run (World.stored embedding []) {} (.report db false false)
    IsReport false false [f, g] r ∧ IsReport false false [h] r' ∧
      r.output.stdout = r'.output.stdout ∧ [f, g] ≠ [h] :=
  ⟨.of_heard (by decide +kernel), .of_heard (by decide +kernel), by decide +kernel, by decide⟩

end Command

end FindingStore
