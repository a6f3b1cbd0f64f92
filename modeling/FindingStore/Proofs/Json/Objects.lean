import FindingStore.Json.Reader
import FindingStore.Json.Value
import Mathlib.Data.List.Basic

namespace FindingStore.Json

open Text (digitsValue)

section Strings

theorem hexDigit?_hexChar : ∀ n < 16, hexDigit? (hexChar n) = some n := by decide

theorem hexUnit?_hexChar {n : Nat} (h : n < 0x20) :
    hexUnit? '0' '0' (hexChar (n / 16)) (hexChar (n % 16)) = some n := by
  have hzero : hexDigit? '0' = some 0 := rfl
  simp only [hexUnit?, hzero, hexDigit?_hexChar (n / 16) (by omega),
    hexDigit?_hexChar (n % 16) (by omega), Option.bind_eq_bind, Option.bind_some]
  congr 1
  omega

variable (cs rest : List Char)

theorem stringBody?_unit {n : Nat} (h : n < 0x20) :
    stringBody? ('\\' :: 'u' :: '0' :: '0' :: hexChar (n / 16) :: hexChar (n % 16) :: cs) =
      (stringBody? cs).map fun (s, rest) ↦ (Char.ofNat n :: s, rest) := by
  have hhigh : isHighSurrogate n = false := by
    simp only [isHighSurrogate, Bool.and_eq_false_iff, decide_eq_false_iff_not]
    omega
  have hlow : isLowSurrogate n = false := by
    simp only [isLowSurrogate, Bool.and_eq_false_iff, decide_eq_false_iff_not]
    omega
  rw [stringBody?]
  simp [hexUnit?_hexChar h, hhigh, hlow]

theorem stringBody?_escaped {e c : Char} (he : e ≠ 'u') (hc : escaped? e = some c) :
    stringBody? ('\\' :: e :: cs) = (stringBody? cs).map fun (s, rest) ↦ (c :: s, rest) := by
  rw [stringBody?.eq_def]
  simp [he, hc]

theorem stringBody?_escapeChar (c : Char) :
    stringBody? (escapeChar c ++ cs) =
      (stringBody? cs).map fun (s, rest) ↦ (c :: s, rest) := by
  unfold escapeChar
  split
  · exact stringBody?_escaped cs (by decide) rfl
  · exact stringBody?_escaped cs (by decide) rfl
  · exact stringBody?_escaped cs (by decide) rfl
  · exact stringBody?_escaped cs (by decide) rfl
  · exact stringBody?_escaped cs (by decide) rfl
  · exact stringBody?_escaped cs (by decide) rfl
  · exact stringBody?_escaped cs (by decide) rfl
  · next hquote hbackslash _ _ _ _ _ =>
    split
    · next hcontrol =>
      have hread := stringBody?_unit cs hcontrol
      rwa [Char.ofNat_toNat] at hread
    · next hplain =>
      rw [List.singleton_append, stringBody?.eq_def]
      dsimp only
      rw [if_neg hquote, if_neg hbackslash, if_neg hplain]

theorem stringBody?_flatMap_escapeChar :
    stringBody? (cs.flatMap escapeChar ++ '"' :: rest) = some (cs, rest) := by
  induction cs with
  | nil =>
    rw [List.flatMap_nil, List.nil_append, stringBody?.eq_def]
    exact if_pos rfl
  | cons c cs ih =>
    rw [List.flatMap_cons, List.append_assoc, stringBody?_escapeChar, ih]
    rfl

theorem newline_not_mem_escapeChar (c : Char) : '\n' ∉ escapeChar c := by
  have hhex : ∀ n < 16, '\n' ≠ hexChar n := by decide
  unfold escapeChar
  split
  · decide
  · decide
  · decide
  · decide
  · decide
  · decide
  · decide
  · next hnewline _ _ =>
    split
    · next hcontrol =>
      have hhigh := hhex (c.toNat / 16) (by omega)
      have hlow := hhex (c.toNat % 16) (by omega)
      simp [hhigh, hlow]
    · exact fun hmem ↦ hnewline (List.mem_singleton.1 hmem).symm

theorem newline_not_mem_stringChars (s : String) : '\n' ∉ stringChars s := by
  simp [stringChars, newline_not_mem_escapeChar]

end Strings

section Numerals

theorem digitsValue_toDigits (n : Nat) : digitsValue (Nat.toDigits 10 n) = n := by
  have hvalue := Nat.ofDigitChars_ten_toDigits (n := n)
  rw [Nat.ofDigitChars_eq_foldl] at hvalue
  simpa only [digitsValue, Nat.mul_comm] using hvalue

theorem isDigit_of_mem_toDigits {c : Char} {n : Nat} (h : c ∈ Nat.toDigits 10 n) :
    c.isDigit = true :=
  Nat.isDigit_of_mem_toDigits (by decide) (by decide) h

theorem toDigits_cases (n : Nat) : n = 0 ∨ ∃ d ds, Nat.toDigits 10 n = d :: ds ∧ d ≠ '0' := by
  induction n using Nat.strongRecOn with
  | ind n ih =>
    rcases Nat.lt_or_ge n 10 with hn | hn
    · have hdigit : ∀ m < 10, m = 0 ∨ m.digitChar ≠ '0' := by decide
      exact (hdigit n hn).imp_right fun h ↦ ⟨_, _, Nat.toDigits_of_lt_base hn, h⟩
    · obtain hzero | ⟨d, ds, hds, hd⟩ := ih (n / 10) (by omega)
      · omega
      · refine .inr ⟨d, ds ++ [(n % 10).digitChar], ?_, hd⟩
        rw [Nat.toDigits_of_base_le (by decide) hn, hds, List.cons_append]

inductive EndsField : List Char → Prop
  | comma (rest : List Char) : EndsField (',' :: rest)
  | closeBrace (rest : List Char) : EndsField ('\x7d' :: rest)

variable {rest : List Char} (h : EndsField rest) (n : Nat)

include h

theorem EndsField.digits? :
    digits? (Nat.toDigits 10 n ++ rest) = some (Nat.toDigits 10 n, rest) := by
  have htake : rest.takeWhile Char.isDigit = [] := by cases h <;> rfl
  have hdrop : rest.dropWhile Char.isDigit = rest := by cases h <;> rfl
  have hdigits : ∀ c ∈ Nat.toDigits 10 n, c.isDigit = true := fun _ ↦ isDigit_of_mem_toDigits
  unfold Json.digits?
  rw [List.takeWhile_append_of_pos hdigits, List.dropWhile_append_of_pos hdigits, htake, hdrop,
    List.append_nil]
  split
  · next hnil => exact absurd hnil Nat.toDigits_ne_nil
  · rfl

theorem EndsField.unsigned? : unsigned? false (Nat.toDigits 10 n ++ rest) =
    some (⟨false, Nat.toDigits 10 n, [], none⟩, rest) := by
  have hwhole : whole? (Nat.toDigits 10 n ++ rest) = some (Nat.toDigits 10 n, rest) := by
    rcases toDigits_cases n with rfl | ⟨d, ds, hds, hd⟩
    · rfl
    · rw [← h.digits? n, hds, List.cons_append, Json.whole?]
      rintro _ hzero
      exact hd (List.cons.inj hzero).1
  unfold Json.unsigned?
  rw [hwhole]
  cases h <;> rfl

theorem EndsField.number? (hn : n ≤ maxNatural) :
    number? (Nat.toDigits 10 n ++ rest) = some (.number (.natural n), rest) := by
  have hread : Numeral.read? (Nat.toDigits 10 n ++ rest) =
      some (⟨false, Nat.toDigits 10 n, [], none⟩, rest) := by
    rw [← h.unsigned? n, Numeral.read?]
    rintro more hminus
    -- a numeral has no sign
    obtain ⟨d, ds, hds⟩ := List.exists_cons_of_ne_nil (Nat.toDigits_ne_nil (n := n) (b := 10))
    have hd : d.isDigit = true := isDigit_of_mem_toDigits (hds ▸ List.mem_cons_self)
    rw [hds, List.cons_append] at hminus
    rw [(List.cons.inj hminus).1] at hd
    cases hd
  unfold Json.number?
  rw [hread]
  simp [Numeral.number?, digitsValue_toDigits, hn]

end Numerals

def Atom.IsNatural : Atom → Prop
  | .integer n => 0 ≤ n ∧ n ≤ maxNatural
  | .string _ => True

def Atom.token : Atom → Token
  | .integer n => .number (.natural n.toNat)
  | .string s => .string s

def Atom.value : Atom → Value
  | .integer n => .natural n.toNat
  | .string s => .string s

theorem Atom.chars_of_nonneg {n : Int} (h : 0 ≤ n) :
    (Atom.integer n).chars = Nat.toDigits 10 n.toNat := by
  rw [Atom.chars, Int.toString_eq_repr, Int.repr_eq_if, if_pos h, Nat.toList_repr]

def Spells (cs : List Char) (ts : List Token) : Prop :=
  ∀ n, cs.length ≤ n → lexWithin n cs = ⟨ts, none⟩

section Spelling

variable {cs rest : List Char} {ts : List Token}

theorem spells_nil : Spells [] [] := fun n _ ↦ by cases n <;> rfl

theorem Spells.lex (h : Spells cs ts) : lex cs = ⟨ts, none⟩ := h _ (Nat.le_refl _)

theorem Spells.cons {c : Char} {t : Token} (cs : List Char) (h : Spells rest ts)
    (hread : Token.read? c (cs ++ rest) = some (t, rest)) (hspace : isSpace c = false) :
    Spells (c :: cs ++ rest) (t :: ts) := by
  rintro (_ | n) hn
  · cases hn
  · have hrest : rest.length ≤ n := by
      simp only [List.length_append, List.length_cons] at hn
      omega
    rw [List.cons_append, lexWithin]
    simp only [hspace, hread, h n hrest]
    rfl

theorem Spells.openBrace (h : Spells rest ts) : Spells ('\x7b' :: rest) (.openBrace :: ts) :=
  h.cons [] rfl rfl

theorem Spells.closeBrace (h : Spells rest ts) : Spells ('\x7d' :: rest) (.closeBrace :: ts) :=
  h.cons [] rfl rfl

theorem Spells.comma (h : Spells rest ts) : Spells (',' :: rest) (.comma :: ts) :=
  h.cons [] rfl rfl

theorem Spells.colon (h : Spells rest ts) : Spells (':' :: rest) (.colon :: ts) :=
  h.cons [] rfl rfl

theorem Spells.string (h : Spells rest ts) (s : String) :
    Spells (stringChars s ++ rest) (.string s :: ts) := by
  have hread : Token.read? '"' (s.toList.flatMap escapeChar ++ '"' :: rest) =
      some (.string s, rest) := by
    simp [Token.read?, stringBody?_flatMap_escapeChar]
  have hspelled := h.cons (s.toList.flatMap escapeChar ++ ['"'])
    (by rwa [List.append_assoc]) rfl
  exact hspelled

theorem read?_of_isDigit {c : Char} (h : c.isDigit = true) (rest : List Char) :
    Token.read? c rest = Json.number? (c :: rest) := by
  unfold Token.read?
  split
  all_goals first | exact absurd h (by decide) | exact if_pos (.inr h)

theorem isSpace_of_isDigit {c : Char} (h : c.isDigit = true) : isSpace c = false := by
  rw [Bool.eq_false_iff]
  intro hspace
  simp only [isSpace, Bool.or_eq_true, beq_iff_eq] at hspace
  rcases hspace with ((rfl | rfl) | rfl) | rfl <;> cases h

theorem Spells.numeral (h : Spells rest ts) (hrest : EndsField rest) {n : Nat}
    (hn : n ≤ maxNatural) :
    Spells (Nat.toDigits 10 n ++ rest) (.number (.natural n) :: ts) := by
  have hnumber := hrest.number? n hn
  obtain ⟨d, ds, hds⟩ := List.exists_cons_of_ne_nil (Nat.toDigits_ne_nil (n := n) (b := 10))
  have hd : d.isDigit = true := isDigit_of_mem_toDigits (hds ▸ List.mem_cons_self)
  have hread : Token.read? d (ds ++ rest) = some (.number (.natural n), rest) := by
    rw [hds] at hnumber
    rw [read?_of_isDigit hd]
    exact hnumber
  rw [hds]
  exact h.cons ds hread (isSpace_of_isDigit hd)

theorem Spells.atom (h : Spells rest ts) (hrest : EndsField rest) {a : Atom}
    (ha : a.IsNatural) : Spells (a.chars ++ rest) (a.token :: ts) := by
  cases a with
  | string s => exact h.string s
  | integer n =>
    rw [Atom.chars_of_nonneg ha.1]
    exact h.numeral hrest (by have := ha.2; omega)

def fieldTokens (field : String × Atom) : List Token :=
  [.string field.1, .colon, field.2.token]

theorem Spells.field (h : Spells rest ts) (hrest : EndsField rest) {field : String × Atom}
    (ha : field.2.IsNatural) : Spells (fieldChars field ++ rest) (fieldTokens field ++ ts) := by
  have hspelled := ((h.atom hrest ha).colon).string field.1
  rwa [fieldChars, List.append_assoc]

variable {fields : List (String × Atom)}

theorem spells_fields (hne : fields ≠ []) (h : ∀ field ∈ fields, field.2.IsNatural) :
    Spells ([','].intercalate (fields.map fieldChars) ++ ['\x7d'])
      ([.comma].intercalate (fields.map fieldTokens) ++ [.closeBrace]) := by
  induction fields with
  | nil => exact absurd rfl hne
  | cons field fields ih =>
    obtain ⟨hfield, hfields⟩ := List.forall_mem_cons.1 h
    cases fields with
    | nil => simpa using spells_nil.closeBrace.field (.closeBrace []) hfield
    | cons next fields =>
      have hrest := (ih (List.cons_ne_nil _ _) hfields).comma.field (.comma _) hfield
      simpa [List.intercalate_cons_cons] using hrest

end Spelling

def objectTokens (fields : List (String × Atom)) : List Token :=
  .openBrace :: [.comma].intercalate (fields.map fieldTokens) ++ [.closeBrace]

def fieldValue (field : String × Atom) : String × Value := (field.1, field.2.value)

variable {fields : List (String × Atom)}

theorem spells_writeObject (h : ∀ field ∈ fields, field.2.IsNatural) :
    Spells (writeObject fields).toList (objectTokens fields) := by
  rw [writeObject, String.toList_ofList]
  cases fields with
  | nil => exact spells_nil.closeBrace.openBrace
  | cons field fields => exact (spells_fields (List.cons_ne_nil _ _) h).openBrace

section Machine

variable (before : List (String × Value)) (stack : List Frame)

theorem run?_field (field : String × Atom) (ts : List Token) :
    State.run? (.key before stack) (fieldTokens field ++ ts) =
      State.run? (.complete field.2.value (.object before field.1 :: stack)) ts := by
  obtain ⟨key, a⟩ := field
  cases a <;> rfl

theorem run?_fields (hne : fields ≠ []) :
    State.run? (.key before stack)
        ([.comma].intercalate (fields.map fieldTokens) ++ [.closeBrace]) =
      some (.complete (.object (before ++ fields.map fieldValue)) stack) := by
  induction fields generalizing before with
  | nil => exact absurd rfl hne
  | cons field fields ih =>
    cases fields with
    | nil =>
      rw [List.map_singleton, List.intercalate_singleton, run?_field]
      rfl
    | cons next fields =>
      rw [List.map_cons, List.map_cons, List.intercalate_cons_cons, ← List.map_cons,
        List.append_assoc, List.append_assoc, run?_field]
      -- the comma behind the first field leads to the key of the next one
      have hrest := ih (before ++ [fieldValue field]) (List.cons_ne_nil _ _)
      rw [List.append_assoc] at hrest
      exact hrest

theorem run?_objectTokens (fields : List (String × Atom)) :
    State.run? (.value []) (objectTokens fields) =
      some (.complete (.object (fields.map fieldValue)) []) := by
  cases fields with
  | nil => rfl
  | cons field fields =>
    have hfields := run?_fields [] [] (List.cons_ne_nil field fields)
    cases fields <;> exact hfields

end Machine

/-- An object of texts and natural numbers is read as it was written. -/
theorem read_writeObject (h : ∀ field ∈ fields, field.2.IsNatural) :
    read (writeObject fields) = .ok (.object (fields.map fieldValue)) := by
  unfold read
  dsimp only
  rw [(spells_writeObject h).lex]
  dsimp only
  rw [run?_objectTokens]

theorem Atom.newline_not_mem_chars {a : Atom} (h : a.IsNatural) : '\n' ∉ a.chars := by
  cases a with
  | string s => exact newline_not_mem_stringChars s
  | integer n =>
    rw [chars_of_nonneg h.1]
    exact fun hmem ↦ nomatch isDigit_of_mem_toDigits hmem

theorem not_mem_intercalate {c : Char} {sep : List Char} {parts : List (List Char)}
    (hsep : c ∉ sep) (h : ∀ part ∈ parts, c ∉ part) : c ∉ sep.intercalate parts := by
  induction parts with
  | nil => exact List.not_mem_nil
  | cons part parts ih =>
    obtain ⟨hpart, hparts⟩ := List.forall_mem_cons.1 h
    cases parts with
    | nil => simpa using hpart
    | cons next parts => simp [List.intercalate_cons_cons, hpart, hsep, ih hparts]

/-- An object is written on one line. -/
theorem newline_not_mem_writeObject (h : ∀ field ∈ fields, field.2.IsNatural) :
    '\n' ∉ (writeObject fields).toList := by
  have hfields : '\n' ∉ [','].intercalate (fields.map fieldChars) := by
    refine not_mem_intercalate (by decide) fun part hpart ↦ ?_
    obtain ⟨field, hfield, rfl⟩ := List.mem_map.1 hpart
    simp [fieldChars, newline_not_mem_stringChars, Atom.newline_not_mem_chars (h field hfield)]
  simp [writeObject, hfields]

end FindingStore.Json
