import FindingStore.Proofs.Text.Utf8

/-!
The units of a byte string, said without a decoder: encoded characters, and longest beginnings of
one where there is none. Main statements: every byte string falls into units in one way, which is
how it is decoded, and what lies in front of a unit falls into the units in front of it.
-/

namespace FindingStore.Utf8

def IsBeginning (bs : Bytes) : Prop :=
  ∃ c rest, rest ≠ [] ∧ String.utf8EncodeChar c = bs ++ rest

/-- Where no character stands, the longest beginning of one is broken, or else a single byte. -/
structure IsBroken (part rest : Bytes) : Prop where
  nonempty : part ≠ []
  noCharacter (c : Char) : ¬String.utf8EncodeChar c <+: part ++ rest
  beginning : part.length = 1 ∨ IsBeginning part
  longest {longer : Bytes} : longer <+: part ++ rest → part.length < longer.length →
    ¬IsBeginning longer

inductive Units : Bytes → List Piece → Prop
  | nil : Units [] []
  | scalar (c : Char) {bs : Bytes} {units : List Piece} :
      Units bs units → Units (String.utf8EncodeChar c ++ bs) (.scalar c :: units)
  | broken {part bs : Bytes} {units : List Piece} :
      IsBroken part bs → Units bs units → Units (part ++ bs) (.broken part :: units)

def StartsUnit (text : Bytes) (n : Nat) : Prop :=
  ∃ before unit behind, Units text (before ++ unit :: behind) ∧
    (before.flatMap Piece.bytes).length = n

variable {bs part rest rest' : Bytes} {units units' before behind : List Piece}

theorem IsBroken.of_prefix (h : IsBroken part rest) (hrest : rest' <+: rest) :
    IsBroken part rest' where
  nonempty := h.nonempty
  noCharacter c hc := h.noCharacter c (hc.trans ((List.prefix_append_right_inj part).2 hrest))
  beginning := h.beginning
  longest hlonger := h.longest (hlonger.trans ((List.prefix_append_right_inj part).2 hrest))

theorem Units.flatMap_bytes (h : Units bs units) : units.flatMap Piece.bytes = bs := by
  induction h with
  | nil => rfl
  | scalar c _ ih => rw [List.flatMap_cons, ih, Piece.bytes]
  | broken _ _ ih => rw [List.flatMap_cons, ih, Piece.bytes]

/-- A text that is cut in front of a unit falls into the units in front of it. -/
theorem Units.cut (h : Units bs (before ++ behind)) :
    Units (before.flatMap Piece.bytes) before := by
  induction before generalizing bs with
  | nil => exact .nil
  | cons unit before ih =>
    rw [List.cons_append] at h
    cases h with
    | scalar c h => exact .scalar c (ih h)
    | broken hbroken h =>
      have hbytes := h.flatMap_bytes
      rw [List.flatMap_append] at hbytes
      exact .broken (hbroken.of_prefix ⟨_, hbytes⟩) (ih h)

theorem pieces_utf8EncodeChar_append (c : Char) (rest : Bytes) :
    pieces (String.utf8EncodeChar c ++ rest) = .scalar c :: pieces rest :=
  piecesFrom_utf8EncodeChar c rest

theorem utf8EncodeChar_ne_nil (c : Char) : String.utf8EncodeChar c ≠ [] := by
  intro h
  have hpieces := pieces_utf8EncodeChar_append c []
  rw [h] at hpieces
  cases hpieces

theorem eq_of_utf8EncodeChar_append {c d : Char}
    (h : String.utf8EncodeChar c ++ rest = String.utf8EncodeChar d ++ rest') : c = d := by
  have hpieces := congrArg pieces h
  rw [pieces_utf8EncodeChar_append, pieces_utf8EncodeChar_append] at hpieces
  exact Piece.scalar.inj (List.cons.inj hpieces).1

theorem IsBroken.length_le {part' : Bytes} (h : IsBroken part rest) (h' : IsBroken part' rest')
    (heq : part ++ rest = part' ++ rest') : part'.length ≤ part.length := by
  apply Nat.le_of_not_lt
  intro hlt
  have hpos := List.length_pos_iff.2 h.nonempty
  rcases h'.beginning with hone | hbeginning
  · omega
  · exact h.longest (heq ▸ List.prefix_append part' rest') hlt hbeginning

theorem Units.unique (h : Units bs units) (h' : Units bs units') : units = units' := by
  induction h generalizing units' with
  | nil =>
    generalize hbs : ([] : Bytes) = bs at h'
    cases h' with
    | nil => rfl
    | scalar c _ => exact absurd (List.append_eq_nil_iff.1 hbs.symm).1 (utf8EncodeChar_ne_nil c)
    | broken hbroken _ => exact absurd (List.append_eq_nil_iff.1 hbs.symm).1 hbroken.nonempty
  | @scalar c rest _ _ ih =>
    generalize hbs : String.utf8EncodeChar c ++ rest = bs at h'
    cases h' with
    | nil => exact absurd (List.append_eq_nil_iff.1 hbs).1 (utf8EncodeChar_ne_nil c)
    | scalar d h' =>
      obtain rfl := eq_of_utf8EncodeChar_append hbs
      rw [ih (List.append_cancel_left hbs ▸ h')]
    | broken hbroken _ => exact absurd ⟨rest, hbs⟩ (hbroken.noCharacter c)
  | @broken part rest _ hbroken _ ih =>
    generalize hbs : part ++ rest = bs at h'
    cases h' with
    | nil => exact absurd (List.append_eq_nil_iff.1 hbs).1 hbroken.nonempty
    | @scalar d rest' _ _ => exact absurd ⟨rest', hbs.symm⟩ (hbroken.noCharacter d)
    | broken hbroken' h' =>
      have hlength : part.length = _ := Nat.le_antisymm
        (hbroken'.length_le hbroken hbs.symm) (hbroken.length_le hbroken' hbs)
      obtain ⟨rfl, rfl⟩ := List.append_inj hbs hlength
      rw [ih h']

section Encoding

variable {n : Nat}

theorem ofNat_eq_byte {b : UInt8} (h : n = b.toNat) : UInt8.ofNat n = b := by
  rw [h, UInt8.ofNat_toNat]

theorem val_ofNat (h : n.isValidChar) : (Char.ofNat n).val.toNat = n := by
  rw [Char.ofNat, dif_pos h]
  rfl

theorem utf8EncodeChar_one {a : UInt8} (ha : a.toNat < 0x80) :
    String.utf8EncodeChar (Char.ofNat a.toNat) = [a] := by
  have hn := val_ofNat (n := a.toNat) (.inl (by omega))
  unfold String.utf8EncodeChar
  rw [hn]
  dsimp only
  rw [if_pos (by omega), ofNat_eq_byte rfl]

theorem utf8EncodeChar_two {a b : UInt8} {k : Nat} (ha : a.toNat = 0xC0 + k)
    (hk : 2 ≤ k ∧ k < 0x20) (hb : 0x80 ≤ b.toNat ∧ b.toNat ≤ 0xBF)
    (hn : n = k * 64 + (b.toNat - 0x80)) :
    String.utf8EncodeChar (Char.ofNat n) = [a, b] := by
  have hval := val_ofNat (n := n) (.inl (by omega))
  unfold String.utf8EncodeChar
  rw [hval]
  dsimp only
  rw [if_neg (by omega), if_pos (by omega), ofNat_eq_byte (b := a) (by omega),
    ofNat_eq_byte (b := b) (by omega)]

theorem utf8EncodeChar_three {a b c : UInt8} {k : Nat} (ha : a.toNat = 0xE0 + k) (hk : k < 0x10)
    (hlow : (if k = 0 then 0xA0 else 0x80) ≤ b.toNat)
    (hhigh : b.toNat ≤ if k = 0xD then 0x9F else 0xBF) (hc : 0x80 ≤ c.toNat ∧ c.toNat ≤ 0xBF)
    (hn : n = (k * 64 + (b.toNat - 0x80)) * 64 + (c.toNat - 0x80)) :
    String.utf8EncodeChar (Char.ofNat n) = [a, b, c] := by
  have hb : 0x80 ≤ b.toNat ∧ b.toNat ≤ 0xBF ∧ (k = 0 → 0xA0 ≤ b.toNat) ∧
      (k = 0xD → b.toNat ≤ 0x9F) := by
    split at hlow <;> split at hhigh <;> omega
  have hval := val_ofNat (n := n) (by unfold Nat.isValidChar; omega)
  unfold String.utf8EncodeChar
  rw [hval]
  dsimp only
  rw [if_neg (by omega), if_neg (by omega), if_pos (by omega), ofNat_eq_byte (b := a) (by omega),
    ofNat_eq_byte (b := b) (by omega), ofNat_eq_byte (b := c) (by omega)]

theorem utf8EncodeChar_four {a b c d : UInt8} {k : Nat} (ha : a.toNat = 0xF0 + k) (hk : k < 5)
    (hlow : (if k = 0 then 0x90 else 0x80) ≤ b.toNat)
    (hhigh : b.toNat ≤ if k = 4 then 0x8F else 0xBF) (hc : 0x80 ≤ c.toNat ∧ c.toNat ≤ 0xBF)
    (hd : 0x80 ≤ d.toNat ∧ d.toNat ≤ 0xBF)
    (hn : n = ((k * 64 + (b.toNat - 0x80)) * 64 + (c.toNat - 0x80)) * 64 + (d.toNat - 0x80)) :
    String.utf8EncodeChar (Char.ofNat n) = [a, b, c, d] := by
  have hb : 0x80 ≤ b.toNat ∧ b.toNat ≤ 0xBF ∧ (k = 0 → 0x90 ≤ b.toNat) ∧
      (k = 4 → b.toNat ≤ 0x8F) := by
    split at hlow <;> split at hhigh <;> omega
  have hval := val_ofNat (n := n) (by unfold Nat.isValidChar; omega)
  unfold String.utf8EncodeChar
  rw [hval]
  dsimp only
  rw [if_neg (by omega), if_neg (by omega), if_neg (by omega), ofNat_eq_byte (b := a) (by omega),
    ofNat_eq_byte (b := b) (by omega), ofNat_eq_byte (b := c) (by omega),
    ofNat_eq_byte (b := d) (by omega)]

end Encoding

def Completes : (missing : Nat) → (taken : Bytes) → (value low high : Nat) → Prop
  | 0, taken, value, _, _ => String.utf8EncodeChar (Char.ofNat value) = taken
  | missing + 1, taken, value, low, high => ∀ b : UInt8, low ≤ b.toNat → b.toNat ≤ high →
      Completes missing (taken ++ [b]) (value * 64 + (b.toNat - 0x80)) 0x80 0xBF

/-- A character that has been begun can be completed, and nothing has been read but its
beginning. -/
structure Pending.IsSound (p : Pending) : Prop where
  completes : Completes p.missing p.taken p.value p.low p.high
  missing : 0 < p.missing
  nonempty : p.taken ≠ []
  bounds : p.low ≤ p.high ∧ p.high < 0x100
  reads (bs : Bytes) : pieces (p.taken ++ bs) = piecesFrom (some p) bs

theorem Completes.exists_encoding {missing value low high : Nat} {taken : Bytes}
    (h : Completes missing taken value low high) (hbounds : low ≤ high ∧ high < 0x100) :
    ∃ c rest, rest.length = missing ∧ String.utf8EncodeChar c = taken ++ rest := by
  induction missing generalizing taken value low high with
  | zero => exact ⟨Char.ofNat value, [], rfl, by rw [List.append_nil]; exact h⟩
  | succ missing ih =>
    have hlow : (UInt8.ofNat low).toNat = low := toNat_ofNat_byte (by omega)
    have hnext := h (UInt8.ofNat low) (by omega) (by omega)
    obtain ⟨c, rest, hlength, hc⟩ := ih hnext ⟨by omega, by omega⟩
    refine ⟨c, UInt8.ofNat low :: rest, congrArg (· + 1) hlength, ?_⟩
    rw [hc, List.append_assoc, List.singleton_append]

theorem Pending.IsSound.isBeginning {p : Pending} (h : p.IsSound) : IsBeginning p.taken := by
  obtain ⟨c, rest, hlength, hc⟩ := h.completes.exists_encoding h.bounds
  have hmissing := h.missing
  refine ⟨c, rest, ?_, hc⟩
  rintro rfl
  rw [List.length_nil] at hlength
  omega

theorem piecesFrom_none_cons (b : UInt8) (bs : Bytes) :
    piecesFrom none (b :: bs) = (start b).1 ++ piecesFrom (start b).2 bs := rfl

theorem piecesFrom_of_accepts {p : Pending} {b : UInt8} (hb : p.accepts b = true) (bs : Bytes) :
    piecesFrom (some p) (b :: bs) = (p.advance b).1 ++ piecesFrom (p.advance b).2 bs := by
  simp only [piecesFrom, step, if_pos hb]

theorem piecesFrom_of_not_accepts {p : Pending} {b : UInt8} (hb : p.accepts b = false)
    (bs : Bytes) :
    piecesFrom (some p) (b :: bs) = .broken p.taken :: piecesFrom none (b :: bs) := by
  simp only [piecesFrom, step, hb, Bool.false_eq_true, if_false, List.cons_append]

/-- A first byte is a character, or it is broken whatever comes next, or it begins a character. -/
theorem start_cases (b : UInt8) :
    (∃ c, start b = ([.scalar c], none) ∧ String.utf8EncodeChar c = [b]) ∨
      start b = ([.broken [b]], none) ∨
        ∃ p, start b = ([], some p) ∧ p.IsSound ∧ p.taken = [b] := by
  have hreads {p : Pending} (h : start b = ([], some p)) (bs : Bytes) :
      pieces ([b] ++ bs) = piecesFrom (some p) bs := by
    rw [List.singleton_append, pieces, piecesFrom_none_cons, h, List.nil_append]
  by_cases h1 : b.toNat < 0x80
  · exact .inl ⟨_, start_of_one rfl h1, utf8EncodeChar_one h1⟩
  by_cases h2 : b.toNat < 0xC2
  · refine .inr (.inl ?_)
    simp only [start, if_neg h1, if_pos h2]
  by_cases h3 : b.toNat < 0xE0
  · obtain ⟨k, hk⟩ : ∃ k, b.toNat = 0xC0 + k := ⟨b.toNat - 0xC0, by omega⟩
    have hstart := start_of_two hk (by omega) (by omega)
    refine .inr (.inr ⟨_, hstart, ⟨?_, Nat.one_pos, List.cons_ne_nil _ _, ?_, hreads hstart⟩, rfl⟩)
    · intro c hlow hhigh
      exact utf8EncodeChar_two hk (by omega) ⟨hlow, hhigh⟩ rfl
    · dsimp only
      omega
  by_cases h4 : b.toNat < 0xF0
  · obtain ⟨k, hk⟩ : ∃ k, b.toNat = 0xE0 + k := ⟨b.toNat - 0xE0, by omega⟩
    have hstart := start_of_three hk (by omega)
    refine .inr (.inr ⟨_, hstart, ⟨?_, Nat.two_pos, List.cons_ne_nil _ _, ?_, hreads hstart⟩, rfl⟩)
    · intro c hlow hhigh d hlow' hhigh'
      exact utf8EncodeChar_three hk (by omega) hlow hhigh ⟨hlow', hhigh'⟩ rfl
    · dsimp only
      split <;> split <;> omega
  by_cases h5 : b.toNat < 0xF5
  · obtain ⟨k, hk⟩ : ∃ k, b.toNat = 0xF0 + k := ⟨b.toNat - 0xF0, by omega⟩
    have hstart := start_of_four hk (by omega)
    refine .inr (.inr ⟨_, hstart, ⟨?_, Nat.succ_pos 2, List.cons_ne_nil _ _, ?_, hreads hstart⟩,
      rfl⟩)
    · intro c hlow hhigh d hlow' hhigh' e hlow'' hhigh''
      exact utf8EncodeChar_four hk (by omega) hlow hhigh ⟨hlow', hhigh'⟩ ⟨hlow'', hhigh''⟩ rfl
    · dsimp only
      split <;> split <;> omega
  · refine .inr (.inl ?_)
    simp only [start, if_neg h1, if_neg h2, if_neg h3, if_neg h4, if_neg h5]

theorem Pending.IsSound.advance_cases {p : Pending} (h : p.IsSound) {b : UInt8}
    (hb : p.accepts b = true) :
    (∃ c, p.advance b = ([.scalar c], none) ∧ String.utf8EncodeChar c = p.taken ++ [b]) ∨
      ∃ q, p.advance b = ([], some q) ∧ q.IsSound ∧ q.taken = p.taken ++ [b] := by
  obtain ⟨taken, value, missing, low, high⟩ := p
  have hcompletes := h.completes
  have hmissing := h.missing
  have hreads (bs : Bytes) := (h.reads (b :: bs)).trans (piecesFrom_of_accepts hb bs)
  simp only [accepts, Bool.and_eq_true, decide_eq_true_eq] at hb
  cases missing with
  | zero => exact absurd hmissing (Nat.lt_irrefl 0)
  | succ missing =>
    have hnext := hcompletes b hb.1 hb.2
    cases missing with
    | zero => exact .inl ⟨_, rfl, hnext⟩
    | succ missing =>
      refine .inr ⟨_, rfl, ⟨hnext, Nat.succ_pos missing, ?_, ?_, ?_⟩, rfl⟩
      · simp
      · dsimp only
        omega
      · intro bs
        rw [List.append_assoc, List.singleton_append]
        exact hreads bs

theorem isBroken_of_pieces (hnonempty : part ≠ []) (hpart : part.length = 1 ∨ IsBeginning part)
    (h : ∀ more, more.head? = rest.head? → ∃ units, pieces (part ++ more) = .broken part :: units) :
    IsBroken part rest where
  nonempty := hnonempty
  noCharacter c hc := by
    obtain ⟨more, hmore⟩ := hc
    obtain ⟨units, hunits⟩ := h rest rfl
    rw [← hmore, pieces_utf8EncodeChar_append] at hunits
    cases hunits
  beginning := hpart
  longest {longer} hlonger hlength hbeginning := by
    obtain ⟨c, end_, -, hc⟩ := hbeginning
    have hprefix : part <+: longer :=
      List.prefix_of_prefix_length_le (List.prefix_append part rest) hlonger (Nat.le_of_lt hlength)
    obtain ⟨more, rfl⟩ := hprefix
    have hmore : more <+: rest := (List.prefix_append_right_inj part).1 hlonger
    have hne : more ≠ [] := by
      rintro rfl
      simp at hlength
    have hhead : (more ++ end_).head? = rest.head? := by
      obtain ⟨_, rfl⟩ := hmore
      obtain ⟨b, more, rfl⟩ := List.exists_cons_of_ne_nil hne
      rfl
    obtain ⟨units, hunits⟩ := h _ hhead
    have hpieces := pieces_utf8EncodeChar_append c []
    rw [List.append_nil, hc, List.append_assoc, hunits] at hpieces
    cases hpieces

theorem Pending.IsSound.isBroken {p : Pending} (h : p.IsSound)
    (hrest : ∀ b, rest.head? = some b → p.accepts b = false) : IsBroken p.taken rest := by
  apply isBroken_of_pieces h.nonempty (.inr h.isBeginning)
  intro more hmore
  rw [h.reads]
  cases more with
  | nil => exact ⟨[], rfl⟩
  | cons b bs =>
    exact ⟨_, piecesFrom_of_not_accepts (hrest b (hmore ▸ rfl)) bs⟩

def held : Option Pending → Bytes
  | none => []
  | some p => p.taken

theorem units_piecesFrom {s : Option Pending} (hs : ∀ p, s = some p → p.IsSound) (bs : Bytes) :
    Units (held s ++ bs) (piecesFrom s bs) := by
  induction bs generalizing s with
  | nil =>
    cases s with
    | none => exact .nil
    | some p => exact .broken ((hs p rfl).isBroken nofun) .nil
  | cons b bs ih =>
    have hrest : Units bs (piecesFrom none bs) := ih (s := none) nofun
    have hnone : Units (b :: bs) (piecesFrom none (b :: bs)) := by
      rw [piecesFrom_none_cons]
      rcases start_cases b with ⟨c, hstart, hc⟩ | hstart | ⟨p, hstart, hp, htaken⟩
      · rw [hstart, ← List.singleton_append, ← hc]
        exact .scalar c hrest
      · have hbroken : IsBroken [b] bs := by
          apply isBroken_of_pieces (List.cons_ne_nil b []) (.inl rfl)
          intro more _
          refine ⟨pieces more, ?_⟩
          rw [List.singleton_append, pieces, piecesFrom_none_cons, hstart]
          rfl
        rw [hstart]
        exact .broken hbroken hrest
      · have hunits := ih (s := some p) (fun q hq ↦ Option.some.inj hq ▸ hp)
        rw [held, htaken] at hunits
        rw [hstart]
        exact hunits
    cases s with
    | none => exact hnone
    | some p =>
      have hp := hs p rfl
      cases hb : p.accepts b with
      | true =>
        rw [piecesFrom_of_accepts hb, held, ← List.singleton_append, ← List.append_assoc]
        rcases hp.advance_cases hb with ⟨c, hadvance, hc⟩ | ⟨q, hadvance, hq, htaken⟩
        · rw [hadvance, ← hc]
          exact .scalar c hrest
        · have hunits := ih (s := some q) (fun r hr ↦ Option.some.inj hr ▸ hq)
          rw [held, htaken] at hunits
          rw [hadvance]
          exact hunits
      | false =>
        rw [piecesFrom_of_not_accepts hb]
        refine .broken (hp.isBroken fun c hc ↦ ?_) hnone
        rwa [← Option.some.inj hc]

theorem units_pieces (bs : Bytes) : Units bs (pieces bs) := units_piecesFrom (s := none) nofun bs

/-- A byte string is decoded unit by unit. -/
theorem Units.pieces_eq (h : Units bs units) : pieces bs = units := (units_pieces bs).unique h

theorem mem_of_mem_shownChars {b : UInt8} {c : Char} (hb : b.toNat < 0x80) (hc : c.toNat = b.toNat)
    (h : c ∈ shownChars bs) : b ∈ bs := by
  obtain ⟨unit, hunit, rfl⟩ := List.mem_map.1 h
  rw [← (units_pieces bs).flatMap_bytes]
  refine List.mem_flatMap.2 ⟨unit, hunit, ?_⟩
  cases unit with
  | scalar c =>
    have hchar : Char.ofNat b.toNat = c := by rw [← hc, Piece.shown, Char.ofNat_toNat]
    rw [Piece.bytes, ← hchar, utf8EncodeChar_one hb]
    exact List.mem_singleton_self b
  | broken bytes =>
    have hshown : '\uFFFD'.toNat = b.toNat := hc
    rw [← hshown] at hb
    exact absurd hb (by decide)

end FindingStore.Utf8
