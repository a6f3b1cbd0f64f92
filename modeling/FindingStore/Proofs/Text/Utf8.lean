import FindingStore.Text.Utf8

namespace FindingStore.Utf8

theorem toNat_ofNat_byte {n : Nat} (h : n < 0x100) : (UInt8.ofNat n).toNat = n := by
  simp [UInt8.toNat_ofNat', Nat.mod_eq_of_lt h]

section Step

variable {b : UInt8} {k : Nat} {p : Pending}

theorem start_of_one (h : b.toNat = k) (hk : k < 0x80) :
    start b = ([.scalar (Char.ofNat k)], none) := by
  simp only [start, h, if_pos hk]

theorem start_of_two (h : b.toNat = 0xC0 + k) (hlow : 2 ≤ k) (hhigh : k < 0x20) :
    start b = ([], some ⟨[b], k, 1, 0x80, 0xBF⟩) := by
  simp only [start, h]
  rw [if_neg (by omega), if_neg (by omega), if_pos (by omega), Nat.add_sub_cancel_left]

theorem start_of_three (h : b.toNat = 0xE0 + k) (hk : k < 0x10) :
    start b = ([], some ⟨[b], k, 2, if k = 0 then 0xA0 else 0x80,
      if k = 0xD then 0x9F else 0xBF⟩) := by
  have h0 : 0xE0 + k = 0xE0 ↔ k = 0 := by omega
  have hd : 0xE0 + k = 0xED ↔ k = 0xD := by omega
  simp only [start, h, h0, hd]
  rw [if_neg (by omega), if_neg (by omega), if_neg (by omega), if_pos (by omega),
    Nat.add_sub_cancel_left]

theorem start_of_four (h : b.toNat = 0xF0 + k) (hk : k < 5) :
    start b = ([], some ⟨[b], k, 3, if k = 0 then 0x90 else 0x80,
      if k = 4 then 0x8F else 0xBF⟩) := by
  have h0 : 0xF0 + k = 0xF0 ↔ k = 0 := by omega
  have h4 : 0xF0 + k = 0xF4 ↔ k = 4 := by omega
  simp only [start, h, h0, h4]
  rw [if_neg (by omega), if_neg (by omega), if_neg (by omega), if_neg (by omega),
    if_pos (by omega), Nat.add_sub_cancel_left]

theorem step_last (h : b.toNat = 0x80 + k) (hm : p.missing = 1) (hlow : p.low ≤ 0x80 + k)
    (hhigh : 0x80 + k ≤ p.high) :
    step (some p) b = ([.scalar (Char.ofNat (p.value * 64 + k))], none) := by
  simp [step, Pending.accepts, Pending.advance, h, hm, hlow, hhigh]

theorem step_more (h : b.toNat = 0x80 + k) (hm : 1 < p.missing) (hlow : p.low ≤ 0x80 + k)
    (hhigh : 0x80 + k ≤ p.high) :
    step (some p) b =
      ([], some ⟨p.taken ++ [b], p.value * 64 + k, p.missing - 1, 0x80, 0xBF⟩) := by
  simp [step, Pending.accepts, Pending.advance, h, hlow, hhigh, Nat.not_le.2 hm]

end Step

theorem piecesFrom_utf8EncodeChar (c : Char) (rest : Bytes) :
    piecesFrom none (String.utf8EncodeChar c ++ rest) = .scalar c :: piecesFrom none rest := by
  have hvalid : c.val.toNat < 0xD800 ∨ 0xDFFF < c.val.toNat ∧ c.val.toNat < 0x110000 := c.valid
  have hc : Char.ofNat c.val.toNat = c := Char.ofNat_toNat c
  unfold String.utf8EncodeChar
  generalize c.val.toNat = n at hvalid hc
  dsimp only
  have hlast : (UInt8.ofNat (n % 64 + 0x80)).toNat = 0x80 + n % 64 := by
    rw [toNat_ofNat_byte (by omega), Nat.add_comm]
  have htail (k : Nat) : (UInt8.ofNat (n / k % 64 + 0x80)).toNat = 0x80 + n / k % 64 := by
    rw [toNat_ofNat_byte (by omega), Nat.add_comm]
  by_cases h1 : n ≤ 0x7F
  · simp only [if_pos h1, List.cons_append, List.nil_append, piecesFrom, step,
      start_of_one (toNat_ofNat_byte (by omega)) (Nat.lt_succ_of_le h1), hc]
  by_cases h2 : n ≤ 0x7FF
  · have hlead : (UInt8.ofNat (n / 64 % 0x20 + 0xC0)).toNat = 0xC0 + n / 64 := by
      rw [toNat_ofNat_byte (by omega)]
      omega
    have hn : n / 64 * 64 + n % 64 = n := by omega
    simp only [if_neg h1, if_pos h2, List.cons_append, List.nil_append, piecesFrom]
    rw [step, start_of_two hlead (by omega) (by omega),
      step_last hlast rfl (by dsimp only; omega) (by dsimp only; omega)]
    simp only [List.nil_append, List.cons_append, hn, hc]
  by_cases h3 : n ≤ 0xFFFF
  · have hlead : (UInt8.ofNat (n / 4096 % 0x10 + 0xE0)).toNat = 0xE0 + n / 4096 := by
      rw [toNat_ofNat_byte (by omega)]
      omega
    have hn : (n / 4096 * 64 + n / 64 % 64) * 64 + n % 64 = n := by omega
    simp only [if_neg h1, if_neg h2, if_pos h3, List.cons_append, List.nil_append, piecesFrom]
    rw [step, start_of_three hlead (by omega),
      step_more (htail 64) (Nat.lt_add_one 1) (by dsimp only; split <;> omega)
        (by dsimp only; split <;> omega),
      step_last hlast rfl (by dsimp only; omega) (by dsimp only; omega)]
    simp only [List.nil_append, List.cons_append, hn, hc]
  · have hlead : (UInt8.ofNat (n / 262144 % 0x08 + 0xF0)).toNat = 0xF0 + n / 262144 := by
      rw [toNat_ofNat_byte (by omega)]
      omega
    have hn : ((n / 262144 * 64 + n / 4096 % 64) * 64 + n / 64 % 64) * 64 + n % 64 = n := by omega
    simp only [if_neg h1, if_neg h2, if_neg h3, List.cons_append, List.nil_append, piecesFrom]
    rw [step, start_of_four hlead (by omega),
      step_more (htail 4096) (by dsimp only; omega) (by dsimp only; split <;> omega)
        (by dsimp only; split <;> omega),
      step_more (htail 64) (by dsimp only; omega) (by dsimp only; omega) (by dsimp only; omega),
      step_last hlast rfl (by dsimp only; omega) (by dsimp only; omega)]
    simp only [List.nil_append, List.cons_append, hn, hc]

theorem pieces_ofChars (cs : List Char) : pieces (ofChars cs) = cs.map .scalar := by
  induction cs with
  | nil => rfl
  | cons c cs ih =>
    have h : ofChars (c :: cs) = String.utf8EncodeChar c ++ ofChars cs := rfl
    rw [h, pieces, piecesFrom_utf8EncodeChar, List.map_cons]
    exact congrArg _ ih

theorem ofChars_injective : Function.Injective ofChars := by
  intro cs ds h
  have hpieces := congrArg pieces h
  rw [pieces_ofChars, pieces_ofChars] at hpieces
  exact (List.map_inj_right fun _ _ ↦ Piece.scalar.inj).1 hpieces

theorem decodeLossy_encode (s : String) : decodeLossy (encode s) = s := by
  have hshown : Piece.shown ∘ Piece.scalar = id := rfl
  simp [decodeLossy, shownChars, encode, pieces_ofChars, hshown]

theorem encode_injective {s t : String} (h : encode s = encode t) : s = t := by
  rw [← decodeLossy_encode s, h, decodeLossy_encode]

theorem decode?_encode (s : String) : decode? (encode s) = some s := by
  have hchars (cs : List Char) : (cs.map Piece.scalar).mapM Piece.char? = some cs := by
    induction cs with
    | nil => rfl
    | cons c cs ih => simp [List.mapM_cons, Piece.char?, ih]
  rw [decode?, encode, pieces_ofChars, hchars, Option.map_some, String.ofList_toList]

theorem eq_of_mem_utf8EncodeChar {b : UInt8} {c : Char} (hb : b.toNat < 0x80)
    (h : b ∈ String.utf8EncodeChar c) : b.toNat = c.toNat := by
  have hvalid : c.val.toNat < 0xD800 ∨ 0xDFFF < c.val.toNat ∧ c.val.toNat < 0x110000 := c.valid
  have hc : c.toNat = c.val.toNat := rfl
  unfold String.utf8EncodeChar at h
  generalize c.val.toNat = n at hvalid hc h
  dsimp only at h
  have hlow {k : Nat} (hk : 0x80 ≤ k) (hk' : k < 0x100) : b ≠ UInt8.ofNat k := by
    rintro rfl
    rw [toNat_ofNat_byte hk'] at hb
    omega
  split at h
  · rw [List.mem_singleton.1 h, toNat_ofNat_byte (by omega), hc]
  · split at h
    · simp only [List.mem_cons, List.not_mem_nil, or_false] at h
      rcases h with h | h <;> exact absurd h (hlow (by omega) (by omega))
    · split at h
      · simp only [List.mem_cons, List.not_mem_nil, or_false] at h
        rcases h with h | h | h <;> exact absurd h (hlow (by omega) (by omega))
      · simp only [List.mem_cons, List.not_mem_nil, or_false] at h
        rcases h with h | h | h | h <;> exact absurd h (hlow (by omega) (by omega))

theorem mem_of_mem_ofChars {b : UInt8} {cs : List Char} (hb : b.toNat < 0x80)
    (h : b ∈ ofChars cs) : ∃ c ∈ cs, c.toNat = b.toNat := by
  obtain ⟨c, hc, hmem⟩ := List.mem_flatMap.1 h
  exact ⟨c, hc, (eq_of_mem_utf8EncodeChar hb hmem).symm⟩

end FindingStore.Utf8
