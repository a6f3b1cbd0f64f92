import FindingStore.LineBuffer
import FindingStore.Proofs.Text.Units

namespace FindingStore

open Utf8

theorem Utf8.Units.decodeLossy_eq {text : Bytes} {units : List Piece} (h : Units text units) :
    decodeLossy text = String.ofList (units.map Piece.shown) := by
  rw [decodeLossy, shownChars, h.pieces_eq]

/-- The units in front of a byte that begins a unit, or behind which nothing comes. -/
theorem exists_units_before {text : Bytes} {n : Nat} (h : text.length ≤ n ∨ StartsUnit text n) :
    ∃ before behind, Units text (before ++ behind) ∧
      before.flatMap Piece.bytes = text.take n := by
  rcases h with hlength | hstarts
  · refine ⟨pieces text, [], ?_, ?_⟩
    · rw [List.append_nil]
      exact units_pieces text
    · rw [(units_pieces text).flatMap_bytes, List.take_of_length_le hlength]
  · obtain ⟨before, unit, behind, hunits, hn⟩ := hstarts
    refine ⟨before, unit :: behind, hunits, ?_⟩
    have hbytes := hunits.flatMap_bytes
    rw [List.flatMap_append] at hbytes
    rw [← hbytes, ← hn, List.take_left]

/-- Below a line, of which the bytes in front of a column are shown as they are in the line, the
marker has a blank for each of the characters shown there, more blanks if the line has ended before
the column, and then the carets. -/
theorem carets_stand_below (text : Bytes) (column width : Nat) (hcolumn : 1 ≤ column)
    (hplace : text.length ≤ column - 1 ∨ StartsUnit text (column - 1)) :
    ∃ before behind, Units text (before ++ behind) ∧
      before.flatMap Piece.bytes = text.take (column - 1) ∧
      decodeLossy text = String.ofList (before.map Piece.shown ++ behind.map Piece.shown) ∧
      decodeLossy (text.take (column - 1)) = String.ofList (before.map Piece.shown) ∧
      carets text column width =
        String.ofList (before.map (fun unit ↦ if unit.shown = '\t' then '\t' else ' ') ++
          List.replicate (column - 1 - text.length) ' ' ++ List.replicate width '^') := by
  obtain ⟨before, behind, hunits, hbytes⟩ := exists_units_before hplace
  have hcut := hunits.cut
  rw [hbytes] at hcut
  refine ⟨before, behind, hunits, hbytes, ?_, hcut.decodeLossy_eq, ?_⟩
  · rw [hunits.decodeLossy_eq, List.map_append]
  · obtain ⟨n, rfl⟩ : ∃ n, column = n + 1 := ⟨column - 1, by omega⟩
    rw [Nat.add_sub_cancel] at hcut ⊢
    unfold carets shownChars
    dsimp only
    rw [hcut.pieces_eq, List.map_map]
    rfl

def mixed : Bytes := [0x09, 0xE2, 0x82, 0xC3, 0xA9, 0x78]

theorem mixed_marked_below : (1 ≤ 6 ∧ StartsUnit mixed 5) ∧
    (∃ before behind, Units mixed (before ++ behind) ∧
      before.flatMap Piece.bytes = mixed.take 5 ∧
      decodeLossy mixed = String.ofList (before.map Piece.shown ++ behind.map Piece.shown) ∧
      decodeLossy (mixed.take 5) = String.ofList (before.map Piece.shown) ∧
      carets mixed 6 2 =
        String.ofList (before.map (fun unit ↦ if unit.shown = '\t' then '\t' else ' ') ++
          List.replicate (5 - mixed.length) ' ' ++ List.replicate 2 '^')) ∧
    carets mixed 6 2 = "\t  ^^" := by
  have hpieces : pieces mixed =
      [.scalar '\t', .broken [0xE2, 0x82], .scalar 'é'] ++ [.scalar 'x'] := by decide
  have hstarts : StartsUnit mixed 5 := ⟨_, _, _, hpieces ▸ units_pieces mixed, by decide⟩
  exact ⟨⟨by decide, hstarts⟩, carets_stand_below mixed 6 2 (by decide) (.inr hstarts), by decide⟩

end FindingStore
