import FindingStore.Proofs.FileSystem.Granted
import FindingStore.Proofs.LineBuffer.Lines
import FindingStore.Proofs.LineBuffer.Patches
import FindingStore.Rewrite

namespace FindingStore.LineBuffer

variable {b b' : LineBuffer}

def IsSplit (b : LineBuffer) : Prop := ∀ text ∈ b.lines, newline ∉ text

theorem isSplit_ofBytes (content : Bytes) : (ofBytes content).IsSplit :=
  fun _ h ↦ newline_not_mem h

/-- Lines are read back from the bytes that they are written as. -/
theorem IsSplit.ofBytes_toBytes (h : b.IsSplit) : ofBytes b.toBytes = b := by
  obtain ⟨lines⟩ := b
  have hne : lines ++ [[]] ≠ [] := List.append_ne_nil_of_right_ne_nil _ (List.cons_ne_nil _ _)
  have hall : (lines ++ [[]]).flatMap (· ++ [newline]) =
      [newline].intercalate (lines ++ [[]]) ++ [newline] :=
    flatMap_append_eq_intercalate hne
  rw [List.flatMap_append, List.flatMap_singleton, List.nil_append] at hall
  have hbytes : toBytes ⟨lines⟩ = [newline].intercalate (lines ++ [[]]) :=
    List.append_cancel_right hall
  have hfree : ∀ text ∈ lines ++ [[]], newline ∉ text := by
    intro text htext
    rcases List.mem_append.1 htext with htext | htext
    · exact h text htext
    · rw [List.mem_singleton.1 htext]
      exact List.not_mem_nil
  rw [hbytes, ofBytes, List.splitOn_intercalate newline hfree hne,
    if_pos List.getLast?_concat, List.dropLast_concat]

theorem newline_not_mem_encode {new : String} (h : '\n' ∉ new.toList) :
    newline ∉ Utf8.encode new := by
  intro hmem
  obtain ⟨c, hc, hcode⟩ := Utf8.mem_of_mem_ofChars (by decide) hmem
  have hnewline : c = '\n' := Char.toNat_inj.1 hcode
  exact h (hnewline ▸ hc)

theorem IsSplit.make (h : b.IsSplit) {p : Patch} (hnew : '\n' ∉ p.new.toList)
    (hmake : b.make p = .ok b') : b'.IsSplit := by
  obtain ⟨before, behind, hstands, -, hlines⟩ := patch_eq_ok_iff.1 hmake
  have hold : newline ∉ before ++ Utf8.encode p.old ++ behind := h _ (mem_of_line? hstands.text)
  intro text htext
  obtain ⟨n, hn⟩ := List.mem_iff_getElem?.1 htext
  have hn : b'.line? (n + 1) = some text := hn
  rw [hlines] at hn
  split at hn
  · have hfree := newline_not_mem_encode hnew
    cases hn
    simp only [List.mem_append, not_or] at hold ⊢
    exact ⟨⟨hold.1.1, hfree⟩, hold.2⟩
  · exact h text (mem_of_line? hn)

theorem IsSplit.after (h : b.IsSplit) {patches : List Patch}
    (hnew : ∀ p ∈ patches, '\n' ∉ p.new.toList) : (b.after patches).IsSplit := by
  induction patches generalizing b with
  | nil => exact h
  | cons p rest ih =>
    obtain ⟨hp, hrest⟩ := List.forall_mem_cons.1 hnew
    rw [LineBuffer.after]
    cases hmake : b.make p with
    | error e => exact ih h hrest
    | ok b' => exact ih (h.make hp hmake) hrest

section Writing

variable {fs fs' : FileSystem} {device : FileSystem.Device} {p : Path} {parent : Location}
  {name : Bytes}

theorem content_of_write (hfs : fs.IsTree) (hwrite : b.write device fs p = (.ok (), fs')) :
    ∃ l g, fs.Denotes p l ∧ fs'.lookup l = some (.file g) ∧ g.content = b.toBytes := by
  obtain ⟨l, g, hl, -, hg, hcontent, -⟩ := FileSystem.replaceFile_eq_ok hfs hwrite
  exact ⟨l, g, hl, hg, hcontent⟩

theorem exists_write (hfs : fs.IsTree) (h : fs.HasRoom parent name) (b : LineBuffer) :
    ∃ fs' g, b.write .sound fs (Location.toPath (parent ++ [name])) = (.ok (), fs') ∧
      fs'.lookup (parent ++ [name]) = some (.file g) ∧ g.content = b.toBytes := by
  obtain ⟨fs', hwrite⟩ := h.replaceFile hfs (b.lines.map (· ++ [newline]))
  obtain ⟨l, g, hl, hg, hcontent⟩ := content_of_write hfs hwrite
  have hplace := FileSystem.slot_toPath hfs h.directory h.isName h.path
  obtain rfl := hl.unique ⟨parent, name, false, hplace, rfl⟩
  exact ⟨fs', g, hwrite, hg, hcontent⟩

end Writing

/-- A file is written as it was read, with a newline at its end. No line holds a newline, and
patches that bring none lead to a buffer that is read again from the bytes that it is written as.
They are the content of every file that it is written to, and nothing but the device refuses to
write it where there is room. -/
theorem reading_inverts_writing (content : Bytes) {fs : FileSystem} (hfs : fs.IsTree) :
    (∀ text ∈ (ofBytes content).lines, newline ∉ text) ∧
      (ofBytes content).toBytes =
        (if content = [] ∨ content.getLast? = some newline then content
          else content ++ [newline]) ∧
      ∀ patches : List Patch, (∀ p ∈ patches, '\n' ∉ p.new.toList) →
        let b := (ofBytes content).after patches
        ofBytes b.toBytes = b ∧
          (∀ {device : FileSystem.Device} {p : Path} {fs' : FileSystem},
            b.write device fs p = (.ok (), fs') →
              ∃ l g, fs.Denotes p l ∧ fs'.lookup l = some (.file g) ∧ g.content = b.toBytes) ∧
          ∀ {parent : Location} {name : Bytes}, fs.HasRoom parent name →
            ∃ fs' g, b.write .sound fs (Location.toPath (parent ++ [name])) = (.ok (), fs') ∧
              fs'.lookup (parent ++ [name]) = some (.file g) ∧ g.content = b.toBytes := by
  refine ⟨isSplit_ofBytes content, toBytes_ofBytes content, fun patches hnew ↦ ?_⟩
  have hsplit := (isSplit_ofBytes content).after hnew
  exact ⟨hsplit.ofBytes_toBytes, content_of_write hfs, fun hroom ↦ exists_write hfs hroom _⟩

def unclosed : FileSystem where
  entries := [([Utf8.encode "f"],
    .file { content := Utf8.encode "foo\n\nbar", modified := {}, mode := 0o644 })]

theorem unclosed_hasRoom : unclosed.HasRoom [] (Utf8.encode "f") where
  directory := rfl
  replaceable := by decide
  isName := by decide
  path := by decide
  temporary {n} hn := by
    have hn : n < 2 := Nat.lt_succ_of_le hn
    revert n
    decide

theorem unclosed_written :
    let b := (ofBytes (Utf8.encode "foo\n\nbar")).after [⟨1, 1, "foo", "quux"⟩]
    b.toBytes = Utf8.encode "quux\n\nbar\n" ∧ ofBytes (Utf8.encode "quux\n\nbar\n") = b ∧
      ∃ fs' g, b.write .sound unclosed (Path.ofText "/f") = (.ok (), fs') ∧
        fs'.lookup [Utf8.encode "f"] = some (.file g) ∧
        g.content = Utf8.encode "quux\n\nbar\n" := by
  intro b
  have hfs : unclosed.IsTree := by
    apply FileSystem.isTree_of_entries
    decide
  obtain ⟨-, -, hpatched⟩ := reading_inverts_writing (Utf8.encode "foo\n\nbar") hfs
  obtain ⟨hread, -, hwrite⟩ := hpatched [⟨1, 1, "foo", "quux"⟩] (by decide)
  have hbytes : b.toBytes = Utf8.encode "quux\n\nbar\n" := by decide
  obtain ⟨fs', g, hwritten, hg, hcontent⟩ := hwrite unclosed_hasRoom
  exact ⟨hbytes, hbytes ▸ hread, fs', g, hwritten, hg, hcontent.trans hbytes⟩

end FindingStore.LineBuffer
