import FindingStore.Proofs.FileSystem.Canonical
import FindingStore.Proofs.FileSystem.Replacement
import FindingStore.Rewrite

namespace FindingStore

namespace FileSystem

variable {fs fs' : FileSystem} {p target : Path} {content : Bytes} {k l : Location}

structure Unchanged (fs fs' : FileSystem) : Prop where
  entries (k : Location) : fs.Alike fs' k
  workingDirectory : fs'.workingDirectory = fs.workingDirectory

structure Replaced (fs fs' : FileSystem) (p : Path) (content : Bytes) (l : Location) : Prop where
  named : fs.Denotes p l
  replaceable : fs.isDirectory l = false
  file : ∃ g, fs'.lookup l = some (.file g) ∧ g.content = content ∧
    g.mode = fs.modeOr p privateMode
  others {k : Location} (hk : k ≠ l) : fs.Alike fs' k
  workingDirectory : fs'.workingDirectory = fs.workingDirectory

theorem ne_of_follow (hfs : fs.IsTree) (hk : fs.follow p = .ok k)
    (hlink : fs.lookup l = some (.link target)) : k ≠ l := by
  rintro rfl
  obtain ⟨-, -, -, hwalk⟩ := follow_eq_ok_iff.1 hk
  exact hwalk.isNoLink hfs (fun hnil ↦ absurd hnil (names_ne_nil p)) target hlink

end FileSystem

namespace LineBuffer

open FileSystem

variable {fs : FileSystem}

/-- A buffer is written as a whole to the one entry that the path names, or not at all. If it is a
link, what it leads to stays. -/
theorem write_replaces_or_keeps (hfs : fs.IsTree) (b : LineBuffer) (device : Device) (p : Path) :
    match b.write device fs p with
    | (.error _, fs') => fs.Unchanged fs'
    | (.ok (), fs') => (∀ step ∈ fs.replaceSteps p b.count, device step = none) ∧
      ∃ l, fs.Replaced fs' p b.toBytes l ∧ ∀ target k, fs.lookup l = some (.link target) →
        fs.follow p = .ok k → k ≠ l ∧ fs.Alike fs' k := by
  rcases hwrite : b.write device fs p with ⟨e | _, fs'⟩
  · obtain ⟨hentries, hworking⟩ := replaceFile_error hfs hwrite
    exact ⟨hentries, hworking⟩
  · obtain ⟨l, g, hl, hempty, hg, hcontent, hmode, hothers, hworking⟩ :=
      replaceFile_eq_ok hfs hwrite
    have hbytes : (b.lines.map (· ++ [newline])).flatten = b.toBytes := rfl
    have hcount : (b.lines.map (· ++ [newline])).length = b.count := List.length_map _
    refine ⟨fun step hstep ↦ replaceFile_granted hwrite (hcount.symm ▸ hstep), l,
      ⟨hl, hempty, ⟨g, hg, hcontent.trans hbytes, hmode⟩, fun hk ↦ hothers _ hk, hworking⟩, ?_⟩
    intro target k hlink hfollow
    have hne := ne_of_follow hfs hfollow hlink
    exact ⟨hne, hothers k hne⟩

def linked : FileSystem where
  entries := [([Utf8.encode "open"], .directory { mode := 0o777 }),
    ([Utf8.encode "link"], .link (Utf8.encode "open"))]

theorem linked_isTree : linked.IsTree := by
  apply isTree_of_entries
  decide

theorem linked_replaced : ∃ fs', write ⟨[Utf8.encode "x"]⟩ .sound linked (Utf8.encode "link") =
      (.ok (), fs') ∧
    (∃ g, fs'.lookup [Utf8.encode "link"] = some (.file g) ∧ g.content = Utf8.encode "x\n" ∧
      g.mode = 0o777) ∧
    fs'.isDirectory [Utf8.encode "open"] = true := by
  obtain ⟨fs', hwrite⟩ : ∃ fs', write ⟨[Utf8.encode "x"]⟩ .sound linked (Utf8.encode "link") =
      (.ok (), fs') := ⟨_, rfl⟩
  have hresult := write_replaces_or_keeps linked_isTree ⟨[Utf8.encode "x"]⟩ .sound
    (Utf8.encode "link")
  rw [hwrite] at hresult
  obtain ⟨-, l, hreplaced, -⟩ := hresult
  have hnamed : linked.Denotes (Utf8.encode "link") [Utf8.encode "link"] := ⟨[], _, _, rfl, rfl⟩
  obtain rfl := hreplaced.named.unique hnamed
  obtain ⟨g, hg, hcontent, hmode⟩ := hreplaced.file
  exact ⟨fs', hwrite, ⟨g, hg, hcontent, hmode⟩, (hreplaced.others (by decide)).isDirectory⟩

end LineBuffer

end FindingStore
