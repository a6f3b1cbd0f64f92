import FindingStore.Proofs.FileSystem.Replacement
import FindingStore.Proofs.World.Hosting

namespace FindingStore

namespace FileSystem

variable {fs fs' : FileSystem} {n : Nat} {l : Location} {f g : File} {p q : Path} {device : Device}
  {chunks : List Bytes}

section Spares

variable (h : fs.Spares n)

include h

theorem Spares.insert (hf : f.database = some n → f.isRewritten = false) :
    (fs.insert l (.file f)).Spares n := by
  intro k g hmem hg
  rcases mem_insert_file hmem with ⟨-, he⟩ | hmem
  · cases he
    exact hf hg
  · exact h k g hmem hg

theorem Spares.change (hf : fs.fileAt? l = some f)
    (hg : g.database = f.database ∧ g.isRewritten = f.isRewritten) :
    (fs.insert l (.file g)).Spares n := by
  refine h.insert fun hn ↦ ?_
  rw [hg.2]
  exact h l f (mem_of_fileAt? hf) (hg.1 ▸ hn)

theorem Spares.touchDirectory (l : Location) : (fs.touchDirectory l).Spares n :=
  fun k g hmem ↦ h k g (mem_touchDirectory_file hmem)

theorem Spares.addEntry (hf : f.database = none) : (fs.addEntry l (.file f)).Spares n := by
  refine (h.insert fun hn ↦ ?_).touchDirectory _
  rw [hf] at hn
  cases hn

theorem Spares.appendTo (l : Location) (chunk : Bytes) : (fs.appendTo l chunk).Spares n := by
  unfold FileSystem.appendTo
  split
  · next hf => exact h.change hf ⟨rfl, rfl⟩
  · exact h

theorem Spares.setMode (l : Location) (mode : Nat) : (fs.setMode l mode).Spares n := by
  unfold FileSystem.setMode
  split
  · next hf => exact h.change hf ⟨rfl, rfl⟩
  · exact h

theorem Spares.move (source target : Location) : (fs.move source target).Spares n := by
  intro k g hmem hg
  obtain ⟨⟨l, e⟩, hl, he⟩ := List.mem_map.1 hmem
  cases he
  exact h l g (List.mem_filter.1 hl).1 hg

theorem Spares.rename (hrename : fs.rename q p = .ok fs') : fs'.Spares n := by
  obtain ⟨old, -, hrename⟩ := bind_eq_ok.1 hrename
  obtain ⟨new, -, hrename⟩ := bind_eq_ok.1 hrename
  split at hrename
  · dsimp only at hrename
    repeat' split at hrename
    all_goals cases hrename
    · exact h
    · exact ((h.move _ _).touchDirectory _).touchDirectory _
  · cases hrename

theorem Spares.appendAll {index : Nat}
    (hfill : FileSystem.appendAll device l index fs chunks = .ok fs') : fs'.Spares n := by
  induction chunks generalizing fs index with
  | nil =>
    cases hfill
    exact h
  | cons chunk rest ih =>
    unfold FileSystem.appendAll at hfill
    split at hfill
    · cases hfill
    · exact ih (h.appendTo l chunk) hfill

theorem Spares.copyMode (hcopy : FileSystem.copyMode device fs p l = .ok fs') : fs'.Spares n := by
  unfold FileSystem.copyMode at hcopy
  repeat' split at hcopy
  all_goals cases hcopy
  · exact h.setMode _ _
  · exact h

/-- To replace a file is to write none in its place. -/
theorem Spares.replaceFile (hreplace : fs.replaceFile device p chunks = (.ok (), fs')) :
    fs'.Spares n := by
  unfold FileSystem.replaceFile at hreplace
  split at hreplace
  · cases hreplace
  · split at hreplace
    · cases hreplace
    · next t made hmade =>
      obtain ⟨directory, name, -, rfl, -, -, rfl⟩ := createTemporary_eq_ok hmade
      split at hreplace
      · next done hdone =>
        cases hreplace
        obtain ⟨filled, hfilled, hdone⟩ := bind_eq_ok.1 hdone
        obtain ⟨synced, hsynced, hdone⟩ := bind_eq_ok.1 hdone
        obtain ⟨-, rfl⟩ := sync_eq_ok hsynced
        obtain ⟨permitted, hpermitted, hdone⟩ := bind_eq_ok.1 hdone
        have hmade := h.addEntry (l := directory ++ [name])
          (f := { modified := fs.now, mode := privateMode }) rfl
        exact ((hmade.appendAll hfilled).copyMode hpermitted).rename (rename_of_persist hdone).2
      · cases hreplace

end Spares

end FileSystem

end FindingStore
