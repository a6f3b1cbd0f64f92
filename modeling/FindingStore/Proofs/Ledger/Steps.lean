import FindingStore.Ledger
import FindingStore.Proofs.FileSystem.Identity

namespace FindingStore

def RunFile.withFindings (f : RunFile) : RunFile := { f with hasFindings := true }

def RunFile.inScope (f : RunFile) : RunFile := { f with marked := true }

theorem RunFile.identity_withFindings (f : RunFile) : f.withFindings.identity = f.identity := rfl

theorem RunFile.identity_inScope (f : RunFile) : f.inScope.identity = f.identity := rfl

namespace Ledger

variable {l l' : Ledger} {fs : FileSystem} {p : Path} {i : Identity} {n : Nat} {e : LedgerError}

def added (l : Ledger) (i : Identity) : Ledger :=
  { l with
    files := l.files ++ [{ identity := i }]
    canonical := (i.path, l.files.length) :: l.canonical }

def called (l : Ledger) (p : Path) (n : Nat) : Ledger :=
  { l with aliases := (Path.parts p, n) :: l.aliases }

def stage (l : Ledger) (n : Nat) (remark : Remark) : Ledger :=
  { l.setFile n RunFile.withFindings with staged := l.staged ++ [{ remark with file := n }] }

theorem getElem?_files_added {k : Nat} {f : RunFile} :
    (l.added i).files[k]? = some f ↔
      l.files[k]? = some f ∨ k = l.files.length ∧ f = { identity := i } := by
  rcases Nat.lt_trichotomy k l.files.length with hlt | rfl | hgt
  · rw [added, List.getElem?_append_left hlt, or_iff_left fun h ↦ Nat.ne_of_lt hlt h.1]
  · simp [added, eq_comm]
  · have hlong : (l.added i).files.length ≤ k := by
      rw [added, List.length_append]
      exact hgt
    rw [List.getElem?_eq_none hlong, List.getElem?_eq_none (Nat.le_of_lt hgt)]
    simp [Nat.ne_of_gt hgt]

theorem length_files_added (l : Ledger) : l.files.length < (l.added i).files.length := by
  rw [added, List.length_append]
  exact Nat.lt_succ_self _

theorem enter_of_some (h : l.canonical.lookup i.path = some n) : l.enter i = (n, l) := by
  unfold enter
  rw [h]

theorem enter_of_none (h : l.canonical.lookup i.path = none) :
    l.enter i = (l.files.length, l.added i) := by
  unfold enter
  rw [h]
  rfl

theorem pending_of_some (h : l.aliases.lookup (Path.parts p) = some n) :
    l.pending fs p = .ok (n, l) := by
  unfold pending
  rw [h]

theorem pending_of_none (h : l.aliases.lookup (Path.parts p) = none) :
    l.pending fs p =
      match fs.resolved? p with
      | some i => .ok ((l.enter i).1, (l.enter i).2.called p (l.enter i).1)
      | none => .error (.fileNotFound p) := by
  unfold pending FileSystem.resolved?
  rw [h]
  dsimp only
  split <;> rfl

/-- A pending file is found by a path that is known, or the path is resolved. -/
theorem pending_eq_ok (h : l.pending fs p = .ok (n, l')) :
    l.aliases.lookup (Path.parts p) = some n ∧ l' = l ∨
      l.aliases.lookup (Path.parts p) = none ∧ ∃ i, fs.resolved? p = some i ∧
        n = (l.enter i).1 ∧ l' = (l.enter i).2.called p (l.enter i).1 := by
  cases hn : l.aliases.lookup (Path.parts p) with
  | some k =>
    rw [pending_of_some hn] at h
    cases h
    exact .inl ⟨rfl, rfl⟩
  | none =>
    rw [pending_of_none hn] at h
    cases hi : fs.resolved? p with
    | some i =>
      rw [hi] at h
      cases h
      exact .inr ⟨rfl, i, rfl, rfl, rfl⟩
    | none =>
      rw [hi] at h
      cases h

theorem pending_eq_error (h : l.pending fs p = .error e) :
    e = .fileNotFound p ∧ l.aliases.lookup (Path.parts p) = none ∧ fs.resolved? p = none := by
  cases hn : l.aliases.lookup (Path.parts p) with
  | some k =>
    rw [pending_of_some hn] at h
    cases h
  | none =>
    rw [pending_of_none hn] at h
    cases hi : fs.resolved? p with
    | some i =>
      rw [hi] at h
      cases h
    | none =>
      rw [hi] at h
      cases h
      exact ⟨rfl, rfl, rfl⟩

theorem record_of_error (h : l.pending fs p = .error e) (remark : Remark) :
    l.record fs p remark = (.error e, l.fail e) := by
  unfold record
  rw [h]

theorem record_of_ok (h : l.pending fs p = .ok (n, l')) (remark : Remark) :
    l.record fs p remark = (.ok (), l'.stage n remark) := by
  unfold record
  rw [h]
  rfl

theorem resolveMark_of_error (h : l.pending fs p = .error e) :
    l.resolveMark fs p = l.fail e := by
  unfold resolveMark
  rw [h]

theorem resolveMark_of_ok (h : l.pending fs p = .ok (n, l')) :
    l.resolveMark fs p = l'.setFile n RunFile.inScope := by
  unfold resolveMark
  rw [h]
  rfl

end Ledger

end FindingStore
