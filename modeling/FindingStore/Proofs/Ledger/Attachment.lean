import FindingStore.Proofs.Ledger.Commit
import FindingStore.Proofs.Ledger.Sightings

namespace FindingStore.Ledger

variable {s : Store} {t : Tables}

open World in
/-- A call that records a remark fails only if its path leads nowhere and its spelling has led
nowhere before in the run. Otherwise the remark is attached, if the run is committed, to a new row
of what the run takes the path for. That is the file as it is at the call, if the run has met
neither it nor the spelling before. -/
theorem record_attaches_to_kept {w : World} (ha : s.access.IsOrdinary)
    (hw : w.Awaits s.database s.access t) (error : Option String)
    (before rest : List TimedCall) (fs fs' : FileSystem) (p : Path) (remark : Remark)
    (source : Retry.Source) (faults : List (Option SqlError)) :
    let seen := Sightings.of before
    let r := (after { error } before).record fs p remark
    let l := after { error } (before ++ ⟨fs, .record p remark⟩ :: rest)
    let c := l.commitOver fs' s s.connection.failing source (faults, w)
    r.1 = .error (.fileNotFound p) ∧ fs.resolved? p = none ∧ seen.lookup (Path.parts p) = none ∨
      r.1 = .ok () ∧ ∃ i, (seen.see fs p).kept (Path.parts p) = some i ∧
        (∀ j, fs.resolved? p = some j → seen.lookup (Path.parts p) = none →
          seen.met j.path = none → i = j) ∧
        ∀ counts, c.result = .ok counts → ∃ u, c.state.2.Awaits s.database s.access u ∧
          ∃ row ∈ u.files, t.nextId ≤ row.id ∧ row.path = i.path ∧ row.mtime = .integer i.mtime ∧
            row.size = .integer i.size ∧ remark.report row.id ∈ u.reports := by
  intro seen r l c
  obtain ⟨-, -, hfailed | ⟨hok, n, i, hstaged, hkept, hat⟩⟩ :=
    (recalls_after error before).record fs p remark
  · exact .inl hfailed
  refine .inr ⟨hok, i, hkept, fun j hj hlookup hmet ↦ ?_, fun counts hresult ↦ ?_⟩
  · exact Option.some.inj
      (hkept.symm.trans (Sightings.kept_see_of_met_eq_none hlookup hj hmet))
  · have hmem : { remark with file := n } ∈ r.2.staged := by
      rw [hstaged]
      exact List.mem_append_right _ (List.mem_singleton_self _)
    let run := l.resolveMarks fs'
    have hsplit : l = r.2.after rest := by
      simp only [l, r, after, List.foldl_append, List.foldl_cons, take]
    have hrecalls := (recalls_after error before).record fs p remark
    have hrest := hrecalls.1.after rest
    rw [← hsplit] at hrest
    have hextends := hrest.2.trans (hrest.1.resolveMarks fs').2
    have hsound : run.Sound := (hrest.1.resolveMarks fs').1.sound
    obtain ⟨-, hlands, -⟩ := awaits_commitOver hrest.1.sound ha hw fs' source faults
    obtain ⟨-, hawaits⟩ := hlands counts hresult
    obtain ⟨file, hfile, hrow, hreport⟩ :=
      hsound.report_of_staged t (hextends.staged.subset hmem)
    have hidentity : file.identity = i := by
      have hi := hextends.identityAt hat
      rw [identityAt, hfile] at hi
      exact Option.some.inj hi
    refine ⟨_, hawaits, _, List.mem_append_right _ hrow, Tables.nextId_le_rowId _ _, ?_, ?_, ?_,
      List.mem_append_right _ hreport⟩
    · exact congrArg (fun i ↦ Data.text i.path) hidentity
    · exact congrArg (fun i ↦ Cell.integer i.mtime) hidentity
    · exact congrArg (fun i ↦ Cell.integer i.size) hidentity

def editedCalls : List TimedCall :=
  [⟨.single [], .record (Path.ofText "/file") ⟨1, 1, "t", "before"⟩⟩,
    ⟨.single [0x61], .record (Path.ofText "/file") ⟨1, 1, "t", "after"⟩⟩]

def editedCommit : Committed (List (Option SqlError) × World) :=
  (after {} editedCalls).commitOver (.single [0x61]) (.single .keepAll)
    (Store.single .keepAll).connection.failing {} ([], .fresh {} [0x61])

theorem editedCommit_attaches_to_kept :
    ∃ u, editedCommit.state.2.Awaits 0 (Store.single .keepAll).access u ∧
      ∃ row ∈ u.files, row.path = "/file" ∧ row.size = .integer 0 ∧
        Remark.report ⟨1, 1, "t", "after"⟩ row.id ∈ u.reports := by
  rcases record_attaches_to_kept (Store.single_isOrdinary .keepAll)
    (World.fresh_awaits {} [0x61] .keepAll) none (editedCalls.take 1) []
    (.single [0x61]) (.single [0x61]) (Path.ofText "/file") ⟨1, 1, "t", "after"⟩ {} []
    with ⟨herror, -⟩ | ⟨-, i, hi, -, hcommit⟩
  · cases herror
  · cases hi
    obtain ⟨u, hidle, row, hrow, -, hpath, -, hsize, hreport⟩ :=
      hcommit { files := 1, findings := 2 } rfl
    exact ⟨u, hidle, row, hrow, hpath, hsize, hreport⟩

/-- The second finding is recorded when the file has one byte, and lands on the row of the empty
file. A file that is gone can still be recorded. -/
theorem editedCommit_keeps_first_size :
    FileSystem.resolved? (.single [0x61]) (Path.ofText "/file") = some ⟨"/file", 0, 1⟩ ∧
      editedCommit.result = .ok { files := 1, findings := 2 } ∧
      (editedCommit.state.2.database 0).contents = .tables
        { files := [⟨1, "/file", .integer 0, .integer 0⟩]
          reports := [Remark.report ⟨1, 1, "t", "before"⟩ 1,
            Remark.report ⟨1, 1, "t", "after"⟩ 1] } ∧
      FileSystem.resolved? {} (Path.ofText "/file") = none ∧
      ((after {} editedCalls).record {} (Path.ofText "/file") ⟨1, 1, "t", "gone"⟩).1 = .ok () :=
  ⟨rfl, rfl, rfl, rfl, rfl⟩

end FindingStore.Ledger
