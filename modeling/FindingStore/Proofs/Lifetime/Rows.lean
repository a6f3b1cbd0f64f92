import FindingStore.Proofs.Lifetime.Turns
import FindingStore.Proofs.Store.Numbering

namespace FindingStore

namespace Lifetime

def State.tables (st : State) : Tables :=
  match (st.world.database 0).contents with
  | .tables t => t
  | _ => {}

def committedRows : List State → List FileRow
  | [] => []
  | [st] => st.tables.files
  | st :: before :: past =>
    committedRows (before :: past) ++
      st.tables.files.filter fun r ↦ !before.tables.files.contains r

variable {home : Location} {st st' : State} {past : List State} {x : Shared}

theorem State.Turns.tables (h : st.Turns home x) : st.tables = x.tables := by
  simp only [State.tables, h.shares.stands.contents]

/-- A step adds rows after all others, or leaves the tables as they are. -/
theorem Step.numbered (hstep : Step home st st') (h : st.Turns home x) {history : List FileRow}
    (hn : st.tables.Numbered history) :
    st'.tables.Numbered
      (history ++ st'.tables.files.filter fun r ↦ !st.tables.files.contains r) := by
  obtain ⟨y, hy, ⟨-, hsame⟩ | ⟨-, job, hjob, answer, hlands⟩⟩ := hstep.turns h
  · have hnone : st.tables.files.filter (fun r ↦ !st.tables.files.contains r) = [] :=
      List.filter_eq_nil_iff.2 fun r hr ↦ by simpa using hr
    rw [hy.tables, hsame, ← h.tables, hnone, List.append_nil]
    exact hn
  · obtain ⟨rows, hadvances⟩ := hlands.advances (h.job hjob).1
    rw [← h.tables, ← hy.tables] at hadvances
    rw [hadvances.filter_files]
    exact hn.advances hadvances

theorem numbered (h : Lifetime home (st :: past)) :
    st.tables.Numbered (committedRows (st :: past)) := by
  generalize hstates : st :: past = states at h
  induction h generalizing st past with
  | created hw hp hs =>
    cases hstates
    have hturns := State.Turns.created hw hp hs
    rw [committedRows, hturns.tables]
    exact Tables.numbered_nil
  | step h hstep ih =>
    cases hstates
    obtain ⟨x, hx⟩ := turns h List.mem_cons_self
    exact hstep.numbered hx (ih rfl)

/-- The tables change by commits alone. -/
theorem tables_eq_of_commits (h : Lifetime home (st :: past)) {before : State}
    (hbefore : before ∈ st :: past) :
    before.commits.length ≤ st.commits.length ∧
      (before.commits.length = st.commits.length → before.tables = st.tables) := by
  generalize hstates : st :: past = states at h
  induction h generalizing st past with
  | created hw hp hs =>
    cases hstates
    obtain rfl := List.mem_singleton.1 hbefore
    exact ⟨Nat.le_refl _, fun _ ↦ rfl⟩
  | step h hstep ih =>
    cases hstates
    rcases List.mem_cons.1 hbefore with rfl | hbefore
    · exact ⟨Nat.le_refl _, fun _ ↦ rfl⟩
    obtain ⟨hle, hsame⟩ := ih hbefore rfl
    obtain ⟨x, hx⟩ := turns h List.mem_cons_self
    obtain ⟨y, hy, ⟨hcommits, htables⟩ | ⟨⟨k, hcommits⟩, -⟩⟩ := hstep.turns hx
    · rw [hcommits, hy.tables, htables, ← hx.tables]
      exact ⟨hle, hsame⟩
    · rw [hcommits, List.length_append, List.length_singleton]
      exact ⟨by omega, fun he ↦ by omega⟩

/-- Whatever happens to a store, every report belongs to a row of a file. A row that is committed
has a larger number than every one committed before it, so that no number is used again, and the
largest number of a path is that of the row committed last. To create or open the store again
changes nothing. -/
theorem rows_ascend (h : Lifetime home (st :: past)) :
    (st.world.database 0).contents = .tables st.tables ∧
      (∀ report ∈ st.tables.reports, ∃ r ∈ st.tables.files, report.file = .integer r.id) ∧
      st.tables.files ⊆ committedRows (st :: past) ∧
      (committedRows (st :: past)).Pairwise (·.id < ·.id) ∧
      (∀ path, st.tables.latest? path =
        (((committedRows (st :: past)).filter (·.path == path)).getLast?).map FileRow.id) ∧
      ∀ p config, st.world.Finds p home →
        ((Store.create st.world p config).2.database 0).contents =
            (st.world.database 0).contents ∧
          ((Store.openExisting st.world p config).2.database 0).contents =
            (st.world.database 0).contents := by
  obtain ⟨x, hx⟩ := turns h List.mem_cons_self
  have hnumbered := numbered h
  refine ⟨hx.tables.symm ▸ hx.shares.stands.contents, fun report hreport ↦ ?_, hnumbered.known,
    hnumbered.ascending, hnumbered.latest, fun p config hp ↦ ⟨?_, ?_⟩⟩
  · exact Tables.hasFile_eq_true.1 (List.all_eq_true.1 hnumbered.consistent report hreport)
  · exact (hx.shares.serves.create hp hx.shares.stands hx.holder_lt config).1.agrees.contents
  · exact (hx.shares.serves.openExisting hp hx.shares.stands hx.holder_lt config).1.agrees.contents

def State.pruned : State :=
  [2, 2, 2].foldl State.advance (State.overtaken.start (handle .keepAll 0) .prune)

def State.renumbered : State :=
  [3, 3, 3, 3].foldl State.advance (State.pruned.commit .keepAll 1 [] "third")

theorem renumbered_rows_ascend :
    State.renumbered.tables.files.map FileRow.id = [2, 3] ∧
      ∃ past, (committedRows (State.renumbered :: past)).Pairwise (·.id < ·.id) ∧
        some 3 = (((committedRows (State.renumbered :: past)).filter
          (·.path == .text "/file")).getLast?).map FileRow.id := by
  obtain ⟨past, h⟩ := overtaken
  obtain ⟨past, h⟩ : ∃ past, Lifetime _ (State.pruned :: past) :=
    schedule _ (h.step (.prune (s := handle .keepAll 0) (by decide +kernel) (by decide +kernel)))
      (by decide +kernel)
  obtain ⟨past, h⟩ : ∃ past, Lifetime _ (State.renumbered :: past) :=
    schedule _ (h.commit (by decide +kernel) (by decide +kernel) [] "third") (by decide +kernel)
  obtain ⟨-, -, -, hascending, hlatest, -⟩ := rows_ascend h
  have hnewest : State.renumbered.tables.latest? "/file" = some 3 := by decide +kernel
  exact ⟨by decide +kernel, past, hascending, hnewest ▸ hlatest "/file"⟩

end Lifetime

end FindingStore
