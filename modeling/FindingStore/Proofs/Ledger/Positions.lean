import FindingStore.Proofs.Ledger.Commit
import FindingStore.Proofs.Ledger.Counting
import FindingStore.Proofs.Ledger.Memory

namespace FindingStore

variable {σ τ α β γ : Type}

section Statements

variable (conn : Connection σ)

def Program.statements : Program β → σ → List Statement
  | .done _, _ => []
  | .execute s next, state => s :: (next (conn s state).1).statements (conn s state).2

theorem Program.statements_bind (p : Program β) (next : β → Program γ) (state : σ) :
    (p.bind next).statements conn state = p.statements conn state ++
      (next (p.run conn state).1).statements conn (p.run conn state).2 := by
  induction p generalizing state with
  | done b => rfl
  | execute s rest ih => exact congrArg (s :: ·) (ih _ _)

theorem Work.statements_ask (memory : τ) (q : Query) (next : q.Reply → Work τ α) (state : σ) :
    ∃ log, (ask memory q next).statements conn state = .query q :: log ∧
      (log = [] ∨ ∃ reply state', log = (next reply).statements conn state') := by
  refine ⟨_, rfl, ?_⟩
  generalize conn (.query q) state = end_
  obtain ⟨reply | reply, state'⟩ := end_
  · exact .inl rfl
  · exact .inr ⟨_, _, rfl⟩

theorem Work.IsDirect.exists_query {work : Work τ α} (h : work.IsDirect) (state : σ) :
    ∀ s ∈ work.statements conn state, ∃ q, s = .query q := by
  induction h generalizing state with
  | finish => exact List.forall_mem_nil _
  | ask memory q _ ih =>
    obtain ⟨log, hlog, hrest⟩ := statements_ask conn memory q _ state
    rw [hlog]
    refine List.forall_mem_cons.2 ⟨⟨q, rfl⟩, ?_⟩
    rcases hrest with rfl | ⟨reply, state', rfl⟩
    · exact List.forall_mem_nil _
    · exact ih reply state'

end Statements

def Statement.insertedPath? : Statement → Option String
  | .query (.insertFile _ (.text path) _ _) => some path
  | _ => none

def insertedPaths (log : List Statement) : List String := log.filterMap Statement.insertedPath?

theorem insertedPaths_cons (s : Statement) (log : List Statement) :
    insertedPaths (s :: log) = s.insertedPath?.toList ++ insertedPaths log := by
  unfold insertedPaths
  rw [List.filterMap_cons]
  cases s.insertedPath? <;> rfl

theorem insertedPaths_append (log more : List Statement) :
    insertedPaths (log ++ more) = insertedPaths log ++ insertedPaths more :=
  List.filterMap_append

theorem Work.sublist_ask {conn : Connection σ} {paths : List String} {q : Query}
    {next : q.Reply → Work τ α}
    (h : ∀ reply state, (insertedPaths ((next reply).statements conn state)).Sublist paths)
    (memory : τ) (state : σ) :
    (insertedPaths ((ask memory q next).statements conn state)).Sublist
      ((Statement.query q).insertedPath?.toList ++ paths) := by
  obtain ⟨log, hlog, hrest⟩ := statements_ask conn memory q next state
  rw [hlog, insertedPaths_cons]
  refine (List.Sublist.refl _).append ?_
  rcases hrest with rfl | ⟨reply, state', rfl⟩
  · exact List.nil_sublist paths
  · exact h reply state'

structure InsertsInOrder (paths : List String) (log : List Statement) : Prop where
  inside : .begin ∉ log
  sublist : (insertedPaths log).Sublist paths

theorem InsertsInOrder.append {paths : List String} {log more : List Statement}
    (h : InsertsInOrder paths log) (h' : InsertsInOrder [] more) :
    InsertsInOrder paths (log ++ more) where
  inside := by simp [h.inside, h'.inside]
  sublist := by
    rw [insertedPaths_append, List.sublist_nil.1 h'.sublist, List.append_nil]
    exact h.sublist

namespace Transaction

variable {conn : Connection σ} {work : τ → Work τ α} {paths : List String}

theorem insertsInOrder_conclude (conn : Connection σ) (verdict : Except SqlError (Verdict α))
    (state : σ) : InsertsInOrder [] ((conclude verdict).statements conn state) := by
  have hrolled (a : Attempt α) : InsertsInOrder [] ((rollbackThen a).statements conn state) :=
    ⟨by simp [rollbackThen, Program.statements], .refl []⟩
  rcases verdict with e | v | v | - | message
  · exact hrolled _
  · unfold conclude Program.statements
    rcases conn .commit state with ⟨e | _, state'⟩
    · exact ⟨by simp [rollbackThen, Program.statements], .refl []⟩
    · exact ⟨by simp [Program.statements], .refl []⟩
  · unfold conclude Program.statements
    rcases conn .rollback state with ⟨e | _, state'⟩
    · exact ⟨by simp [Program.statements], .refl []⟩
    · exact ⟨by simp [Program.statements], .refl []⟩
  · exact hrolled _
  · exact hrolled _

section

variable (hwork : ∀ memory state, InsertsInOrder paths ((work memory).statements conn state))

include hwork

theorem statements_attempt (memory : τ) (state : σ) :
    ∃ log, (attempt work memory).statements conn state = .begin :: log ∧
      InsertsInOrder paths log := by
  refine ⟨_, rfl, ?_⟩
  generalize conn .begin state = end_
  obtain ⟨reply | reply, state'⟩ := end_
  · exact ⟨List.not_mem_nil, List.nil_sublist paths⟩
  · have hworked := hwork memory state'
    dsimp only
    rw [Program.statements_bind]
    generalize (work memory).run conn state' = done
    obtain ⟨⟨verdict, memory'⟩, state''⟩ := done
    have hmap : ((conclude verdict).map fun a ↦ (a, memory')).statements conn state'' =
        (conclude verdict).statements conn state'' := by
      rw [Program.map, Program.statements_bind]
      exact List.append_nil _
    dsimp only
    rw [hmap]
    exact hworked.append (insertsInOrder_conclude conn verdict state'')

/-- The statements of a transaction are those of its attempts. -/
theorem statements_attempts (policy : Retry.Policy) (left number : Nat) (waited : List Nat)
    (last : String) (source : Retry.Source) (memory : τ) (state : σ) :
    ∃ logs : List (List Statement),
      (attempts policy work left number waited last source memory).statements conn state =
        logs.flatMap (.begin :: ·) ∧
      ∀ log ∈ logs, InsertsInOrder paths log := by
  induction left generalizing number waited last source memory state with
  | zero => exact ⟨[], rfl, nofun⟩
  | succ left ih =>
    obtain ⟨log, hlog, hfirst⟩ := statements_attempt hwork memory state
    unfold attempts
    dsimp only
    rw [Program.statements_bind, hlog]
    -- only an attempt that ends with something transient is followed by others
    have hone : ∃ logs : List (List Statement), .begin :: log ++ [] = logs.flatMap (.begin :: ·) ∧
        ∀ log ∈ logs, InsertsInOrder paths log :=
      ⟨[log], by simp, List.forall_mem_singleton.2 hfirst⟩
    rcases ((attempt work memory).run conn state).1 with ⟨r | message | e, memory'⟩
    · exact hone
    · obtain ⟨logs, hlogs, hrest⟩ := ih _ _ _ _ _ _
      refine ⟨log :: logs, ?_, List.forall_mem_cons.2 ⟨hfirst, hrest⟩⟩
      rw [List.flatMap_cons]
      exact congrArg _ hlogs
    · exact hone

end

end Transaction

namespace Ledger

section Landing

variable (conn : Connection σ) (retention : Retention)
  {next : List (Option Int) → CommitCounts → Work Unit CommitCounts}

theorem sublist_landFindings (files : List RunFile) (ids : List (Option Int))
    (staged : List RunFinding) (stats : CommitCounts) (state : σ) :
    (insertedPaths ((landFindings files ids staged stats).statements conn state)).Sublist [] := by
  induction staged generalizing stats state with
  | nil => exact List.Sublist.refl []
  | cons f rest ih =>
    unfold landFindings
    split
    · exact List.Sublist.refl []
    · exact Work.sublist_ask (fun _ state ↦ ih _ state) () state

theorem sublist_landFile {paths : List String}
    {next : Int → CommitCounts → Work Unit CommitCounts}
    (hnext : ∀ id stats state,
      (insertedPaths ((next id stats).statements conn state)).Sublist paths)
    (f : RunFile) (stats : CommitCounts) (state : σ) :
    (insertedPaths ((landFile retention f stats next).statements conn state)).Sublist
      (f.identity.path :: paths) := by
  refine Work.sublist_ask (fun id state ↦ ?_) () state
  cases retention with
  | keepAll => exact hnext id _ state
  | pruneSuperseded => exact Work.sublist_ask (fun _ state ↦ hnext id _ state) () state

theorem sublist_landFiles
    (hnext : ∀ ids stats state,
      (insertedPaths ((next ids stats).statements conn state)).Sublist [])
    (files : List RunFile) (ids : List (Option Int)) (stats : CommitCounts) (state : σ) :
    (insertedPaths ((landFiles retention next files ids stats).statements conn state)).Sublist
      (files.map (·.identity.path)) := by
  induction files generalizing ids stats state with
  | nil => exact hnext ids stats state
  | cons f rest ih =>
    have hland (state : σ) := sublist_landFile conn retention
      (fun id stats state ↦ ih (ids ++ [some id]) stats state) f stats state
    have hnone (state : σ) := (ih (ids ++ [none]) stats state).cons f.identity.path
    unfold landFiles needsRow
    split
    · exact hland state
    · split
      · refine Work.sublist_ask (fun id state ↦ ?_) () state
        cases id.isSome with
        | true => exact hland state
        | false => exact hnone state
      · exact hnone state

/-- A landing run inserts no two rows for one path. -/
theorem insertsInOrder_work (files : List RunFile) (staged : List RunFinding) (state : σ) :
    InsertsInOrder (files.map (·.identity.path))
      ((work retention files staged).statements conn state) where
  inside hbegin := by
    obtain ⟨q, hq⟩ := (isDirect_work retention files staged).exists_query conn state _ hbegin
    cases hq
  sublist := sublist_landFiles conn retention
    (fun ids stats state ↦ sublist_landFindings conn files ids staged stats state) files [] {} state

end Landing

section Rows

variable (outOfRange noRow : RunFinding → Work Unit CommitCounts)

/-- Lands the staged findings like `landFindings`, but tells a position behind the last row id from
that of a file without a row. -/
def landFindingsOr (ids : List (Option Int)) : List RunFinding → CommitCounts →
    Work Unit CommitCounts
  | [], stats => .finish (.ok (.commit stats)) ()
  | f :: rest, stats =>
    match ids[f.file]? with
    | none => outOfRange f
    | some none => noRow f
    | some (some id) =>
      .ask () (.insertReport (.integer id) (.integer f.line) (.integer f.column) (.text f.tool)
        (.text f.message)) fun _ ↦
          landFindingsOr ids rest { stats with findings := stats.findings + 1 }

def workOr (retention : Retention) (files : List RunFile) (staged : List RunFinding) :
    Work Unit CommitCounts :=
  landFiles retention (fun ids stats ↦ landFindingsOr outOfRange noRow ids staged stats) files [] {}

theorem landFindingsOr_eq {files : List RunFile} {ids : List (Option Int)}
    {staged : List RunFinding} (h : ∀ f ∈ staged, ∃ id, ids[f.file]? = some (some id))
    (stats : CommitCounts) :
    landFindingsOr outOfRange noRow ids staged stats = landFindings files ids staged stats := by
  induction staged generalizing stats with
  | nil => rfl
  | cons f rest ih =>
    obtain ⟨id, hid⟩ := h f List.mem_cons_self
    simp only [landFindingsOr, landFindings, hid, Option.join_some]
    refine congrArg _ (funext fun _ ↦ ?_)
    exact ih (fun g hg ↦ h g (List.mem_cons_of_mem _ hg)) _

/-- What follows the rows matters only for row ids as pending files get them. -/
theorem landFiles_congr (retention : Retention)
    {next next' : List (Option Int) → CommitCounts → Work Unit CommitCounts} (files : List RunFile)
    {before : List RunFile} {ids : List (Option Int)} (hids : Landed before ids)
    (stats : CommitCounts)
    (h : ∀ ids stats, Landed (before ++ files) ids → next ids stats = next' ids stats) :
    landFiles retention next files ids stats = landFiles retention next' files ids stats := by
  induction files generalizing before ids stats with
  | nil => exact h ids stats (by rwa [List.append_nil])
  | cons f rest ih =>
    -- whether the file gets a row or not, the ids up to it are as they should be
    have hrest {id : Option Int} (hid : f.hasFindings = true → id.isSome = true)
        (stats : CommitCounts) :
        landFiles retention next rest (ids ++ [id]) stats =
          landFiles retention next' rest (ids ++ [id]) stats := by
      refine ih (List.rel_append hids (.cons hid .nil)) stats fun ids' stats' hlanded ↦ ?_
      rw [List.append_assoc] at hlanded
      exact h ids' stats' hlanded
    have hland : (fun id stats ↦ landFiles retention next rest (ids ++ [some id]) stats) =
        fun id stats ↦ landFiles retention next' rest (ids ++ [some id]) stats :=
      funext fun id ↦ funext fun stats ↦ hrest (fun _ ↦ rfl) stats
    unfold landFiles needsRow
    rw [hland]
    split
    · rfl
    · next hfindings =>
      rw [hrest (fun hf ↦ absurd hf hfindings)]

theorem Sound.workOr_eq {l : Ledger} (h : l.Sound) (retention : Retention) :
    workOr outOfRange noRow retention l.files l.staged = work retention l.files l.staged := by
  refine landFiles_congr retention l.files List.Forall₂.nil {} fun ids stats hids ↦ ?_
  refine landFindingsOr_eq outOfRange noRow (fun f hf ↦ ?_) stats
  obtain ⟨file, hfile, hfindings⟩ := h.file_of_staged hf
  exact hids.exists_id hfile hfindings

end Rows

/-- All that the parts of a ledger say about each other by positions is true. -/
structure Consistent (l : Ledger) : Prop where
  nodup : (l.files.map (·.identity.path)).Nodup
  canonical {path : String} {n : Nat} :
    l.canonical.lookup path = some n ↔ ∃ f, l.files[n]? = some f ∧ f.identity.path = path
  aliases {parts : Path.Parts} {n : Nat} : l.aliases.lookup parts = some n → n < l.files.length
  staged {f : RunFinding} : f ∈ l.staged →
    ∃ file, l.files[f.file]? = some file ∧ file.hasFindings = true

theorem Sound.consistent {l : Ledger} (h : l.Sound) : l.Consistent where
  nodup := h.nodup
  canonical := by
    refine ⟨h.canonical, ?_⟩
    rintro ⟨f, hf, rfl⟩
    obtain ⟨k, hk⟩ := Option.isSome_iff_exists.1 (h.entered (List.mem_of_getElem? hf))
    obtain ⟨g, hg, hpath⟩ := h.canonical hk
    rw [hk, h.index_unique hg hf hpath]
  aliases := h.aliases
  staged := h.file_of_staged

theorem Sound.row_unique {l : Ledger} (h : l.Sound) (t : Tables) (retention : Retention)
    {r r' : FileRow} (hr : r ∈ (t.land retention l.files l.staged).files)
    (hr' : r' ∈ (t.land retention l.files l.staged).files) (hid : t.nextId ≤ r.id)
    (hid' : t.nextId ≤ r'.id) (hpath : r.path = r'.path) : r = r' := by
  have hnew {r : FileRow} (hr : r ∈ (t.land retention l.files l.staged).files)
      (hid : t.nextId ≤ r.id) : r ∈ t.newRows l.files := by
    refine (List.mem_append.1 hr).resolve_left fun hold ↦ ?_
    have hlt := Tables.lt_nextId (t := t) (List.mem_filter.1 hold).1
    omega
  obtain ⟨n, f, hf, -, rfl⟩ := Tables.exists_of_mem_newRows (hnew hr hid)
  obtain ⟨n', f', hf', -, rfl⟩ := Tables.exists_of_mem_newRows (hnew hr' hid')
  obtain rfl := h.index_unique hf hf' (Data.text.inj hpath)
  rw [Option.some.inj (hf.symm.trans hf')]

/-- A commit in a world with nobody else adds at most one row for a path. -/
theorem Sound.rows_commitOver {l : Ledger} (h : l.Sound) {s : Store} {w : World} {t : Tables}
    (ha : s.access.IsOrdinary) (hw : w.Idle s.database (· = s.access.cache) t) (fs : FileSystem)
    (source : Retry.Source) (faults : List (Option SqlError)) :
    ∃ u, (l.commitOver fs s s.connection.failing source (faults, w)).state.2.Idle s.database
        (· = s.access.cache) u ∧
      ∀ r ∈ u.files, ∀ r' ∈ u.files, t.nextId ≤ r.id → t.nextId ≤ r'.id → r.path = r'.path →
        r = r' := by
  have hrun : l.resolveMarks fs = l.resolveMarks fs := rfl
  have hcommit : l.commitOver fs s s.connection.failing source (faults, w) =
      l.commitOver fs s s.connection.failing source (faults, w) := rfl
  have hlands := commitOver_lands (Store.isolates (· = s.access.cache) rfl ha).failing h
    (faults, w) hw hrun hcommit
  split at hlands
  · refine ⟨_, hlands.2, fun r hr r' hr' ↦ ?_⟩
    exact (h.resolveMarks fs).row_unique t s.retention hr hr'
  · refine ⟨t, hlands, fun r hr r' _ hid ↦ ?_⟩
    have hlt := Tables.lt_nextId hr
    omega

/-- Whatever has been called, and whatever has become of the files in between, the positions in a
ledger lead to where they should, before a commit and when it has resolved the marks. Then it makes
no difference what a commit does about a finding whose file has no row, or about a position behind
the last row id: whatever it is answered, it does not come to this. Each of its attempts inserts at
most one row for a path, and so does the commit as a whole. -/
theorem reachable_consistent {l : Ledger} (h : l.Reachable) :
    l.Consistent ∧ ∀ fs : FileSystem,
      let run := l.resolveMarks fs
      let paths := run.files.map (·.identity.path)
      run.Consistent ∧
      (∀ (outOfRange noRow : RunFinding → Work Unit CommitCounts) (retention : Retention),
        workOr outOfRange noRow retention run.files run.staged =
          work retention run.files run.staged) ∧
      (∀ {σ : Type} (conn : Connection σ) (s : Store) (source : Retry.Source) (state : σ),
        (∀ message, (l.commitOver fs s conn source state).result ≠ .error (.aborted message)) ∧
        ∃ logs : List (List Statement),
          (Transaction.program s.policy source (fun _ ↦ work s.retention run.files run.staged)
            ()).statements conn state = logs.flatMap (.begin :: ·) ∧
          ∀ log ∈ logs, InsertsInOrder paths log ∧ (insertedPaths log).Nodup) ∧
      ∀ {s : Store} {w : World} {t : Tables}, s.access.IsOrdinary →
        w.Idle s.database (· = s.access.cache) t →
        ∀ (source : Retry.Source) (faults : List (Option SqlError)),
          ∃ u, (l.commitOver fs s s.connection.failing source (faults, w)).state.2.Idle s.database
              (· = s.access.cache) u ∧
            ∀ r ∈ u.files, ∀ r' ∈ u.files, t.nextId ≤ r.id → t.nextId ≤ r'.id → r.path = r'.path →
              r = r' := by
  refine ⟨h.sound.consistent, ?_⟩
  intro fs run paths
  have hsound : run.Sound := h.sound.resolveMarks fs
  refine ⟨hsound.consistent, fun outOfRange noRow ↦ hsound.workOr_eq outOfRange noRow, ?_,
    fun ha hw ↦ h.sound.rows_commitOver ha hw fs⟩
  refine fun conn s source state ↦ ⟨fun message he ↦ ?_, ?_⟩
  · nomatch failsByEngine_commitOver h fs s conn source state _ he
  · have hwork := insertsInOrder_work conn s.retention run.files run.staged
    obtain ⟨logs, hlogs, horder⟩ := Transaction.statements_attempts (fun _ ↦ hwork) s.policy
      s.policy.maxAttempts 1 [] "no attempt made" source () state
    exact ⟨logs, hlogs, fun log hlog ↦
      ⟨horder log hlog, hsound.nodup.sublist (horder log hlog).sublist⟩⟩

def remarked : Ledger := single.mark (Path.ofText "/./file")

def remarkedCommit : Committed (List (Option SqlError) × World) :=
  remarked.commitOver (.single []) (.single .keepAll) (Store.single .keepAll).connection.failing {}
    ([none, none, some .locked], World.single {} (.single []))

theorem remarked_consistent :
    remarked.Consistent ∧ (remarked.resolveMarks (.single [])).Consistent ∧
      (remarked.resolveMarks (.single [])).canonical = [("/file", 0)] ∧
      remarkedCommit.result = .ok { files := 1, findings := 1 } ∧
      (∀ message, remarkedCommit.result ≠ .error (.aborted message)) ∧
      ∃ u, remarkedCommit.state.2.Idle 0 (· = 0) u ∧ ∀ row ∈ u.files, ∀ row' ∈ u.files,
        1 ≤ row.id → 1 ≤ row'.id → row.path = row'.path → row = row' := by
  have hreachable : remarked.Reachable := .mark _ (.record (.single []) _ _ .empty)
  obtain ⟨hconsistent, hcommit⟩ := reachable_consistent hreachable
  obtain ⟨hrun, -, hany, hrows⟩ := hcommit (.single [])
  obtain ⟨habort, -⟩ := hany (Store.single .keepAll).connection.failing (.single .keepAll) {}
    ([none, none, some .locked], World.single {} (.single []))
  have hadded := hrows (Store.single_isOrdinary .keepAll)
    (World.single_idle (t := {}) (FileSystem.single_spares [])) {} [none, none, some .locked]
  exact ⟨hconsistent, hrun, by decide +kernel, rfl, habort, hadded⟩

end Ledger

end FindingStore
