import FindingStore.Command.Run
import FindingStore.Proofs.Ledger.Counting
import FindingStore.Proofs.Ledger.Spelling
import FindingStore.Proofs.Lifetime.Turns
import FindingStore.Proofs.Store.Uninterrupted

namespace FindingStore

namespace Sarif

theorem position?_le {location : Json.Value} {key : String} {n : Nat}
    (h : position? location key = some n) : n ≤ maxPosition := by
  obtain ⟨m, -, rfl⟩ := Option.map_eq_some_iff.1 h
  exact Nat.min_le_right ..

theorem inRange_of_finding? {base : Path} {run result : Json.Value} {r : Result}
    (h : finding? base run result = some r) : r.toRemark.InRange := by
  have hcapped (location : Json.Value) (key : String) (fallback : Nat) (hf : fallback ≤ 1) :
      (position? location key).getD fallback ≤ maxPosition := by
    cases hp : position? location key with
    | none => exact Nat.le_trans hf (by decide)
    | some n => exact position?_le hp
  have hmax : (maxPosition : Int) = Cell.maxCoordinate := rfl
  unfold finding? at h
  dsimp only at h
  split at h
  · cases h
  · obtain ⟨location, -, h⟩ := Option.bind_eq_some_iff.1 h
    obtain ⟨path, -, h⟩ := Option.bind_eq_some_iff.1 h
    cases h
    refine ⟨?_, ?_⟩
    · have := hcapped location "startLine" 0 (Nat.zero_le _)
      dsimp only
      omega
    · have := hcapped location "startColumn"
        (if 0 < (position? location "startLine").getD 0 then 1 else 0) (by split <;> omega)
      dsimp only
      omega

theorem inRange_of_parse {source : String} {base : Path} {results : List Result}
    (h : parse source base = .ok results) {r : Result} (hr : r ∈ results) :
    r.toRemark.InRange := by
  obtain ⟨log, -, rfl⟩ := map_eq_ok.1 h
  obtain ⟨run, -, hr⟩ := List.mem_flatMap.1 hr
  obtain ⟨result, -, hr⟩ := List.mem_filterMap.1 hr
  exact inRange_of_finding? hr

end Sarif

namespace Ledger

variable {σ : Type} {fs : FileSystem} {l l' : Ledger}

theorem commitOver_congr (h : (l.resolveMarks fs).bare = (l'.resolveMarks fs).bare) (s : Store)
    (conn : Connection σ) (source : Retry.Source) (state : σ) :
    (l.commitOver fs s conn source state).result = (l'.commitOver fs s conn source state).result ∧
      (l.commitOver fs s conn source state).state =
        (l'.commitOver fs s conn source state).state := by
  have hfiles : (l.resolveMarks fs).bare.files = (l'.resolveMarks fs).bare.files := by rw [h]
  have hstaged : (l.resolveMarks fs).bare.staged = (l'.resolveMarks fs).bare.staged := by rw [h]
  dsimp only [bare] at hfiles hstaged
  dsimp only [commitOver]
  rw [hfiles, hstaged]
  split <;> exact ⟨rfl, rfl⟩

theorem error_commitOver {s : Store} {conn : Connection σ} {source : Retry.Source} {state : σ}
    {counts : CommitCounts} (h : (l.commitOver fs s conn source state).result = .ok counts) :
    (l.commitOver fs s conn source state).ledger.error = (l.resolveMarks fs).error := by
  unfold commitOver at h ⊢
  dsimp only at h ⊢
  split at h
  · rfl
  · cases h

theorem foldl_mark (marks : List Path) (l : Ledger) :
    marks.foldl Ledger.mark l = { l with marks := l.marks ++ marks } := by
  induction marks generalizing l with
  | nil => simp
  | cons p rest ih => simp [ih, mark]

end Ledger

namespace Command

open Ledger

variable {fs : FileSystem} {seen marks : List Path} {l l' : Ledger} {o : Output}
  {results : List Sarif.Result}

def found (fs : FileSystem) (results : List Sarif.Result) : List Sarif.Result :=
  sift fs (·.path) true [] results

def refused (fs : FileSystem) (results : List Sarif.Result) : List Sarif.Result :=
  sift fs (·.path) false [] results

def marked (fs : FileSystem) (results : List Sarif.Result) (marks : List Path) (found : Bool) :
    List Path :=
  sift fs id found (results.map (·.path)) marks

def complain (o : Output) (refused : List Sarif.Result) : Output :=
  refused.foldl (fun o r ↦ o.warn s!"error: {(LedgerError.fileNotFound r.path).message}") o

theorem complain_append (o : Output) (refused more : List Sarif.Result) :
    complain o (refused ++ more) = complain (complain o refused) more := List.foldl_append

def gather (fs : FileSystem) (results : List Sarif.Result) (marks : List Path) : Output × Ledger :=
  results.foldl (recordResult fs) ({}, marks.foldl Ledger.mark {})

structure Recorded (fs : FileSystem) (seen : List Path) (l : Ledger) (results : List Sarif.Result)
    (l' : Ledger) : Prop where
  spells : l'.Spells fs (seen ++ results.map (·.path))
  reachable : l.Reachable → l'.Reachable
  marks : l'.marks = l.marks
  staged : l'.staged.map RunFinding.toRemark =
    l.staged.map RunFinding.toRemark ++
      (sift fs (·.path) true seen results).map Sarif.Result.toRemark
  error : l'.error = none ↔ l.error = none ∧ sift fs (·.path) false seen results = []

theorem recorded_recordResult (h : l.Spells fs seen) (o : Output) (r : Sarif.Result) :
    (recordResult fs (o, l) r).1 = complain o (sift fs (·.path) false seen [r]) ∧
      Recorded fs seen l [r] (recordResult fs (o, l) r).2 := by
  have hreachable (hl : l.Reachable) := hl.record fs r.path r.toRemark
  have herror := h.error_record r.path r.toRemark
  obtain ⟨hspells, hrecord⟩ := h.record r.path r.toRemark
  rcases hr : l.record fs r.path r.toRemark with ⟨e | ⟨⟩, l'⟩
  · have hresult : recordResult fs (o, l) r = (o.warn s!"error: {e.message}", l') := by
      simp only [recordResult, hr]
    have hfailed := record_error (congrArg Prod.fst hr)
    rw [hr] at hreachable herror hspells hrecord hfailed
    obtain rfl : l' = l.fail e := hfailed
    cases hknows : knows fs seen r.path with
    | true =>
      rw [hknows] at hrecord
      cases hrecord
    | false =>
      rw [hknows] at hrecord
      cases hrecord
      rw [hresult]
      refine ⟨by simp [sift, hknows, complain], hspells, hreachable, rfl, ?_, ?_⟩
      · simp [sift, hknows, fail]
      · simp [sift, hknows, fail]
  · have hresult : recordResult fs (o, l) r = (o, l') := by simp only [recordResult, hr]
    obtain ⟨n, hstaged, hmarks⟩ := buffers_record (congrArg Prod.fst hr)
    rw [hr] at hreachable herror hspells hrecord hstaged hmarks
    have hstaged : l'.staged = l.staged ++ [{ r.toRemark with file := n }] := hstaged
    cases hknows : knows fs seen r.path with
    | true =>
      rw [hresult]
      refine ⟨by simp [sift, hknows, complain], hspells, hreachable, hmarks, ?_, ?_⟩
      · simp [sift, hknows, hstaged]
      · simpa [sift, hknows] using herror
    | false =>
      rw [hknows] at hrecord
      cases hrecord

/-- Records findings one after the other; none of them stops another one. -/
theorem recorded_foldl (h : l.Spells fs seen) (o : Output) (results : List Sarif.Result) :
    (results.foldl (recordResult fs) (o, l)).1 =
        complain o (sift fs (·.path) false seen results) ∧
      Recorded fs seen l results (results.foldl (recordResult fs) (o, l)).2 := by
  induction results generalizing seen o l with
  | nil => exact ⟨rfl, by simpa using h, id, rfl, by simp [sift], by simp [sift]⟩
  | cons r rest ih =>
    obtain ⟨hfirst, hone⟩ := recorded_recordResult h o r
    obtain ⟨hrest, hmore⟩ := ih hone.spells (recordResult fs (o, l) r).1
    have hsift (found : Bool) : sift fs (·.path) found seen (r :: rest) =
        sift fs (·.path) found seen [r] ++ sift fs (·.path) found (seen ++ [r.path]) rest := by
      simp only [sift]
      split <;> rfl
    rw [List.foldl_cons]
    refine ⟨?_, ?_⟩
    · rw [hsift, complain_append, ← hfirst]
      exact hrest
    · have happend : seen ++ (r :: rest).map (·.path) = seen ++ [r.path] ++ rest.map (·.path) := by
        simp
      refine ⟨happend ▸ hmore.spells, fun hl ↦ hmore.reachable (hone.reachable hl),
        hmore.marks.trans hone.marks, ?_, ?_⟩
      · rw [hmore.staged, hone.staged, hsift, List.map_append, List.append_assoc]
        rfl
      · rw [hmore.error, hone.error, hsift, List.append_eq_nil_iff, and_assoc]
        rfl

structure Reads (w : World) (config : Config) (db : Option Path) (log : Path) (s : Store)
    (v : World) (results : List Sarif.Result) : Prop where
  opened : openStore w config db = (.ok s, v)
  parsed : ∃ content base, v.files.readText log = .ok content ∧
    v.files.currentDirectory = .ok base ∧ Sarif.parse content base = .ok results

/-- What stops an import, after it has printed something. -/
inductive Stops (w : World) (config : Config) (db : Option Path) (log : Path)
    (marks : List Path) : Output → Fatal → Prop
  | store {e : StoreError} : (openStore w config db).1 = .error e →
      Stops w config db log marks {} (.store e)
  | readLog {s : Store} {v : World} {e : IoError} : openStore w config db = (.ok s, v) →
      v.files.readText log = .error e → Stops w config db log marks {} (.readLog log e)
  | currentDirectory {s : Store} {v : World} {content : String} {e : IoError} :
      openStore w config db = (.ok s, v) → v.files.readText log = .ok content →
      v.files.currentDirectory = .error e → Stops w config db log marks {} (.currentDirectory e)
  | parseLog {s : Store} {v : World} {content : String} {base : Path} {e : Json.ReadError} :
      openStore w config db = (.ok s, v) → v.files.readText log = .ok content →
      v.files.currentDirectory = .ok base → Sarif.parse content base = .error e →
      Stops w config db log marks {} (.parseLog e)
  | commit {s : Store} {v : World} {results : List Sarif.Result} {e : StoreError} :
      Reads w config db log s v results →
      ((gather v.files results marks).2.commit s {} v).result = .error e →
      Stops w config db log marks (complain {} (refused v.files results)) (.store e)

/-- A store in a file on which handles take turns, and which an import finds if it finds any. -/
structure Offers (w : World) (db : Option Path) (n : Nat) (home : Location) (x : Shared) :
    Prop where
  shares : w.Shares n home x
  before : ∀ held ∈ x.holder, held.1 < w.opened
  leads {p : Path} : db = some p ∨ db = none ∧ Store.locate w.files [Path.dot] = .ok p →
    w.Finds p home ∨ ∃ failure, w.openDatabase p .readWrite = .error failure

section Offers

variable {w v : World} {config : Config} {db : Option Path} {log : Path} {n : Nat}
  {home : Location} {x y : Shared} {s : Store}

theorem Offers.openExisting (h : Offers w db n home x) {p : Path}
    (hp : db = some p ∨ db = none ∧ Store.locate w.files [Path.dot] = .ok p) (config : Config) :
    let r := Store.openExisting w p config
    r.2.Shares n home x ∧ ∀ s, r.1 = .ok s →
      s.IsHandle n home ∧ s.access.session = w.opened ∧ s.retention = config.retention := by
  rcases h.leads hp with hfinds | ⟨failure, hfailure⟩
  · obtain ⟨hcontinues, hok⟩ :=
      h.shares.serves.openExisting hfinds h.shares.stands h.before config
    refine ⟨h.shares.continues hcontinues h.before, fun s hs ↦ ?_⟩
    obtain ⟨hhandle, hsession, -, hretention⟩ := hok s hs
    exact ⟨hhandle, hsession, hretention⟩
  · simp only [Store.openExisting, Store.connect, hfailure]
    refine ⟨h.shares, fun s hs ↦ ?_⟩
    cases hs

theorem Offers.openStore (h : Offers w db n home x) (config : Config) :
    let r := openStore w config db
    r.2.Shares n home x ∧ ∀ s, r.1 = .ok s →
      s.IsHandle n home ∧ s.access.session = w.opened ∧ s.retention = config.retention := by
  cases db with
  | some p => exact h.openExisting (.inl rfl) config
  | none =>
    simp only [Command.openStore, Store.discover]
    cases hlocate : Store.locate w.files [Path.dot] with
    | error e =>
      refine ⟨h.shares, fun s hs ↦ ?_⟩
      cases hs
    | ok p => exact h.openExisting (.inr ⟨rfl, hlocate⟩) config

theorem Offers.own? (h : Offers w db n home x) (hsession : s.access.session = w.opened) :
    x.own? s.access.session = none := by
  rw [Shared.own?_eq_none]
  intro held hheld he
  have := h.before held hheld
  omega

theorem Offers.close (h : Offers w db n home x) (hopen : Command.openStore w config db = (.ok s, v))
    {u : World} (hu : u.Shares n home y) (hy : y.own? s.access.session = none) :
    (s.close u).Shares n home y := by
  obtain ⟨-, hok⟩ := h.openStore config
  obtain ⟨hhandle, -⟩ := hok s (by rw [hopen])
  have hclosed := (hu.close hhandle).1
  rwa [Shared.without_of_own? hy] at hclosed

theorem Offers.close_opened (h : Offers w db n home x)
    (hopen : Command.openStore w config db = (.ok s, v)) : (s.close v).Shares n home x := by
  obtain ⟨hshares, hok⟩ := h.openStore config
  rw [hopen] at hshares hok
  exact h.close hopen hshares (h.own? (hok s rfl).2.1)

theorem Offers.commit (h : Offers w db n home x)
    (hopen : Command.openStore w config db = (.ok s, v)) {l : Ledger} (hl : l.Reachable)
    (hr : ∀ f ∈ l.staged, f.toRemark.InRange) (source : Retry.Source) :
    let run := l.resolveMarks v.files
    let r := l.commit s source v
    (∀ counts, r.result = .ok counts →
        counts = x.tables.landCounts config.retention run.files run.staged ∧
          (s.close r.state).Shares n home
            ⟨x.tables.land config.retention run.files run.staged, none⟩) ∧
      ∀ e, r.result = .error e → (s.close r.state).Shares n home x := by
  obtain ⟨hshares, hok⟩ := h.openStore config
  rw [hopen] at hshares hok
  obtain ⟨hhandle, hsession, hretention⟩ := hok s rfl
  have hfree := h.own? hsession
  obtain ⟨hlands, hkeeps⟩ := World.Shares.commit hshares hhandle hfree hl hr source
  rw [hretention] at hlands
  refine ⟨fun counts hresult ↦ ?_, fun e hresult ↦ h.close hopen (hkeeps e hresult) hfree⟩
  obtain ⟨hcounts, hlanded⟩ := hlands counts hresult
  exact ⟨hcounts, h.close hopen hlanded rfl⟩

end Offers

theorem run_ingest_of_reads {w v : World} {config : Config} {db : Option Path} {log : Path}
    {s : Store} (h : Reads w config db log s v results) (marks : List Path) :
    run w config (.ingest db log marks) =
      { land results marks s v with world := s.close (land results marks s v).world } := by
  obtain ⟨content, base, hcontent, hbase, hparsed⟩ := h.parsed
  simp only [run, withStore, h.opened, ingestLog, hcontent, hbase, hparsed]

theorem recorded_gather (fs : FileSystem) (results : List Sarif.Result) (marks : List Path) :
    (gather fs results marks).1 = complain {} (refused fs results) ∧
      Recorded fs [] { marks } results (gather fs results marks).2 := by
  have hmarks : marks.foldl Ledger.mark ({} : Ledger) = { marks } := by
    rw [foldl_mark]
    rfl
  have hempty : Spells fs [] ({ marks } : Ledger) := (Spells.empty fs none).congr rfl rfl
  unfold gather
  rw [hmarks]
  exact recorded_foldl hempty {} results

theorem foldl_recordResult_congr (h : l.bare = l'.bare) (o : Output)
    (results : List Sarif.Result) :
    (results.foldl (recordResult fs) (o, l)).1 = (results.foldl (recordResult fs) (o, l')).1 ∧
      (results.foldl (recordResult fs) (o, l)).2.bare =
        (results.foldl (recordResult fs) (o, l')).2.bare := by
  induction results generalizing o l l' with
  | nil => exact ⟨rfl, h⟩
  | cons r rest ih =>
    have hone (l : Ledger) : recordResult fs (o, l) r =
        (match (l.record fs r.path r.toRemark).1 with
          | .ok () => o
          | .error e => o.warn s!"error: {e.message}", (l.record fs r.path r.toRemark).2) := by
      unfold recordResult
      rcases l.record fs r.path r.toRemark with ⟨e | ⟨⟩, m⟩ <;> rfl
    have hbare (l : Ledger) : (l.bare.record fs r.path r.toRemark).1 =
          (l.record fs r.path r.toRemark).1 ∧
        (l.bare.record fs r.path r.toRemark).2.bare = (l.record fs r.path r.toRemark).2.bare :=
      l.record_bare r.path r.toRemark
    rw [List.foldl_cons, List.foldl_cons, hone l, hone l', ← (hbare l).1, ← (hbare l').1, h]
    refine ih ?_ _
    rw [← (hbare l).2, ← (hbare l').2, h]

theorem reachable_gather (fs : FileSystem) (results : List Sarif.Result) (marks : List Path) :
    (gather fs results marks).2.Reachable := by
  refine (recorded_gather fs results marks).2.reachable ?_
  have hmark (paths : List Path) : ∀ {l : Ledger}, l.Reachable →
      (paths.foldl Ledger.mark l).Reachable := by
    induction paths with
    | nil => exact id
    | cons p rest ih => exact fun hl ↦ ih (hl.mark p)
  have hmarked := hmark marks .empty
  rwa [foldl_mark] at hmarked

theorem inRange_gather {w v : World} {config : Config} {db : Option Path} {log : Path} {s : Store}
    (h : Reads w config db log s v results) (marks : List Path) :
    ∀ f ∈ (gather v.files results marks).2.staged, f.toRemark.InRange := by
  obtain ⟨content, base, -, -, hparsed⟩ := h.parsed
  intro f hf
  have hmem : f.toRemark ∈ (gather v.files results marks).2.staged.map RunFinding.toRemark :=
    List.mem_map_of_mem hf
  rw [(recorded_gather v.files results marks).2.staged] at hmem
  obtain ⟨r, hr, hfr⟩ := List.mem_map.1 hmem
  rw [← hfr]
  exact Sarif.inRange_of_parse hparsed (mem_of_mem_sift hr)

theorem length_staged_gather (fs : FileSystem) (results : List Sarif.Result) (marks : List Path) :
    (gather fs results marks).2.staged.length = (found fs results).length := by
  have hstaged := congrArg List.length (recorded_gather fs results marks).2.staged
  simpa [found] using hstaged

theorem land_eq (results : List Sarif.Result) (marks : List Path) (s : Store) (v : World) :
    land results marks s v =
      let (o, ledger) := gather v.files results marks
      let c := ledger.commit s {} v
      match c.result with
      | .error e => die o c.state (.store e)
      | .ok counts =>
        finish (o.print s!"imported {counts.findings} findings for {counts.files} files")
          c.ledger.error.isNone c.state := rfl

theorem stdout_complain (refused : List Sarif.Result) (o : Output) :
    (complain o refused).stdout = o.stdout := by
  induction refused generalizing o with
  | nil => rfl
  | cons r rest ih => exact ih _

theorem output_die (o : Output) (w : World) (f : Fatal) :
    (f ≠ .store .timeoutTooLong →
        (die o w f).output = o.warn f.message ∧ (die o w f).status = .failure) ∧
      (f = .store .timeoutTooLong →
        (die o w f).output = o ∧ ∃ reason, (die o w f).status = .crash reason) := by
  refine ⟨fun hf ↦ ?_, fun hf ↦ ?_⟩
  · unfold die
    split
    · exact absurd rfl hf
    · exact ⟨rfl, rfl⟩
  · rw [hf]
    exact ⟨rfl, _, rfl⟩

theorem stdout_die (o : Output) (w : World) (f : Fatal) :
    (die o w f).output.stdout = o.stdout := by
  unfold die
  split <;> rfl

theorem world_die (o : Output) (w : World) (f : Fatal) : (die o w f).world = w := by
  unfold die
  split <;> rfl

theorem Stops.run_ingest {w : World} {config : Config} {db : Option Path} {log : Path} {f : Fatal}
    (h : Stops w config db log marks o f) :
    let r := run w config (.ingest db log marks)
    (f ≠ .store .timeoutTooLong → r.output = o.warn f.message ∧ r.status = .failure) ∧
      (f = .store .timeoutTooLong → r.output = o ∧ ∃ reason, r.status = .crash reason) ∧
      o.stdout = "" ∧ ∀ {n home x}, Offers w db n home x → r.world.Shares n home x := by
  intro r
  -- the import dies, and then the store is closed if it has been opened
  have hdies {u : World} (hr : r.output = (die o u f).output ∧ r.status = (die o u f).status) :
      (f ≠ .store .timeoutTooLong → r.output = o.warn f.message ∧ r.status = .failure) ∧
        (f = .store .timeoutTooLong → r.output = o ∧ ∃ reason, r.status = .crash reason) := by
    rw [hr.1, hr.2]
    exact output_die o u f
  rw [← and_assoc]
  cases h with
  | @store e hstore =>
    rcases hopen : openStore w config db with ⟨_, v⟩
    rw [hopen] at hstore
    obtain rfl := hstore
    have hr : r = die {} v (.store e) := by simp only [r, run, withStore, hopen]
    refine ⟨hdies (by rw [hr]; exact ⟨rfl, rfl⟩), rfl, fun {n home x} ho ↦ ?_⟩
    have hshares := (ho.openStore config).1
    rw [hopen] at hshares
    rwa [hr, world_die]
  | @readLog s v e hopen hread =>
    have hr : r = { die {} v (.readLog log e) with world := s.close v } := by
      simp only [r, run, withStore, hopen, ingestLog, hread, world_die]
    exact ⟨hdies (by rw [hr]; exact ⟨rfl, rfl⟩), rfl, fun ho ↦ hr ▸ ho.close_opened hopen⟩
  | @currentDirectory s v content e hopen hread hbase =>
    have hr : r = { die {} v (.currentDirectory e) with world := s.close v } := by
      simp only [r, run, withStore, hopen, ingestLog, hread, hbase, world_die]
    exact ⟨hdies (by rw [hr]; exact ⟨rfl, rfl⟩), rfl, fun ho ↦ hr ▸ ho.close_opened hopen⟩
  | @parseLog s v content base e hopen hread hbase hparse =>
    have hr : r = { die {} v (.parseLog e) with world := s.close v } := by
      simp only [r, run, withStore, hopen, ingestLog, hread, hbase, hparse, world_die]
    exact ⟨hdies (by rw [hr]; exact ⟨rfl, rfl⟩), rfl, fun ho ↦ hr ▸ ho.close_opened hopen⟩
  | @commit s v results e hreads hresult =>
    obtain ⟨ho, hrecorded⟩ := recorded_gather v.files results marks
    have hr : r = { die (gather v.files results marks).1
        ((gather v.files results marks).2.commit s {} v).state (.store e) with
          world := s.close ((gather v.files results marks).2.commit s {} v).state } := by
      simp only [r, run_ingest_of_reads hreads, land_eq, hresult, world_die]
    rw [ho] at hr
    refine ⟨hdies (by rw [hr]; exact ⟨rfl, rfl⟩), stdout_complain _ _, fun ho ↦ hr ▸ ?_⟩
    exact (ho.commit hreads.opened (reachable_gather v.files results marks)
      (inRange_gather hreads marks) {}).2 e hresult

/-- How an import ends that nothing stops. The findings on files that are found are in the store,
each with a new row, an error has been printed for each of the others, and the status tells whether
every finding and every mark has been found. -/
structure Completes (w : World) (config : Config) (db : Option Path) (fs : FileSystem)
    (results : List Sarif.Result) (marks : List Path) (files : Nat) (r : Result) : Prop where
  output : r.output = (complain {} (refused fs results)).print
    s!"imported {(found fs results).length} findings for {files} files"
  counts : (found fs results).length + (refused fs results).length = results.length
  status : r.status =
    if refused fs results = [] ∧ marked fs results marks false = [] then .success else .failure
  /-- Where no path strays, a path is found if it leads somewhere. -/
  straight : isStraight fs [] (results.map (·.path) ++ marks) = true →
    found fs results = results.filter (fun r ↦ resolves fs r.path) ∧
      (r.status = .success ↔ ∀ p ∈ results.map (·.path) ++ marks, resolves fs p = true)
  rows {n : Nat} {home : Location} {x : Shared} : Offers w db n home x →
    ∃ (gone : FileRow → Bool) (rows : List FileRow) (reports : List ReportRow),
      let kept := x.tables.deleteFiles gone
      (config.retention = .keepAll → kept = x.tables) ∧
        r.world.Shares n home ⟨{ kept with
          files := kept.files ++ rows, reports := kept.reports ++ reports }, none⟩ ∧
        rows.length = files ∧
        reports.map ReportRow.toReportCells = (found fs results).map (·.toRemark.cells) ∧
        ∀ report ∈ reports, ∃ row ∈ rows, row.id = report.file

section Completes

variable {w v : World} {config : Config} {db : Option Path} {log : Path} {s : Store}
  {counts : CommitCounts}

theorem error_commit (hresult : ((gather v.files results marks).2.commit s {} v).result =
      .ok counts) :
    ((gather v.files results marks).2.commit s {} v).ledger.error = none ↔
      refused v.files results = [] ∧ marked v.files results marks false = [] := by
  have hrecorded := (recorded_gather v.files results marks).2
  have hresolved := hrecorded.spells.error_resolveMarks
  rw [hrecorded.marks, hrecorded.error] at hresolved
  unfold Ledger.commit at hresult ⊢
  rw [error_commitOver hresult, hresolved]
  simp [refused, marked]

theorem resolves_of_isStraight (h : isStraight fs [] (results.map (·.path) ++ marks) = true) :
    found fs results = results.filter (fun r ↦ resolves fs r.path) ∧
      (refused fs results = [] ∧ marked fs results marks false = [] ↔
        ∀ p ∈ results.map (·.path) ++ marks, resolves fs p = true) := by
  rw [isStraight_append, Bool.and_eq_true] at h
  have hmarks : isStraight fs (results.map (·.path)) (marks.map id) = true := by
    rw [List.map_id]
    exact h.2
  refine ⟨?_, ?_⟩
  · rw [found, sift_of_isStraight true h.1]
    simp
  · rw [refused, marked, sift_of_isStraight false h.1, sift_of_isStraight false hmarks]
    simp [List.filter_eq_nil_iff, or_imp, forall_and]

theorem Offers.rows {n : Nat} {home : Location} {x : Shared} (h : Offers w db n home x)
    (hreads : Reads w config db log s v results)
    (hresult : ((gather v.files results marks).2.commit s {} v).result = .ok counts) :
    ∃ (gone : FileRow → Bool) (rows : List FileRow) (reports : List ReportRow),
      let kept := x.tables.deleteFiles gone
      (config.retention = .keepAll → kept = x.tables) ∧
        (s.close ((gather v.files results marks).2.commit s {} v).state).Shares n home
          ⟨{ kept with files := kept.files ++ rows, reports := kept.reports ++ reports }, none⟩ ∧
        rows.length = counts.files ∧
        reports.map ReportRow.toReportCells = (found v.files results).map (·.toRemark.cells) ∧
        ∀ report ∈ reports, ∃ row ∈ rows, row.id = report.file := by
  have hreachable := reachable_gather v.files results marks
  have hrecorded := (recorded_gather v.files results marks).2
  obtain ⟨hlands, -⟩ := h.commit hreads.opened hreachable (inRange_gather hreads marks) {}
  obtain ⟨rfl, hshares⟩ := hlands counts hresult
  generalize hrun : (gather v.files results marks).2.resolveMarks v.files = run at hshares
  have hsound : run.Sound := hrun ▸ hreachable.sound.resolveMarks v.files
  have hstaged : run.staged.map RunFinding.toRemark =
      (found v.files results).map Sarif.Result.toRemark := by
    rw [← hrun, staged_resolveMarks, hrecorded.staged]
    rfl
  refine ⟨x.tables.isReplaced config.retention run.files, x.tables.newRows run.files,
    x.tables.newReports run.files run.staged, fun hkeep ↦ ?_, hshares, rfl, ?_, ?_⟩
  · rw [hkeep]
    exact Tables.deleteFiles_eq_self fun _ _ ↦ rfl
  · have hcells := congrArg (List.map Remark.cells) hstaged
    rw [List.map_map, List.map_map] at hcells
    rw [Tables.newReports, List.map_map]
    exact hcells
  · intro report hreport
    obtain ⟨f, hf, rfl⟩ := List.mem_map.1 hreport
    obtain ⟨file, -, hrow, -⟩ := hsound.report_of_staged x.tables hf
    exact ⟨_, hrow, rfl⟩

theorem Reads.completes (h : Reads w config db log s v results)
    (hresult : ((gather v.files results marks).2.commit s {} v).result = .ok counts) :
    Completes w config db v.files results marks counts.files
      (run w config (.ingest db log marks)) := by
  obtain ⟨ho, hrecorded⟩ := recorded_gather v.files results marks
  have hfindings := findings_commitOver _ _ _ _ _ _ hresult
  rw [length_staged_gather] at hfindings
  have herror := error_commit hresult
  have hr : run w config (.ingest db log marks) =
      { finish ((gather v.files results marks).1.print
          s!"imported {counts.findings} findings for {counts.files} files")
        ((gather v.files results marks).2.commit s {} v).ledger.error.isNone
        ((gather v.files results marks).2.commit s {} v).state with
          world := s.close ((gather v.files results marks).2.commit s {} v).state } := by
    simp only [run_ingest_of_reads h, land_eq, hresult, finish]
  have hstatus : (run w config (.ingest db log marks)).status =
      if refused v.files results = [] ∧ marked v.files results marks false = [] then .success
      else .failure := by
    rw [hr]
    simp only [finish, Option.isNone_iff_eq_none, herror]
  refine ⟨?_, length_sift _ _ _ _, hstatus, fun hstraight ↦ ?_, fun hoffers ↦ ?_⟩
  · rw [hr, ho, hfindings]
    rfl
  · obtain ⟨hfound, hall⟩ := resolves_of_isStraight hstraight
    refine ⟨hfound, ?_⟩
    rw [hstatus, ← hall]
    split <;> simp_all
  · rw [hr]
    exact hoffers.rows h hresult

theorem resolveMarks_gather (fs : FileSystem) (results : List Sarif.Result) (marks : List Path) :
    ((gather fs results marks).2.resolveMarks fs).bare =
      ((gather fs results (marked fs results marks true)).2.resolveMarks fs).bare := by
  have hrecorded := (recorded_gather fs results marks).2
  have hspells : Spells fs (results.map (·.path))
      { (gather fs results marks).2 with marks := [] } := hrecorded.spells.congr rfl rfl
  have hgather (marks : List Path) :
      (gather fs results marks).2.bare = (gather fs results []).2.bare :=
    (foldl_recordResult_congr (by rw [foldl_mark]; rfl) {} results).2
  unfold Ledger.resolveMarks
  rw [hrecorded.marks, (recorded_gather fs results (marked fs results marks true)).2.marks,
    hspells.foldl_resolveMark_sift]
  refine foldl_resolveMark_congr _ ?_
  exact (hgather marks).trans (hgather _).symm

/-- Marks at which no file is found make no difference to what is printed and to what stays. -/
theorem Reads.run_of_marked (h : Reads w config db log s v results) (marks : List Path) :
    let r := run w config (.ingest db log marks)
    let r' := run w config (.ingest db log (marked v.files results marks true))
    r'.output = r.output ∧ r'.world = r.world := by
  have ho := (recorded_gather v.files results marks).1
  have ho' := (recorded_gather v.files results (marked v.files results marks true)).1
  obtain ⟨hresult, hstate⟩ := commitOver_congr (resolveMarks_gather v.files results marks) s
    s.connection {} v
  simp only [run_ingest_of_reads h, land_eq, Ledger.commit, ho, ho', hresult, hstate]
  split <;> simp only [die, finish, and_self]

end Completes

/-- An import that is stopped prints the error, fails, and leaves the rows of the store and the
transactions on it as they were; if the engine cannot take the busy timeout it crashes and leaves
them as well. Any other import lands every finding on a file that is found,
prints an error for each of the others, and counts the rows that it has added; marks at which no
file is found do nothing but show in its status, which tells whether every path has been found. -/
theorem import_lands_once_or_not_at_all (w : World) (config : Config) (db : Option Path)
    (log : Path) (marks : List Path) :
    let r := run w config (.ingest db log marks)
    (∀ o f, Stops w config db log marks o f →
      (f ≠ .store .timeoutTooLong → r.output = o.warn f.message ∧ r.status = .failure) ∧
        (f = .store .timeoutTooLong → r.output = o ∧ ∃ reason, r.status = .crash reason) ∧
        o.stdout = "" ∧ ∀ {n home x}, Offers w db n home x → r.world.Shares n home x) ∧
      ((∀ o f, ¬ Stops w config db log marks o f) → ∃ s v results files,
        Reads w config db log s v results ∧
          Completes w config db v.files results marks files r ∧
          let r' := run w config (.ingest db log (marked v.files results marks true))
          r'.output = r.output ∧ r'.world = r.world) := by
  intro r
  refine ⟨fun o f hstops ↦ hstops.run_ingest, fun hstops ↦ ?_⟩
  rcases hopen : openStore w config db with ⟨e | s, v⟩
  · exact absurd (.store (by rw [hopen])) (hstops {} (.store e))
  cases hcontent : v.files.readText log with
  | error e => exact absurd (.readLog hopen hcontent) (hstops {} (.readLog log e))
  | ok content =>
    cases hbase : v.files.currentDirectory with
    | error e =>
      exact absurd (.currentDirectory hopen hcontent hbase) (hstops {} (.currentDirectory e))
    | ok base =>
      cases hparsed : Sarif.parse content base with
      | error e => exact absurd (.parseLog hopen hcontent hbase hparsed) (hstops {} (.parseLog e))
      | ok results =>
        have hreads : Reads w config db log s v results :=
          ⟨hopen, content, base, hcontent, hbase, hparsed⟩
        cases hresult : ((gather v.files results marks).2.commit s {} v).result with
        | error e => exact absurd (.commit hreads hresult) (hstops _ (.store e))
        | ok counts =>
          exact ⟨s, v, results, counts.files, hreads, hreads.completes hresult,
            hreads.run_of_marked marks⟩

def selfLog : String :=
  "\x7b\"runs\":[\x7b\"results\":[\x7b\"message\":\"m\",\"locations\":[\x7b" ++
    "\"physicalLocation\":\x7b\"artifactLocation\":\x7b\"uri\":\"/file\"" ++
    "\x7d\x7d\x7d]\x7d]\x7d]\x7d"

def logged : World :=
  (Store.create (.storeless (Utf8.encode selfLog)) (Path.ofText "/store") {}).2

theorem logged_offers {p : Path} (hp : logged.Finds p [Utf8.encode "store"] ∨
      ∃ failure, logged.openDatabase p .readWrite = .error failure) :
    Offers logged (some p) 0 [Utf8.encode "store"] ⟨{}, none⟩ := by
  have hcreated : (Store.create (.storeless (Utf8.encode selfLog)) (Path.ofText "/store")
      {}).1.isOk := by decide +kernel
  rcases hcreate : Store.create (.storeless (Utf8.encode selfLog)) (Path.ofText "/store") {} with
    ⟨e | s, v⟩
  · rw [hcreate] at hcreated
    cases hcreated
  · have hturns := Lifetime.State.Turns.created (World.storeless_vacant _)
      (World.storeless_finds _) hcreate
    have hlogged : logged = v := by rw [logged, hcreate]
    refine ⟨hlogged ▸ hturns.shares, nofun, ?_⟩
    rintro q (hq | ⟨hq, -⟩)
    · cases hq
      exact hp
    · cases hq

theorem logged_imports :
    let r := run logged {} (.ingest (some (Path.ofText "/store")) (Path.ofText "/file")
      [Path.ofText "file"])
    let r' := run logged {} (.ingest (some (Path.ofText "/none")) (Path.ofText "/file") [])
    r.status = .success ∧ r.output = { stdout := "imported 1 findings for 1 files\n" } ∧
      Offers logged (some (Path.ofText "/store")) 0 [Utf8.encode "store"] ⟨{}, none⟩ ∧
      (∃ s v results files,
        Reads logged {} (some (Path.ofText "/store")) (Path.ofText "/file") s v results ∧
          Completes logged {} (some (Path.ofText "/store")) v.files results [Path.ofText "file"]
            files r) ∧
      r'.status = .failure ∧ r'.world.Shares 0 [Utf8.encode "store"] ⟨{}, none⟩ := by
  intro r r'
  have hrun : r.status = .success ∧
      r.output = { stdout := "imported 1 findings for 1 files\n" } := by decide +kernel
  have hresolves : FileSystem.FullPath.resolve? logged.files (Path.ofText "/store") =
      some [Utf8.encode "store"] := by decide +kernel
  have hoffers := logged_offers (.inl (.of_path (by decide) (by decide) (by decide) hresolves))
  have hmissing : (logged.openDatabase (Path.ofText "/none") .readWrite).isOk = false := by
    decide +kernel
  have hnone : ∃ failure, logged.openDatabase (Path.ofText "/none") .readWrite =
      .error failure := by
    cases hopen : logged.openDatabase (Path.ofText "/none") .readWrite with
    | error failure => exact ⟨failure, rfl⟩
    | ok o =>
      rw [hopen] at hmissing
      cases hmissing
  obtain ⟨hstops, hcompletes⟩ := import_lands_once_or_not_at_all logged {}
    (some (Path.ofText "/store")) (Path.ofText "/file") [Path.ofText "file"]
  obtain ⟨s, v, results, files, hreads, hr, -⟩ := hcompletes fun o f hf ↦ by
    obtain ⟨hfails, hcrashes, -⟩ := hstops o f hf
    by_cases htimeout : f = .store .timeoutTooLong
    · obtain ⟨-, reason, hcrash⟩ := hcrashes htimeout
      cases hrun.1.symm.trans hcrash
    · cases hrun.1.symm.trans (hfails htimeout).2
  have hstopped : Stops logged {} (some (Path.ofText "/none")) (Path.ofText "/file") [] {}
      (.store (.cannotOpen (Path.ofText "/none") (.unable (Path.ofText "/none")))) :=
    .store (by decide +kernel)
  obtain ⟨hfailure, -, -, hkeeps⟩ := (import_lands_once_or_not_at_all logged {}
    (some (Path.ofText "/none")) (Path.ofText "/file") []).1 _ _ hstopped
  exact ⟨hrun.1, hrun.2, hoffers, ⟨s, v, results, files, hreads, hr⟩, (hfailure nofun).2,
    hkeeps (logged_offers (.inr hnone))⟩

/-- A mark with a slash behind the name of a file leads nowhere, and the import succeeds. -/
theorem closed_mark_passes :
    let r := run logged {} (.ingest (some (Path.ofText "/store")) (Path.ofText "/file")
      [Path.ofText "/file/"])
    let fs := (openStore logged {} (some (Path.ofText "/store"))).2.files
    r.status = .success ∧ resolves fs (Path.ofText "/file") = true ∧
      resolves fs (Path.ofText "/file/") = false := by
  decide +kernel

end Command

end FindingStore
