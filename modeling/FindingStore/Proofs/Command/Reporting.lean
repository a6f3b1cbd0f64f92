import FindingStore.Proofs.Command.Lines
import FindingStore.Proofs.Store.Leaving

namespace FindingStore

namespace Command

open Replay

variable {s : Store} {w v : World}

/-- A text that shows findings. What is in JSON is what a reader of its lines is given. -/
def Format.Presents (fs : FileSystem) (findings : List Finding) (text : String) : Format → Prop
  | .plain => text = unlines (findings.map fun f ↦ f.opening ++ f.message)
  | .withSource =>
    text = unlines (findings.flatMap fun f ↦ (f.opening ++ f.message) :: excerpt fs f)
  | .json => Tells text findings

structure Reports (s : Store) (w : World) (format : Format) (r : Result) : Prop where
  stdout : format.Presents w.files (heard s w).state r.output.stdout
  stderr : r.output.stderr =
    unlines ((s.replay w).filterMap complaint? ++ farewell (heard s w).failure)
  status : r.status = .success ↔ (heard s w).returned = .ok true
  returns : r.Returns
  /-- What has come before an error has been printed, and nothing can come behind it. -/
  broken {e : StoreError} : (heard s w).returned = .error e → r.status = .failure ∧ ∃ before,
    s.replay w = before ++ [.error e] ∧ (∀ e', .error e' ∉ before) ∧
      (heard s w).state = before.filterMap finding?

theorem presents_listed (fs : FileSystem) (format : Format) {findings : List Finding}
    (h : ∀ f ∈ findings, f.toRemark.InRange) :
    format.Presents fs findings (listed fs format findings) := by
  cases format with
  | plain =>
    rw [Format.Presents, listed_eq, List.map_eq_flatMap]
    rfl
  | withSource => exact listed_eq fs .withSource findings
  | json => exact tells_listed fs h

theorem reports_reportFindings (format : Format) (s : Store) (w : World) :
    Reports s (s.look w) format (reportFindings format s w) ∧
      (reportFindings format s w).world = s.look w := by
  have hreturns := returns_reportFindings format s w
  obtain ⟨l, h, heq⟩ := reportFindings_eq format s w
  rw [heq] at hreturns ⊢
  refine ⟨⟨?_, h.stderr_eq, h.status_iff, hreturns, fun he ↦ ⟨?_, heard_broken he⟩⟩,
    l.world_conclude _⟩
  · rw [h.stdout_eq, ← listed_eq]
    exact presents_listed _ format fun f ↦ inRange_of_heard
  · refine hreturns.resolve_left fun hsuccess ↦ ?_
    cases he.symm.trans (h.status_iff.1 hsuccess)

section Opened

variable {config : Config} {db : Option Path} {n : Nat} {home : Location} {x : Shared}

/-- A store that has been opened has been found, and nothing but a session has come to the world. -/
theorem Offers.opened (h : Offers w db n home x)
    (hopen : Command.openStore w config db = (.ok s, v)) :
    ∃ sessions, v = { w with sessions, opened := w.opened + 1 } := by
  obtain ⟨p, hp, hconnect⟩ :
      ∃ p, (db = some p ∨ db = none ∧ Store.locate w.files [Path.dot] = .ok p) ∧
        Store.connect w p config .readWrite = (.ok s, v) := by
    cases db with
    | some p => exact ⟨p, .inl rfl, hopen⟩
    | none =>
      simp only [Command.openStore, Store.discover] at hopen
      cases hlocate : Store.locate w.files [Path.dot] with
      | error e =>
        rw [hlocate] at hopen
        cases hopen
      | ok p =>
        rw [hlocate] at hopen
        exact ⟨p, .inr ⟨rfl, rfl⟩, hopen⟩
  unfold Store.connect at hconnect
  rcases h.leads hp with hfinds | ⟨failure, hfailure⟩
  · obtain ⟨o, ho, -, -, -, -, -, hworld⟩ := h.shares.serves.openDatabase hfinds (.inl rfl)
    rw [ho] at hconnect
    dsimp only at hconnect
    split at hconnect
    · cases hconnect
    · split at hconnect
      · cases hconnect
      · cases hconnect
        exact hworld
  · rw [hfailure] at hconnect
    cases hconnect

/-- A store that is opened, looked at and closed is as it was, and so are the files. -/
theorem Offers.look_close (h : Offers w db n home x)
    (hopen : Command.openStore w config db = (.ok s, v)) :
    (s.close (s.look v)).Shares n home x ∧
      ∀ {l : Location}, (∀ c, ¬home.companion c <+: l) → (l = home → w.IsLevel n w.opened home) →
        w.files.Alike (s.close (s.look v)).files l := by
  obtain ⟨hshares, hok⟩ := h.openStore config
  rw [hopen] at hshares hok
  obtain ⟨hhandle, hsession, -⟩ := hok s rfl
  have hfree := h.own? hsession
  have hbusy := hshares.stands.isBusy hhandle.ordinary.writes (Shared.own?_eq_none.1 hfree)
  obtain ⟨sessions, hv⟩ := h.opened hopen
  have hlooked := hshares.serves.tracks_look hhandle hbusy
  refine ⟨?_, fun hl hhome ↦ ?_⟩
  · refine h.close hopen ?_ hfree
    refine hshares.continues hlooked.continues fun held hheld ↦ ?_
    rw [hv]
    exact Nat.lt_succ_of_lt (h.before held hheld)
  · -- the session is new, and so is its cache
    have hfiles : v.files = w.files := by rw [hv]
    rw [← hfiles]
    refine hshares.serves.alike_look_close hhandle hbusy hl fun he ↦ ?_
    have hlevel := hhome he
    rw [hhandle.cache, hsession, hv]
    exact ⟨hlevel.unused, hlevel.empty⟩

end Opened

/-- In every format a report shows the findings that a scan gives to a callback that goes on, and
with them the same complaints, and its status says whether the scan has found everything in order.
An error ends it behind the findings that have come before. The format makes no difference to the
world either: a store that others can use too is as it was, and so are the files. -/
theorem report_agrees_with_scan {w v : World} {config : Config} {db : Option Path} {s : Store}
    (hopen : openStore w config db = (.ok s, v)) (source json : Bool) :
    let u := s.look v
    let r := run w config (.report db source json)
    Reports s u (.of source json) r ∧
      (∀ {β : Type} (take : β → Finding → β) (b : β),
        (scan s u (taking take) b).state = (heard s u).state.foldl take b ∧
          (scan s u (taking take) b).returned = (heard s u).returned) ∧
      r.world = s.close u ∧
      ∀ {n home x}, Offers w db n home x → r.world.Shares n home x ∧
        ∀ {l : Location}, (∀ c, ¬home.companion c <+: l) →
          (l = home → w.IsLevel n w.opened home) → w.files.Alike r.world.files l := by
  intro u r
  obtain ⟨hreports, hworld⟩ := reports_reportFindings (.of source json) s v
  have hr : r = { reportFindings (.of source json) s v with world := s.close u } := by
    simp only [r, run_report hopen, hworld, u]
  rw [hr]
  refine ⟨?_, fun take b ↦ scan_eq_heard s u take b, rfl, fun hoffers ↦ hoffers.look_close hopen⟩
  exact ⟨hreports.stdout, hreports.stderr, hreports.status, hreports.returns, hreports.broken⟩

def spoiled : Tables where
  files :=
    [⟨1, "/file", .integer 0, .integer 3⟩, ⟨2, "/gone", .integer 0, .integer 0⟩,
      ⟨3, "/store", .integer 0, .integer 0⟩, ⟨4, "/there", .integer 0, .integer 0⟩]
  reports :=
    [⟨(⟨1, 2, "t", "one"⟩ : Remark).cells, .integer 1⟩,
      ⟨(⟨7, 1, "t", "far"⟩ : Remark).cells, .integer 1⟩,
      ⟨(⟨1, 1, "t", "gone"⟩ : Remark).cells, .integer 2⟩,
      ⟨⟨.integer (-1), .integer 1, "t", "odd"⟩, .integer 3⟩,
      ⟨(⟨1, 1, "t", "late"⟩ : Remark).cells, .integer 4⟩]

theorem stored_offers (t : Tables) (content : Bytes) :
    Offers (.stored t content) (some (Path.ofText "/store")) 0 [Utf8.encode "store"] ⟨t, none⟩ where
  shares := ⟨World.stored_serves t content, ⟨rfl, rfl, rfl, rfl⟩, nofun, nofun⟩
  before := nofun
  leads := by
    rintro p (hp | ⟨hp, -⟩) <;> cases hp
    exact .inl (World.stored_finds t content)

/-- The report of the spoiled row ends every report, behind the findings on the file. -/
theorem spoiled_reported :
    let w := World.stored spoiled (Utf8.encode "ab\n")
    let db := some (Path.ofText "/store")
    let findings : List Finding := [⟨⟨1, 2, "t", "one"⟩, "/file"⟩, ⟨⟨7, 1, "t", "far"⟩, "/file"⟩]
    (run w {} (.report db true false)).output.stdout =
        "/file:1:2: (t) one\n  ab\n   ^\n/file:7:1: (t) far\n" ∧
      ∃ s v, openStore w {} db = (.ok s, v) ∧ (heard s (s.look v)).state = findings ∧
        ∀ source json,
          let r := run w {} (.report db source json)
          Reports s (s.look v) (.of source json) r ∧ r.status = .failure ∧
            r.world.Shares 0 [Utf8.encode "store"] ⟨spoiled, none⟩ ∧
            w.files.Alike r.world.files [Utf8.encode "store"] := by
  intro w db findings
  have hrun : (openStore w {} db).1.toOption.map (fun s ↦
      let scan := heard s (s.look (openStore w {} db).2)
      (scan.state, scan.failure)) =
        some (findings, some (.sql "load reports" (.outOfRange (-1) 0))) := by decide +kernel
  refine ⟨by decide +kernel, ?_⟩
  rcases hopen : openStore w {} db with ⟨e | s, v⟩
  · rw [hopen] at hrun
    cases hrun
  rw [hopen] at hrun
  obtain ⟨hstate, hfailure⟩ := Prod.mk.inj (Option.some.inj hrun)
  refine ⟨s, v, rfl, hstate, fun source json ↦ ?_⟩
  obtain ⟨hreports, -, -, hkeeps⟩ := report_agrees_with_scan hopen source json
  obtain ⟨hshares, halike⟩ := hkeeps (stored_offers spoiled (Utf8.encode "ab\n"))
  have hreturned : (heard s (s.look v)).returned =
      .error (.sql "load reports" (.outOfRange (-1) 0)) := by
    rw [Scan.returned, hfailure]
  have hlevel : w.IsLevel 0 w.opened [Utf8.encode "store"] := by
    refine ⟨?_, fun _ _ _ ↦ rfl⟩
    rintro log ⟨⟩
    exact List.not_mem_nil
  exact ⟨hreports, (hreports.broken hreturned).1, hshares,
    halike (fun c ↦ by cases c <;> decide) fun _ ↦ hlevel⟩

end Command

end FindingStore
