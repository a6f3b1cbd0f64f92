import FindingStore.Proofs.Checked
import FindingStore.Proofs.Command.Import
import FindingStore.Proofs.Replay.Items

namespace FindingStore

theorem StoreError.OfEngine.ne_timeoutTooLong {e : StoreError} (h : e.OfEngine) :
    e ≠ .timeoutTooLong := by
  cases h <;> exact nofun

namespace PathReads

theorem ofEngine_of_enter {reads : PathReads} {path : String} {e : StoreError}
    (h : reads.enter path = .error (.error e)) : e.OfEngine := by
  unfold enter at h
  split at h
  · cases h
  · split at h
    · cases h
      exact .sql ..
    · cases h
    · split at h
      · cases h
        exact .sql ..
      · cases h

end PathReads

namespace Replay

theorem failsByEngine_start (s : Store) (w : World) : FailsByEngine (start s w) := by
  unfold start
  split
  · exact failsByEngine_ok _
  · exact failsByEngine_error (.sql ..)

theorem ofEngine_of_mem_itemsOf {reads : String → PathReads} {paths : List String}
    {e : StoreError} (h : .error e ∈ itemsOf reads paths) : e.OfEngine := by
  induction paths with
  | nil => cases h
  | cons path rest ih =>
    rcases henter : (reads path).enter path with (e' | event) | findings <;>
      simp only [itemsOf, henter] at h
    · cases List.mem_singleton.1 h
      exact PathReads.ofEngine_of_enter henter
    · rcases List.mem_cons.1 h with h | h
      · cases h
      · exact ih h
    · rcases List.mem_append.1 h with h | h
      · obtain ⟨f, -, hf⟩ := List.mem_map.1 h
        cases hf
      · exact ih h

end Replay

theorem Store.failsByEngine_prune (s : Store) (w : World) : FailsByEngine (s.prune w).1 := by
  have hwork : Store.pruneWork.Gives FailsByEngine := by
    refine Work.gives_ask fun removed ↦ ?_
    exact Work.gives_finish (failsByEngine_ok removed)
  exact s.gives_transactOver (fun _ ↦ failsByEngine_error) (fun _ ↦ hwork) s.connection {} () w

namespace Command

def Result.Returns (r : Result) : Prop := r.status = .success ∨ r.status = .failure

theorem returns_finish (o : Output) (ok : Bool) (w : World) : (finish o ok w).Returns := by
  cases ok
  · exact .inr rfl
  · exact .inl rfl

theorem returns_die (o : Output) (w : World) {f : Fatal} (h : f ≠ .store .timeoutTooLong) :
    (die o w f).Returns := .inr ((output_die o w f).1 h).2

theorem returns_die_store (o : Output) (w : World) {e : StoreError} (h : e.OfEngine) :
    (die o w (.store e)).Returns :=
  returns_die o w fun he ↦ h.ne_timeoutTooLong (Fatal.store.inj he)

section

variable (fs : FileSystem) (format : Format)

theorem fatal_showFinding (l : Listing) (f : Finding) :
    (l.showFinding fs format f).fatal = l.fatal := by
  have hbuffer (l : Listing) (path : String) : (l.buffer fs path).2.fatal = l.fatal := by
    unfold Listing.buffer
    split <;> rfl
  cases format with
  | plain => rfl
  | json => rfl
  | withSource =>
    simp only [Listing.showFinding, Listing.showSource]
    split <;> exact hbuffer _ _

theorem ofEngine_visit {l : Listing} {item : ReplayItem}
    (hl : ∀ e, l.fatal = some e → e.OfEngine) (hitem : ∀ e, item = .error e → e.OfEngine) :
    ∀ e, (l.visit fs format item).1.fatal = some e → e.OfEngine := by
  intro e he
  rcases item with e' | (f | path | path)
  · cases he
    exact hitem _ rfl
  · exact hl e ((fatal_showFinding fs format l f).symm.trans he)
  · exact hl e he
  · exact hl e he

theorem ofEngine_foldl_visit (items : List ReplayItem)
    (hitems : ∀ e, (.error e : ReplayItem) ∈ items → e.OfEngine) {l : Listing}
    (hl : ∀ e, l.fatal = some e → e.OfEngine) :
    ∀ e, (items.foldl (fun l item ↦ (l.visit fs format item).1) l).fatal = some e →
      e.OfEngine := by
  induction items generalizing l with
  | nil => exact hl
  | cons item rest ih =>
    refine ih (fun e he ↦ hitems e (List.mem_cons_of_mem _ he)) ?_
    exact ofEngine_visit fs format hl fun e he ↦ hitems e (he ▸ List.mem_cons_self)

end

theorem returns_reportFindings (format : Format) (s : Store) (w : World) :
    (reportFindings format s w).Returns := by
  unfold reportFindings
  dsimp only
  generalize s.look w = w
  cases hstart : Replay.start s w with
  | error e => exact returns_die_store _ _ (Replay.failsByEngine_start s w e hstart)
  | ok r =>
    have hvisit (l : Listing) (item : ReplayItem) :
        (l.visit w.files format item).2 = .proceed := by
      rcases item with e | (f | path | path) <;> rfl
    -- a report that is stopped has met an item that is an error
    have hfatal := ofEngine_foldl_visit w.files format (Replay.itemsOf (s.reads w) r.paths)
      (fun _ ↦ Replay.ofEngine_of_mem_itemsOf) (l := {}) nofun
    rw [Replay.start_eq_ok hstart]
    dsimp only
    rw [Replay.fold_eq_foldl hvisit]
    split
    · next e he => exact returns_die_store _ _ (hfatal e he)
    · exact returns_finish ..

theorem returns_patchFiles (tool : String) (rewrites : List String) (dryRun : Bool) (s : Store)
    (w : World) : (patchFiles tool rewrites dryRun s w).Returns := by
  unfold patchFiles
  split
  · exact returns_die _ _ nofun
  · split
    · exact returns_die _ _ nofun
    · dsimp only
      split <;> exact returns_finish ..

theorem returns_land (results : List Sarif.Result) (marks : List Path) (s : Store) (w : World) :
    (land results marks s w).Returns := by
  rw [land_eq]
  dsimp only
  cases hresult : ((gather w.files results marks).2.commit s {} w).result with
  | error e =>
    have hreachable := reachable_gather w.files results marks
    exact returns_die_store _ _ (Ledger.failsByEngine_commitOver hreachable _ _ _ _ _ e hresult)
  | ok counts => exact returns_finish ..

theorem returns_ingestLog (log : Path) (marks : List Path) (s : Store) (w : World) :
    (ingestLog log marks s w).Returns := by
  unfold ingestLog
  split
  · exact returns_die _ _ nofun
  · split
    · exact returns_die _ _ nofun
    · split
      · exact returns_die _ _ nofun
      · exact returns_land ..

theorem returns_prunedStore (s : Store) (w : World) : (prunedStore s w).Returns := by
  unfold prunedStore
  split
  · next e s' w' h => exact returns_die_store _ _ (s.failsByEngine_prune w e (by rw [h]))
  · exact returns_finish ..

def Opens (w : World) : Command → Prop
  | .init db => ∃ o, w.openDatabase (db.getD (Path.ofText storeFileName)) .create = .ok o
  | .report db _ _ | .patch db _ _ _ | .ingest db _ _ | .prune db =>
    ∃ p o, (db = some p ∨ db = none ∧ Store.locate w.files [Path.dot] = .ok p) ∧
      w.openDatabase p .readWrite = .ok o

/-- A command opens its store with a busy timeout that the engine cannot take. -/
def Sticks (w : World) (config : Config) (command : Command) : Prop :=
  Store.maxBusyTimeout < config.busyTimeoutMs ∧ Opens w command

def Result.CrashesIff (r : Result) (condition : Prop) : Prop :=
  (condition → ∃ reason, r.status = .crash reason) ∧ (¬ condition → r.Returns)

theorem Result.Returns.crashesIff {r : Result} (h : r.Returns) {condition : Prop}
    (hfalse : ¬ condition) : r.CrashesIff condition := ⟨fun hc ↦ absurd hc hfalse, fun _ ↦ h⟩

theorem crashesIff_die (o : Output) (w : World) (e : StoreError) :
    (die o w (.store e)).CrashesIff (e = .timeoutTooLong) :=
  ⟨fun he ↦ ((output_die o w _).2 (congrArg Fatal.store he)).2,
    fun he ↦ returns_die o w fun hf ↦ he (Fatal.store.inj hf)⟩

section Opening

variable (w : World) (config : Config)

theorem connect_eq_timeoutTooLong (p : Path) (mode : AccessMode) :
    (Store.connect w p config mode).1 = .error .timeoutTooLong ↔
      Store.maxBusyTimeout < config.busyTimeoutMs ∧ ∃ o, w.openDatabase p mode = .ok o := by
  unfold Store.connect
  cases hopen : w.openDatabase p mode with
  | error failure => simp
  | ok o =>
    dsimp only
    split
    · next hlong => simp [hlong]
    · next hlong => split <;> simp [hlong]

theorem locate_ne_timeoutTooLong (fs : FileSystem) (start : Path) :
    Store.locate fs start ≠ .error .timeoutTooLong := by
  unfold Store.locate
  split
  · exact nofun
  · dsimp only
    split <;> exact nofun

theorem openStore_eq_timeoutTooLong (db : Option Path) :
    (openStore w config db).1 = .error .timeoutTooLong ↔
      Store.maxBusyTimeout < config.busyTimeoutMs ∧
        ∃ p o, (db = some p ∨ db = none ∧ Store.locate w.files [Path.dot] = .ok p) ∧
          w.openDatabase p .readWrite = .ok o := by
  cases db with
  | some p =>
    refine (connect_eq_timeoutTooLong w config p .readWrite).trans ?_
    simp
  | none =>
    unfold openStore Store.discover
    dsimp only
    cases hlocate : Store.locate w.files [Path.dot] with
    | error e =>
      refine iff_of_false (fun he ↦ ?_) fun ⟨_, p, o, hp, _⟩ ↦ ?_
      · cases Except.error.inj he
        exact locate_ne_timeoutTooLong w.files [Path.dot] hlocate
      · rcases hp with hp | ⟨-, hp⟩ <;> cases hp
    | ok p =>
      refine (connect_eq_timeoutTooLong w config p .readWrite).trans ?_
      simp

theorem crashesIff_withStore (db : Option Path) {run : Store → World → Result}
    (hrun : ∀ s w, (run s w).Returns) :
    (withStore w config db run).CrashesIff
      ((openStore w config db).1 = .error .timeoutTooLong) := by
  unfold withStore
  rcases openStore w config db with ⟨e | s, v⟩
  · simpa using crashesIff_die {} v e
  · exact Result.Returns.crashesIff (hrun s v) nofun

theorem crashesIff_initStore (db : Option Path) :
    (initStore w config db).CrashesIff
      (Store.maxBusyTimeout < config.busyTimeoutMs ∧ Opens w (.init db)) := by
  unfold Opens initStore Store.create
  rw [← connect_eq_timeoutTooLong]
  dsimp only
  rcases Store.connect w (db.getD (Path.ofText storeFileName)) config .create with ⟨e | s, v⟩
  · simpa using crashesIff_die {} v e
  · dsimp only
    refine Result.Returns.crashesIff ?_ nofun
    rcases v.provide s.database s.access with ⟨⟨step, e⟩ | ⟨⟩, u⟩
    · exact returns_die _ _ nofun
    · exact returns_finish ..

theorem crashesIff_run (command : Command) :
    (run w config command).CrashesIff (Sticks w config command) := by
  have hopened (db : Option Path) {run : Store → World → Result}
      (hrun : ∀ s w, (run s w).Returns) := crashesIff_withStore w config db hrun
  simp only [openStore_eq_timeoutTooLong] at hopened
  cases command with
  | init db => exact crashesIff_initStore w config db
  | report db source json => exact hopened db (returns_reportFindings _)
  | patch db tool rewrites dryRun => exact hopened db (returns_patchFiles tool rewrites dryRun)
  | ingest db log marks => exact hopened db (returns_ingestLog log marks)
  | prune db => exact hopened db returns_prunedStore

end Opening

/-- The accesses that commands make are in range, whatever they are given. -/
structure InRange (policy : Retry.Policy) : Prop where
  marker (text : Bytes) (column width : Nat) :
    carets? text column width = some (carets text column width)
  patch {b : LineBuffer} {old : String} (line column : Nat) (new : String) :
    (∀ text ∈ b.lines, text.length ≤ Checked.maxSigned) →
      (Utf8.encode old).length ≤ Checked.maxSigned →
      b.patch? line column old new = some (b.patch line column old new)
  time {t : Timestamp} : -(Checked.maxSigned : Int) ≤ t.seconds →
    t.wholeSeconds? = some t.wholeSeconds
  delay (attempt : Nat) (source : Retry.Source) :
    policy.delay? attempt source = some (policy.delay attempt source)
  record {l : Ledger} (fs : FileSystem) (path : Path) (remark : Remark) : l.Reachable →
    l.record? fs path remark = some (l.record fs path remark)
  marks {l : Ledger} (fs : FileSystem) : l.Reachable →
    l.resolveMarks? fs = some (l.resolveMarks fs)
  rows {l : Ledger} {σ : Type} (fs : FileSystem) (s : Store) (conn : Connection σ)
    (source : Retry.Source) (state : σ) (message : String) : l.Reachable →
    (l.commitOver fs s conn source state).result ≠ .error (.aborted message)

theorem inRange (policy : Retry.Policy) : InRange policy where
  marker := carets?_eq
  patch line column new hb hold := LineBuffer.patch?_eq hb hold line column new
  time := Timestamp.wholeSeconds?_eq
  delay := policy.delay?_eq
  record fs path remark hl := hl.sound.record?_eq fs path remark
  marks fs hl := hl.sound.resolveMarks?_eq fs
  rows fs s conn source state _ hl he :=
    nomatch Ledger.failsByEngine_commitOver hl fs s conn source state _ he

/-- In every world and environment a command that is understood ends with success or failure, unless
it opens its store with a busy timeout that the engine cannot take, which is what stops it then.
Nothing else that it does can be out of range. -/
theorem command_returns_unless_stuck (w : World) (env : Environment) {args : List Bytes}
    {verbose : Bool} {command : Command}
    (h : Arguments.parse? false args = some (.run verbose command)) :
    (runLine w env args).CrashesIff
        (Sticks { w with sessions := [] } (.ofEnvironment env) command) ∧
      InRange (.ofConfig (.ofEnvironment env)) := by
  refine ⟨?_, inRange _⟩
  simp only [runLine, h]
  exact crashesIff_run { w with sessions := [] } (.ofEnvironment env) command

def longTimeout : Environment :=
  [("FINDSTORE_BUSY_TIMEOUT_MS", Path.ofText "2147483648")]

def reportLine : List Bytes := ["report", "--db", "/store"].map Path.ofText

/-- A report on a store that can be opened is stopped by its timeout. -/
theorem long_timeout_crashes :
    Arguments.parse? false reportLine =
        some (.run false (.report (some (Path.ofText "/store")) false false)) ∧
      (runLine logged longTimeout reportLine).status.code = 101 := by
  decide +kernel

theorem report_returns_without_long_timeout :
    (runLine logged [] reportLine).Returns ∧
      (∃ reason, (runLine logged longTimeout reportLine).status = .crash reason) ∧
      LineBuffer.patch? ⟨[Utf8.encode "foo(x)"]⟩ 1 1 "foo" "quux" =
        some (.ok ⟨[Utf8.encode "quux(x)"]⟩) := by
  have hparse : Arguments.parse? false reportLine =
      some (.run false (.report (some (Path.ofText "/store")) false false)) := by decide +kernel
  have hopens : (({ logged with sessions := [] } : World).openDatabase (Path.ofText "/store")
      .readWrite).isOk := by decide +kernel
  obtain ⟨⟨-, hreturns⟩, hrange⟩ := command_returns_unless_stuck logged [] hparse
  obtain ⟨⟨hcrashes, -⟩, -⟩ := command_returns_unless_stuck logged longTimeout hparse
  refine ⟨hreturns fun hsticks ↦ absurd hsticks.1 (by decide), hcrashes ⟨by decide +kernel, ?_⟩, ?_⟩
  · cases ho : ({ logged with sessions := [] } : World).openDatabase (Path.ofText "/store")
        .readWrite with
    | error failure =>
      rw [ho] at hopens
      cases hopens
    | ok o => exact ⟨_, o, .inl rfl, ho⟩
  · rw [hrange.patch 1 1 "quux" (by decide) (by decide)]
    decide

end Command

end FindingStore
