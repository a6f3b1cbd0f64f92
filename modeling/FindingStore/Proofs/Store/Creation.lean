import FindingStore.Proofs.Outcome
import FindingStore.Proofs.Store.Handles

namespace FindingStore

namespace Database

variable {d e : Database} {a : Access} {c : Contents}

theorem Agrees.isBusy (h : d.Agrees { contents := c }) (a : Access) : d.isBusy a = false := by
  simp [Database.isBusy, Database.own?, Database.reader?, h.writer, h.strays, h.readers]

theorem Agrees.neighbour? (h : d.Agrees { contents := c }) (a : Access) :
    d.neighbour? a = none := by
  simp [Database.neighbour?, h.writer, h.strays]

theorem Agrees.view (h : d.Agrees { contents := c }) (hf : a.isFrozen = false) :
    d.view a = a.sight.getD c := by
  have hseen : d.view a = d.seen a := by
    simp [Database.view, Database.schemaLock?, h.neighbour? a, Database.own?, Database.reader?,
      h.writer, h.strays, h.readers]
  rw [hseen, Database.seen, hf, h.contents]
  cases a.sight <;> rfl

theorem Agrees.provideTables (h : d.Agrees { contents := .bare }) (hl : d.IsLogged)
    (ha : a.Writes) (hs : a.sight = none) :
    d.provideTables a = (.ok (), d.publish (.tables {})) := by
  obtain ⟨log, hlog, hwritable⟩ := hl
  have hview : d.view a = .bare := by rw [h.view ha.isFrozen, hs, Option.getD_none]
  have hwrite : d.writeError? a = none := by
    simp [Database.writeError?, Database.lockError?, Database.journalError?, Database.readingError?,
      h.neighbour? a, h.writer, hlog, hwritable, ha.readOnly]
  simp only [Database.provideTables, hview, hwrite]

theorem Agrees.startLog (h : d.Agrees {}) (hlog : d.log = none) (ha : a.keepsLog = true)
    (hs : d.startLog a = .ok e) :
    e = { d.publish .bare with log := some { stored := .bare } } := by
  have hfree : (!a.keepsLog || d.log.isSome || (d.neighbour? a).any (·.draft.isSome)) = false := by
    simp [ha, hlog, h.neighbour? a]
  have hblank : (if d.contents = .blank then Contents.bare else d.contents) = .bare :=
    if_pos h.contents
  simp only [Database.startLog, hfree, hblank, Bool.false_eq_true, if_false] at hs
  split at hs
  · cases hs
  · split at hs
    · cases hs
    · exact (Except.ok.inj hs).symm

end Database

namespace World

structure Vacant (w : World) (home : Location) : Prop where
  databases : w.databases = []
  logs : w.logs = []
  free : w.files.lookup home = none
  beside (c : Companion) : w.files.lookup (home.companion c) = none
  unused {l : Location} {f : File} :
    (l, .file f) ∈ w.files.entries → f.database = none ∧ f.log = none

structure Begun (w : World) (home : Location) : Prop where
  blank : ∃ d, w.databases = [d] ∧ d.Agrees {} ∧ d.log = none
  houses : w.files.Houses 0 home
  beside (c : Companion) : w.files.lookup (home.companion c) = none

variable {w v : World} {n : Nat} {home : Location} {a : Access} {p : Path} {config : Config}
  {s : Store}

theorem Vacant.home_ne_nil (h : w.Vacant home) : home ≠ [] := by
  rintro rfl
  have hfree := h.free
  rw [w.files.lookup_root] at hfree
  cases hfree

theorem Vacant.houses (h : w.Vacant home) {f g : File} (hf : f.database = none ∧ f.log = none)
    (hg : g.database = some 0 ∧ g.log = none)
    (hclean : g.isRewritten = false ∧ g.isReadable = true ∧ g.isWritable = true) :
    let fs := (w.files.addEntry home (.file f)).insert home (.file g)
    fs.Houses 0 home ∧ ∀ c, fs.lookup (home.companion c) = none := by
  intro fs
  have hbeside (c : Companion) : fs.lookup (home.companion c) = none := by
    have hparent : home.companion c ≠ home.dropLast := by
      intro he
      have hlength := (home.length_le_companion c c).1
      have hpos := List.length_pos_iff.2 h.home_ne_nil
      rw [he, List.length_dropLast] at hlength
      omega
    rw [FileSystem.lookup_insert_of_ne _ (home.companion_ne c),
      FileSystem.lookup_addEntry_of_ne _ (home.companion_ne c) hparent]
    exact h.beside c
  have hentries {l : Location} {e : File} (hmem : (l, .file e) ∈ fs.entries) :
      l = home ∧ e = g ∨ e.database = none ∧ e.log = none := by
    rcases FileSystem.mem_insert_file hmem with ⟨rfl, he⟩ | hmem
    · cases he
      exact .inl ⟨rfl, rfl⟩
    · rcases FileSystem.mem_insert_file (FileSystem.mem_touchDirectory_file hmem) with
        ⟨-, he⟩ | hmem
      · cases he
        exact .inr hf
      · exact .inr (h.unused hmem)
  refine ⟨⟨⟨g, ?_, hg.1⟩, fun hmem hn ↦ ?_, fun hmem hlog ↦ ?_, ?_⟩, hbeside⟩
  · exact FileSystem.fileAt?_eq_some.2 (FileSystem.lookup_insert_self _ h.home_ne_nil _)
  · rcases hentries hmem with ⟨rfl, rfl⟩ | ⟨hnone, -⟩
    · exact ⟨rfl, hclean⟩
    · rw [hnone] at hn
      cases hn
  · rcases hentries hmem with ⟨-, rfl⟩ | ⟨-, hnone⟩
    · rw [hg.2] at hlog
      cases hlog
    · rw [hnone] at hlog
      cases hlog
  · rw [FileSystem.isDirectory, hbeside .index]

theorem Vacant.openFile (h : w.Vacant home) {f : File} (hcontent : f.content = [])
    (hf : f.database = none ∧ f.log = none) (hclean : f.isReadable = true ∧ f.isWritable = true) :
    ∃ o, ({ w with files := w.files.addEntry home (.file f) } : World).openFile home f
        { path := p, mode := .create } = some o ∧ o.database = 0 ∧
      o.access = { session := w.opened, cache := w.opened, residence := .file home } ∧
      o.world.Begun home ∧ o.world.opened = w.opened + 1 := by
  let g := { f with database := some 0, isRewritten := false }
  let made : World :=
    { w with
      files := (w.files.addEntry home (.file f)).insert home (.file g)
      databases := [{}] }
  have hblank : Header.database f.content = {} := by
    rw [hcontent]
    rfl
  have hin : ({ w with files := w.files.addEntry home (.file f) } : World).databaseIn home f =
      (0, made) := by
    simp only [databaseIn, hf.1, addDatabase, h.databases, hblank]
    rfl
  obtain ⟨hhouses, hbeside⟩ := h.houses hf (g := g) ⟨rfl, hf.2⟩ ⟨rfl, hclean⟩
  refine ⟨made.joinAlone 0 { residence := .file home } false, ?_, rfl, rfl,
    ⟨⟨{}, rfl, .refl _, rfl⟩, hhouses, hbeside⟩, rfl⟩
  simp only [World.openFile, hclean.1, hclean.2, hin]
  rfl

theorem Vacant.openDatabase (h : w.Vacant home) (hp : w.Finds p home) :
    (∃ e, w.openDatabase p .create = .error e) ∨
      ∃ o, w.openDatabase p .create = .ok o ∧ o.database = 0 ∧
        o.access = { session := w.opened, cache := w.opened, residence := .file home } ∧
        o.world.Begun home ∧ o.world.opened = w.opened + 1 := by
  have hmode : AccessMode.create ≠ .memory := nofun
  have hpermits : Nat.testBit FileSystem.defaultMode 8 = true ∧
      Nat.testBit FileSystem.defaultMode 7 = true := by decide
  obtain ⟨q, hopen⟩ := hp.openDatabase hmode
  obtain ⟨o, ho, hopened⟩ := h.openFile (p := q)
    (f := { modified := w.files.now, mode := FileSystem.defaultMode }) rfl ⟨rfl, rfl⟩ hpermits
  rw [hopen, openAt, h.free]
  dsimp only
  rw [ho]
  split
  · next o' ho' =>
    obtain ⟨-, ho'⟩ := Option.ite_none_right_eq_some.1 ho'
    cases ho'
    exact .inr ⟨o, rfl, hopened⟩
  · exact .inl ⟨_, rfl⟩

namespace Begun

variable (h : w.Begun home)

include h

theorem refresh : w.refresh 0 = w :=
  refresh_of_spares fun _ _ hmem hn ↦ (h.houses.database hmem hn).2.1

theorem discardCompanion (c : Companion) : w.discardCompanion home c = w := by
  simp [World.discardCompanion, FileSystem.discard, h.beside c]

theorem reach (ha : a.IsOrdinary) (hr : a.residence = .file home) :
    ∃ j, w.reach 0 a = ({ a with sight := none, journalError := j }, w) := by
  obtain ⟨d, hdatabases, hd, hlog⟩ := h.blank
  have hdatabase : w.database 0 = d := by simp [World.database, hdatabases]
  have hblank : d.contents = .blank := hd.contents
  have hlock : w.checkLock a home = (none, w) := by simp [World.checkLock, ha.usesDirectory]
  have hjournal : w.checkJournal 0 a home = (none, w) := by
    simp [checkJournal, hdatabase, hlog, Database.stored, hblank, h.discardCompanion .journal]
  have hlooked : w.checkLog 0 a home = (none, w) := by
    simp [checkLog, hdatabase, hlog, hblank, FileSystem.isDirectory, h.beside .log,
      h.discardCompanion .log]
  have houtside : w.outside? 0 a = none := by simp [outside?, hdatabase, hlog]
  refine ⟨w.journalError? 0 a home, ?_⟩
  unfold World.reach
  simp [hr, hdatabase, hd.isBusy a, h.refresh, ha.isFrozen, claim_of_ordinary w 0 ha, approach,
    hlock, hjournal, hlooked, houtside]

theorem learn (a : Access) : (w.learn 0 a).Begun home := by
  obtain ⟨d, hdatabases, hd, hlog⟩ := h.blank
  obtain ⟨hagrees, hsame⟩ := learn_agrees d a
  refine ⟨⟨d.learn a, ?_, hagrees.trans hd, hsame.trans hlog⟩, h.houses, h.beside⟩
  simp [World.learn, setDatabase, World.database, hdatabases]

theorem startLog (ha : a.IsOrdinary) (hs : w.startLog 0 a home = .ok v) :
    v.Serves 0 home ∧ (v.database 0).Agrees { contents := .bare } ∧ v.opened = w.opened := by
  obtain ⟨d, hdatabases, hd, hlog⟩ := h.blank
  have hdatabase : w.database 0 = d := by simp [World.database, hdatabases]
  obtain ⟨e, he, hv⟩ := map_eq_ok.1 hs
  rw [hdatabase] at he hv
  have he := hd.startLog hlog ha.keepsLog he
  have hcount : e.changeCount ≠ d.changeCount := by
    rw [he]
    exact Nat.succ_ne_self _
  rw [if_neg hcount] at hv
  let touched := ((w.setDatabase 0 e).discardCompanion home .journal).touchHome home
  have htouched : touched.files.Houses 0 home := (h.houses.discard .journal).touchDirectory _
  have hfree : touched.files.logAt? (home.companion .log) = none := by
    have hnone : w.files.logAt? (home.companion .log) = none := by
      simp [FileSystem.logAt?, FileSystem.fileAt?, h.beside .log]
    rw [← hnone, ← FileSystem.logAt?_discard (c := .journal) w.files home (by decide)]
    exact FileSystem.logAt?_congr (FileSystem.fileAt?_touchDirectory _ _ _).1
  obtain ⟨fs, hwritten, hfs, hfound⟩ := Houses.writePages (w := touched) htouched
  rw [hfree] at hfound
  have hv : { touched with files := fs } = v := hwritten.symm.trans hv
  have hset : v.database 0 = e := by
    rw [← hv]
    simp [touched, World.database, setDatabase, World.discardCompanion, touchHome, hdatabases]
  have hlength : v.databases.length = 1 := by
    rw [← hv]
    simp [touched, setDatabase, World.discardCompanion, touchHome, hdatabases]
  have hfiles : v.files = fs := by rw [← hv]
  refine ⟨⟨by omega, hfiles ▸ hfs, fun hn ↦ ?_, { stored := .bare }, ?_, ?_⟩, ?_, ?_⟩
  · rw [hfiles, hfound] at hn
    cases hn
  · rw [hset, he]
  · rw [hset, he]
    refine ⟨by simp, rfl, rfl, fun hne ↦ absurd rfl hne, fun hne ↦ absurd rfl hne, fun _ ↦ ?_⟩
    rw [leftAt?, hfiles, hfound]
    rfl
  · rw [hset, he]
    exact ⟨rfl, hd.writer, hd.strays, hd.readers⟩
  · rw [← hv]
    rfl

end Begun

theorem Serves.provideTables_bare (h : w.Serves n home) (ha : a.IsOrdinary)
    (hr : a.residence = .file home) (hd : (w.database n).Agrees { contents := .bare })
    (hok : w.provideTables n a = (.ok (), v)) :
    v.Serves n home ∧ (v.database n).Rests {} ∧ v.opened = w.opened := by
  obtain ⟨sight, j, x, hreach, htracks, hsight⟩ := h.reach ha hr (hd.isBusy a)
  have ha' : ({ a with sight, journalError := j } : Access).IsOrdinary :=
    ⟨ha.1, ha.2, ha.3, ha.4, ha.5⟩
  have hbare := htracks.agrees.trans hd
  simp only [World.provideTables, hreach] at hok
  rcases hsight with ⟨e, rfl⟩ | ⟨rfl, huses⟩
  · simp [Database.provideTables, hbare.view ha'.isFrozen] at hok
  · rw [hbare.provideTables htracks.serves.holds.logged ha'.writes rfl] at hok
    have hv := (Prod.mk.inj hok).2
    have hsettled := htracks.serves.settle ha' ((x.database n).evolves_publish (.tables {}))
      (.inr huses)
    have hlearned := hsettled.trans
      (hsettled.serves.learn { a with sight := none, journalError := j }) hsettled.agrees
    rw [hv] at hlearned
    exact ⟨hlearned.serves,
      hlearned.agrees.rests ⟨rfl, hbare.writer, hbare.strays, hbare.readers⟩,
      hlearned.opened.trans htracks.opened⟩

theorem Begun.provide (h : w.Begun home) (ha : a.IsOrdinary) (hr : a.residence = .file home)
    (hok : w.provide 0 a = (.ok (), v)) :
    v.Serves 0 home ∧ (v.database 0).Rests {} ∧ v.opened = w.opened := by
  obtain ⟨j, hreach⟩ := h.reach ha hr
  obtain ⟨d, hdatabases, hd, -⟩ := h.blank
  have hview : (w.database 0).view { a with sight := none, journalError := j } = .blank := by
    have hdatabase : w.database 0 = d := by simp [World.database, hdatabases]
    rw [hdatabase]
    exact hd.view ha.isFrozen
  have ha' : ({ a with sight := none, journalError := j } : Access).IsOrdinary :=
    ⟨ha.1, ha.2, ha.3, ha.4, ha.5⟩
  simp only [World.provide, hreach, hview] at hok
  generalize ({ a with sight := none, journalError := j } : Access) = reached at ha' hok
  rw [hr] at hok
  rcases hstart : (w.learn 0 reached).startLog 0 reached home with e | x
  · simp [hstart] at hok
  · obtain ⟨hserves, hbare, hopened⟩ := (h.learn reached).startLog ha' hstart
    rcases hprovided : x.provideTables 0 a with ⟨e | ⟨⟩, y⟩
    · simp [hstart, hprovided, Except.mapError] at hok
    · simp only [hstart, hprovided, Except.mapError, Prod.mk.injEq, true_and] at hok
      obtain ⟨hserved, hrests, hsame⟩ := hserves.provideTables_bare ha hr hbare hprovided
      subst hok
      exact ⟨hserved, hrests, hsame.trans hopened⟩

/-- The first store at a place has no rows, and one handle. -/
theorem Vacant.create (h : w.Vacant home) (hp : w.Finds p home)
    (hs : Store.create w p config = (.ok s, v)) :
    v.Serves 0 home ∧ (v.database 0).Rests {} ∧ s.IsHandle 0 home ∧
      s.access.session = w.opened ∧ v.opened = w.opened + 1 ∧ s.retention = config.retention := by
  obtain ⟨x, hconnect, hprovide⟩ : ∃ x, Store.connect w p config .create = (.ok s, x) ∧
      x.provide s.database s.access = (.ok (), v) := by
    unfold Store.create at hs
    split at hs
    · cases hs
    · next s' x hconnect =>
      split at hs
      · next hprovide =>
        cases hs
        exact ⟨x, hconnect, hprovide⟩
      · cases hs
  unfold Store.connect at hconnect
  rcases h.openDatabase hp with ⟨e, he⟩ | ⟨o, ho, hn, haccess, hbegun, hopened⟩
  · simp [he] at hconnect
  · simp only [ho] at hconnect
    split at hconnect
    · cases hconnect
    · split at hconnect
      · cases hconnect
      · cases hconnect
        have hordinary : o.access.IsOrdinary := haccess ▸ ⟨⟨home, rfl⟩, rfl, rfl, rfl, rfl⟩
        have hresidence : o.access.residence = .file home := by rw [haccess]
        have hprovide : o.world.provide o.database o.access = (.ok (), v) := hprovide
        rw [hn] at hprovide
        obtain ⟨hserves, hrests, hsame⟩ := hbegun.provide hordinary hresidence hprovide
        exact ⟨hserves, hrests,
          ⟨hn, hordinary, hresidence, by rw [haccess], Nat.le_max_left _ _⟩, by rw [haccess],
          hsame.trans hopened, rfl⟩

def storeless (content : Bytes) : World := { files := .single content }

theorem storeless_vacant (content : Bytes) : (storeless content).Vacant [Utf8.encode "store"] where
  databases := rfl
  logs := rfl
  free := by rfl
  beside c := by cases c <;> rfl
  unused h := by
    rw [storeless, FileSystem.single, List.mem_singleton] at h
    cases h
    exact ⟨rfl, rfl⟩

theorem storeless_finds (content : Bytes) :
    (storeless content).Finds (Path.ofText "/store") [Utf8.encode "store"] :=
  .of_path (by decide) (by decide) (by decide) (by rfl)

end World

end FindingStore
