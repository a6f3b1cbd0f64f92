import FindingStore.World.Basic

/-!
How sessions get at the files of their databases. Outside of a transaction a session looks at its
file anew: it clears away what earlier sessions have left beside it, takes the log into use, and
notes what stands in its way. The last session that uses a log brings its changes into the file.
-/

namespace FindingStore

abbrev Approach := Option SqlError × World

namespace World

def discardCompanion (w : World) (home : Location) (c : Companion) : World :=
  { w with files := w.files.discard (home.companion c) }

def provideCompanion (w : World) (n : Nat) (home : Location) (c : Companion) (content : Bytes) :
    World :=
  let mode := ((w.files.databaseFile? n).map fun f ↦ f.2.mode).getD FileSystem.defaultMode
  { w with files := w.files.provide (home.companion c) content mode }

def touchHome (w : World) (home : Location) : World :=
  { w with files := w.files.touchDirectory home.dropLast }

/-- Waits for no lock: a directory that stands for one must not be there. -/
def checkLock (w : World) (a : Access) (home : Location) : Approach :=
  if !a.usesDirectory then (none, w)
  else if (w.files.lookup (home.companion .lock)).isSome then (some .locked, w)
  else (none, w.touchHome home)

def settledJournal : UInt8 := 0

/-- Undoes what a journal says that was left behind, which changes nothing, and removes it. -/
def checkJournal (w : World) (n : Nat) (a : Access) (home : Location) : Approach :=
  let d := w.database n
  let l := home.companion .journal
  let isHeld := d.log.isNone && a.takesLocks && d.writer.isSome
  let users := d.log.elim [] Log.users
  let isInUse := a.takesLocks && !users.isEmpty
  if a.usesDirectory || isHeld || users.contains a.cache || !w.files.isOccupied l then
    (none, w)
  else if d.stored = .blank then
    (none, if a.readOnly then w else w.discardCompanion home .journal)
  else
    match w.files.lookup l with
    | some (.directory _) => (some .unreadableJournal, w)
    | some (.file f) =>
      if f.content.head? = some settledJournal then (none, w)
      else if a.readOnly then (some .unfinished, w)
      else if isInUse then (some .locked, w)
      else (none, w.discardCompanion home .journal)
    | _ =>
      if a.readOnly then (some .unfinished, w)
      else (some (if isInUse then .locked else .cannotOpen), w)

def leftAt? (w : World) (l : Location) : Option Contents :=
  ((w.files.logAt? l).bind (w.logs[·]?)).join

/-- Takes a log into use that no session uses. What a log holds that was left behind counts. -/
def startUsing (w : World) (n : Nat) (a : Access) (home : Location) (log : Log)
    (hasIndex isWritable : Bool) : World :=
  let l := home.companion .log
  let left := w.files.logAt? l
  let kept := w.leftAt? l
  let number := left.getD w.logs.length
  let log :=
    { log with users := [a.cache], home, number, hasIndex, isWritable, isFilled := kept.isSome }
  let logs := if left.isSome then w.logs else w.logs ++ [none]
  { w.setDatabase n { w.database n with contents := kept.getD log.stored, log := some log } with
    files := if left.isSome then w.files else w.files.keepLog l number
    logs }

def useLog (w : World) (n : Nat) (a : Access) (home : Location) (log : Log) : Approach :=
  let w := w.provideCompanion n home .log []
  if !log.users.isEmpty then
    let log := { log with users := a.cache :: log.users }
    if log.isFilled && w.files.logAt? (home.companion .log) != some log.number then
      let log := { log with misled := a.cache :: log.misled }
      (some .shortLog, w.setDatabase n { w.database n with log := some log })
    else (none, w.setDatabase n { w.database n with log := some log })
  else if (w.database n).isClaimed then (none, w.startUsing n a home log false true)
  else
    match w.files.lookup (home.companion .index) with
    | some (.link _) => (some .cannotOpen, w)
    | some (.directory _) => (none, w.startUsing n a home log true false)
    | _ => (none, (w.provideCompanion n home .index []).startUsing n a home log true true)

def companionError? (w : World) (home : Location) (c : Companion) : Option SqlError :=
  if !(w.files.stat home.toPath).isOk then some .lostFile
  else if w.files.admitsFile (home.companion c) then none
  else some .cannotOpen

def checkLog (w : World) (n : Nat) (a : Access) (home : Location) : Approach :=
  let d := w.database n
  let l := home.companion .log
  match d.log with
  | some log =>
    if log.misled.contains a.cache then (some .shortLog, w)
    else if log.users.contains a.cache then (none, w)
    else if log.stored = .blank then (none, w.discardCompanion home .log)
    else if !a.keepsLog then (some .cannotOpen, w)
    else
      match w.companionError? home .log with
      | some e => (some e, w)
      | none => w.useLog n a home log
  | none =>
    if !w.files.isOccupied l then (none, w)
    else if d.contents = .blank then
      if w.files.isDirectory l then (some .undeletableLog, w)
      else (none, w.discardCompanion home .log)
    else if !a.keepsLog || (w.files.fileAt? l).isNone then (some .cannotOpen, w)
    else w.useLog n a home { stored := d.contents }

/-- Gets at the file of a database, step by step up to the first obstacle. -/
def approach (w : World) (n : Nat) (a : Access) (home : Location) : Approach :=
  match w.checkLock a home with
  | (some e, w) => (some e, w)
  | (none, w) =>
    match w.checkJournal n a home with
    | (some e, w) => (some e, w)
    | (none, w) => w.checkLog n a home

def journalError? (w : World) (n : Nat) (a : Access) (home : Location) : Option SqlError :=
  if a.layer.tracksFile && (w.database n).contents != .blank && !w.isUnmoved n home then
    some .moved
  else w.companionError? home .journal

def memoryLock? (d : Database) (a : Access) : Option SqlError :=
  if a.layer == .memory && a.takesLocks && d.writer.any (·.cache != a.cache) then some .locked
  else none

def outside? (w : World) (n : Nat) (a : Access) : Option Contents :=
  match (w.database n).log with
  | some log => if log.stored = .blank ∧ !log.users.contains a.cache then some .blank else none
  | none => none

def freeze (w : World) (n : Nat) (a : Access) (contents : Contents) : World :=
  let d := w.database n
  let frozen := (a.session, contents) :: d.frozen.filter (·.1 != a.session)
  w.setDatabase n { d with frozen }

/-- Lets a session look for the first time at a file that it takes to be unchanging. The file may
have changed since it was opened, but its size counts from then on. -/
def thaw (w : World) (n : Nat) (a : Access) : World :=
  let d := w.database n
  let old := (d.frozen.lookup a.session).getD d.stored
  if (d.known.lookup a.cache).isSome || old = .blank then w
  else w.freeze n a (if pages old < pages d.stored then .unusable .malformed else d.stored)

def canClaim (d : Database) (a : Access) : Bool :=
  a.layer == .exclusive && !a.readOnly && d.log.all (·.users.all (· == a.cache)) &&
    d.writer.isNone && !d.readers.any (·.takesLocks)

def claim (w : World) (n : Nat) (a : Access) : World :=
  if canClaim (w.database n) a then
    w.setDatabase n { w.database n with isClaimed := true }
  else w

def reach (w : World) (n : Nat) (a : Access) : Access × World :=
  match a.residence, (w.database n).isBusy a with
  | .memory _, true => (a, w)
  | .memory _, false =>
    ({ a with sight := (memoryLock? (w.database n) a).map Contents.unusable }, w)
  | .file home, true => ({ a with journalError := w.journalError? n a home }, w)
  | .file home, false =>
    let w := w.refresh n
    if a.isFrozen then (a, w.thaw n a)
    else
      let (obstacle, w) := (w.claim n a).approach n a home
      let sight := (obstacle.map Contents.unusable).or (w.outside? n a)
      ({ a with sight, journalError := w.journalError? n a home }, w)

def hasJournal (d : Database) (a : Access) : Bool :=
  (d.log.isNone || !a.keepsLog) && (d.own? a).any (·.draft.isSome)

/-- Provides or removes what the transaction of a session needs beside its file, and writes to the
file or log what has changed. -/
def settle (w : World) (n : Nat) (a : Access) (before : Database) : World :=
  match a.residence with
  | .memory _ => w
  | .file home =>
    let after := w.database n
    let wrote := after.changeCount != before.changeCount
    let w :=
      if hasJournal after a then
        if hasJournal before a then w else w.provideCompanion n home .journal [settledJournal]
      else if hasJournal before a || (wrote && after.log.isNone) then
        (w.discardCompanion home .journal).touchHome home
      else w
    let w :=
      if !a.usesDirectory || before.isBusy a == after.isBusy a then w
      else
        let l := home.companion .lock
        let files := if after.isBusy a then w.files.addEntry l (.directory w.files.now)
          else w.files.dropEntry l
        { w with files }
    match after.log with
    | none => if wrote then w.writePages n else w
    | some log =>
      if wrote && !log.isFilled then
        { w.setDatabase n { after with log := some { log with isFilled := true } } with
          files := w.files.fillLog log.number }
      else w

def needsFile : Statement → Bool
  | .begin | .query _ => true
  | _ => false

def learn (w : World) (n : Nat) (a : Access) : World :=
  w.setDatabase n ((w.database n).learn a)

def needsSchema : Statement → Bool
  | .query _ => true
  | _ => false

def execute (w : World) (n : Nat) (a : Access) (s : Statement) :
    Except SqlError s.Reply × World :=
  let (a, w) := if needsFile s then w.reach n a else (a, w)
  let before := w.database n
  let (reply, d) := before.execute a s
  let w := (w.setDatabase n d).settle n a before
  (reply, if needsSchema s then w.learn n a else w)

/-- Whether a session can bring a log into the file: it must be able to write both, and to find
both as they were. -/
def canEmpty (w : World) (n : Nat) (a : Access) (home : Location) (log : Log) : Bool :=
  !a.readOnly && log.isWritable && w.isUnmoved n home && !log.misled.contains a.cache &&
    !(log.isFilled && w.files.isLogRewritten log.number)

/-- Stops using a log. The last one that uses it brings it into the file and removes it, or else
leaves it. -/
def stopUsing (w : World) (n : Nat) (a : Access) (home : Location) (log : Log) : World :=
  let d := w.database n
  let canEmpty := w.canEmpty n a home log
  let users := log.users.erase a.cache
  let log := { log with users, misled := log.misled.erase a.cache }
  if !users.isEmpty then w.setDatabase n { d with log := some log }
  else if canEmpty then
    let contents := if log.isFilled then d.contents else log.stored
    let w := w.setDatabase n { d with contents, log := some { log with stored := contents } }
    let w := if log.isFilled then w.writePages n else w
    let w := w.discardCompanion home .log
    if log.hasIndex then w.discardCompanion home .index else w
  else
    let logs := if log.isFilled then w.logs.set log.number (some d.contents) else w.logs
    { w.setDatabase n { d with log := some log } with logs }

def leave (w : World) (n : Nat) (a : Access) : World :=
  let sessions := w.sessions.filter (·.access.session != a.session)
  let before := w.database n
  let w := (w.setDatabase n (before.release a)).settle n a before
  let w := if sessions.any fun s ↦ s.database == n && s.access.layer.tracksFile then w
    else w.setDatabase n { w.database n with isClaimed := false }
  let w :=
    if sessions.any (·.access.cache == a.cache) then w
    else
      match a.residence, (w.database n).log with
      | .file home, some log =>
        if log.users.contains a.cache then w.stopUsing n a home log else w
      | _, _ => w
  { w with sessions }

inductive ProvisionStep
  | preparation
  | journal
  | tables
  deriving DecidableEq, Repr

def startLog (w : World) (n : Nat) (a : Access) (home : Location) : Except SqlError World :=
  let before := w.database n
  (before.startLog a).map fun d ↦
    if d.changeCount = before.changeCount then w
    else (((w.setDatabase n d).discardCompanion home .journal).touchHome home).writePages n

def provideTables (w : World) (n : Nat) (a : Access) : Except SqlError Unit × World :=
  let (a, w) := w.reach n a
  let before := w.database n
  let (result, d) := before.provideTables a
  (result, ((w.setDatabase n d).settle n a before).learn n a)

def provide (w : World) (n : Nat) (a : Access) :
    Except (ProvisionStep × SqlError) Unit × World :=
  let (reached, w) := w.reach n a
  match (w.database n).view reached with
  | .unusable e => (.error (.preparation, e), w)
  | _ =>
    let w := w.learn n reached
    let started := match a.residence with
      | .file home => w.startLog n reached home
      | .memory _ => .ok w
    match started with
    | .error e => (.error (.journal, e), w)
    | .ok w =>
      let (result, w) := w.provideTables n a
      (result.mapError fun e ↦ (.tables, e), w)

end World

end FindingStore
