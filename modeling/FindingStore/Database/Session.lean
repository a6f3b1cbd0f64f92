import FindingStore.Database.Access

/-!
A database that several sessions share. One session at a time may hold the write lock; what it
changes goes to a draft that the others do not see, and the draft replaces the contents when it
commits. A session that may only read keeps what it sees when it begins a transaction. Sessions
that take no locks do all this beside the others, and sessions with the same cache lock single
tables against each other.
-/

namespace FindingStore

/-- A session in a transaction that may write. -/
structure Writer where
  session : Nat
  cache : Nat
  draft : Option Contents := none
  /-- Foreign keys are checked at the commit only. -/
  deferred : Bool := false
  touched : List Part := []
  deriving DecidableEq, Repr

structure Reader where
  session : Nat
  contents : Contents
  takesLocks : Bool
  deriving DecidableEq, Repr

structure Log where
  stored : Contents
  /-- The caches of the sessions that use the log. -/
  users : List Nat := []
  home : Location := []
  number : Nat := 0
  /-- Whether the index of the log lies in a file, not in the memory of the process. -/
  hasIndex : Bool := true
  isWritable : Bool := true
  isFilled : Bool := false
  /-- The users that have opened another file in place of the log. -/
  misled : List Nat := []
  deriving DecidableEq, Repr

structure Database where
  contents : Contents := .blank
  changeCount : Nat := 0
  /-- None if changes go straight to the file, behind a journal. -/
  log : Option Log := none
  writer : Option Writer := none
  /-- The writers that take no locks. -/
  strays : List Writer := []
  readers : List Reader := []
  /-- What the sessions see that take the file to be unchanging. -/
  frozen : List (Nat × Contents) := []
  isClaimed : Bool := false
  /-- The caches that know the schema, and whether it has tables. -/
  known : List (Nat × Bool) := []
  deriving DecidableEq, Repr

inductive Statement
  | begin
  | commit
  | rollback
  | deferForeignKeys
  | query (q : Query)
  deriving DecidableEq, Repr

abbrev Statement.Reply : Statement → Type
  | .query q => q.Reply
  | _ => Unit

namespace Database

def stored (d : Database) : Contents :=
  match d.log with
  | some log => log.stored
  | none => d.contents

def own? (d : Database) (a : Access) : Option Writer :=
  if a.takesLocks then d.writer.filter (·.session == a.session)
  else d.strays.find? (·.session == a.session)

def setOwn (d : Database) (a : Access) (w : Writer) : Database :=
  if a.takesLocks then { d with writer := some w }
  else { d with strays := w :: d.strays.filter (·.session != a.session) }

def dropOwn (d : Database) (a : Access) : Database :=
  if a.takesLocks then { d with writer := none }
  else { d with strays := d.strays.filter (·.session != a.session) }

def working (d : Database) (w : Writer) : Contents := w.draft.getD d.contents

def reader? (d : Database) (a : Access) : Option Reader :=
  d.readers.find? (·.session == a.session)

def isBusy (d : Database) (a : Access) : Bool := (d.own? a).isSome || (d.reader? a).isSome

def neighbour? (d : Database) (a : Access) : Option Writer :=
  (d.writer.toList ++ d.strays).find? fun w ↦ w.session != a.session && w.cache == a.cache

def schemaLock? (d : Database) (a : Access) : Option SqlError :=
  if (d.neighbour? a).any (·.touched.contains .schema) then some .schemaLocked else none

def tableLock? (d : Database) (a : Access) (q : Query) : Option SqlError :=
  (d.neighbour? a).bind fun w ↦ (q.reads.find? w.touched.contains).map fun p ↦ .tableInUse p.name

def seen (d : Database) (a : Access) : Contents :=
  match a.sight with
  | some contents => contents
  | none => if a.isFrozen then (d.frozen.lookup a.session).getD d.stored else d.contents

def view (d : Database) (a : Access) : Contents :=
  match d.schemaLock? a, d.own? a with
  | some e, _ => .unusable e
  | none, some w => d.working w
  | none, none => ((d.reader? a).map Reader.contents).getD (d.seen a)

/-- What a session prepares statements against. A schema that is known is not read again while it
serves the statement. -/
def schema (d : Database) (a : Access) : Contents :=
  match d.schemaLock? a, d.known.lookup a.cache, d.view a with
  | none, some true, _ => .tables {}
  | none, some false, .unusable _ => .bare
  | _, _, contents => contents

def learn (d : Database) (a : Access) : Database :=
  match d.view a with
  | .unusable _ => d
  | contents =>
    let known := (a.cache, contents matches .tables _) :: d.known.filter (·.1 != a.cache)
    { d with known }

def publish (d : Database) (contents : Contents) : Database :=
  { d with contents, changeCount := d.changeCount + 1 }

def lockError? (d : Database) (a : Access) : Option SqlError :=
  if a.readOnly || d.log.any (!·.isWritable) then some .readOnly
  else if (d.neighbour? a).isSome then some .tableLocked
  else if a.takesLocks && d.writer.isSome then some .locked
  else none

def journalError? (d : Database) (a : Access) : Option SqlError :=
  if d.log.isSome then none else a.journalError

/-- Sessions that read in a transaction keep the file itself from being changed. -/
def readingError? (d : Database) (a : Access) : Option SqlError :=
  if d.log.isNone && a.takesLocks &&
    d.readers.any fun r ↦ r.takesLocks && r.session != a.session then some .locked
  else none

def writeError? (d : Database) (a : Access) : Option SqlError :=
  (d.lockError? a).or ((d.journalError? a).or (d.readingError? a))

/-- Begins a transaction, which takes the write lock unless the session may only read. A blank
file gets its first page. -/
def begin (d : Database) (a : Access) : Except SqlError Unit × Database :=
  if d.isBusy a then (.error .nestedTransaction, d)
  else
    match d.view a with
    | .unusable e => (.error e, d)
    | contents =>
      let isBlank := decide (contents = .blank)
      if a.readOnly || a.isOutside then
        let takesLocks := a.takesLocks && !a.isFrozen
        (.ok (), { d with readers := ⟨a.session, contents, takesLocks⟩ :: d.readers })
      else
        match (d.lockError? a).or (if isBlank then d.journalError? a else none) with
        | some e => (.error e, d)
        | none =>
          let draft := if isBlank then some .bare else none
          (.ok (), d.setOwn a { session := a.session, cache := a.cache, draft })

def endReading (d : Database) (a : Access) (otherwise : SqlError) :
    Except SqlError Unit × Database :=
  if (d.reader? a).isNone then (.error otherwise, d)
  else (.ok (), { d with readers := d.readers.filter (·.session != a.session) })

/-- A commit that would leave a report without its file fails, and the lock stays. -/
def commit (d : Database) (a : Access) : Except SqlError Unit × Database :=
  match d.own? a with
  | none => d.endReading a .nothingToCommit
  | some w =>
    if w.deferred && !(d.working w).isConsistent then (.error .foreignKey, d)
    else
      match d.readingError? a, w.draft with
      | some e, _ => (.error e, d)
      | none, some contents => (.ok (), (d.dropOwn a).publish contents)
      | none, none => (.ok (), d.dropOwn a)

def rollback (d : Database) (a : Access) : Except SqlError Unit × Database :=
  match d.own? a with
  | none => d.endReading a .nothingToRollBack
  | some _ => (.ok (), d.dropOwn a)

def deferForeignKeys (d : Database) (a : Access) : Database :=
  match d.own? a with
  | none => d
  | some w => d.setOwn a { w with deferred := true }

def blindError (d : Database) (a : Access) (q : Query) (e : SqlError) : SqlError :=
  match d.schema a with
  | .bare => .noSuchTable q.table
  | .tables _ => if a.readOnly && q.writes then .readOnly else e
  | _ => e

/-- Runs a statement outside a write transaction, which commits by itself what it writes. What is
wrong with the statement comes before what keeps the session from locking or reading, that before
what the statement meets in the tables, and that before what keeps a change from the file. -/
def runAlone (d : Database) (a : Access) (q : Query) : Except SqlError q.Reply × Database :=
  match d.view a with
  | .unusable e => (.error (d.blindError a q e), d)
  | contents =>
    match contents.apply false q, if q.writes then d.lockError? a else d.tableLock? a q with
    | .error e, obstacle => (.error (if e.isStatic then e else obstacle.getD e), d)
    | .ok _, some e => (.error e, d)
    | .ok (reply, contents), none =>
      let changeError := if q.hasEffect reply then d.journalError? a else none
      match changeError.or (if q.writes then d.readingError? a else none) with
      | some e => (.error e, d)
      | none => (.ok reply, if q.hasEffect reply then d.publish contents else d)

/-- Fails with a statement in a write transaction, all of which is undone if the file has failed. -/
def failWriting (d : Database) (a : Access) (w : Writer) (e : SqlError) : Database :=
  if e.isFileFailure then d.dropOwn a else d.setOwn a w

def run (d : Database) (a : Access) (q : Query) : Except SqlError q.Reply × Database :=
  match d.own? a with
  | none => d.runAlone a q
  | some w =>
    let touched := { w with touched := w.touched ++ q.changes.filter (!w.touched.contains ·) }
    match (d.working w).apply w.deferred q with
    | .error e => (.error e, if q.writes && !e.isStatic then d.setOwn a touched else d)
    | .ok (reply, contents) =>
      if !q.hasEffect reply then (.ok reply, if q.writes then d.setOwn a touched else d)
      else
        match if w.draft.isNone then d.journalError? a else none with
        | some e => (.error e, d.failWriting a touched e)
        | none => (.ok reply, d.setOwn a { touched with draft := some contents })

theorem hasEffect_of_reads {q : Query} (h : q.writes = false) (reply : q.Reply) :
    q.hasEffect reply = false := by
  cases q <;> first | rfl | simp [Query.writes, Query.changes] at h

def execute (a : Access) (s : Statement) (d : Database) : Except SqlError s.Reply × Database :=
  match d.schemaLock? a with
  | some e => (.error e, d)
  | none =>
    match s with
    | .begin => d.begin a
    | .commit => d.commit a
    | .rollback => d.rollback a
    | .deferForeignKeys => (.ok (), d.deferForeignKeys a)
    | .query q => d.run a q

def release (d : Database) (a : Access) : Database :=
  { (d.rollback a).2 with frozen := d.frozen.filter (·.1 != a.session) }

/-- Turns to a log, if the session can keep one; for that it must have the file for itself. Nothing
happens while another session of the cache has changed something. -/
def startLog (d : Database) (a : Access) : Except SqlError Database :=
  if a.isOutside then .error (if a.readOnly then .readOnly else .locked)
  else if !a.keepsLog || d.log.isSome || (d.neighbour? a).any (·.draft.isSome) then .ok d
  else
    match (d.lockError? a).or ((d.readingError? a).or (d.journalError? a)) with
    | some e => .error e
    | none =>
      let contents := if d.contents = .blank then .bare else d.contents
      .ok { d.publish contents with log := some { stored := contents } }

def provideTables (d : Database) (a : Access) : Except SqlError Unit × Database :=
  match d.view a, d.writeError? a with
  | .unusable e, _ => (.error e, d)
  | .tables _, _ => (.ok (), d)
  | _, some e => (.error e, d)
  | _, none => (.ok (), d.publish (.tables {}))

end Database

end FindingStore
