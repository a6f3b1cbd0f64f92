import FindingStore.Database.Header
import FindingStore.FileSystem.Companion

/-!
A world: a file system together with the databases that have been opened in it, each by one or
more sessions. A database lies in a file or in memory.
-/

namespace FindingStore

/-- What becomes of a database when somebody else has written its file. A log that is in use and
began with the first page holds every page, so that the file does not count; any other log no
longer fits the file. -/
def Database.replaceFile (d found : Database) : Database :=
  match d.log with
  | some log =>
    if log.users.isEmpty then { d with contents := found.contents, log := found.log }
    else
      let contents := if log.stored matches .tables _ then .unusable .malformed else d.contents
      { d with contents, log := some { log with stored := found.contents } }
  | none => { d with contents := found.contents, log := found.log }

structure OpenSession where
  database : Nat
  access : Access
  isShared : Bool := false
  deriving DecidableEq, Repr

structure World where
  files : FileSystem := {}
  databases : List Database := []
  /-- What the logs hold that sessions have left; none if they hold nothing. -/
  logs : List (Option Contents) := []
  sessions : List OpenSession := []
  opened : Nat := 0
  deriving Repr

namespace World

def database (w : World) (n : Nat) : Database := w.databases[n]?.getD {}

def setDatabase (w : World) (n : Nat) (d : Database) : World :=
  { w with databases := w.databases.set n d }

theorem database_setDatabase {w : World} {n : Nat} (h : n < w.databases.length) (d : Database) :
    (w.setDatabase n d).database n = d := by
  simp [database, setDatabase, h]

def addDatabase (w : World) (d : Database) : Nat × World :=
  (w.databases.length, { w with databases := w.databases ++ [d] })

def changeFile (w : World) (n : Nat) (change : File → File) : World :=
  match w.files.databaseFile? n with
  | some (l, f) => { w with files := w.files.insert l (.file (change f)) }
  | none => w

def refresh (w : World) (n : Nat) : World :=
  match w.files.databaseFile? n with
  | some (_, f) =>
    if !f.isRewritten then w
    else
      (w.setDatabase n ((w.database n).replaceFile (Header.database f.content))).changeFile n
        ({ · with isRewritten := false })
  | none => w

def pageBytes : Nat := 0x1000

/-- The pages that a file needs for its contents, as long as each table and each index fits one. -/
def pages : Contents → Nat
  | .unusable _ | .blank => 0
  | .bare => 1
  | .tables _ => 5

def writePages (w : World) (n : Nat) : World :=
  w.changeFile n fun f ↦
    { f with
      content := List.replicate (pageBytes * pages (w.database n).stored) 0
      modified := w.files.now
      isRewritten := false }

def isUnmoved (w : World) (n : Nat) (l : Location) : Bool :=
  match w.files.stat l.toPath with
  | .ok (.file f) => f.database == some n
  | _ => false

end World

end FindingStore
