import FindingStore.FileSystem.FullPath
import FindingStore.Store.Error
import FindingStore.World.Reach

namespace FindingStore

structure Opened where
  database : Nat
  access : Access
  world : World

namespace World

def join (w : World) (n : Nat) (access : Access) (isShared : Bool) : Opened :=
  let access := { access with session := w.opened }
  { database := n
    access
    world :=
      { w with sessions := ⟨n, access, isShared⟩ :: w.sessions, opened := w.opened + 1 } }

def joinAlone (w : World) (n : Nat) (access : Access) (isShared : Bool) : Opened :=
  w.join n { access with cache := w.opened } isShared

def partner? (w : World) (r : Residence) (layer : FileLayer) : Option OpenSession :=
  w.sessions.find? fun s ↦ s.isShared && s.access.residence == r && s.access.layer == layer

def databaseIn (w : World) (l : Location) (f : File) : Nat × World :=
  match f.database with
  | some n => (n, w.refresh n)
  | none =>
    let (n, w) := w.addDatabase (Header.database f.content)
    let f := { f with database := some n, isRewritten := false }
    (n, { w with files := w.files.insert l (.file f) })

def openFile (w : World) (l : Location) (f : File) (a : Address) : Option Opened :=
  if !f.isReadable then none
  else
    let (n, w) := w.databaseIn l f
    let opened := w.joinAlone n
      { residence := .file l
        layer := a.layer
        ignoresLocks := a.ignoresLocks
        readOnly := a.mode == .readOnly || a.isFrozen || !f.isWritable
        isFrozen := a.isFrozen } a.shared
    if a.isFrozen then
      let world := opened.world.freeze n opened.access (opened.world.database n).stored
      some { opened with world }
    else some opened

def openAt (w : World) (l : Location) (a : Address) : Option Opened :=
  match w.files.lookup l with
  | some (.file f) => w.openFile l f a
  | some _ => none
  | none =>
    if a.mode == .create && w.files.isDirectory l.dropLast then
      let f : File := { modified := w.files.now, mode := FileSystem.defaultMode }
      ({ w with files := w.files.addEntry l (.file f) } : World).openFile l f a
    else none

/-- Opens the database whose file has its full path at a place, by way of a session that has its
cache open if it may be shared. -/
def openPlace (w : World) (l : Location) (a : Address) : Option Opened :=
  match if a.shared then w.partner? (.file l) a.layer else none with
  | some s => some (w.join s.database s.access true)
  | none => w.openAt l a

/-- The name by which a database in memory is found; that of a file in memory starts with a
slash. -/
def memoryName? (a : Address) : Option Path :=
  let isNamed := a.layer == .memory && Path.isAbsolute a.path && decide (1 < a.path.length)
  if a.shared || isNamed then some a.path else none

/-- Opens a database that lies in memory: a new one, or one that is found by its name as long as a
session uses it. -/
def openMemory (w : World) (a : Address) : Opened :=
  let residence : Residence := .memory (memoryName? a)
  let access : Access :=
    { residence
      layer := a.layer
      ignoresLocks := a.ignoresLocks
      readOnly := a.mode == .readOnly }
  let namesake := w.sessions.find? fun s ↦
    (memoryName? a).isSome && a.layer == .memory && s.access.layer == .memory &&
      s.access.residence == residence
  match if a.shared then w.partner? residence a.layer else none, namesake with
  | some s, _ => w.join s.database s.access true
  | none, some s => w.joinAlone s.database access a.shared
  | none, none =>
    let (n, w) := w.addDatabase {}
    w.joinAlone n access a.shared

def openAddress (w : World) (a : Address) : Option Opened :=
  if a.path.isEmpty then some (w.openMemory { a with shared := false })
  else if a.isInMemory then some (w.openMemory { a with layer := .standard, ignoresLocks := false })
  else if a.layer == .memory then some (w.openMemory a)
  else
    match FileSystem.FullPath.resolve? w.files a.path with
    | some l => w.openPlace l a
    | none => none

def openDatabase (w : World) (p : Path) (mode : AccessMode) : Except OpenFailure Opened :=
  match p.findIdx? (· == 0), Address.parse mode p with
  | some position, _ => .error (.nulByte position)
  | none, .error e => .error (.address e)
  | none, .ok address =>
    match w.openAddress address with
    | some opened => .ok opened
    | none => .error (.unable p)

end World

end FindingStore
