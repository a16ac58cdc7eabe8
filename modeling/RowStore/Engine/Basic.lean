import RowStore.Catalog
import RowStore.Config
import RowStore.Lock.Table
import RowStore.Log.Basic
import RowStore.Pool

/-!
# Engine state

Everything that the store remembers between two requests, and how an outside call comes to fail. A request is a
function from one state to the next; it gives the next state also when it fails, because locks and pages
gained on the way to a failure stay.
-/

namespace RowStore

/-- Which outside calls fail: `fails call n` says whether call number `n` of the run fails if it is of that kind. -/
structure Faults where
  fails : Device → Nat → Bool
  next : Nat

namespace Faults

def never : Faults := ⟨fun _ _ => false, 0⟩

end Faults

/-- The order in which a pass over the resident pages visits them. Any order is as good as another. -/
structure Sweep where
  order : List FrameId → List FrameId
  perm : ∀ frames, (order frames).Perm frames

def Sweep.asListed : Sweep := ⟨id, fun frames => List.Perm.refl frames⟩

structure Engine where
  pageSize : Nat
  disk : Disk
  catalog : Catalog
  locks : LockTable
  pool : Pool
  log : Log
  faults : Faults

namespace Engine

def new (pageSize : Nat) (config : PoolConfig) : Engine :=
  ⟨pageSize, Disk.empty, Catalog.empty, LockTable.empty, Pool.new config.capacity config.k, Log.empty, Faults.never⟩

abbrev Result (α : Type) := Engine × Except StorageError α

/-- Makes one outside call: counts it and tells whether it fails. -/
def call (e : Engine) (device : Device) : Engine × Bool :=
  ({ e with faults := { e.faults with next := e.faults.next + 1 } }, e.faults.fails device e.faults.next)

def failure (device : Device) : StorageError := .io (.injected device)

def page? (e : Engine) (f : FrameId) : Option Page := e.pool.page? f

def setPage (e : Engine) (f : FrameId) (page : Page) : Engine := { e with pool := e.pool.setPage f page }

/-- Reads a page through the catalog. -/
def readPage (e : Engine) (id : PageId) : Result Page :=
  match e.catalog.table? id.table with
  | .error err => (e, .error err)
  | .ok table =>
    match e.call .read with
    | (e, true) => (e, .error (failure .read))
    | (e, false) =>
      match e.disk.readPage e.pageSize table id with
      | (disk, result) => ({ e with disk := disk }, result)

def writePage (e : Engine) (page : Page) : Result Unit :=
  match e.catalog.table? page.id.table with
  | .error err => (e, .error err)
  | .ok table =>
    match e.call .write with
    | (e, true) => (e, .error (failure .write))
    | (e, false) =>
      match e.disk.writePage table page with
      | (disk, result) => ({ e with disk := disk }, result)

/-- Appends to the log a record of a page's baseline and its present image. -/
def logPage (e : Engine) (txn : TxnId) (page : Page) : Result Unit :=
  match e.call .logWrite with
  | (e, true) => (e, .error (failure .logWrite))
  | (e, false) =>
    ({ e with log := e.log.append ⟨txn, page.id, page.beforeImage, page.encode⟩ }, .ok ())

def forceLog (e : Engine) : Result Unit :=
  match e.call .force with
  | (e, true) => (e, .error (failure .force))
  | (e, false) => ({ e with log := e.log.force }, .ok ())

def logAndForce (e : Engine) (txn : TxnId) (page : Page) : Result Unit :=
  match e.logPage txn page with
  | (e, .error err) => (e, .error err)
  | (e, .ok ()) => e.forceLog

/-- Fetches a page for a transaction: takes the lock, and brings the page into memory if it is not there. A page is
given up for it only once it has been read. -/
def getPage (e : Engine) (txn : TxnId) (id : PageId) (access : Access) : Result FrameId :=
  match e.locks.acquire txn id access.lockMode with
  | (locks, .error err) => ({ e with locks := locks }, .error err)
  | (locks, .ok ()) =>
    let e := { e with locks := locks }
    match e.pool.resident.find? id with
    | some f => ({ e with pool := e.pool.touch id }, .ok f)
    | none =>
      match e.readPage id with
      | (e, .error err) => (e, .error err)
      | (e, .ok page) =>
        match e.pool.load page with
        | .error err => (e, .error err)
        | .ok (pool, f) => ({ e with pool := pool }, .ok f)

def discardPage (e : Engine) (id : PageId) : Engine := { e with pool := e.pool.discard id }

def releasePage (e : Engine) (txn : TxnId) (id : PageId) : Engine × Bool :=
  match e.locks.release txn id with
  | (locks, released) => ({ e with locks := locks }, released)

/-- Does something while someone else is writing a frame. -/
def whileWriting {α : Type} (e : Engine) (f : FrameId) (act : Engine → Engine × α) : Engine × α :=
  match act { e with pool := { e.pool with writing := f :: e.pool.writing } } with
  | (next, result) => ({ next with pool := { next.pool with writing := e.pool.writing } }, result)

end Engine

end RowStore
