import RowStore.Engine.Request

/-!
# Sessions

A store in use: the engine, the transactions that are open, and every table that was ever registered, so that the store
can be shut down and opened again over the same files. A transaction that is dropped without being
completed is aborted, and so is every open transaction when the store shuts down.
-/

namespace RowStore

inductive LogKeeping where
  /-- The log lives in memory and starts empty. -/
  | memory
  /-- The log is on file and goes on. -/
  | file
deriving DecidableEq

structure Session where
  engine : Engine
  config : PoolConfig
  logKeeping : LogKeeping
  /-- The tables by id, as last registered. -/
  known : Dict TableId Registration
  nextTxn : Nat
  /-- The transactions that were begun and not ended, in the order of their numbers. -/
  openTxns : List TxnId

namespace Session

def new (pageSize : Nat) (config : PoolConfig) (logKeeping : LogKeeping) : Session :=
  ⟨Engine.new pageSize config, config, logKeeping, Dict.empty, 1, []⟩

def freshTxn (s : Session) : Session × TxnId := ({ s with nextTxn := s.nextTxn + 1 }, ⟨s.nextTxn⟩)

def begin (s : Session) : Session × TxnId :=
  match s.freshTxn with
  | (s, txn) => ({ s with openTxns := s.openTxns ++ [txn] }, txn)

def close (s : Session) (txn : TxnId) : Session := { s with openTxns := s.openTxns.filter fun t => t ≠ txn }

def complete (s : Session) (txn : TxnId) (commit : Bool) (sweep : Sweep) : Session × Except StorageError Unit :=
  match s.engine.complete txn commit sweep with
  | (engine, result) => ({ s.close txn with engine := engine }, result)

/-- Drops a transaction. If it is open it is aborted, and errors of that are lost. -/
def drop (s : Session) (txn : TxnId) (sweep : Sweep) : Session :=
  if s.openTxns.contains txn then (s.complete txn false sweep).1 else s

/-- Whether a transaction that fetches a page has to wait: its lock is refused at this moment, and it may wait. -/
def waits (s : Session) (txn : TxnId) (id : PageId) (access : Access) : Bool :=
  s.config.lockTimeout ≠ some 0 && !(s.engine.locks.request txn id access.lockMode).2

/-- Registers a table over a file that is there already, and starts its traffic afresh. -/
def register (s : Session) (r : Registration) : Session :=
  { s with
    known := s.known.insert r.table.id r
    engine := { s.engine with
      catalog := s.engine.catalog.add r
      disk := s.engine.disk.resetTraffic r.table.id } }

/-- Registers a table over the file of a known table, or over a new empty file. -/
def addTable (s : Session) (id : TableId) (name : String) (schema : Schema) (sharing : Option TableId)
    (followUps : List FollowUp) : Session :=
  match sharing.bind s.known.find? with
  | some other => s.register ⟨name, ⟨id, schema, other.table.file, followUps⟩⟩
  | none =>
    match s.engine.disk.create with
    | (disk, file) =>
      { s with engine := { s.engine with disk := disk } }.register ⟨name, ⟨id, schema, file, followUps⟩⟩

def clearCatalog (s : Session) : Session := { s with engine := { s.engine with catalog := Catalog.empty } }

def knownById (s : Session) : List Registration :=
  s.known.values.mergeSort fun a b => a.table.id.number ≤ b.table.id.number

/-- The records that a reader of the log finds at this moment. -/
def readableLog (s : Session) : List UpdateRecord :=
  match s.logKeeping with
  | .memory => s.engine.log.records
  | .file => s.engine.log.onFile

/-- Shuts the store down and opens it again over the same files: open transactions are aborted, then memory, locks and
catalog start empty and every known table is registered again. -/
def reopen (s : Session) (config : PoolConfig) (sweep : Sweep) : Session :=
  let s := s.openTxns.foldl (fun s txn => s.drop txn sweep) s
  let engine : Engine :=
    { s.engine with
      catalog := Catalog.empty
      locks := LockTable.empty
      pool := Pool.new config.capacity config.k
      log := match s.logKeeping with
        | .memory => Log.empty
        | .file => s.engine.log.close }
  s.knownById.foldl register { s with engine := engine, config := config }

end Session

end RowStore
