import RowStore.Lock.Table

/-!
# Waiting for a lock

A request that is refused may wait. It is decided again, by the same rule, whenever its transaction wakes up: because
a lock was released, because its time is up, or for no reason. A request with a time limit gives up when it is refused
after its time is up; one without waits on. The decisions are taken one at a time, so a manager is a lock
table with the requests that wait, and threads are calls in some order.
-/

namespace RowStore

/-- A request for a lock that may wait. -/
structure LockRequest where
  txn : TxnId
  page : PageId
  mode : LockMode
  limited : Bool
deriving DecidableEq, Repr

structure LockManager where
  table : LockTable
  waiting : List LockRequest
deriving DecidableEq

namespace LockManager

def empty : LockManager := ⟨LockTable.empty, []⟩

def acquire (m : LockManager) (txn : TxnId) (page : PageId) (mode : LockMode) : LockManager × Bool :=
  let (t, granted) := m.table.request txn page mode
  ({ m with table := t }, granted)

/-- Decides a request that waits if it is refused. There is no answer while it waits. -/
def acquireOrWait (m : LockManager) (r : LockRequest) : LockManager × Option (Except StorageError Unit) :=
  match m.acquire r.txn r.page r.mode with
  | (m, true) => (m, some (.ok ()))
  | (m, false) => ({ m with waiting := m.waiting ++ [r] }, none)

/-- A waiting request wakes up. If its time is up a refusal ends it; one that is granted at that moment is decided
once more, as it is after every other awakening. -/
def wake (m : LockManager) (r : LockRequest) (late : Bool) : LockManager × Option (Except StorageError Unit) :=
  if r ∈ m.waiting then
    let m := { m with waiting := m.waiting.erase r }
    if r.limited && late then
      match m.acquire r.txn r.page r.mode with
      | (m, true) => m.acquireOrWait r
      | (m, false) => (m, some (.error (.transactionAborted r.txn)))
    else m.acquireOrWait r
  else (m, none)

def release (m : LockManager) (txn : TxnId) (page : PageId) : LockManager × Bool :=
  let (t, released) := m.table.release txn page
  ({ m with table := t }, released)

def releaseAll (m : LockManager) (txn : TxnId) : LockManager × List PageId :=
  let (t, pages) := m.table.releaseAll txn
  ({ m with table := t }, pages)

/-- What threads can ask of the manager, with the awakenings of the requests that wait. -/
inductive Call where
  | acquire (txn : TxnId) (page : PageId) (mode : LockMode)
  | acquireOrWait (r : LockRequest)
  | wake (r : LockRequest) (late : Bool)
  | release (txn : TxnId) (page : PageId)
  | releaseAll (txn : TxnId)

def after (m : LockManager) : Call → LockManager
  | .acquire txn page mode => (m.acquire txn page mode).1
  | .acquireOrWait r => (m.acquireOrWait r).1
  | .wake r late => (m.wake r late).1
  | .release txn page => (m.release txn page).1
  | .releaseAll txn => (m.releaseAll txn).1

def run (m : LockManager) (calls : List Call) : LockManager := calls.foldl after m

/-- Whether a call signals to everybody who waits that a lock was released. -/
def signals (m : LockManager) : Call → Bool
  | .acquire _ _ _ => false
  | .acquireOrWait _ => false
  | .wake _ _ => false
  | .release txn page => (m.release txn page).2
  | .releaseAll txn => !(m.releaseAll txn).2.isEmpty

end LockManager

end RowStore
