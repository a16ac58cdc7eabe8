import RowStore.Dict
import RowStore.Error
import RowStore.Lock.Mode

/-!
# Lock table

Who holds which page in which mode. A page is held by any number of readers or by one writer. A second map
files the pages under the transactions, so that a transaction can let go of all its pages at once. A
request is an admission decision: it is granted at once or refused, and a refusal changes nothing.
-/

namespace RowStore

structure Holder where
  txn : TxnId
  mode : LockMode
deriving DecidableEq, Repr

/-- The locks that are held, by page and by transaction. -/
structure LockTable where
  /-- The holders of each locked page, in the order of grant. -/
  holders : Dict PageId (List Holder)
  held : Dict TxnId (List PageId)
deriving DecidableEq

namespace LockTable

def empty : LockTable := ⟨Dict.empty, Dict.empty⟩

def holdersOf (t : LockTable) (page : PageId) : List Holder := (t.holders.find? page).getD []

def pagesOf (t : LockTable) (txn : TxnId) : List PageId := (t.held.find? txn).getD []

def modeOf? (t : LockTable) (txn : TxnId) (page : PageId) : Option LockMode :=
  ((t.holdersOf page).find? fun h => h.txn = txn).map Holder.mode

def holds (t : LockTable) (txn : TxnId) (page : PageId) : Bool := (t.modeOf? txn page).isSome

/-- The holders after the transaction's own lock becomes exclusive. -/
def upgrade (txn : TxnId) (holders : List Holder) : List Holder :=
  holders.map fun h => if h.txn = txn then ⟨txn, .exclusive⟩ else h

/-- Decides a request. A transaction that holds a covering lock has it already; one that reads and wants to write
gets its lock raised if it is alone; a newcomer joins readers as a reader and takes a free page in any mode. -/
def request (t : LockTable) (txn : TxnId) (page : PageId) (mode : LockMode) : LockTable × Bool :=
  let holders := t.holdersOf page
  match t.modeOf? txn page with
  | some held =>
    if held.covers mode then (t, true)
    else if holders.length = 1 then
      ({ t with holders := t.holders.insert page (upgrade txn holders) }, true)
    else (t, false)
  | none =>
    let admitted : Bool :=
      match mode with
      | .shared => holders.all fun h => h.mode = .shared
      | .exclusive => holders.isEmpty
    if admitted then
      (⟨t.holders.insert page (holders ++ [⟨txn, mode⟩]), t.held.insert txn (t.pagesOf txn ++ [page])⟩, true)
    else (t, false)

theorem request_refused {t : LockTable} {txn : TxnId} {page : PageId} {mode : LockMode}
    (h : (t.request txn page mode).2 = false) : (t.request txn page mode).1 = t := by
  unfold request at h ⊢
  grind

/-- A request that cannot wait: the lock is granted now, or the transaction gives up. -/
def acquire (t : LockTable) (txn : TxnId) (page : PageId) (mode : LockMode) :
    LockTable × Except StorageError Unit :=
  match t.request txn page mode with
  | (t, true) => (t, .ok ())
  | (t, false) => (t, .error (.transactionAborted txn))

/-- A dictionary of lists with an empty list filed as no entry. -/
def fileList {κ υ : Type} [DecidableEq κ] (d : Dict κ (List υ)) (k : κ) (items : List υ) : Dict κ (List υ) :=
  if items.isEmpty then d.erase k else d.insert k items

def release (t : LockTable) (txn : TxnId) (page : PageId) : LockTable × Bool :=
  if t.holds txn page then
    (⟨fileList t.holders page ((t.holdersOf page).filter fun h => h.txn ≠ txn),
      fileList t.held txn ((t.pagesOf txn).filter fun p => p ≠ page)⟩, true)
  else (t, false)

def releaseAll (t : LockTable) (txn : TxnId) : LockTable × List PageId :=
  let pages := t.pagesOf txn
  (pages.foldl (fun t page => (t.release txn page).1) t, pages)

end LockTable

end RowStore
