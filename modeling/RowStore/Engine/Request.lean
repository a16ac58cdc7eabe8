import RowStore.Engine.Complete
import RowStore.Engine.Modify

/-!
# Requests

What transactions and their surroundings ask of the engine, as data. A run of the store is a list of requests.
-/

namespace RowStore

inductive Request where
  | get (txn : TxnId) (page : PageId) (access : Access)
  | insert (txn : TxnId) (table : TableId) (tuple : Tuple)
  | delete (txn : TxnId) (record : Option RecordId)
  | commit (txn : TxnId) (sweep : Sweep)
  | abort (txn : TxnId) (sweep : Sweep)
  | flush (page : PageId)
  | flushTxn (txn : TxnId) (sweep : Sweep)
  | flushAll (sweep : Sweep)
  | discard (page : PageId)
  | release (txn : TxnId) (page : PageId)

inductive Reply where
  | done
  | flag (b : Bool)
  | frame (f : FrameId)
deriving DecidableEq

namespace Engine

def reply {α : Type} (wrap : α → Reply) : Result α → Result Reply
  | (e, result) => (e, result.map wrap)

/-- The engine after a request, and its answer. -/
def serve (e : Engine) : Request → Result Reply
  | .get txn page access => reply .frame (e.getPage txn page access)
  | .insert txn table t => reply (fun _ => .done) (e.insertTuple txn table t)
  | .delete txn record => reply (fun _ => .done) (e.deleteTuple txn record)
  | .commit txn sweep => reply (fun _ => .done) (e.complete txn true sweep)
  | .abort txn sweep => reply (fun _ => .done) (e.complete txn false sweep)
  | .flush page => reply .flag (e.flushPage page)
  | .flushTxn txn sweep => reply (fun _ => .done) (e.flushTxn txn sweep)
  | .flushAll sweep => reply (fun _ => .done) (e.flushAll sweep)
  | .discard page => (e.discardPage page, .ok .done)
  | .release txn page =>
    match e.releasePage txn page with
    | (e, released) => (e, .ok (.flag released))

end Engine

end RowStore
