import RowStore.Ids
import RowStore.Value.Basic

/-!
# Errors

What can go wrong in the store, by cause. `StorageError.message` is the one place that words an error, and
`StorageError.kind` sorts the causes by what a caller can do about them.
-/

namespace RowStore

/-- The outside calls that may fail. -/
inductive Device where
  | read
  | write
  | append
  | logWrite
  | force
deriving DecidableEq, Repr

def Device.name : Device → String
  | .read => "read"
  | .write => "write"
  | .append => "append"
  | .logWrite => "log_write"
  | .force => "force"

/-- Why an outside call failed. -/
inductive IoFailure where
  | injected (call : Device)
  | noSuchFile
  | notADirectory
  | isADirectory
  | nameTooLong
  | nulInPath
  | other (text : String)
deriving DecidableEq

def IoFailure.message : IoFailure → String
  | .injected call => "injected " ++ call.name
  | .noSuchFile => "No such file or directory (os error 2)"
  | .notADirectory => "Not a directory (os error 20)"
  | .isADirectory => "Is a directory (os error 21)"
  | .nameTooLong => "File name too long (os error 36)"
  | .nulInPath => "file name contained an unexpected NUL byte"
  | .other text => text

/-- How a row disagrees with a schema. -/
inductive Mismatch where
  | count (expected got : Nat)
  | unfit (value : Value) (column : Column)
  | table (given : Schema) (id : TableId) (wanted : Schema)
  | page (given wanted : Schema)
  | unreadable (slot : Nat) (id : PageId)
  | other (text : String)
deriving DecidableEq

def Mismatch.message : Mismatch → String
  | .count expected got => s!"expected {expected} values, got {got}"
  | .unfit value column =>
    s!"value {value.display} does not fit column {column.name} of type {column.type.text}"
  | .table given id wanted => s!"tuple ({given.text}) does not match table {id} ({wanted.text})"
  | .page given wanted => s!"tuple ({given.text}) does not match page ({wanted.text})"
  | .unreadable slot id => s!"slot {slot} of {id} is unreadable"
  | .other text => text

/-- Where a log breaks off, with the number of whole records before that. -/
inductive LogDamage where
  | header (whole : Nat)
  | images (whole : Nat)
  | other (text : String)
deriving DecidableEq

def LogDamage.message : LogDamage → String
  | .header whole => s!"truncated header after {whole} records"
  | .images whole => s!"truncated images after {whole} records"
  | .other text => text

inductive StorageError where
  | io (cause : IoFailure)
  | pageNotFound (page : PageId)
  | tableNotFound (table : TableId)
  | bufferPoolFull
  | invalidSlotId (slot slots : Nat)
  | pageFull (page : PageId)
  | noSuchTuple (record : RecordId)
  | tupleNotOnPage (record : RecordId) (page : PageId)
  | missingRecordId
  | schemaMismatch (how : Mismatch)
  /-- The transaction gave up waiting for a lock. -/
  | transactionAborted (txn : TxnId)
  | recoveryFailed (page : PageId) (cause : StorageError)
  | corruptedLog (damage : LogDamage)
deriving DecidableEq

/-- What sort of failure a cause is. -/
inductive ErrorKind where
  /-- A page, table, slot or row that does not exist. -/
  | invalidReference
  | capacity
  | io
  | aborted
  | recovery
deriving DecidableEq, Repr

namespace StorageError

/-- The sort of an error. A damaged log is a failure of input. -/
def kind : StorageError → ErrorKind
  | .io _ | .corruptedLog _ => .io
  | .bufferPoolFull | .pageFull _ => .capacity
  | .transactionAborted _ => .aborted
  | .recoveryFailed _ _ => .recovery
  | .pageNotFound _ | .tableNotFound _ | .invalidSlotId _ _ | .noSuchTuple _ | .tupleNotOnPage _ _
  | .missingRecordId | .schemaMismatch _ => .invalidReference

def message : StorageError → String
  | .io cause => s!"I/O error: {cause.message}"
  | .pageNotFound page => s!"Page {page} not found"
  | .tableNotFound table => s!"Table {table} not found"
  | .bufferPoolFull => "Buffer pool is full, every resident page is dirty"
  | .invalidSlotId slot slots => s!"Invalid slot ID {slot} (page has {slots} slots)"
  | .pageFull page => s!"Page {page} is full"
  | .noSuchTuple record => s!"No such tuple: {record}"
  | .tupleNotOnPage record page => s!"Tuple {record} does not belong to page {page}"
  | .missingRecordId => "Tuple has no record ID"
  | .schemaMismatch how => s!"Tuple does not match schema: {how.message}"
  | .transactionAborted txn => s!"Transaction {txn} aborted while waiting for a lock"
  | .recoveryFailed page cause => s!"Failed to restore page {page} during abort: {cause.message}"
  | .corruptedLog damage => s!"Corrupted log record: {damage.message}"

end StorageError

end RowStore
