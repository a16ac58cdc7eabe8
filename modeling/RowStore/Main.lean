import RowStore.Engine.Scan
import RowStore.Path
import RowStore.Session

/-!
# Demonstration

Three accounts are committed, one is deleted, and one more is inserted and aborted, on an empty store with a table on
a file of its own. The table is printed after each step, and at the end the size of the log and of the pool.
-/

namespace RowStore.Demo

def schema : Schema := ⟨[⟨"id", .integer⟩, ⟨"name", .char 12⟩, ⟨"balance", .bigint⟩]⟩

def table : TableId := TableId.ofPath "/tmp/accounts.dat"

def account (id : Int32) (name : String) (balance : Int64) : Except StorageError Tuple :=
  Tuple.ofValues schema [.integer id, .text name, .bigint balance]

/-- A step of the demonstration: the store after it, and what it gives. -/
abbrev Step := StateT Session (Except StorageError)

def fromEngine {α : Type} (work : Engine → Engine.Result α) : Step α := fun s =>
  match work s.engine with
  | (engine, .ok a) => .ok (a, { s with engine := engine })
  | (_, .error e) => .error e

def complete (txn : TxnId) (commit : Bool) : Step Unit := fun s =>
  match s.complete txn commit .asListed with
  | (s, .ok ()) => .ok ((), s)
  | (_, .error e) => .error e

def inTxn {α : Type} (commit : Bool) (work : TxnId → Step α) : Step α := do
  let txn ← modifyGet fun s => Prod.swap s.begin
  let a ← work txn
  complete txn commit
  return a

def rows (txn : TxnId) : Step (List Tuple) := fromEngine fun e => e.scanAll txn table

def insert (txn : TxnId) (t : Tuple) : Step Unit := fromEngine fun e => e.insertTuple txn table t

def listing (title : String) (ts : List Tuple) : List String :=
  s!"{title} ({ts.length} rows):" :: ts.map fun t =>
    match t.record with
    | some place => s!"  {t.display}  [{place}]"
    | none => s!"  {t.display}"

/-- The lines that the demonstration prints. -/
def script : Step (List String) := do
  modify fun s => s.addTable table "accounts" schema none []
  inTxn true fun txn => do
    insert txn (← liftM (account 1 "ada" 120))
    insert txn (← liftM (account 2 "grace" 75))
    insert txn (← liftM (account 3 "linus" 300))
  let committed ← inTxn true rows
  inTxn true fun txn => do
    let named := (← rows txn).find? fun t => t.valueNamed? "name" = some (.text "grace")
    match named with
    | some t => fromEngine fun e => e.deleteTuple txn t.record
    | none => return
  let deleted ← inTxn true rows
  fromEngine fun e => e.flushAll .asListed
  inTxn false fun txn => do insert txn (← liftM (account 4 "mallory" 1000000))
  let aborted ← inTxn true rows
  let s ← get
  return listing "after commit" committed ++ listing "after delete" deleted ++ listing "after abort" aborted ++
    ["", s!"log holds {s.engine.log.records.length} update records",
      s!"buffer pool: {s.engine.pool.resident.size}/{s.engine.pool.capacity} pages resident"]

def start : Session := Session.new defaultPageSize (PoolConfig.default.withCapacity 16) .file

end RowStore.Demo

def main : IO UInt32 := do
  match RowStore.Demo.script.run RowStore.Demo.start with
  | .ok (lines, _) =>
    for line in lines do
      IO.println line
    return 0
  | .error e =>
    IO.eprintln e.message
    return 1
