import RowStore.Engine.Request
import RowStore.Engine.Scan

/-!
# What happens during a request

A request locks, loads, changes and writes pages one at a time. Its history lists those happenings in order, computed
along the engine's own functions: every lock that a fetch is granted, every row stored or removed, every zero page
appended, every page written, restored or dropped, and the end of every transaction. Reads that change nothing but
counters and access times leave no entry. Scans fetch their pages like everybody else, so a run here is a list of
actions, each a request or a step of a scan.
-/

namespace RowStore

/-- Something that happened to a page or to a transaction. -/
inductive Event where
  | granted (txn : TxnId) (page : PageId) (mode : LockMode)
  | stored (txn : TxnId) (record : RecordId) (tuple : Tuple)
  | removed (txn : TxnId) (record : RecordId)
  | appended (page : PageId)
  /-- The present contents became the baseline. -/
  | based (page : PageId)
  | written (page : PageId)
  | restored (page : PageId)
  | discarded (page : PageId)
  /-- A changed frame that a table had let out of the pool was taken back. -/
  | handed (txn : TxnId) (frame : FrameId)
  | completed (txn : TxnId)
  | released (txn : TxnId) (page : PageId)

/-- A request to the engine, a pull at a scan in any position, or a scan of a whole table. -/
inductive Action where
  | ask (request : Request)
  | next (scan : Scan)
  | scan (txn : TxnId) (table : TableId)

namespace Engine

def act (e : Engine) : Action → Engine
  | .ask r => (e.serve r).1
  | .next s => (e.nextTuple s).1
  | .scan txn table => (e.scanAll txn table).1

def acts (e : Engine) (as : List Action) : Engine := as.foldl act e

@[simp] theorem acts_nil (e : Engine) : e.acts [] = e := rfl

@[simp] theorem acts_cons (e : Engine) (a : Action) (as : List Action) : e.acts (a :: as) = (e.act a).acts as := rfl

theorem acts_append (e : Engine) (as bs : List Action) : e.acts (as ++ bs) = (e.acts as).acts bs :=
  List.foldl_append ..

def getEvents (e : Engine) (txn : TxnId) (id : PageId) (access : Access) : List Event :=
  if (e.locks.request txn id access.lockMode).2 then [.granted txn id access.lockMode] else []

def storeEvents (txn : TxnId) (page : Page) (t : Tuple) : List Event :=
  match page.insert t with
  | .error _ => []
  | .ok (_, r) => [.stored txn r t]

def insertAmongEvents (txn : TxnId) (table : TableId) (t : Tuple) : (left n : Nat) → Engine → List Event
  | 0, _, _ => []
  | left + 1, n, e =>
    e.getEvents txn ⟨table, n⟩ .readWrite ++
      match e.getPage txn ⟨table, n⟩ .readWrite with
      | (_, .error _) => []
      | (e, .ok f) =>
        match e.page? f with
        | none => insertAmongEvents txn table t left (n + 1) e
        | some page =>
          if 0 < page.freeSlots then storeEvents txn page t
          else insertAmongEvents txn table t left (n + 1) e

/-- Stores a row in a page that was just appended. -/
def storeAt (e : Engine) (txn : TxnId) (id : PageId) (t : Tuple) : Result (List FrameId) :=
  match e.getPage txn id .readWrite with
  | (e, .error err) => (e, .error err)
  | (e, .ok f) =>
    match e.page? f with
    | none => (e, .ok [])
    | some page =>
      match e.storeIn txn f page t with
      | (e, .error err) => (e, .error err)
      | (e, .ok f) => (e, .ok [f])

theorem insertAtEnd_eq (e : Engine) (txn : TxnId) (table : Table) (t : Tuple) :
    e.insertAtEnd txn table t =
      match e.appendPage table with
      | (e, .error err) => (e, .error err)
      | (e, .ok id) => e.storeAt txn id t := rfl

def storeAtEvents (e : Engine) (txn : TxnId) (id : PageId) (t : Tuple) : List Event :=
  e.getEvents txn id .readWrite ++
    match e.getPage txn id .readWrite with
    | (_, .error _) => []
    | (e, .ok f) => (e.page? f).elim [] fun page => storeEvents txn page t

def insertAtEndEvents (e : Engine) (txn : TxnId) (table : Table) (t : Tuple) : List Event :=
  match e.appendPage table with
  | (_, .error _) => []
  | (e, .ok id) => .appended id :: e.storeAtEvents txn id t

def insertIntoEvents (e : Engine) (txn : TxnId) (table : Table) (t : Tuple) : List Event :=
  if t.schema ≠ table.schema then []
  else
    insertAmongEvents txn table.id t (e.disk.pageCount e.pageSize table) 0 e ++
      match insertAmong txn table.id t (e.disk.pageCount e.pageSize table) 0 e with
      | (e, .ok none) => e.insertAtEndEvents txn table t
      | _ => []

def removeEvents (txn : TxnId) (page : Page) (record : RecordId) : List Event :=
  match page.delete (some record) with
  | .error _ => []
  | .ok _ => [.removed txn record]

def deleteFromEvents (e : Engine) (txn : TxnId) (table : Table) (record : RecordId) : List Event :=
  if record.page.table ≠ table.id ∨ e.disk.pageCount e.pageSize table ≤ record.page.number then []
  else
    e.getEvents txn record.page .readWrite ++
      match e.getPage txn record.page .readWrite with
      | (_, .error _) => []
      | (e, .ok f) => (e.page? f).elim [] fun page => removeEvents txn page record

def followUpEvents (txn : TxnId) (id : PageId) (e : Engine) : FollowUp → List Event
  | .discard => [.discarded id]
  | .reload => e.getEvents txn id .readOnly
  | .fetch n => e.getEvents txn ⟨id.table, n⟩ .readOnly

def followUpAllEvents (txn : TxnId) (id : PageId) : List FollowUp → Engine → List Event
  | [], _ => []
  | u :: rest, e => followUpEvents txn id e u ++ followUpAllEvents txn id rest (followUp txn id e u)

def followUpsEvents (txn : TxnId) (table : Table) : List FrameId → Engine → List Event
  | [], _ => []
  | f :: rest, e =>
    match e.page? f with
    | none => followUpsEvents txn table rest e
    | some page =>
      followUpAllEvents txn page.id table.followUps e ++
        followUpsEvents txn table rest (table.followUps.foldl (followUp txn page.id) e)

/-- Whether a frame is still the resident copy of its page, marked as changed by a transaction. -/
def keptBy (p : Pool) (txn : TxnId) (f : FrameId) : Bool :=
  (p.page? f).any fun page => page.dirtier = some txn && p.resident.find? page.id = some f

def handBackEvents (txn : TxnId) : List FrameId → Pool → List Event
  | [], _ => []
  | f :: rest, p =>
    (if (p.page? f).isNone || keptBy p txn f then [] else [.handed txn f]) ++
      match Pool.handBack txn [f] p with
      | (_, .error _) => []
      | (p, .ok ()) => handBackEvents txn rest p

def finishEvents (txn : TxnId) (table : Table) : Result (List FrameId) → List Event
  | (_, .error _) => []
  | (e, .ok changed) =>
    followUpsEvents txn table changed e ++ handBackEvents txn changed (e.followUps txn table changed).pool

def insertEvents (e : Engine) (txn : TxnId) (id : TableId) (t : Tuple) : List Event :=
  match e.catalog.table? id with
  | .error _ => []
  | .ok table => e.insertIntoEvents txn table t ++ finishEvents txn table (e.insertInto txn table t)

def deleteEvents (e : Engine) (txn : TxnId) (record : Option RecordId) : List Event :=
  match record with
  | none => []
  | some r =>
    match e.catalog.table? r.page.table with
    | .error _ => []
    | .ok table => e.deleteFromEvents txn table r ++ finishEvents txn table (e.deleteFrom txn table (some r))

def commitEvents (txn : TxnId) : List FrameId → Engine → List Event
  | [], _ => []
  | f :: rest, e =>
    match e.commitPage txn f with
    | (_, .error _) => []
    | (next, .ok ()) => (e.page? f).elim [] (fun page => [.based page.id]) ++ commitEvents txn rest next

def rollbackEvents : List FrameId → Engine → List Event
  | [], _ => []
  | f :: rest, e =>
    match e.rollbackPage f with
    | (next, .error _) => rollbackEvents rest next
    | (next, .ok ()) => (e.page? f).elim [] (fun page => [.restored page.id]) ++ rollbackEvents rest next

def completeEvents (e : Engine) (txn : TxnId) (commit : Bool) (sweep : Sweep) : List Event :=
  (if commit then commitEvents txn (sweep.order (e.pool.dirtiedBy txn)) e
    else rollbackEvents (sweep.order (e.pool.dirtiedBy txn)) e) ++ [.completed txn]

def writeEvents (e : Engine) (f : FrameId) : List Event :=
  match e.page? f, (e.writeBack f).2 with
  | some page, .ok true => [.written page.id]
  | _, _ => []

def writeAllEvents : List FrameId → Engine → List Event
  | [], _ => []
  | f :: rest, e =>
    e.writeEvents f ++
      match e.writeBack f with
      | (_, .error _) => []
      | (next, .ok _) => writeAllEvents rest next

def fillEvents (txn : TxnId) (table : TableId) : (left : Nat) → Engine → Cursor → List Event
  | 0, _, _ => []
  | left + 1, e, c =>
    if c.buffered.isEmpty then
      e.getEvents txn ⟨table, c.nextPage⟩ .readOnly ++
        match e.rowsOf txn ⟨table, c.nextPage⟩ with
        | (_, .error _) => []
        | (e, .ok rows) => fillEvents txn table left e ⟨c.nextPage + 1, c.pageCount, rows⟩
    else []

def rowsEvents (txn : TxnId) (table : TableId) : (left n : Nat) → Engine → List Event
  | 0, _, _ => []
  | left + 1, n, e =>
    e.getEvents txn ⟨table, n⟩ .readOnly ++
      match e.rowsOf txn ⟨table, n⟩ with
      | (_, .error _) => []
      | (e, .ok _) => rowsEvents txn table left (n + 1) e

/-- What happens during an action, in order. -/
def events (e : Engine) : Action → List Event
  | .ask (.get txn page access) => e.getEvents txn page access
  | .ask (.insert txn table t) => e.insertEvents txn table t
  | .ask (.delete txn record) => e.deleteEvents txn record
  | .ask (.commit txn sweep) => e.completeEvents txn true sweep
  | .ask (.abort txn sweep) => e.completeEvents txn false sweep
  | .ask (.flush page) => (e.pool.resident.find? page).elim [] e.writeEvents
  | .ask (.flushTxn txn sweep) => writeAllEvents (sweep.order (e.pool.dirtiedBy txn)) e
  | .ask (.flushAll sweep) => writeAllEvents (sweep.order e.pool.residentFrames) e
  | .ask (.discard page) => [.discarded page]
  | .ask (.release txn page) => [.released txn page]
  | .next s =>
    s.cursor.elim [] fun c => fillEvents s.txn s.table.id (c.pageCount - c.nextPage) e c
  | .scan txn table =>
    match e.catalog.table? table with
    | .error _ => []
    | .ok table => rowsEvents txn table.id (e.disk.pageCount e.pageSize table) 0 e

def history (e : Engine) : List Action → List Event
  | [] => []
  | a :: as => e.events a ++ (e.act a).history as

theorem history_append (e : Engine) (as bs : List Action) :
    e.history (as ++ bs) = e.history as ++ (e.acts as).history bs := by
  induction as generalizing e with
  | nil => rfl
  | cons a as ih => rw [List.cons_append, history, history, ih, acts_cons, List.append_assoc]

end Engine

end RowStore
