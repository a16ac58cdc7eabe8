import RowStore.Engine.Basic

/-!
# Inserting and deleting

A table changes its pages through the pool. An insert walks the pages from the first, locking each to write it, and
stores the row in the first page that has a free slot; when none has, the file grows by a page. A delete goes to
the page that the record id names. The changed page is marked at once, and handed back to the pool when the
table is done with it.
-/

namespace RowStore.Engine

def storeIn (e : Engine) (txn : TxnId) (f : FrameId) (page : Page) (t : Tuple) : Result FrameId :=
  match page.insert t with
  | .error err => (e, .error err)
  | .ok (page, _) => (e.setPage f (page.markDirty (some txn)), .ok f)

/-- Looks for room in the `left` pages of a table from page `n` on and stores the row in the first that has some. `none`
means that all are full. -/
def insertAmong (txn : TxnId) (table : TableId) (t : Tuple) :
    (left n : Nat) → Engine → Result (Option FrameId)
  | 0, _, e => (e, .ok none)
  | left + 1, n, e =>
    match e.getPage txn ⟨table, n⟩ .readWrite with
    | (e, .error err) => (e, .error err)
    | (e, .ok f) =>
      match e.page? f with
      | none => insertAmong txn table t left (n + 1) e
      | some page =>
        if 0 < page.freeSlots then
          match e.storeIn txn f page t with
          | (e, .error err) => (e, .error err)
          | (e, .ok f) => (e, .ok (some f))
        else insertAmong txn table t left (n + 1) e

def appendPage (e : Engine) (table : Table) : Result PageId :=
  match e.call .append with
  | (e, true) => (e, .error (failure .append))
  | (e, false) =>
    match e.disk.appendPage e.pageSize table with
    | (disk, id) => ({ e with disk := disk }, .ok id)

def insertAtEnd (e : Engine) (txn : TxnId) (table : Table) (t : Tuple) : Result (List FrameId) :=
  match e.appendPage table with
  | (e, .error err) => (e, .error err)
  | (e, .ok id) =>
    match e.getPage txn id .readWrite with
    | (e, .error err) => (e, .error err)
    | (e, .ok f) =>
      match e.page? f with
      | none => (e, .ok [])
      | some page =>
        match e.storeIn txn f page t with
        | (e, .error err) => (e, .error err)
        | (e, .ok f) => (e, .ok [f])

/-- Adds a row to a table and gives the frames of the changed pages. -/
def insertInto (e : Engine) (txn : TxnId) (table : Table) (t : Tuple) : Result (List FrameId) :=
  if t.schema ≠ table.schema then
    (e, .error (.schemaMismatch (.table t.schema table.id table.schema)))
  else
    match insertAmong txn table.id t (e.disk.pageCount e.pageSize table) 0 e with
    | (e, .error err) => (e, .error err)
    | (e, .ok (some f)) => (e, .ok [f])
    | (e, .ok none) => e.insertAtEnd txn table t

/-- Removes the row at a record id from a table and gives the frames of the changed pages. -/
def deleteFrom (e : Engine) (txn : TxnId) (table : Table) (record : Option RecordId) : Result (List FrameId) :=
  match record with
  | none => (e, .error .missingRecordId)
  | some record =>
    if record.page.table ≠ table.id ∨ e.disk.pageCount e.pageSize table ≤ record.page.number then
      (e, .error (.noSuchTuple record))
    else
      match e.getPage txn record.page .readWrite with
      | (e, .error err) => (e, .error err)
      | (e, .ok f) =>
        match e.page? f with
        | none => (e, .ok [])
        | some page =>
          match page.delete (some record) with
          | .error err => (e, .error err)
          | .ok page => (e.setPage f (page.markDirty (some txn)), .ok [f])

/-- What one follow-up does with a changed page. Its errors count for nothing. -/
def followUp (txn : TxnId) (id : PageId) (e : Engine) : FollowUp → Engine
  | .discard => e.discardPage id
  | .reload => (e.getPage txn id .readOnly).1
  | .fetch n => (e.getPage txn ⟨id.table, n⟩ .readOnly).1

def followUps (e : Engine) (txn : TxnId) (table : Table) (changed : List FrameId) : Engine :=
  changed.foldl (fun e f =>
    match e.page? f with
    | none => e
    | some page => table.followUps.foldl (followUp txn page.id) e) e

def handBack (e : Engine) (txn : TxnId) (changed : List FrameId) : Result Unit :=
  match e.pool.handBack txn changed with
  | (pool, result) => ({ e with pool := pool }, result)

/-- Ends a change to a table: its follow-ups, then the hand-back. -/
def finishChange (txn : TxnId) (table : Table) : Result (List FrameId) → Result Unit
  | (e, .error err) => (e, .error err)
  | (e, .ok changed) => (e.followUps txn table changed).handBack txn changed

def insertTuple (e : Engine) (txn : TxnId) (id : TableId) (t : Tuple) : Result Unit :=
  match e.catalog.table? id with
  | .error err => (e, .error err)
  | .ok table => finishChange txn table (e.insertInto txn table t)

def deleteTuple (e : Engine) (txn : TxnId) (record : Option RecordId) : Result Unit :=
  match record with
  | none => (e, .error .missingRecordId)
  | some r =>
    match e.catalog.table? r.page.table with
    | .error err => (e, .error err)
    | .ok table => finishChange txn table (e.deleteFrom txn table (some r))

end RowStore.Engine
