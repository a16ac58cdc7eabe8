import RowStore.Engine.Basic

/-!
# Commit, abort and flush

A commit logs every page that the transaction has changed, forces the log and makes the present contents the
baseline; the pages stay dirty. An abort reads the changed pages again from their files, into the frames
that hold them. Either way all locks go. A flush logs a dirty page, forces the log and only then writes the
page to its file.
-/

namespace RowStore.Engine

/-- Logs a page for its transaction and makes its contents the baseline. -/
def commitPage (e : Engine) (txn : TxnId) (f : FrameId) : Result Unit :=
  match e.page? f with
  | none => (e, .ok ())
  | some page =>
    match e.logAndForce txn page with
    | (e, .error err) => (e, .error err)
    | (e, .ok ()) => (e.setPage f page.setBeforeImage, .ok ())

/-- Commits pages one after the other, up to the first that fails. -/
def commitPages (txn : TxnId) : List FrameId → Engine → Result Unit
  | [], e => (e, .ok ())
  | f :: rest, e =>
    match e.commitPage txn f with
    | (e, .error err) => (e, .error err)
    | (e, .ok ()) => commitPages txn rest e

def rollbackPage (e : Engine) (f : FrameId) : Result Unit :=
  match e.page? f with
  | none => (e, .ok ())
  | some page =>
    match e.readPage page.id with
    | (e, .error err) => (e, .error (.recoveryFailed page.id err))
    | (e, .ok fresh) => (e.setPage f fresh, .ok ())

/-- Rolls back all pages. A page that fails does not stop the others; the first failure is the answer. -/
def rollbackPages : List FrameId → Engine → Result Unit
  | [], e => (e, .ok ())
  | f :: rest, e =>
    match e.rollbackPage f with
    | (e, .ok ()) => rollbackPages rest e
    | (e, .error err) => ((rollbackPages rest e).1, .error err)

/-- Ends a transaction: commits or rolls back the pages that it has changed and lets go of all its locks. -/
def complete (e : Engine) (txn : TxnId) (commit : Bool) (sweep : Sweep) : Result Unit :=
  let changed := sweep.order (e.pool.dirtiedBy txn)
  match if commit then commitPages txn changed e else rollbackPages changed e with
  | (e, result) => ({ e with locks := (e.locks.releaseAll txn).1 }, result)

/-- Writes a frame's page to its file if it is dirty, the log first. The answer tells whether it was written. A page
is clean only after the write has succeeded, so that a flush that failed can be repeated. -/
def writeBack (e : Engine) (f : FrameId) : Result Bool :=
  match e.page? f with
  | none => (e, .ok false)
  | some page =>
    match page.dirtier with
    | none => (e, .ok false)
    | some txn =>
      match e.logAndForce txn page with
      | (e, .error err) => (e, .error err)
      | (e, .ok ()) =>
        match e.writePage page with
        | (e, .error err) => (e, .error err)
        | (e, .ok ()) => (e.setPage f (page.markDirty none), .ok true)

def writeBackAll : List FrameId → Engine → Result Unit
  | [], e => (e, .ok ())
  | f :: rest, e =>
    match e.writeBack f with
    | (e, .error err) => (e, .error err)
    | (e, .ok _) => writeBackAll rest e

def flushPage (e : Engine) (id : PageId) : Result Bool :=
  match e.pool.resident.find? id with
  | none => (e, .ok false)
  | some f => e.writeBack f

def flushAll (e : Engine) (sweep : Sweep) : Result Unit :=
  writeBackAll (sweep.order e.pool.residentFrames) e

def flushTxn (e : Engine) (txn : TxnId) (sweep : Sweep) : Result Unit :=
  writeBackAll (sweep.order (e.pool.dirtiedBy txn)) e

end RowStore.Engine
