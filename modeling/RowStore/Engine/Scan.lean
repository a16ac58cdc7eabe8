import RowStore.Engine.Basic

/-!
# Table scans

A scan reads a table page by page, each page locked to read it, and gives the rows in the order of their record ids. How
many pages it visits is settled when it is opened. A page is fetched when the rows of the one before
are used up, and an error leaves the scan where it is, so that the next call tries the same page again.
-/

namespace RowStore

structure Cursor where
  nextPage : Nat
  pageCount : Nat
  /-- Rows of fetched pages that have not been given out. -/
  buffered : List Tuple
deriving DecidableEq

/-- A scan of a table by a transaction, closed when it has no cursor. -/
structure Scan where
  table : Table
  txn : TxnId
  cursor : Option Cursor
deriving DecidableEq

namespace Scan

def new (table : Table) (txn : TxnId) : Scan := ⟨table, txn, none⟩

def isOpen (s : Scan) : Bool := s.cursor.isSome

def close (s : Scan) : Scan := { s with cursor := none }

/-- Stands before the first row. The same puts an open scan back to the start. -/
def openAt (s : Scan) (e : Engine) : Scan :=
  { s with cursor := some ⟨0, e.disk.pageCount e.pageSize s.table, []⟩ }

end Scan

namespace Engine

def rowsOf (e : Engine) (txn : TxnId) (id : PageId) : Result (List Tuple) :=
  match e.getPage txn id .readOnly with
  | (e, .error err) => (e, .error err)
  | (e, .ok f) => (e, .ok ((e.page? f).elim [] Page.tuples))

/-- Fetches pages until there is a row to give out or none of the `left` pages from the cursor on is left. -/
def fill (txn : TxnId) (table : TableId) :
    (left : Nat) → Engine → Cursor → Engine × Cursor × Except StorageError Unit
  | 0, e, c => (e, c, .ok ())
  | left + 1, e, c =>
    if c.buffered.isEmpty then
      match e.rowsOf txn ⟨table, c.nextPage⟩ with
      | (e, .error err) => (e, c, .error err)
      | (e, .ok rows) => fill txn table left e ⟨c.nextPage + 1, c.pageCount, rows⟩
    else (e, c, .ok ())

/-- The next row of a scan, or nothing when it is exhausted or closed. -/
def nextTuple (e : Engine) (s : Scan) : Engine × Scan × Except StorageError (Option Tuple) :=
  match s.cursor with
  | none => (e, s, .ok none)
  | some c =>
    match fill s.txn s.table.id (c.pageCount - c.nextPage) e c with
    | (e, c, .error err) => (e, { s with cursor := some c }, .error err)
    | (e, c, .ok ()) =>
      match c.buffered with
      | [] => (e, { s with cursor := some c }, .ok none)
      | t :: rest => (e, { s with cursor := some { c with buffered := rest } }, .ok (some t))

/-- The rows of the `left` pages of a table from page `n` on, up to the first error. -/
def rowsAmong (txn : TxnId) (table : TableId) : (left n : Nat) → Engine → Result (List Tuple)
  | 0, _, e => (e, .ok [])
  | left + 1, n, e =>
    match e.rowsOf txn ⟨table, n⟩ with
    | (e, .error err) => (e, .error err)
    | (e, .ok rows) =>
      match rowsAmong txn table left (n + 1) e with
      | (e, result) => (e, result.map (rows ++ ·))

def scanAll (e : Engine) (txn : TxnId) (id : TableId) : Result (List Tuple) :=
  match e.catalog.table? id with
  | .error err => (e, .error err)
  | .ok table => rowsAmong txn table.id (e.disk.pageCount e.pageSize table) 0 e

end Engine

end RowStore
