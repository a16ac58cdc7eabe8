import RowStore.Dict
import RowStore.Disk.PageFile
import RowStore.Page.Basic

/-!
# Disk

The files that tables lie in, and the table files that read and write them. Two tables may lie in one file; each counts
its own traffic.
-/

namespace RowStore

/-- What a table does with a page it has changed before it hands the page back. -/
inductive FollowUp where
  | discard
  /-- Fetch the page again, to read it. -/
  | reload
  /-- Fetch another page of the table, to read it. -/
  | fetch (number : Nat)
deriving DecidableEq

/-- A table as its file's user sees it. -/
structure Table where
  id : TableId
  schema : Schema
  /-- The position of the table's file on the disk. -/
  file : Nat
  followUps : List FollowUp
deriving DecidableEq

structure Traffic where
  reads : Nat
  writes : Nat
deriving DecidableEq

structure Disk where
  files : List SparseBytes
  traffic : Dict TableId Traffic

namespace Disk

def empty : Disk := ⟨[], Dict.empty⟩

def contents (d : Disk) (file : Nat) : SparseBytes := d.files.getD file SparseBytes.empty

def setContents (d : Disk) (file : Nat) (contents : SparseBytes) : Disk :=
  { d with files := d.files.set file contents }

def create (d : Disk) : Disk × Nat := ({ d with files := d.files ++ [SparseBytes.empty] }, d.files.length)

def trafficOf (d : Disk) (table : TableId) : Traffic := (d.traffic.find? table).getD ⟨0, 0⟩

def resetTraffic (d : Disk) (table : TableId) : Disk :=
  { d with traffic := d.traffic.insert table ⟨0, 0⟩ }

def countRead (d : Disk) (table : TableId) : Disk :=
  let t := d.trafficOf table
  { d with traffic := d.traffic.insert table ⟨t.reads + 1, t.writes⟩ }

def countWrite (d : Disk) (table : TableId) : Disk :=
  let t := d.trafficOf table
  { d with traffic := d.traffic.insert table ⟨t.reads, t.writes + 1⟩ }

/-- The number of whole pages in a table's file, as far as page numbers go. -/
def pageCount (d : Disk) (pageSize : Nat) (t : Table) : Nat :=
  PageFile.pageCount pageSize (d.contents t.file)

def readPage (d : Disk) (pageSize : Nat) (t : Table) (id : PageId) : Disk × Except StorageError Page :=
  if id.table ≠ t.id then (d, .error (.pageNotFound id))
  else
    match PageFile.page? pageSize id.number (d.contents t.file) with
    | none => (d, .error (.pageNotFound id))
    | some image => (d.countRead t.id, Page.decode pageSize id t.schema image)

/-- Writes a page of the table at its place, in the size that the page has. -/
def writePage (d : Disk) (t : Table) (p : Page) : Disk × Except StorageError Unit :=
  if p.id.table ≠ t.id then (d, .error (.pageNotFound p.id))
  else
    ((d.setContents t.file (PageFile.write p.id.number p.encode (d.contents t.file))).countWrite t.id, .ok ())

def appendPage (d : Disk) (pageSize : Nat) (t : Table) : Disk × PageId :=
  ((d.setContents t.file (PageFile.append pageSize (d.contents t.file))).countWrite t.id,
    ⟨t.id, d.pageCount pageSize t⟩)

end Disk

end RowStore
