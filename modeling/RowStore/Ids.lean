/-!
# Identifiers

Tables, pages, records and transactions are told apart by numbers. A page is a table and a position in the
table's file; a record is a page and a slot in it.
-/

namespace RowStore

structure TableId where
  number : Nat
deriving DecidableEq, Repr

/-- A page of a table, by its position in the file. -/
structure PageId where
  table : TableId
  number : Nat
deriving DecidableEq, Repr

structure RecordId where
  page : PageId
  slot : Nat
deriving DecidableEq, Repr

structure TxnId where
  number : Nat
deriving DecidableEq, Repr

instance : ToString TableId := ⟨fun t => s!"TableId({t.number})"⟩

instance : ToString PageId := ⟨fun p => s!"PageId({p.table.number}:{p.number})"⟩

instance : ToString RecordId :=
  ⟨fun r => s!"RecordId({r.page.table.number}:{r.page.number}#{r.slot})"⟩

instance : ToString TxnId := ⟨fun t => s!"Txn({t.number})"⟩

namespace PageId

def offset (p : PageId) (pageSize : Nat) : Nat := p.number * pageSize

/-- Pages are ordered by table and then by position. -/
def le (a b : PageId) : Bool :=
  a.table.number < b.table.number || (a.table = b.table && a.number ≤ b.number)

def sort (pages : List PageId) : List PageId := pages.mergeSort le

end PageId

end RowStore
