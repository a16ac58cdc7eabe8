import RowStore.Dict
import RowStore.Disk.Basic

/-!
# Catalog

The tables that the store knows, by id and by name. Registering a table removes whatever had its name or its id
before, so that both maps stay inverse to each other.
-/

namespace RowStore

structure Registration where
  name : String
  table : Table
deriving DecidableEq

/-- The registered tables by id, and their ids by name. -/
structure Catalog where
  tables : Dict TableId Registration
  names : Dict String TableId
deriving DecidableEq

namespace Catalog

def empty : Catalog := ⟨Dict.empty, Dict.empty⟩

def dropName (c : Catalog) (name : String) : Catalog :=
  match c.names.find? name with
  | some id => ⟨c.tables.erase id, c.names.erase name⟩
  | none => c

def dropId (c : Catalog) (id : TableId) : Catalog :=
  match c.tables.find? id with
  | some old => ⟨c.tables.erase id, c.names.erase old.name⟩
  | none => c

/-- Registers a table, in place of any with its name or its id. -/
def add (c : Catalog) (r : Registration) : Catalog :=
  let c := (c.dropName r.name).dropId r.table.id
  ⟨c.tables.insert r.table.id r, c.names.insert r.name r.table.id⟩

def table? (c : Catalog) (id : TableId) : Except StorageError Table :=
  match c.tables.find? id with
  | some r => .ok r.table
  | none => .error (.tableNotFound id)

def idOf? (c : Catalog) (name : String) : Option TableId := c.names.find? name

def nameOf? (c : Catalog) (id : TableId) : Option String := (c.tables.find? id).map Registration.name

def schemaOf (c : Catalog) (id : TableId) : Except StorageError Schema := (c.table? id).map Table.schema

def ids (c : Catalog) : List TableId := c.tables.keys.mergeSort fun a b => a.number ≤ b.number

end Catalog

end RowStore
