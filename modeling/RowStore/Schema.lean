import RowStore.Bytes.Basic

/-!
# Schemas

A table's columns. Every column type has a fixed width in bytes, so all rows of a schema are equally wide.
-/

namespace RowStore

inductive ColumnType where
  | boolean
  | integer
  | bigint
  | double
  /-- Text of exactly `width` bytes, filled up with spaces. -/
  | char (width : Nat)
deriving DecidableEq

def ColumnType.width : ColumnType → Nat
  | .boolean => 1
  | .integer => 4
  | .bigint => 8
  | .double => 8
  | .char n => n

def ColumnType.text : ColumnType → String
  | .boolean => "BOOLEAN"
  | .integer => "INTEGER"
  | .bigint => "BIGINT"
  | .double => "DOUBLE"
  | .char n => s!"CHAR({n})"

structure Column where
  name : String
  type : ColumnType
deriving DecidableEq

/-- The columns of a table in order. Names may repeat. -/
structure Schema where
  columns : List Column
deriving DecidableEq

namespace Schema

def width (s : Schema) : Nat := Bytes.total (·.type.width) s.columns

def indexOf? (s : Schema) (name : String) : Option Nat := s.columns.findIdx? (·.name = name)

/-- Columns as `name(TYPE)`, separated by commas. -/
def text (s : Schema) : String :=
  ", ".intercalate (s.columns.map fun c => s!"{c.name}({c.type.text})")

end Schema

end RowStore
