import RowStore.Error
import RowStore.Value.Codec

/-!
# Tuples

Rows of a schema. A tuple that is built checks its values against the columns; one that is read from bytes may hold
a text that has grown past its column, because bytes that are not UTF-8 turn into longer characters.
-/

namespace RowStore

/-- A row, with the slot that it was read from or stored in. -/
structure Tuple where
  schema : Schema
  values : List Value
  record : Option RecordId
deriving DecidableEq

namespace Tuple

def firstUnfit? (columns : List Column) (values : List Value) : Option (Value × Column) :=
  (values.zip columns).find? fun cell => !cell.1.fits cell.2.type

/-- A row of the schema with the given values, which must be as many as the columns and fit them. -/
def ofValues (schema : Schema) (values : List Value) : Except StorageError Tuple :=
  if values.length ≠ schema.columns.length then
    .error (.schemaMismatch (.count schema.columns.length values.length))
  else
    match firstUnfit? schema.columns values with
    | some (value, column) => .error (.schemaMismatch (.unfit value column))
    | none => .ok ⟨schema, values, none⟩

def withRecord (t : Tuple) (record : RecordId) : Tuple := { t with record := some record }

/-- The bytes of the cells in column order. A value that does not fit its column leaves no bytes. -/
def encode (t : Tuple) : Bytes :=
  (t.values.zip t.schema.columns).flatMap fun cell => (cell.1.encode cell.2.type).getD []

def decodeCells : List Column → Bytes → Option (List Value)
  | [], _ => some []
  | c :: rest, bs =>
    match Value.decode c.type bs with
    | none => none
    | some v => (decodeCells rest (bs.drop c.type.width)).map (v :: ·)

def decode (schema : Schema) (bs : Bytes) : Option Tuple :=
  if bs.length < schema.width then none
  else (decodeCells schema.columns bs).map fun values => ⟨schema, values, none⟩

def valueNamed? (t : Tuple) (name : String) : Option Value :=
  (t.schema.indexOf? name).bind fun i => t.values[i]?

/-- Rows are equal when their schemas and values are, wherever they lie. -/
def equals (a b : Tuple) : Bool :=
  a.schema = b.schema && a.values.length = b.values.length &&
    (a.values.zip b.values).all fun cells => cells.1.equals cells.2

def display (t : Tuple) : String := "\t".intercalate (t.values.map Value.display)

end Tuple

end RowStore
