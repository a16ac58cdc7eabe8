import RowStore.Bytes.LittleEndian
import RowStore.Value.Basic

/-!
# Values as bytes

The fixed-width form of a cell: numbers little-endian, text filled up with spaces. A value that does not fit
its column has no form.
-/

namespace RowStore.Value

/-- The bytes of a value in a column of the type, as wide as the type, if the value fits. -/
def encode (type : ColumnType) (v : Value) : Option Bytes :=
  if v.fits type then
    match v, type with
    | .boolean b, _ => some [if b then 1 else 0]
    | .integer n, .bigint => some (Bytes.ofNat 8 n.toInt64.toUInt64.toNat)
    | .integer n, _ => some (Bytes.ofNat 4 n.toUInt32.toNat)
    | .bigint n, _ => some (Bytes.ofNat 8 n.toUInt64.toNat)
    | .double x, _ => some (Bytes.ofNat 8 x.bits.toNat)
    | .text s, .char width =>
      some (Text.utf8 s ++ List.replicate (width - (Text.utf8 s).length) 32)
    | .text _, _ => none
  else none

/-- The value that a cell's bytes stand for. Any nonzero byte is true, and a text loses the spaces at its end. -/
def ofCell (cell : Bytes) : ColumnType → Value
  | .boolean => .boolean (cell.headD 0 ≠ 0)
  | .integer => .integer (UInt32.ofNat (Bytes.toNat cell)).toInt32
  | .bigint => .bigint (UInt64.ofNat (Bytes.toNat cell)).toInt64
  | .double => .double ⟨UInt64.ofNat (Bytes.toNat cell)⟩
  | .char _ => .text (String.ofList (Text.dropPadding (Text.readUtf8 cell)))

def decode (type : ColumnType) (bs : Bytes) : Option Value :=
  if bs.length < type.width then none else some (ofCell (bs.take type.width) type)

end RowStore.Value
