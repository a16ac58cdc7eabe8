import RowStore.Schema
import RowStore.Text.Utf8
import RowStore.Value.Double

/-!
# Values

The contents of one cell. An integer may be kept in a `BIGINT` column; it stays an integer until the row is read
back from its bytes.
-/

namespace RowStore

inductive Value where
  | boolean (b : Bool)
  | integer (n : Int32)
  | bigint (n : Int64)
  | double (x : Double)
  | text (s : String)
deriving DecidableEq

namespace Value

/-- Whether a column of the type can hold the value: the types agree, or an integer widens, or a text has no more
bytes than the column. -/
def fits : Value → ColumnType → Bool
  | .boolean _, .boolean => true
  | .integer _, .integer => true
  | .integer _, .bigint => true
  | .bigint _, .bigint => true
  | .double _, .double => true
  | .text s, .char width => (Text.utf8 s).length ≤ width
  | _, _ => false

def toInt64? : Value → Option Int64
  | .integer n => some n.toInt64
  | .bigint n => some n
  | _ => none

def toText? : Value → Option String
  | .text s => some s
  | _ => none

/-- Equality as the cell's own type has it: doubles compare as numbers, and an integer is never a big integer. -/
def equals : Value → Value → Bool
  | .boolean a, .boolean b => a = b
  | .integer a, .integer b => a = b
  | .bigint a, .bigint b => a = b
  | .double a, .double b => a.equals b
  | .text a, .text b => a = b
  | _, _ => false

def display : Value → String
  | .boolean b => if b then "true" else "false"
  | .integer n => toString n.toInt
  | .bigint n => toString n.toInt
  | .double x => x.text
  | .text s => s

end Value

end RowStore
