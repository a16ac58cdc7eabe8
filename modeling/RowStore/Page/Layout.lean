import RowStore.Bytes.Basic
import RowStore.Schema

/-!
# Page layout

A page begins with one bit for each slot, packed into whole bytes with the least significant bit first, and goes on
with the slots, each as wide as a row. The rest of the page is zeros. A slot costs its width and one bit,
which is what decides how many a page has.
-/

namespace RowStore

namespace Schema

def slotCount (s : Schema) (pageSize : Nat) : Nat := pageSize * 8 / (s.width * 8 + 1)

def headerSize (s : Schema) (pageSize : Nat) : Nat := (s.slotCount pageSize + 7) / 8

end Schema

namespace Bits

/-- The bits of a byte, least significant first. -/
def ofByte (b : UInt8) : List Bool := (List.range 8).map b.toNat.testBit

def ofBytes (bs : Bytes) : List Bool := bs.flatMap ofByte

def toByte (bits : List Bool) : UInt8 := UInt8.ofNat (bits.foldr (fun b n => b.toNat + 2 * n) 0)

/-- The first `count` bytes that the bits fill. -/
def toBytes : (count : Nat) → List Bool → Bytes
  | 0, _ => []
  | count + 1, bits => toByte (bits.take 8) :: toBytes count (bits.drop 8)

theorem length_ofByte (b : UInt8) : (ofByte b).length = 8 := by simp [ofByte]

@[simp] theorem length_ofBytes (bs : Bytes) : (ofBytes bs).length = 8 * bs.length := by
  induction bs with
  | nil => rfl
  | cons b rest ih =>
    have h : (ofBytes (b :: rest)).length = (ofByte b).length + (ofBytes rest).length := by
      simp [ofBytes]
    rw [h, ih, length_ofByte, List.length_cons]
    omega

@[simp] theorem length_toBytes (count : Nat) (bits : List Bool) : (toBytes count bits).length = count := by
  induction count generalizing bits with
  | zero => rfl
  | succ count ih => simp [toBytes, ih]

end Bits

end RowStore
