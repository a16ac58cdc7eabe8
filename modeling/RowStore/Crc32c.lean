import RowStore.Bytes.Basic

/-!
# CRC-32C

The cyclic redundancy check with the Castagnoli polynomial, bit-reflected: the remainder starts as all ones,
every byte enters at the low end, and the result is complemented.
-/

namespace RowStore.Crc32c

/-- The polynomial with its least significant bit first. -/
def polynomial : UInt32 := 0x82F63B78

/-- The remainder after one more bit has moved out at the low end. -/
def shift (remainder : UInt32) : UInt32 :=
  if remainder &&& 1 = 1 then (remainder >>> 1) ^^^ polynomial else remainder >>> 1

def step (remainder : UInt32) (b : UInt8) : UInt32 :=
  Nat.repeat shift 8 (remainder ^^^ b.toUInt32)

def checksum (bs : Bytes) : UInt32 := (bs.foldl step 0xFFFFFFFF) ^^^ 0xFFFFFFFF

end RowStore.Crc32c
