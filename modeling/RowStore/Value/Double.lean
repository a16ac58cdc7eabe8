import RowStore.Decimal.Shortest

/-!
# Double-precision numbers

A double is its 64 bits, so that every not-a-number keeps its payload and zero keeps its sign on the way to a page
and back. Comparison and text follow from the three fields of the bits.
-/

namespace RowStore

/-- An IEEE 754 double, as its bits. -/
structure Double where
  bits : UInt64
deriving DecidableEq

namespace Double

def isNegative (x : Double) : Bool := x.bits.toNat >>> 63 = 1

/-- The eleven bits of the biased exponent. -/
def biased (x : Double) : Nat := (x.bits.toNat >>> 52) % 2048

/-- The 52 bits after the leading one. -/
def fraction (x : Double) : Nat := x.bits.toNat % (1 <<< 52)

def isNaN (x : Double) : Bool := x.biased = 2047 && x.fraction ≠ 0

def isZero (x : Double) : Bool := x.biased = 0 && x.fraction = 0

/-- Equality of the numbers: a not-a-number equals nothing, the two zeros are equal, and otherwise
different bits are different numbers. -/
def equals (x y : Double) : Bool :=
  !x.isNaN && !y.isNaN && (x.bits = y.bits || (x.isZero && y.isZero))

def rounded (x : Double) : Decimal.Rounded :=
  if x.biased = 0 then ⟨x.fraction, -1074, false⟩
  else ⟨(1 <<< 52) + x.fraction, (x.biased : Int) - 1075, x.fraction = 0 && 1 < x.biased⟩

/-- The text of a double: the fewest digits that read back as it, never with an exponent, and without a point when it
is whole. A not-a-number has no sign. -/
def text (x : Double) : String :=
  if x.isNaN then "NaN"
  else
    let magnitude :=
      if x.biased = 2047 then "inf"
      else if x.isZero then "0"
      else x.rounded.shortest.positional
    if x.isNegative then "-" ++ magnitude else magnitude

end Double

end RowStore
