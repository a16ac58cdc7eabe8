/-!
# Shortest decimals

The decimal with the fewest digits that a binary number can be told by. A positive number `m · 2 ^ q` stands for
an interval of reals, from half a step below it to half a step above, and any decimal in the interval reads
back as the number. Grids of 1, 2, … significant digits are tried in turn: on each the two decimals that enclose the
number are the only ones that need a look, the first grid with a decimal in the interval wins, of two such
decimals the nearer one, and of two equally near the larger. All arithmetic is on exact natural numbers.
-/

namespace RowStore.Decimal

/-- The decimal `digits · 10 ^ exponent`. -/
structure Scientific where
  digits : Nat
  exponent : Int
deriving DecidableEq

/-- A positive number `m · 2 ^ q` with the interval that it stands for. The interval reaches half a step up, and
half a step down except at the least mantissa, where the numbers below lie twice as close. Its ends belong
to it when `m` is even. -/
structure Rounded where
  mantissa : Nat
  exponent : Int
  closeBelow : Bool

namespace Rounded

/-- The quarters of a step by which the interval reaches below the number. -/
def reachBelow (r : Rounded) : Nat := if r.closeBelow then 1 else 2

/-- Numerator of the number in units of `1 / denominator`, where a unit numerator is a quarter of a step. -/
def scale (r : Rounded) : Nat := 1 <<< (r.exponent - 2).toNat

def denominator (r : Rounded) : Nat := 1 <<< (2 - r.exponent).toNat

/-- The number of digits before the decimal point, zero or negative when the number is below one: the `k` with
`10 ^ (k - 1) ≤ num / den < 10 ^ k`, looked for downwards below one with `steps` places at most. -/
def magnitude (num den : Nat) : (steps : Nat) → Int
  | 0 => 0
  | steps + 1 =>
    if den ≤ num then ((Nat.toDigits 10 (num / den)).length : Int)
    else magnitude (num * 10) den steps - 1

/-- The best decimal with `count` significant digits for a number with `k` digits before the point, if one of
the two that enclose the number lies in the interval. -/
def onGrid (r : Rounded) (k : Int) (count : Nat) : Option Scientific :=
  let place := k - count
  let up := Nat.pow 10 (-place).toNat
  let num := r.scale * up
  let den := r.denominator * Nat.pow 10 place.toNat
  let value := 4 * r.mantissa * num
  let down := value / den
  let isInside (units : Nat) : Bool :=
    let point := units * den
    let low := (4 * r.mantissa - r.reachBelow) * num
    let high := (4 * r.mantissa + 2) * num
    if r.mantissa % 2 = 0 then low ≤ point && point ≤ high else low < point && point < high
  let nearerUp : Bool := (down + 1) * den - value ≤ value - down * den
  let below : Scientific := ⟨down, place⟩
  let above : Scientific := if down + 1 = Nat.pow 10 count then ⟨1, k⟩ else ⟨down + 1, place⟩
  match isInside down, isInside (down + 1) with
  | true, true => some (if nearerUp then above else below)
  | true, false => some below
  | false, true => some above
  | false, false => none

def exactly (r : Rounded) : Scientific :=
  if 0 ≤ r.exponent then ⟨r.mantissa <<< r.exponent.toNat, 0⟩
  else ⟨r.mantissa * Nat.pow 5 (-r.exponent).toNat, r.exponent⟩

/-- The decimal with the fewest digits in the interval, the nearest to the number among those. -/
def shortest (r : Rounded) : Scientific :=
  let value := 4 * r.mantissa * r.scale
  let k := magnitude value r.denominator (Nat.log2 r.denominator + 1)
  ((List.range 17).findSome? fun n => r.onGrid k (n + 1)).getD r.exactly

end Rounded

/-- A decimal written out in full, without an exponent: the digits with zeros up to the decimal point, and no point
when nothing follows it. -/
def Scientific.positional (d : Scientific) : String :=
  let digits := Nat.toDigits 10 d.digits
  let zeros (n : Nat) : List Char := List.replicate n '0'
  if 0 ≤ d.exponent then String.ofList (digits ++ zeros d.exponent.toNat)
  else
    let places := (-d.exponent).toNat
    if places < digits.length then
      String.ofList (digits.take (digits.length - places) ++ '.' :: digits.drop (digits.length - places))
    else String.ofList ('0' :: '.' :: zeros (places - digits.length) ++ digits)

end RowStore.Decimal
