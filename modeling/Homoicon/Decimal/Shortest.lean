import Homoicon.Decimal.Binary

/-!
# Shortest decimals

The decimal with the fewest digits that reads back as a given number, and of those the nearest
one.  All arithmetic is exact: the reals that round to `m · 2 ^ e` are an interval with rational
ends, and for one digit, two digits and so on the two neighbours of the number on that decimal
grid are tried.
-/

namespace Homoicon.Decimal

/-- A decimal `digits · 10 ^ exponent`. -/
structure Scientific where
  digits : Nat
  exponent : Int
deriving Repr, BEq, DecidableEq

/-- The interval of reals that round to one number, as fractions over a common denominator. -/
structure Rounding where
  value : Nat
  low : Nat
  high : Nat
  denominator : Nat
  closed : Bool

/-- The interval of a positive number `significand · 2 ^ exponent`.  The gap below a power of two
is half the gap above it, unless the number is among the smallest. -/
def Rounding.ofBinary (significand : Nat) (exponent : Int) : Rounding :=
  let narrow := significand == leadingBit && -1074 < exponent
  let value := 4 * significand
  let low := if narrow then value - 1 else value - 2
  let high := value + 2
  let shift := exponent - 2
  let closed := significand % 2 == 0
  if 0 ≤ shift then
    ⟨value <<< shift.toNat, low <<< shift.toNat, high <<< shift.toNat, 1, closed⟩
  else ⟨value, low, high, 1 <<< (-shift).toNat, closed⟩

/-- Whether `n · unit / denominator` lies in the interval, where all is scaled by `factor`. -/
def Rounding.contains (r : Rounding) (n unit factor : Nat) : Bool :=
  let x := n * unit * r.denominator
  let low := r.low * factor
  let high := r.high * factor
  if r.closed then low ≤ x && x ≤ high else low < x && x < high

/-- The neighbour of the value on the grid of multiples of `10 ^ place` that reads back, if one
does; of two the nearer, of two equally near the larger. -/
def Rounding.atPlace? (r : Rounding) (place : Int) : Option Scientific :=
  let unit := tenTo place.toNat
  let factor := tenTo (-place).toNat
  let scaled := r.value * factor
  let step := unit * r.denominator
  let down := scaled / step
  let rest := scaled % step
  let downFits := 0 < down && r.contains down unit factor
  let upFits := r.contains (down + 1) unit factor
  if rest == 0 && downFits then some ⟨down, place⟩
  else
    match downFits, upFits with
    | true, true => some ⟨if 2 * rest < step then down else down + 1, place⟩
    | true, false => some ⟨down, place⟩
    | false, true => some ⟨down + 1, place⟩
    | false, false => none

/-- Tries coarser to finer grids, `tries` of them. -/
def Rounding.search (r : Rounding) : Nat → Int → Option Scientific
  | 0, _ => none
  | tries + 1, place =>
    match r.atPlace? place with
    | some found => some found
    | none => r.search tries (place - 1)

/-- A decimal without the zeros at the end of its digits; `steps` bounds how many there are. -/
def stripZeros : Nat → Scientific → Scientific
  | 0, s => s
  | steps + 1, s =>
    if s.digits != 0 && s.digits % 10 == 0 then stripZeros steps ⟨s.digits / 10, s.exponent + 1⟩
    else s

/-- The decimal place of the leading digit, or one above it. -/
def leadingPlace (b : Binary) : Int :=
  let top : Int := (b.significand.log2 : Int) + b.exponent
  (top + 1) * 30103 / 100000 + 1

/-- The shortest decimal of a positive finite number. -/
def shortest (b : Binary) : Scientific :=
  let r := Rounding.ofBinary b.significand b.exponent
  match r.search 22 (leadingPlace b) with
  | some found => stripZeros 20 found
  | none => ⟨b.significand, 0⟩

end Homoicon.Decimal
