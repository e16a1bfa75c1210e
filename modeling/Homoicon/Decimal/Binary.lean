import Homoicon.Bits

/-!
# Binary floating-point numbers

A finite 64-bit floating-point number is `significand · 2 ^ exponent` with a sign.  The functions
here take a number apart into these, put one together by rounding a fraction to nearest (a tie
to the even significand), and compute the exact remainder and the integer part from them.
-/

namespace Homoicon.Decimal

/-- The leading bit of the significand of a normal number, `2 ^ 52`. -/
def leadingBit : Nat := 4503599627370496

/-- A power of ten. -/
def tenTo (n : Nat) : Nat := Nat.pow 10 n

/-- A finite number `± significand · 2 ^ exponent`. -/
structure Binary where
  negative : Bool
  significand : Nat
  exponent : Int
deriving Repr, BEq, DecidableEq

/-- Sign, significand and exponent of a finite number. -/
def decompose (d : Float) : Binary :=
  let bits := d.toBits
  let biased := ((bits >>> 52) &&& 0x7FF).toNat
  let fraction := (bits &&& 0xFFFFFFFFFFFFF).toNat
  let negative := bits >>> 63 == 1
  if biased == 0 then ⟨negative, fraction, -1074⟩
  else ⟨negative, fraction + leadingBit, (biased : Int) - 1075⟩

/-- The quotient rounded to nearest, a tie to the even neighbour. -/
def roundDiv (numerator denominator : Nat) : Nat :=
  let quotient := numerator / denominator
  let twice := 2 * (numerator % denominator)
  if denominator < twice || (twice == denominator && quotient % 2 == 1) then quotient + 1
  else quotient

/-- The bits of a significand at most `2 ^ 53` and an exponent, infinite when out of range. -/
def pack (negative : Bool) (significand : Nat) (exponent : Int) : Float :=
  let (significand, exponent) :=
    if significand == 2 * leadingBit then (leadingBit, exponent + 1) else (significand, exponent)
  let magnitude : Nat :=
    if 971 < exponent then 0x7FF0000000000000
    else if significand < leadingBit then significand
    else (exponent + 1075).toNat * leadingBit + (significand - leadingBit)
  Float.ofBits (UInt64.ofNat (magnitude + (if negative then Bits.greatest64 + 1 else 0)))

/-- The infinite number of a sign. -/
def infinite (negative : Bool) : Float := pack negative leadingBit 972

/-- The number nearest to a positive fraction. -/
def ofFraction (negative : Bool) (numerator denominator : Nat) : Float :=
  if numerator == 0 then pack negative 0 (-1074)
  else
    let estimate : Int := (numerator.log2 : Int) - (denominator.log2 : Int)
    let scaled (exponent : Int) : Nat × Nat :=
      if 0 ≤ exponent then (numerator, denominator <<< exponent.toNat)
      else (numerator <<< (-exponent).toNat, denominator)
    let low := max (estimate - 53) (-1074)
    let (n, d) := scaled low
    if d * (2 * leadingBit) ≤ n then
      let (n, d) := scaled (low + 1)
      pack negative (roundDiv n d) (low + 1)
    else pack negative (roundDiv n d) low

/-- The integer part of a finite number, toward zero. -/
def truncate (d : Float) : Int :=
  let b := decompose d
  let magnitude : Nat :=
    if 0 ≤ b.exponent then b.significand <<< b.exponent.toNat
    else b.significand >>> (-b.exponent).toNat
  if b.negative then -(magnitude : Int) else magnitude

/-- The integer part held within the signed 64-bit range; 0 when it is not a number. -/
def toInteger (d : Float) : Int :=
  if d.isNaN then 0
  else if d.isInf then (if d < 0 then Bits.least64 else Bits.greatest64)
  else Bits.clamp64 (truncate d)

/-- The number nearest to an integer. -/
def ofInteger (i : Int) : Float := ofFraction (i < 0) i.natAbs 1

/-- Whether a number has no fractional part. -/
def isIntegral (d : Float) : Bool :=
  let b := decompose d
  0 ≤ b.exponent || b.significand % (1 <<< (-b.exponent).toNat) == 0

/-- The exact remainder of two finite numbers, the second not zero, with the sign of the
first. -/
def remainder (x y : Float) : Float :=
  if y.isInf then x
  else
    let a := decompose x
    let b := decompose y
    let common := min a.exponent b.exponent
    let left := a.significand <<< (a.exponent - common).toNat
    let right := b.significand <<< (b.exponent - common).toNat
    let rest := left % right
    if 0 ≤ common then ofFraction a.negative (rest <<< common.toNat) 1
    else ofFraction a.negative rest (1 <<< (-common).toNat)

end Homoicon.Decimal
