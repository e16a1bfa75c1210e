import Homoicon.Bits
import Homoicon.Decimal.Binary

/-!
# Reading decimals

The grammar of a decimal number: an optional sign, then digits with an optional point among,
before or after them and an optional power of ten, or one of the words `inf`, `infinity` and
`nan` in any case.  The number read is the one nearest to the decimal written.
-/

namespace Homoicon.Decimal

/-- The number a string of digits stands for, after the digits that made `start`. -/
def digitsValue (start : Nat) (cs : List Char) : Nat :=
  cs.foldl (fun n c => 10 * n + (c.toNat - 48)) start

/-- The number nearest to `digits · 10 ^ exponent`, where `digits` has at most `count` digits. -/
def ofScientific (negative : Bool) (digits count : Nat) (exponent : Int) : Float :=
  if digits == 0 then pack negative 0 (-1074)
  else if 400 < exponent + count && 400 < exponent then infinite negative
  else if exponent + count < -400 then pack negative 0 (-1074)
  else if 0 ≤ exponent then ofFraction negative (digits * tenTo exponent.toNat) 1
  else ofFraction negative digits (tenTo (-exponent).toNat)

/-- The exponent part after the digits: nothing, or `e` with an optional sign and digits. -/
def readExponent? : List Char → Option Int
  | [] => some 0
  | mark :: rest =>
    if mark == 'e' || mark == 'E' then
      let (negative, digits) :=
        match rest with
        | '-' :: digits => (true, digits)
        | '+' :: digits => (false, digits)
        | digits => (false, digits)
      if digits.isEmpty || !digits.all Char.isDigit then none
      else
        let magnitude : Int := digitsValue 0 digits
        some (if negative then -magnitude else magnitude)
    else none

/-- Reads the unsigned part of a decimal. -/
def readMagnitude? (negative : Bool) (cs : List Char) : Option Float :=
  let whole := cs.takeWhile Char.isDigit
  let rest := cs.dropWhile Char.isDigit
  let (fraction, rest) :=
    match rest with
    | '.' :: rest => (rest.takeWhile Char.isDigit, rest.dropWhile Char.isDigit)
    | rest => ([], rest)
  if whole.isEmpty && fraction.isEmpty then
    match String.ofList (cs.map Char.toLower) with
    | "inf" | "infinity" => some (infinite negative)
    | "nan" => some (0.0 / 0.0)
    | _ => none
  else
    (readExponent? rest).map fun exponent =>
      ofScientific negative (digitsValue (digitsValue 0 whole) fraction)
        (whole.length + fraction.length) (exponent - fraction.length)

/-- Reads a decimal number. -/
def readChars? : List Char → Option Float
  | '-' :: rest => readMagnitude? true rest
  | '+' :: rest => readMagnitude? false rest
  | cs => readMagnitude? false cs

/-- Reads a decimal number. -/
def read? (s : String) : Option Float := readChars? s.toList

/-- Reads digits, at least one, as an unsigned number not above `limit`; a plus sign may stand
in front. -/
def readNatural? (limit : Nat) (cs : List Char) : Option Nat :=
  let digits := match cs with
    | '+' :: digits => digits
    | digits => digits
  if digits.isEmpty || !digits.all Char.isDigit then none
  else
    let n := digitsValue 0 digits
    if n ≤ limit then some n else none

/-- Reads an optional sign and digits as a number from `-limit - 1` to `limit`. -/
def readInteger? (limit : Nat) (cs : List Char) : Option Int :=
  match cs with
  | '-' :: digits =>
    if digits.isEmpty || !digits.all Char.isDigit then none
    else
      let n := digitsValue 0 digits
      if n ≤ limit + 1 then some (-(n : Int)) else none
  | _ => (readNatural? limit cs).map Int.ofNat

/-- Reads a signed 64-bit integer. -/
def readInt64? (cs : List Char) : Option Int := readInteger? Bits.greatest64 cs

end Homoicon.Decimal
