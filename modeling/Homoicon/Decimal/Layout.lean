import Homoicon.Decimal.Shortest

/-!
# Decimal text

The written forms of a number: positional with the fewest digits, positional with a fixed number
of places, and the form used in data exchange, which turns to powers of ten for very large and
very small numbers.
-/

namespace Homoicon.Decimal

/-- The decimal digits of a number. -/
def digitText (n : Nat) : List Char := (Nat.toDigits 10 n)

/-- Digits with a point set so that they stand for `digits · 10 ^ exponent`. -/
def positional (digits : List Char) (exponent : Int) : List Char :=
  if 0 ≤ exponent then digits ++ List.replicate exponent.toNat '0'
  else
    let places := (-exponent).toNat
    if places < digits.length then
      digits.take (digits.length - places) ++ '.' :: digits.drop (digits.length - places)
    else '0' :: '.' :: (List.replicate (places - digits.length) '0' ++ digits)

/-- The text for what is no finite number. -/
def nonFinite? (d : Float) : Option String :=
  if d.isNaN then some "NaN"
  else if d.isInf then some (if d < 0 then "-inf" else "inf")
  else none

/-- The minus sign of a number. -/
def signText (negative : Bool) : List Char := if negative then ['-'] else []

/-- Positional notation with the fewest digits that read back. -/
def plainText (d : Float) : String :=
  match nonFinite? d with
  | some text => text
  | none =>
    let b := decompose d
    if b.significand == 0 then String.ofList (signText b.negative ++ ['0'])
    else
      let s := shortest b
      String.ofList (signText b.negative ++ positional (digitText s.digits) s.exponent)

/-- Positional notation with `places` digits after the point, a tie to the even digit. -/
def fixedText (places : Nat) (d : Float) : String :=
  match nonFinite? d with
  | some text => text
  | none =>
    let b := decompose d
    let scaled := b.significand * tenTo places
    let units :=
      if 0 ≤ b.exponent then scaled <<< b.exponent.toNat
      else roundDiv scaled (1 <<< (-b.exponent).toNat)
    let digits := digitText units
    let padded := List.replicate (places + 1 - digits.length) '0' ++ digits
    String.ofList (signText b.negative ++ positional padded (-(places : Int)))

/-- The text of a decimal value: whole numbers below `10 ^ 15` show one place, so that a decimal
never looks like an integer there. -/
def text (d : Float) : String :=
  if !d.isNaN && !d.isInf && isIntegral d && d.abs < 1e15 then fixedText 1 d
  else plainText d

/-- The text of a number in data exchange: positional from `10 ^ -5` up to `10 ^ 16`, else a power
of ten with its sign after `e`. -/
def exchangeText (d : Float) : String :=
  match nonFinite? d with
  | some _ => "null"
  | none =>
    let b := decompose d
    if b.significand == 0 then String.ofList (signText b.negative ++ ['0', '.', '0'])
    else
      let s := shortest b
      let digits := digitText s.digits
      let scale : Int := digits.length + s.exponent
      let body :=
        if 0 ≤ s.exponent && scale ≤ 16 then positional digits s.exponent ++ ['.', '0']
        else if -5 < scale && scale ≤ 16 then positional digits s.exponent
        else
          let power := (if 0 < scale then ['+'] else []) ++ (toString (scale - 1)).toList
          match digits with
          | [single] => single :: 'e' :: power
          | first :: rest => first :: '.' :: (rest ++ 'e' :: power)
          | [] => []
      String.ofList (signText b.negative ++ body)

end Homoicon.Decimal
