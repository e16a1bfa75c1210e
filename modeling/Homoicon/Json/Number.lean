import Homoicon.Bits
import Homoicon.Decimal.Binary
import Homoicon.Json.Cursor

/-!
# Numbers in JSON

The digits of a number are gathered in 64 bits as long as they fit; later ones only count for the
power of ten.  The number is then the gathered digits times or divided by that power, each step
rounded on its own.
-/

namespace Homoicon.Json.Reader

/-- The greatest number that is gathered exactly. -/
def gatherLimit : Nat := Bits.count64 - 1

/-- The greatest exponent that is reckoned with. -/
def exponentLimit : Nat := Bits.greatest32

/-- A power of ten up to `10 ^ 308`. -/
def powerOfTen (n : Nat) : Float := Decimal.ofFraction false (Decimal.tenTo n) 1

/-- A number with its sign. -/
def signed (positive : Bool) (d : Float) : Float := if positive then d else -d

/-- The number `significand · 10 ^ exponent`, divided in steps when the power is out of range. -/
def scaled (positive : Bool) : Nat → Float → Int → Reader Float
  | 0, d, _ => pure (signed positive d)
  | steps + 1, d, exponent => do
    if exponent.natAbs ≤ 308 then
      let power := powerOfTen exponent.natAbs
      if 0 ≤ exponent then
        let product := d * power
        if product.isInf then refuse .numberOutOfRange else pure (signed positive product)
      else pure (signed positive (d / power))
    else if d == 0.0 then pure (signed positive d)
    else if 0 ≤ exponent then refuse .numberOutOfRange
    else scaled positive steps (d / powerOfTen 308) (exponent + 308)

/-- The number of a significand and a power of ten.  Four steps leave nothing of any
significand. -/
def ofParts (positive : Bool) (significand : Nat) (exponent : Int) : Reader Float :=
  scaled positive 4 (UInt64.ofNat significand).toFloat exponent

/-- An exponent held in 32 bits. -/
def clampExponent (e : Int) : Int := max (-Bits.greatest32 - 1) (min Bits.greatest32 e)

/-- Reads the digits of an exponent; none if it is out of range. -/
def exponentDigits : Nat → Nat → Reader (Option Nat)
  | 0, e => pure (some e)
  | fuel + 1, e => do
    let b ← peek
    if isDigit b then
      eat
      let e := e * 10 + (b.toNat - 48)
      if exponentLimit < e then pure none else exponentDigits fuel e
    else pure (some e)

/-- Reads an exponent, whose mark is the current byte, and gives the number. -/
def exponentPart (positive : Bool) (significand : Nat) (exponent : Int) : Reader Float := do
  eat
  let sign ← peek
  let up := sign != 45
  if sign == 43 || sign == 45 then eat
  match ← next? with
  | none => refuse .endInValue
  | some b =>
    if !isDigit b then refuse .invalidNumber
    else
      match ← exponentDigits (← fuel) (b.toNat - 48) with
      | some e =>
        ofParts positive significand (clampExponent (if up then exponent + e else exponent - e))
      | none =>
        if significand != 0 && up then refuse .numberOutOfRange
        else
          let _ ← skipDigits
          pure (signed positive 0.0)

/-- The number of what was gathered, after an exponent if one follows. -/
def finish (positive : Bool) (significand : Nat) (exponent : Int) : Reader Float := do
  let b ← peek
  if b == 101 || b == 69 then exponentPart positive significand exponent
  else ofParts positive significand exponent

/-- Gathers digits as long as they fit, and counts them. -/
def gather : Nat → Nat → Nat → Reader (Nat × Nat)
  | 0, significand, count => pure (significand, count)
  | fuel + 1, significand, count => do
    let b ← peek
    if isDigit b && significand * 10 + (b.toNat - 48) ≤ gatherLimit then
      eat
      gather fuel (significand * 10 + (b.toNat - 48)) (count + 1)
    else pure (significand, count)

/-- Reads a fraction, whose point is the current byte, and gives the number. -/
def fractionPart (positive : Bool) (significand : Nat) (exponent : Int) : Reader Float := do
  eat
  let (significand, count) ← gather (← fuel) significand 0
  let surplus ← skipDigits
  if count + surplus == 0 then
    match ← peek? with
    | some _ => refuseHere .invalidNumber
    | none => refuseHere .endInValue
  else finish positive significand (exponent - count)

/-- Reads the rest of a number with more digits than can be gathered. -/
def longNumber (positive : Bool) (significand : Nat) : Reader Json := do
  let surplus ← skipDigits
  let b ← peek
  decimal <$> if b == 46 then fractionPart positive significand surplus
    else finish positive significand surplus

/-- The number of an integer part; a negative one that does not fit, and minus zero, is a
decimal. -/
def integerPart (positive : Bool) (significand : Nat) : Reader Json := do
  let b ← peek
  if b == 46 then decimal <$> fractionPart positive significand 0
  else if b == 101 || b == 69 then decimal <$> exponentPart positive significand 0
  else if positive then pure (integer significand)
  else if significand == 0 || Bits.greatest64 + 1 < significand then
    pure (decimal (-(UInt64.ofNat significand).toFloat))
  else pure (integer (-(significand : Int)))

/-- Reads a number after its sign. -/
def number (positive : Bool) : Reader Json := do
  match ← next? with
  | none => refuse .endInValue
  | some b =>
    if b == 48 then
      if isDigit (← peek) then refuseHere .invalidNumber else integerPart positive 0
    else if isDigit b then
      let (significand, _) ← gather (← fuel) (b.toNat - 48) 0
      if isDigit (← peek) then longNumber positive significand
      else integerPart positive significand
    else refuse .invalidNumber

end Homoicon.Json.Reader
