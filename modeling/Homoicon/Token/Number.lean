import Homoicon.Bits
import Homoicon.Calendar
import Homoicon.Decimal.Read
import Homoicon.Text.Lowercase
import Homoicon.Token

/-!
# Literals that begin with a digit

Integers, decimals, percentages, pairs, times, dates and tuples are told apart by the characters
they contain.
-/

namespace Homoicon.Token

/-- The parts of a text between the occurrences of a character; always at least one. -/
def splitAll (mark : Char) : List Char → List (List Char)
  | [] => [[]]
  | c :: rest =>
    if c == mark then [] :: splitAll mark rest
    else
      match splitAll mark rest with
      | part :: parts => (c :: part) :: parts
      | [] => [[c]]

/-- The text before and after the first occurrence of a character. -/
def splitFirst? (mark : Char) (cs : List Char) : Option (List Char × List Char) :=
  match cs.dropWhile (· != mark) with
  | _ :: rest => some (cs.takeWhile (· != mark), rest)
  | [] => none

/-- Nanoseconds of the seconds part of a time. -/
def secondsToNanos (seconds : Float) : Int :=
  Decimal.toInteger (seconds * 1e9).round

/-- Cuts off a minus sign, and tells whether there is one. -/
def splitSign : List Char → Bool × List Char
  | '-' :: rest => (true, rest)
  | cs => (false, cs)

/-- Reads `h:mm`, `h:mm:ss` or `h:mm:ss.fff` as hours, minutes, and nanoseconds of the seconds. -/
def readClock? (cs : List Char) : Option (Int × Int × Int) :=
  match splitAll ':' cs with
  | [hours, minutes] => do
    pure (← Decimal.readInt64? hours, ← Decimal.readInt64? minutes, 0)
  | [hours, minutes, seconds] => do
    let h ← Decimal.readInt64? hours
    let m ← Decimal.readInt64? minutes
    pure (h, m, secondsToNanos (← Decimal.readChars? seconds))
  | _ => none

/-- The nanoseconds of hours, minutes, and nanoseconds of seconds, reckoned in 64 bits. -/
def clockNanos (hours minutes nanos : Int) : Scan Int := do
  let seconds ← Scan.exact64 ((← Scan.exact64 (hours * 3600)) + (← Scan.exact64 (minutes * 60)))
  Scan.exact64 ((← Scan.exact64 (seconds * 1000000000)) + nanos)

/-- A month by number or by a text that begins with its English name's first three letters. -/
def readMonth? (cs : List Char) : Option Nat :=
  match Decimal.readNatural? 255 cs with
  | some m => some m
  | none =>
    let lower := (Text.lowercase (String.ofList cs)).toList
    let index := Calendar.monthNames.findIdx fun name =>
      (name.toList.map Char.toLower).isPrefixOf lower
    if index < 12 then some (index + 1) else none

/-- Reads a date from its three parts, in the order year, month, day if `yearFirst`. -/
def readDate? (cs : List Char) : Option (Int × Nat × Nat) :=
  match splitAll '-' cs with
  | [first, second, third] =>
    let (year, day) :=
      if (String.ofList first).utf8ByteSize == 4 then (first, third) else (third, first)
    do
      let y ← Decimal.readInteger? Bits.greatest32 year
      let m ← readMonth? second
      let d ← Decimal.readNatural? 255 day
      if 1 ≤ m && m ≤ 12 && 1 ≤ d && d ≤ 31 then some (y, m, d) else none
  | _ => none

/-- Reads the parts of a tuple, at most eight bytes. -/
def readTuple? (cs : List Char) : Option (List UInt8) :=
  let parts := splitAll '.' cs
  match parts.mapM (Decimal.readNatural? 255) with
  | some bytes => if bytes.length ≤ 8 then some (bytes.map UInt8.ofNat) else none
  | none => none

/-- The literal that a value must be read as, or its cause of refusal. -/
def orRefuse {α : Type} (line : Nat) (cause : String → ScanCause) (cs : List Char)
    (value : Option α) : Scan α :=
  match value with
  | some a => pure a
  | none => refuse line (cause (String.ofList cs))

/-- Reads a time as nanoseconds. -/
def readTime (line : Nat) (cs : List Char) : Scan Int := do
  let (negative, digits) := splitSign cs
  let (hours, minutes, nanos) ← orRefuse line .badTime cs (readClock? digits)
  let total ← clockNanos hours minutes nanos
  if negative then Scan.exact64 (-total) else pure total

/-- Reads a literal that begins with a digit, or with a sign or point and a digit. -/
def readNumber (line : Nat) (cs : List Char) : Scan Lexeme :=
  let first := cs.take 1
  let later := cs.drop 1
  match splitFirst? 'x' later with
  | some (before, y) =>
    let x := first ++ before
    match Decimal.readChars? x, Decimal.readChars? y with
    | some dx, some dy => pure (.pair dx dy (!x.contains '.' && !y.contains '.'))
    | _, _ => refuse line (.badPair (String.ofList cs))
  | none =>
    if cs.getLast? == some '%' then do
      let d ← orRefuse line .badPercent cs (Decimal.readChars? cs.dropLast)
      pure (.percent (d / 100.0))
    else if cs.contains ':' then
      Lexeme.time <$> readTime line cs
    else if later.contains '-' then do
      let (y, m, d) ← orRefuse line .badDate cs (readDate? cs)
      pure (.date y m d)
    else if 2 ≤ cs.count '.' then
      Lexeme.tuple <$> orRefuse line .badTuple cs (readTuple? cs)
    else if cs.contains '.' || cs.contains 'e' || cs.contains 'E' then
      Lexeme.decimal <$> orRefuse line .badDecimal cs (Decimal.readChars? cs)
    else
      Lexeme.integer <$> orRefuse line .badInteger cs (Decimal.readInt64? cs)

end Homoicon.Token
