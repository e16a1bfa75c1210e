import Homoicon.Bits
import Homoicon.Calendar
import Homoicon.Decimal.Binary
import Homoicon.Machine
import Homoicon.Token.Number

/-!
# Arithmetic

The five operations on scalars and dates.  Integers do not leave their 64 bits; an exact quotient
of integers is an integer, any other a decimal.  Pairs and tuples are reckoned part by part, times
and dates with numbers of seconds and days.
-/

namespace Homoicon

/-- An operation of arithmetic. -/
inductive Operation where
  | add
  | subtract
  | multiply
  | divide
  | remainder
deriving Repr, DecidableEq, Inhabited

namespace Operation

/-- The name of an operation. -/
def name : Operation → String
  | add => "add"
  | subtract => "subtract"
  | multiply => "multiply"
  | divide => "divide"
  | remainder => "remainder"

end Operation

namespace Arithmetic

/-- Fails because an operation does not take a value. -/
def refuse {α : Type} (operation : String) (c : Cell) : Except Fault α :=
  fail (.cannotUse operation c.typeKind.name)

/-- An integer that must fit into 64 bits. -/
def checked (i : Int) : Except Fault Int :=
  if Bits.fits64 i then pure i else fail .overflow

/-- The sum, difference or product of two integers, reckoned in 64 bits without a look at them. -/
def reckoned (operation : Operation) (x y : Int) : Except Fault Int :=
  exact64 (match operation with
    | .add => x + y
    | .subtract => x - y
    | _ => x * y)

/-- A cell with a number that is no integer. -/
def decimalCell (kind : Kind) (d : Float) : Cell := { kind, payload := .decimal d }

/-- The result of an operation on integers.  Whether the smallest integer can be divided by -1 is
not decided here: the machine has no answer to it. -/
def integers : Operation → Int → Int → Except Fault Cell
  | .add, x, y => Cell.integer <$> checked (x + y)
  | .subtract, x, y => Cell.integer <$> checked (x - y)
  | .multiply, x, y => Cell.integer <$> checked (x * y)
  | .divide, x, y =>
    if y == 0 then fail .zeroDivide
    else if x == Bits.least64 && y == -1 then defect
    else if x.tmod y != 0 then pure (Cell.decimal (Float.ofInt x / Float.ofInt y))
    else pure (Cell.integer (x.tdiv y))
  | .remainder, x, y =>
    if y == 0 then fail .zeroDivide
    else if x == Bits.least64 && y == -1 then fail .overflow
    else pure (Cell.integer (x.tmod y))

/-- The remainder of two decimals with the sign of the first. -/
def decimalRemainder (x y : Float) : Float :=
  if x.isNaN || y.isNaN || x.isInf then 0.0 / 0.0 else Decimal.remainder x y

/-- The result of an operation on decimals, which must be finite. -/
def decimals (operation : Operation) (x y : Float) : Except Fault Float := do
  let result ←
    match operation with
    | .add => pure (x + y)
    | .subtract => pure (x - y)
    | .multiply => pure (x * y)
    | .divide => if y == 0.0 then fail .zeroDivide else pure (x / y)
    | .remainder => if y == 0.0 then fail .zeroDivide else pure (decimalRemainder x y)
  if result.isNaN || result.isInf then fail .overflow else pure result

/-- The kind of the result when two kinds of numbers meet. -/
def numberKind : Kind → Kind → Kind
  | .money, _ | _, .money => .money
  | .percent, .percent => .percent
  | .integer, .integer => .integer
  | _, _ => .decimal

/-- The result of an operation on numbers. -/
def numbers (operation : Operation) (a b : Cell) : Except Fault Cell := do
  let kind := numberKind a.typeKind b.typeKind
  if kind = .integer then
    integers operation (a.asInteger?.getD 0) (b.asInteger?.getD 0)
  else
    match a.asDecimal?, b.asDecimal? with
    | some x, some y => decimalCell kind <$> decimals operation x y
    | _, _ => refuse operation.name a

/-- The sum or difference of two integers in 64 bits. -/
def sum (operation : Operation) (x y : Int) : Except Fault Int :=
  checked (if operation = .add then x + y else x - y)

/-- Nanoseconds in a second. -/
def second : Int := 1000000000

/-- The result of an operation on a time. -/
def times (operation : Operation) (x : Int) (b : Cell) : Except Fault Cell := do
  match operation, b.payload with
  | .add, .time y | .subtract, .time y => Cell.time <$> sum operation x y
  | .add, .integer seconds | .subtract, .integer seconds =>
    let y ← checked (seconds * second)
    Cell.time <$> sum operation x y
  | .multiply, _ | .divide, _ =>
    if b.typeKind.isAnyNumber then
      let d ← decimals operation (Float.ofInt x) (b.asDecimal?.getD 1.0)
      pure (Cell.time (Decimal.toInteger d))
    else refuse operation.name b
  | _, _ => refuse operation.name b

/-- The days of a date from 1 January 1970. -/
def dayNumber (d : Date) : Int := Calendar.daysFromCivil d.year d.month d.day

/-- A date some days later. -/
def later (d : Date) (n : Int) : Except Fault Cell := do
  let days ← exact64 (dayNumber d + n)
  if !Calendar.isReckoned days then defect
  let (year, month, day) := Calendar.civilFromDays days
  pure { kind := .date, payload := .date { d with year, month := month.toNat, day := day.toNat } }

/-- The result of an operation on a date: some days later or earlier, or the days between two
dates. -/
def dates (operation : Operation) (d : Date) (b : Cell) : Except Fault Cell := do
  match operation, b.payload with
  | .add, .integer n => later d n
  | .subtract, .integer n => do later d (← exact64 (-n))
  | .subtract, .date other => pure (Cell.integer (dayNumber d - dayNumber other))
  | _, _ => refuse operation.name b

/-- The character with a code, unless it is none. -/
def charOfCode? (code : Int) : Option Char :=
  if 0 ≤ code && code < 0x110000 && !(0xD800 ≤ code && code < 0xE000) then
    some (Char.ofNat code.toNat)
  else none

/-- The result of an operation on a character. -/
def chars (operation : Operation) (a : Cell) (c : Char) (b : Cell) : Except Fault Cell := do
  match operation, b.payload with
  | .subtract, .char other => pure (Cell.integer (c.toNat - other.toNat))
  | .add, .integer n | .subtract, .integer n =>
    let code ← reckoned operation c.toNat n
    match charOfCode? code with
    | some c => pure (Cell.char c)
    | none => fail (.outOfRange (toString code))
  | _, .integer _ => refuse operation.name a
  | _, _ => refuse operation.name b

/-- The result of an operation on two bytes, held within a byte. -/
def bytes (operation : Operation) (x y : Int) : Except Fault UInt8 := do
  let result ←
    match operation with
    | .add | .subtract | .multiply => reckoned operation x y
    | .divide => if y == 0 then fail .zeroDivide else pure (x.tdiv y)
    | .remainder => if y == 0 then fail .zeroDivide else pure (x.tmod y)
  pure (UInt8.ofNat (max 0 (min 255 result)).toNat)

/-- The result of an operation on a tuple, byte by byte. -/
def tuples (operation : Operation) (own : List UInt8) (b : Cell) : Except Fault Cell := do
  let (size, other) ←
    match b.payload with
    | .tuple bytes => pure (bytes.length, fun i => ((bytes.getD i 0).toNat : Int))
    | .integer n => pure (own.length, fun _ => n)
    | .decimal d =>
      if b.kind = .decimal then pure (own.length, fun _ => Decimal.toInteger d)
      else refuse operation.name b
    | _ => refuse operation.name b
  let result ← (List.range (max own.length size)).mapM fun i =>
    bytes operation (own.getD i 0).toNat (other i)
  pure { kind := .tuple, payload := .tuple result }

/-- The result of an operation on anything but pairs. -/
def scalars (operation : Operation) (a b : Cell) : Except Fault Cell := do
  let ka := a.typeKind
  let kb := b.typeKind
  if ka.isAnyNumber && kb.isAnyNumber then numbers operation a b
  else
    match ka, a.payload with
    | .tuple, .tuple own => tuples operation own b
    | .time, .time x => times operation x b
    | .date, .date d => dates operation d b
    | .char, .char c => chars operation a c b
    | _, _ =>
      match operation, ka, kb, b.payload with
      | .add, .integer, .date, .date d => dates .add d a
      | .add, .integer, .time, .time x => times .add x a
      | _, _, _, _ => refuse operation.name (if ka.isAnyNumber then b else a)

/-- The two parts of a pair; a number stands for a pair of it. -/
def parts? (c : Cell) : Query (Option (Cell × Cell)) := do
  match c.payload with
  | .pair id =>
    if c.quote == 0 then pure (some (← Query.cell id 0, ← Query.cell id 1)) else pure none
  | _ => pure (if c.kind.isAnyNumber then some (c, c) else none)

/-- The result of an operation. -/
def apply (operation : Operation) (a b : Cell) : Interp Cell := do
  if a.typeKind = .pair || b.typeKind = .pair then
    let left ← Query.ask (parts? a)
    let right ← Query.ask (parts? b)
    match left, right with
    | some (ax, ay), some (bx, by_) =>
      let x ← ofExcept (scalars operation ax bx)
      let y ← ofExcept (scalars operation ay by_)
      Interp.pairCell x y
    | none, _ => ofExcept (refuse operation.name a)
    | _, none => ofExcept (refuse operation.name b)
  else ofExcept (scalars operation a b)

/-- The negative of a value. -/
def negate (v : Cell) : Interp Cell := do
  match v.payload with
  | .integer i => Cell.integer <$> ofExcept (checked (-i))
  | .decimal d => pure (decimalCell v.kind (-d))
  | .time n => Cell.time <$> ofExcept (exact64 (-n))
  | .pair _ => apply .multiply v (Cell.integer (-1))
  | _ => ofExcept (refuse "negate" v)

/-- A part of a pair without its sign. -/
def absPart (c : Cell) : Interp Cell :=
  if c.asDecimal?.getD 0.0 < 0.0 then apply .multiply c (Cell.integer (-1)) else pure c

/-- A value without its sign. -/
def abs (v : Cell) : Interp Cell := do
  match v.payload with
  | .integer i => Cell.integer <$> ofExcept (checked i.natAbs)
  | .decimal d => pure (decimalCell v.kind d.abs)
  | .time n => Cell.time <$> ofExcept (exact64 n.natAbs)
  | .pair id =>
    let x ← absPart (← Query.cell id 0)
    let y ← absPart (← Query.cell id 1)
    Interp.pairCell x y
  | _ => ofExcept (refuse "abs" v)

/-- Whether a value is zero in all its parts. -/
def isZero (v : Cell) : Query Bool := do
  match v.payload with
  | .integer i => pure (i == 0)
  | .decimal d => pure (d == 0.0)
  | .char c => pure (c.toNat == 0)
  | .time n => pure (n == 0)
  | .tuple bytes => pure (bytes.all (· == 0))
  | .pair id => pure ((← Query.cells id).all fun c => c.asDecimal?.any (· == 0.0))
  | _ => pure false

end Arithmetic

end Homoicon
