import Homoicon.Arithmetic
import Homoicon.Comparison
import Homoicon.Library.Native

/-!
# Arithmetic and comparison

The actions and operators of arithmetic, of order and of equality.
-/

namespace Homoicon

/-- Whether two payloads of a series, context or action stand for the same thing. -/
def Payload.isSame : Payload → Payload → Bool
  | .series x i, .series y j => x == y && i == j
  | .context x p, .context y q => x == y && p == q
  | .action x, .action y => x == y
  | _, _ => false

namespace Library

/-- An operation of arithmetic on two arguments. -/
def arithmetic (operation : Operation) (_ : Engine) (f : FrameId) : Interp Bounce := do
  Interp.give f (← Arithmetic.apply operation (← Query.arg f 1) (← Query.arg f 2))

/-- NEGATE: the negative of a value. -/
def negate (_ : Engine) (f : FrameId) : Interp Bounce := do
  Interp.give f (← Arithmetic.negate (← Query.arg f 1))

/-- ABS: a value without its sign. -/
def abs (_ : Engine) (f : FrameId) : Interp Bounce := do
  Interp.give f (← Arithmetic.abs (← Query.arg f 1))

/-- The order of the two arguments. -/
def argOrder (f : FrameId) : Query Ordering := do
  Query.order (← Query.arg f 1) (← Query.arg f 2) false

/-- MIN and MAX: the first argument, unless the order is the one given. -/
def extreme (other : Ordering) (_ : Engine) (f : FrameId) : Interp Bounce := do
  let order ← Query.ask (argOrder f)
  Interp.give f (← Query.arg f (if order == other then 2 else 1))

/-- Tests the order of the two arguments. -/
def ordered (test : Ordering → Bool) (_ : Engine) (f : FrameId) : Interp Bounce := do
  Interp.giveLogic f (test (← Query.ask (argOrder f)))

/-- Tests the two arguments for equality, or for its absence. -/
def equality (strict expected : Bool) (_ : Engine) (f : FrameId) : Interp Bounce := do
  let equal ← Query.equal (← Query.arg f 1) (← Query.arg f 2) strict
  Interp.giveLogic f (equal == expected)

/-- SAME?: series, contexts and actions are the same only if they are one. -/
def same (_ : Engine) (f : FrameId) : Interp Bounce := do
  let a ← Query.arg f 1
  let b ← Query.arg f 2
  match a.payload with
  | .series .. | .context .. | .action .. =>
    Interp.giveLogic f (a.kind = b.kind && a.payload.isSame b.payload)
  | _ => Interp.giveLogic f (← Query.equal a b true)

/-- The number of an integer or character. -/
def ordinal (c : Cell) : Int :=
  match c.payload with
  | .integer i => i
  | .char ch => ch.toNat
  | _ => 0

/-- EVEN? and ODD?. -/
def parity (even : Bool) (_ : Engine) (f : FrameId) : Interp Bounce := do
  Interp.giveLogic f ((ordinal (← Query.arg f 1) % 2 == 0) == even)

/-- ZERO?: whether a value is zero. -/
def zero (_ : Engine) (f : FrameId) : Interp Bounce := do
  Interp.giveLogic f (← Arithmetic.isZero (← Query.arg f 1))

/-- The spec of arithmetic. -/
def mathSpec : String := "value1 [any-scalar! date!] value2 [any-scalar! date!]"

/-- The spec of equality. -/
def compareSpec : String := "value1 [<opt> any-value!] value2 [<opt> any-value!]"

/-- The spec of order. -/
def orderSpec : String := "value1 [any-value!] value2 [any-value!]"

/-- Arithmetic. -/
def arithmetics : List Native :=
  [{ name := "add", spec := mathSpec, run := arithmetic .add },
    { name := "subtract", spec := mathSpec, run := arithmetic .subtract },
    { name := "multiply", spec := mathSpec, run := arithmetic .multiply },
    { name := "divide", spec := mathSpec, run := arithmetic .divide },
    { name := "remainder", spec := mathSpec, run := arithmetic .remainder },
    { name := "+", spec := mathSpec, enfix := true, run := arithmetic .add },
    { name := "-", spec := mathSpec, enfix := true, run := arithmetic .subtract },
    { name := "*", spec := mathSpec, enfix := true, run := arithmetic .multiply },
    { name := "path-0", spec := mathSpec, run := arithmetic .divide },
    { name := "negate", spec := "number [any-scalar!]", run := negate },
    { name := "abs", spec := "value [any-number! pair! time!]", run := abs },
    { name := "even?", spec := "number [integer! char!]", run := parity true },
    { name := "odd?", spec := "number [integer! char!]", run := parity false },
    { name := "zero?", spec := "value [any-scalar!]", run := zero }]

/-- Comparison. -/
def comparisons : List Native :=
  [{ name := "min", spec := orderSpec, run := extreme .gt },
    { name := "max", spec := orderSpec, run := extreme .lt },
    { name := "equal?", spec := compareSpec, run := equality false true },
    { name := "not-equal?", spec := compareSpec, run := equality false false },
    { name := "strict-equal?", spec := compareSpec, run := equality true true },
    { name := "strict-not-equal?", spec := compareSpec, run := equality true false },
    { name := "same?", spec := compareSpec, run := same },
    { name := "lesser?", spec := orderSpec, run := ordered (· == .lt) },
    { name := "greater?", spec := orderSpec, run := ordered (· == .gt) },
    { name := "lesser-or-equal?", spec := orderSpec, run := ordered (· != .gt) },
    { name := "greater-or-equal?", spec := orderSpec, run := ordered (· != .lt) },
    { name := "=", spec := compareSpec, enfix := true, run := equality false true },
    { name := "<>", spec := compareSpec, enfix := true, run := equality false false },
    { name := "==", spec := compareSpec, enfix := true, run := equality true true },
    { name := "!==", spec := compareSpec, enfix := true, run := equality true false },
    { name := "<", spec := orderSpec, enfix := true, run := ordered (· == .lt) },
    { name := ">", spec := orderSpec, enfix := true, run := ordered (· == .gt) },
    { name := "<=", spec := orderSpec, enfix := true, run := ordered (· != .gt) },
    { name := ">=", spec := orderSpec, enfix := true, run := ordered (· != .lt) }]

end Library

end Homoicon
