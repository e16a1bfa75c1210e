import Homoicon.Evaluation.Engine

/-!
# Built-in actions

A built-in action has a name, a spec that says how it takes its arguments, and a computation over
the frame of its call.  It puts its result into the output of the frame.
-/

namespace Homoicon

/-- A built-in action. -/
structure Native where
  name : String
  spec : String
  /-- Takes its first argument from the left. -/
  enfix : Bool := false
  run : Engine → FrameId → Interp Bounce

namespace Interp

/-- Ends a call with a value. -/
def give (f : FrameId) (c : Cell) : Interp Bounce := do
  setOut f c
  pure .out

/-- Ends a call with a truth value. -/
def giveLogic (f : FrameId) (b : Bool) : Interp Bounce := give f (Cell.logic b)

/-- Ends a call with what an evaluation came to; `none` stands for a throw. -/
def giveOrThrow (f : FrameId) : Option Cell → Interp Bounce
  | some c => give f c
  | none => pure .thrown

/-- Begins a throw whose label is an action, which may belong to a call. -/
def throwTo (label : Action) (binding : Binding) (value : Cell) : Interp Bounce := do
  beginThrow (Cell.action label binding) value
  pure .thrown

/-- Fails because of the kind of an argument. -/
def refuseArg {α : Type} (f : FrameId) (n : Nat) : Interp α := do
  let name ←
    match (← Query.frame f).phase with
    | some phase => do
      let p ← Query.param (← Query.underlyingParamlist phase) n
      Query.ask (Query.paramName p)
    | none => pure ""
  let c ← Query.arg f n
  fail (.expectArg (← Query.frameLabel f) name c.typeName)

end Interp

namespace Query

/-- The items of an array value from its position on. -/
def items (c : Cell) : Query (List Cell) := do cellsFrom (← arrayOf c) c.index

end Query

namespace Interp

/-- The items of an array value from its position on, with relative words tied to its call. -/
def resolvedItems (c : Cell) : Interp (List Cell) := do
  (← Query.items c).mapM (derelativize · (Query.deriveSpecifier c none))

/-- A deep copy of a block whose words refer to a context where it has their names. -/
def copyBoundTo (context : SeriesId) (block : Cell) : Interp SeriesId := do
  let copy ← copyArrayDeep (← Query.arrayOf block) block.index (Query.deriveSpecifier block none)
  bindDeep copy context false
  pure copy

end Interp

namespace Engine

/-- The block of the values of a block's expressions; `none` for a throw. -/
def reduceBlock (e : Engine) (block : Cell) : Interp (Option Cell) := do
  e.reduce (← Query.arrayOf block) block.index (Query.deriveSpecifier block none)

/-- Evaluates a block with some cells kept alive meanwhile; `none` for a throw. -/
def doGuarded (e : Engine) (kept : List Cell) (block : Cell) : Interp (Option Cell) := do
  Interp.guarding do
    kept.forM Interp.guard
    Interp.guard block
    e.doBlock block

end Engine

end Homoicon
