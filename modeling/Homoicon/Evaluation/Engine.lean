import Homoicon.Frame.Call
import Homoicon.Mold

/-!
# The engine

The evaluator works in steps over a frame.  Everything that evaluates code in passing — arguments,
groups, the bodies of functions and loops — does so by running steps of another frame.  Such code
is written over an `Engine`, which runs the steps of a frame, so that the evaluator can be one
function on the number of steps it may still take.
-/

namespace Homoicon

/-- What the evaluator does next with a frame. -/
inductive Step where
  /-- Begin an expression. -/
  | start
  /-- Fetch the next cell, and see whether an operator behind it takes it as it stands. -/
  | lookahead
  /-- Evaluate a cell, whose variable may have been looked up already. -/
  | reevaluate (current : Cell) (gotten : Option Cell)
  /-- Gather the arguments of the running call. -/
  | processAction
  /-- Run the action of the running call. -/
  | dispatch
  /-- See whether an operator follows the value. -/
  | postSwitch
  | finished
  | thrown
deriving Inhabited

/-- How an action hands back to the evaluator. -/
inductive Bounce where
  /-- The result is in the output of the frame. -/
  | out
  | null
  /-- A throw is in progress. -/
  | thrown
  /-- Run the frame again, with its arguments checked again if `checked`. -/
  | redo (checked : Bool)
  /-- The output is as it was. -/
  | invisible
deriving Repr, DecidableEq, Inhabited

/-- Runs frames on behalf of the code that evaluates in passing. -/
structure Engine where
  /-- Runs a frame from a step on; `true` if it ended by a throw. -/
  run : FrameId → Step → Interp Bool
  /-- How many rounds a loop may take. -/
  rounds : Nat

/-- What an evaluation came to: a throw, or a value, which may be missing. -/
inductive Evaluated where
  | thrown
  | nothing
  | value (c : Cell)
deriving Inhabited

namespace Engine

/-- Evaluates an array from a position to its end. -/
def evalArray? (e : Engine) (array : SeriesId) (index : Nat) (specifier : Specifier) :
    Interp Evaluated := do
  let input ← Query.arrayFeed array index specifier
  let (threw, frame) ← Interp.withFeed input fun feed =>
    Interp.withFrame { feed, toEnd := true } fun f => e.run f .start
  if threw then pure .thrown
  else if frame.out.isEnd then pure .nothing
  else pure (.value { frame.out with stale := false })

/-- Evaluates an array from a position to its end; `none` for a throw, null for no value. -/
def evalArray (e : Engine) (array : SeriesId) (index : Nat) (specifier : Specifier) :
    Interp (Option Cell) := do
  match ← e.evalArray? array index specifier with
  | .thrown => pure none
  | .nothing => pure (some Cell.null)
  | .value c => pure (some c)

/-- Evaluates a block or group value; `none` for a throw. -/
def doBlock (e : Engine) (block : Cell) : Interp (Option Cell) := do
  e.evalArray (← Query.arrayOf block) block.index (Query.deriveSpecifier block none)

/-- Evaluates one expression of a frame's feed in a frame of its own; the end marker if it came to
nothing, `none` for a throw. -/
def evalSubframe (e : Engine) (parent : FrameId) (fulfillingArg : Bool) : Interp (Option Cell) := do
  let feed := (← Query.frame parent).feed
  let (threw, frame) ← Interp.withFrame { feed, fulfillingArg } fun f => e.run f .start
  pure (if threw then none else some frame.out)

/-- Evaluates one expression of an array.  Returns its value and the position after it; `none` for
a throw. -/
def evalStepAt (e : Engine) (array : SeriesId) (index : Nat) (specifier : Specifier) :
    Interp (Option (Cell × Nat)) := do
  let input ← Query.arrayFeed array index specifier
  Interp.withFeed input fun feed => do
    let (threw, frame) ← Interp.withFrame { feed } fun f => e.run f .start
    if threw then return none
    let next := match (← Query.feed feed).source with
      | .array _ next => next - 1
      | .cells _ => index
    pure (some (frame.out, next))

/-- Evaluates the expressions left in a frame's feed and collects their values, which are guarded
meanwhile.  Null becomes blank, and expressions without a value vanish. -/
def reduceRest (e : Engine) (f : FrameId) (feed : FeedId) :
    Nat → List Cell → Interp (Option (List Cell))
  | 0, _ => throw .exhausted
  | rounds + 1, reversed => do
    let current := (← Query.feed feed).value
    if current.isEnd then return some reversed.reverse
    Interp.writeOut f Cell.staleEnd
    if ← e.run f .start then return none
    let value ← Query.out f
    if value.isEnd || value.stale then reduceRest e f feed rounds reversed
    else
      let item := if value.isNull then Cell.blank else value.copied
      let item := { item with unevaluated := false, newline := current.newline }
      Interp.guard item
      reduceRest e f feed rounds (item :: reversed)

/-- The block of the values of all expressions of an array; `none` for a throw. -/
def reduce (e : Engine) (array : SeriesId) (index : Nat) (specifier : Specifier) :
    Interp (Option Cell) := do
  let input ← Query.arrayFeed array index specifier
  let (items, _) ← Interp.guarding do
    Interp.withFeed input fun feed =>
      Interp.withFrame { feed } fun f => reduceRest e f feed e.rounds []
  match items with
  | some items => some <$> Interp.arrayCell .block items
  | none => pure none

/-- Calls an action, whose arguments `fill` puts into their slots; `none` for a throw. -/
def call (e : Engine) (action : Action) (binding : Binding) (fill : FrameId → Interp Unit) :
    Interp (Option Cell) := do
  let (threw, frame) ← Interp.withFeed (Feed.ofCells [] none) fun feed =>
    Interp.withFrame { feed } fun f => do
      Interp.pushAction f action binding
      Interp.beginAction f none false
      fill f
      Interp.modifyFrame f fun fr => { fr with typecheckOnly := true, prefill := .args }
      e.run f .processAction
  if threw then pure none
  else pure (some (if frame.out.isEnd then Cell.null else frame.out))

/-- Fills the slots of a call from values in order; refinements stay unused unless fixed. -/
def fillArgs (f : FrameId) (paramlist varlist : SeriesId) (exemplar : Option SeriesId) :
    List Nat → (refined : Bool) → List Cell → Interp Unit
  | [], _, _ => pure ()
  | i :: rest, refined, args => do
    if ← Query.isFixed exemplar i then
      match exemplar with
      | some ex => Interp.moveCell varlist i (← Query.cell ex i)
      | none => pure ()
      fillArgs f paramlist varlist exemplar rest refined args
    else
      let p ← Query.param paramlist i
      match p.paramClass with
      | .refinement =>
        Interp.moveCell varlist i Cell.blank
        fillArgs f paramlist varlist exemplar rest true args
      | .local | .return => fillArgs f paramlist varlist exemplar rest refined args
      | _ =>
        if refined then fillArgs f paramlist varlist exemplar rest refined args
        else
          match args with
          | arg :: args =>
            Interp.moveCell varlist i arg
            fillArgs f paramlist varlist exemplar rest refined args
          | [] =>
            if p.flags.endable then
              Interp.moveCell varlist i Cell.endishNull
              fillArgs f paramlist varlist exemplar rest refined []
            else fail (.noArg (← Query.frameLabel f) (← Query.paramName p))

/-- Calls an action with values for its parameters in order; `none` for a throw. -/
def apply (e : Engine) (action : Action) (binding : Binding) (args : List Cell) :
    Interp (Option Cell) := do
  e.call action binding fun f => do
    let paramlist ← Query.underlyingParamlist action
    let varlist ← Query.frameVarlist f
    fillArgs f paramlist varlist (← Query.exemplar? action) (← Query.slotsOf paramlist) false args

/-- Runs a call whose arguments are the variables of a frame value; `none` for a throw. -/
def doFrame (e : Engine) (value : Cell) : Interp (Option Cell) := do
  match value.payload with
  | .context source (some phase) =>
    Query.checkAccessible source
    e.call phase value.binding fun f => do
      let varlist ← Query.frameVarlist f
      let count := min (← Query.size varlist) (← Query.size source)
      (List.range' 1 (count - 1)).forM fun i => do
        Interp.moveCell varlist i (← Query.cell source i)
  | _ => fail (.invalidArg (← Query.mold value))

/-- Assigns a value to all words of a block, or the items of a block value one by one. -/
def setBlock (target : Cell) (specifier : Specifier) (value : Cell) : Interp Unit := do
  if value.isNull then fail (.needNonNull "set-block!")
  let inner := Query.deriveSpecifier target specifier
  let words ← Query.cellsFrom (← Query.arrayOf target) target.index
  let source : Option (List Cell) ←
    if value.is .block then do
      let cells ← Query.cellsFrom (← Query.arrayOf value) value.index
      some <$> cells.mapM (Interp.derelativize · (Query.deriveSpecifier value none))
    else pure none
  words.zipIdx.forM fun (word, i) => do
    if !word.kind.isAnyWord || word.quote != 0 then fail (.invalidArg (← Query.mold word))
    let item := match source with
      | some cells => cells[i]?.getD Cell.blank
      | none => value
    Interp.setVar word inner item

end Engine

end Homoicon
