import Homoicon.Library.Native
import Homoicon.Loader

/-!
# Evaluating code

DO, EVAL and EVALUATE run code; REDUCE and COMPOSE build arrays from it; COMMENT and ELIDE leave
no value.
-/

namespace Homoicon.Library

/-- COMMENT and ELIDE: nothing. -/
def vanish (_ : Engine) (_ : FrameId) : Interp Bounce := pure .invisible

/-- DO: evaluates a block, a source text, a frame or an action. -/
def do_ (e : Engine) (f : FrameId) : Interp Bounce := do
  let source ← Query.arg f 1
  if source.isNull then return .null
  if source.quote != 0 then return ← Interp.refuseArg f 1
  match source.kind with
  | .block | .group => Interp.giveOrThrow f (← e.doBlock source)
  | .text =>
    let block ← Interp.load (← Query.cellText source)
    Interp.giveOrThrow f (← e.evalArray block 0 none)
  | .frame => Interp.giveOrThrow f (← e.doFrame source)
  | _ =>
    match source.asAction? with
    | some action => Interp.giveOrThrow f (← e.apply action source.binding [])
    | none => Interp.refuseArg f 1

/-- EVAL: evaluates a value as if it stood in place of the call; an action takes its arguments from
there. -/
def eval (e : Engine) (f : FrameId) : Interp Bounce := do
  let value ← Query.arg f 1
  let feed := (← Query.frame f).feed
  let (threw, frame) ← Interp.withFrame { feed } fun sub => e.run sub (.reevaluate value none)
  if threw then pure .thrown
  else if frame.out.isEnd then pure .null
  else Interp.give f frame.out

/-- EVALUATE: evaluates one expression and gives the position behind it. -/
def evaluate (e : Engine) (f : FrameId) : Interp Bounce := do
  let source ← Query.arg f 1
  let array ← Query.arrayOf source
  if (← Query.size array) ≤ source.index then return .null
  match ← e.evalStepAt array source.index (Query.deriveSpecifier source none) with
  | none => pure .thrown
  | some (value, next) =>
    if ← Query.refine f 2 then
      Interp.setVar (← Query.arg f 3) none (if value.isEnd then Cell.null else value)
    Interp.give f (source.atIndex next)

/-- REDUCE: the block of the values of a block's expressions; any other value as it is. -/
def reduce (e : Engine) (f : FrameId) : Interp Bounce := do
  let value ← Query.arg f 1
  if value.is .block || value.is .group then Interp.giveOrThrow f (← e.reduceBlock value)
  else Interp.give f value

/-- The items that stand in a composed array for the value of a group. -/
def composedItems (only newline : Bool) (result : Cell) : Interp (List Cell) := do
  if result.isNull then pure []
  else if result.is .block && !only then Interp.resolvedItems result
  else pure [{ result.copied with unevaluated := false, newline }]

/-- The items that stand in a composed array for one item; `none` for a throw. -/
def composeItem (e : Engine) (only : Bool) (nested : Cell → Interp (Option Cell)) (deep : Bool)
    (cell : Cell) : Interp (Option (List Cell)) := do
  if cell.is .group then
    match ← e.doBlock cell with
    | none => pure none
    | some result => some <$> composedItems only cell.newline result
  else if deep && cell.quote == 0 && cell.kind.isAnyArray then
    let inner ← nested cell
    pure (inner.map fun c => [{ c with newline := c.newline || cell.newline }])
  else pure (some [cell])

/-- Composes the items of an array one after the other; `none` for a throw. -/
def composeItems (e : Engine) (only : Bool) (nested : Cell → Interp (Option Cell))
    (deep : Bool) : List Cell → Interp (Option (List Cell))
  | [] => pure (some [])
  | cell :: rest => do
    match ← composeItem e only nested deep cell with
    | none => pure none
    | some items =>
      match ← composeItems e only nested deep rest with
      | none => pure none
      | some more => pure (some (items ++ more))

/-- A new array of the same kind with the groups replaced by their values; `none` for a throw. -/
def composeIn (e : Engine) (deep only : Bool) : Nat → Cell → Interp (Option Cell)
  | 0, _ => throw .exhausted
  | depth + 1, value => do
    let cells ← Interp.resolvedItems value
    match ← composeItems e only (composeIn e deep only depth) deep cells with
    | none => pure none
    | some items => some <$> Interp.arrayCell value.kind items

/-- COMPOSE: replaces the groups of an array by their values. -/
def compose (e : Engine) (f : FrameId) : Interp Bounce := do
  let value ← Query.arg f 1
  let deep ← Query.refine f 2
  let only ← Query.refine f 3
  Interp.giveOrThrow f (← composeIn e deep only e.rounds value)

/-- Actions that evaluate code. -/
def evaluators : List Native :=
  [{ name := "comment",
      spec := "return: [] :discarded [block! any-string! binary! any-scalar!]", run := vanish },
    { name := "elide", spec := "return: [] discarded [<opt> any-value! void!]", run := vanish },
    { name := "do", spec := "source [<blank> <opt> block! group! text! frame! action!]",
      run := do_ },
    { name := "eval", spec := "value [<opt> any-value!]", run := eval },
    { name := "evaluate", spec := "source [<blank> block! group!] /set var [any-word!]",
      run := evaluate },
    { name := "reduce", spec := "value [<opt> any-value!]", run := reduce },
    { name := "compose", spec := "value [any-array!] /deep /only", run := compose }]

end Homoicon.Library
