import Homoicon.Evaluation.Engine

/-!
# Variadic arguments

A variadic argument stands for what is still to come in the input of a running call, or for the
items of a block.  Items are taken from its front one by one.
-/

namespace Homoicon

/-- Whether a feed offers no further item: it is at its end or at a bar. -/
def Feed.isExhausted (feed : Feed) : Bool := feed.isEnd || feed.value.isBar

namespace Varargs

/-- Whether nothing is left. -/
def atEnd : Varargs → Query Bool
  | .frame varlist _ => do
    match ← Query.frameOfVarlist? varlist with
    | some f => pure (← Query.feed (← Query.frame f).feed).isExhausted
    | none => pure true
  | .array holder _ _ => do
    let block ← Query.cell holder 0
    pure ((← Query.size (← Query.arrayOf block)) ≤ block.index)

/-- The next item of a call's input, taken as the parameter takes its argument.  `none` for a
throw, null when nothing is left. -/
def takeFromCall (e : Engine) (f : FrameId) (p : Typeset) : Interp (Option Cell) := do
  let id := (← Query.frame f).feed
  let feed ← Query.feed id
  if feed.isExhausted then return some Cell.null
  let value : Option Cell ←
    match p.paramClass with
    | .hardQuote | .softQuote => do
      let current ← Interp.fetchNext id
      some <$> Interp.derelativize current feed.specifier
    | _ => e.evalSubframe f false
  match value with
  | none => pure none
  | some value =>
    let value := if value.isEnd then Cell.null else value
    if !Query.typeMatches p value then
      fail (.expectArg (← Query.frameLabel f) (← Query.paramName p) value.typeName)
    pure (some value)

/-- Takes the next item.  `none` for a throw, null when nothing is left. -/
def take (e : Engine) : Varargs → Interp (Option Cell)
  | .frame varlist param => do
    match ← Query.frameOfVarlist? varlist with
    | none => fail .seriesDataFreed
    | some f => takeFromCall e f (← Query.key varlist param)
  | .array holder _ _ => do
    let block ← Query.cell holder 0
    let cells ← Query.cells (← Query.arrayOf block)
    match cells[block.index]? with
    | none => pure (some Cell.null)
    | some item =>
      Interp.storeCell holder 0 (block.atIndex (block.index + 1))
      some <$> Interp.derelativize item (Query.deriveSpecifier block none)

end Varargs

end Homoicon
