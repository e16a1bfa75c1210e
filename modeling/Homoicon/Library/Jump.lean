import Homoicon.Action.Running
import Homoicon.Comparison
import Homoicon.Library.Native

/-!
# Leaving calls early

CATCH and THROW by label, QUIT, UNWIND and REDO of a running call, and the RETURN of a function,
which is bound to the call that it returns from.
-/

namespace Homoicon.Library

/-- Whether CATCH takes a throw with a label. -/
def catches (named : Option Cell) (quit anyLabel : Bool) (label : Cell) : Query Bool := do
  if label.asAction? == some (← read).specials.quit then return quit
  if anyLabel then return true
  match named with
  | none => pure label.isBlank
  | some names =>
    if names.is .block then (← Query.items names).anyM fun c => Query.equal c label false
    else Query.equal names label false

/-- Takes a throw out of the block of CATCH, if it is meant for it. -/
def catchThrown (f : FrameId) (named quit anyLabel : Bool) : Interp Bounce := do
  match ← Interp.thrownLabel? with
  | none => pure .thrown
  | some label =>
    let names ← Query.arg f 3
    if !(← Query.ask (catches (if named then some names else none) quit anyLabel label)) then
      return .thrown
    let thrown ← Interp.takeThrown
    if named || anyLabel then
      let value := if thrown.value.isNull then [] else [thrown.value]
      Interp.give f (← Interp.arrayCell .block (thrown.label :: value))
    else Interp.give f thrown.value

/-- CATCH: evaluates a block and takes the throws meant for it. -/
def catch_ (e : Engine) (f : FrameId) : Interp Bounce := do
  let named ← Query.refine f 2
  let quit ← Query.refine f 4
  let anyLabel ← Query.refine f 5
  if named && anyLabel then fail .catchNameAny
  match ← e.doBlock (← Query.arg f 1) with
  | some _ => pure .null
  | none => catchThrown f named quit anyLabel

/-- THROW: hands a value to the nearest CATCH for its label. -/
def throw_ (_ : Engine) (f : FrameId) : Interp Bounce := do
  let label ← if ← Query.refine f 2 then Query.ask (Query.arg f 3) else pure Cell.blank
  Interp.beginThrow label (← Query.arg f 1)
  pure .thrown

/-- QUIT: ends the program with a value. -/
def quit (_ : Engine) (f : FrameId) : Interp Bounce := do
  let value ← if ← Query.refine f 1 then Query.ask (Query.arg f 2) else pure Cell.void
  Interp.throwTo (← get).specials.quit .unbound value

/-- HALT: stops as if asked to from outside. -/
def halt (_ : Engine) (_ : FrameId) : Interp Bounce := fail .halted

/-- The running calls below a frame, the innermost first, with their arguments. -/
def callsBelow (f : FrameId) : Query (List (Frame × SeriesId)) := do
  let frames := (← read).frames
  pure ((List.range f).reverse.filterMap fun i =>
    frames[i]?.bind fun fr => fr.varlist.map fun varlist => (fr, varlist))

/-- The call that a frame value, an action or a count of calls stands for. -/
def target (f : FrameId) (level : Cell) : Query SeriesId := do
  let found ←
    match level.payload with
    | .context varlist _ => do
      pure ((← Query.frameOfVarlist? varlist).map fun _ => varlist)
    | .action a => do
      let calls ← callsBelow f
      pure ((calls.find? fun (fr, _) => fr.called == some a || fr.phase == some a).map (·.2))
    | .integer n =>
      if 0 < n then do pure ((← callsBelow f)[n.toNat - 1]?.map (·.2)) else pure none
    | _ => pure none
  match found with
  | some varlist => pure varlist
  | none => fail (.invalidArg (← Query.mold level))

/-- UNWIND: ends a running call with a value. -/
def unwind (_ : Engine) (f : FrameId) : Interp Bounce := do
  let varlist ← target f (← Query.arg f 1)
  let value ← if ← Query.refine f 2 then Query.ask (Query.arg f 3) else pure Cell.void
  Interp.throwTo (← get).specials.unwind (.specific varlist) value

/-- Whether an action can go on in the place of the one that a call runs. -/
def sharesParams (sibling : Cell) (varlist : SeriesId) : Query Bool := do
  match ← Query.frameOfVarlist? varlist with
  | none => pure false
  | some t =>
    match sibling.asAction?, (← Query.frame t).called with
    | some s, some r => do
      pure ((← Query.underlyingParamlist s) == (← Query.underlyingParamlist r))
    | _, _ => pure false

/-- REDO: runs a call again with its arguments as they are, maybe as another action. -/
def redo (_ : Engine) (f : FrameId) : Interp Bounce := do
  let varlist ← target f (← Query.arg f 1)
  let specials := (← get).specials
  if ← Query.refine f 2 then
    let sibling ← Query.arg f 3
    if !(← Query.ask (sharesParams sibling varlist)) then fail .redoOther
    Interp.throwTo specials.redo (.specific varlist) sibling
  else Interp.throwTo specials.redo (.specific varlist) Cell.null

/-- RETURN: ends the call that it is bound to. -/
def return_ (_ : Engine) (f : FrameId) : Interp Bounce := do
  match (← Query.frame f).binding with
  | .specific varlist =>
    match ← Query.frameOfVarlist? varlist with
    | none => fail .seriesDataFreed
    | some t =>
      let value ← Query.arg f 1
      let value := if value.isNull && value.endish then Cell.void else value
      Query.checkReturn t value
      Interp.throwTo (← get).specials.unwind (.specific varlist) value
  | _ => fail .returnArchetype

/-- Actions that leave a call early. -/
def jumps : List Native :=
  [{ name := "catch",
      spec := "block [block!] /name names [block! word! action! object!] /quit /any",
      run := catch_ },
    { name := "throw", spec := "value [<opt> any-value!] /name label [word! action! object!]",
      run := throw_ },
    { name := "quit", spec := "/with value [<opt> any-value!]", run := quit },
    { name := "halt", spec := "", run := halt },
    { name := "unwind",
      spec := "level [frame! action! integer!] /with value [<opt> any-value! void!]",
      run := unwind },
    { name := "redo", spec := "restartee [frame! action!] /other sibling [action!]", run := redo },
    { name := "return", spec := "value [<end> <opt> any-value! void!]", run := return_ }]

end Homoicon.Library
