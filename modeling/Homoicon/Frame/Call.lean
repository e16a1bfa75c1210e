import Homoicon.Feed.Input
import Homoicon.Param

/-!
# Calls

Frames are pushed for each level of evaluation, and an action is made the running call of one.
The arguments of a call live in a series of their own; when the call ends it is freed, unless
something still refers to it: then it stays behind as inaccessible.
-/

namespace Homoicon

namespace Query

/-- The arguments of the running call. -/
def frameVarlist (f : FrameId) : Query SeriesId := do expect (← frame f).varlist

/-- An argument of the running call; the first is 1. -/
def arg (f : FrameId) (n : Nat) : Query Cell := do cell (← frameVarlist f) n

/-- Whether a refinement was used. -/
def refine (f : FrameId) (n : Nat) : Query Bool := do pure (← arg f n).isTruthy

/-- The output of a frame. -/
def out (f : FrameId) : Query Cell := do pure (← frame f).out

/-- The name by which the running action was called. -/
def frameLabel (f : FrameId) : Query String := do
  match (← frame f).label with
  | some symbol => spelling symbol
  | none => pure "anonymous"

/-- The frame that runs the call with these arguments, if it still does. -/
def frameOfVarlist? (varlist : SeriesId) : Query (Option FrameId) := do
  if !(← isLive varlist) then pure none
  else if ← hasFlag varlist Flags.inaccessible then pure none
  else
    match (← series varlist).role with
    | .frame f =>
      match (← read).frames[f]? with
      | some fr => pure (if fr.varlist == some varlist then some f else none)
      | none => pure none
    | _ => pure none

/-- Fails if the native stack is used up inside so many rules of PARSE. -/
def checkStack (rules : Nat) : Query Unit := fun m =>
  if m.config.overruns m.frames.size rules then .error (.error Cause.stackOverflow.error)
  else .ok ()

end Query

namespace Interp

/-- Pushes a frame that takes its cells from a feed.  There is no room for it on the greatest number
of frames, nor when the native stack is used up. -/
def pushFrame (frame : Frame) : Interp FrameId := fun m =>
  if m.config.isFull m.frames.size then .error (.error Cause.stackOverflow.error) m
  else .ok m.frames.size { m with frames := m.frames.push { frame with stackBase := m.stack.size } }

/-- Pops a frame; the data stack goes back to where it was. -/
def dropFrame (f : FrameId) : Interp Frame := do
  let frame ← Query.frame f
  modify fun m => { m with frames := m.frames.pop, stack := m.stack.shrink frame.stackBase }
  pure frame

/-- Runs a computation over a new frame, and drops the frame behind it. -/
def withFrame {α : Type} (frame : Frame) (body : FrameId → Interp α) : Interp (α × Frame) := do
  let f ← pushFrame frame
  let a ← body f
  let frame ← dropFrame f
  pure (a, frame)

/-- Makes an action the running call of a frame, with all arguments still null. -/
def pushAction (f : FrameId) (action : Action) (binding : Binding) : Interp Unit := do
  let paramlist ← Query.underlyingParamlist action
  let count ← Query.size paramlist
  let slots := (Array.replicate count Cell.null).setIfInBounds 0 Cell.end_
  let varlist ← allocManual { (Series.ofCells slots).withFlags Flags.varlist with
    link := .keylist paramlist, role := .frame f }
  storeCell varlist 0 (Cell.frame varlist action binding)
  let prefill := match ← Query.exemplar? action with
    | some ex => Prefill.exemplar ex
    | none => Prefill.params
  modifyFrame f fun fr =>
    { fr with called := some action, phase := some action, binding, varlist := some varlist,
              param := 1, prefill, requotes := 0 }

/-- Names the running call; `lookback` for an operator that takes its first argument from the
output. -/
def beginAction (f : FrameId) (label : Option SymbolId) (lookback : Bool) : Interp Unit :=
  modifyFrame f fun fr =>
    { fr with label, runningEnfix := lookback, nextArgFromOut := lookback }

/-- Frees a series that was made by hand. -/
def freeManual (id : SeriesId) : Interp Unit := do
  modify fun m => { m with manuals := eraseLast m.manuals id }
  dealloc id

/-- Ends the arguments of a call. -/
def releaseVarlist (varlist : SeriesId) : Interp Unit := do
  if ← Query.isLive varlist then
    if ← Query.hasFlag varlist Flags.managed then
      modifySeries varlist fun s => { s.withFlags Flags.inaccessible with role := .none }
      modifyCells varlist (·.shrink 1)
    else freeManual varlist

/-- Lets go of the values that the host took hold of since a frame was pushed. -/
def releaseHandles (f : FrameId) : Interp Unit :=
  modify fun m =>
    let kept := m.handles.map fun handle => handle.filter fun h => h.owner.all (· < f)
    { m with handles := kept.popWhile Option.isNone }

/-- Ends the running call of a frame. -/
def dropAction (f : FrameId) : Interp Unit := do
  let frame ← Query.frame f
  if !frame.fulfillingArg then modifyFeed frame.feed fun feed => { feed with barrierHit := false }
  releaseHandles f
  match frame.varlist with
  | some varlist => releaseVarlist varlist
  | none => pure ()
  modifyFrame f fun fr =>
    { fr with runningEnfix := false, nextArgFromOut := false, fulfillOnly := false,
              doingPickups := false, typecheckOnly := false, called := none, phase := none,
              varlist := none, binding := .unbound, prefill := .params }

/-- Ends the running call after a throw, with what it left on the data stack. -/
def abortAction (f : FrameId) : Interp Unit := do
  truncateStack (← Query.frame f).stackBase
  dropAction f

/-- The running call as a value, which keeps its arguments. -/
def frameValue (f : FrameId) : Interp Cell := do
  let varlist ← Query.frameVarlist f
  ensureManaged varlist
  let frame ← Query.frame f
  match frame.phase <|> frame.called with
  | some phase => pure (Cell.frame varlist phase frame.binding)
  | none => pure (Cell.context .frame varlist)

end Interp

end Homoicon
