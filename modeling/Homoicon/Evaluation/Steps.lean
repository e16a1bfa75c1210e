import Homoicon.Evaluation.Arguments
import Homoicon.Trap

/-!
# The steps of the evaluator

One expression begins with `start`, goes on with the evaluation of a cell and possibly the call of
an action, and ends where no operator follows.  A frame that evaluates to the end of its feed then
starts the next expression.
-/

namespace Homoicon

/-- Runs what an action is made of. -/
abbrev Dispatch := Engine → Dispatcher → FrameId → Interp Bounce

/-- An operator that follows a value. -/
structure Operator where
  action : Action
  binding : Binding
  label : Option SymbolId

namespace Query

/-- The action that the first part of a path refers to. -/
def pathHeadAction? (path : Cell) (specifier : Specifier) : Query (Option Action) := do
  match path.seriesId? with
  | none => pure none
  | some id =>
    match (← cells id)[path.index]? with
    | none => pure none
    | some head =>
      if !head.is .word then pure none
      else pure ((← tryGetVar? head (deriveSpecifier path specifier)).bind Cell.asAction?)

/-- Whether an action would take a cell as its first argument, as far as its types tell. -/
def firstParamTakes (action : Action) (c : Cell) : Query (Option Bool) := do
  pure ((← firstUnspecializedParam? action).map (typeMatches · c))

end Query

namespace Engine

/-- Begins an expression: pending signals are handled if it is time. -/
def startExpression (f : FrameId) : Interp Unit := do
  Interp.countDown
  if (← get).countdown ≤ 0 then Interp.doSignals
  let id := (← Query.frame f).feed
  let feed ← Query.feed id
  Interp.modifyFeed id fun feed => { feed with noLookahead := false }
  Interp.modifyFrame f fun fr =>
    { fr with exprIndex := feed.position?.map (·.2), out := { fr.out with stale := true },
              noLookahead := feed.noLookahead }

/-- Begins the call of an action. -/
def runAction (f : FrameId) (action : Action) (binding : Binding) (label : Option SymbolId)
    (lookback : Bool) : Interp Step := do
  Interp.pushAction f action binding
  Interp.beginAction f label lookback
  pure .processAction

/-- Whether the action that the current cell stands for takes the next cell for itself, before an
operator there can take the current one. -/
def prefixTakesNext (current next : Cell) (gotten : Option Cell) (specifier : Specifier) :
    Query Bool := do
  let head ← if current.is .path then Query.pathHeadAction? current specifier else pure none
  let called := (gotten.filter (!·.enfixed)).bind Cell.asAction?
  let prefixAction :=
    match called with
    | some a => some a
    | none => if current.is .action then current.asAction? else head
  match prefixAction with
  | none => pure false
  | some p =>
    if !(← Query.actionHas p Flags.quotesFirst) then pure false
    else if ← Query.actionHas p Flags.skippableFirst then
      pure ((← Query.firstParamTakes p next).getD true)
    else pure true

/-- The operator behind the current cell that takes it as it stands, if there is one. -/
def quotingOperator? (f : FrameId) (feed : FeedId) (specifier : Specifier) :
    Query (Option (Cell × Action)) := do
  let next := (← Query.feed feed).value
  if (← Query.frame f).noLookahead || !next.is .word then pure none
  else
    match ← Query.tryGetVar? next specifier with
    | none => pure none
    | some op =>
      match op.asAction? with
      | none => pure none
      | some action =>
        if op.enfixed && (← Query.actionHas action Flags.quotesFirst) then
          pure (some (op, action))
        else pure none

/-- Fetches the current cell.  An operator behind it that quotes its left side takes the cell as it
stands, unless the cell is itself something that takes the operator's name. -/
def lookahead (f : FrameId) : Interp Step := do
  let id := (← Query.frame f).feed
  let feed ← Query.feed id
  if feed.isEnd then return .finished
  let specifier := feed.specifier
  let current ← Interp.fetchKeepLookback id
  match ← quotingOperator? f id specifier with
  | none => return .reevaluate current none
  | some (op, action) =>
    let next := (← Query.feed id).value
    let gotten : Option Cell ←
      if current.is .word then Query.ask (Query.tryGetVar? current specifier) else pure none
    if ← prefixTakesNext current next gotten specifier then
      return .reevaluate current gotten
    if ← Query.actionHas action Flags.skippableFirst then
      if !((← Query.firstParamTakes action current).getD false) then
        return .reevaluate current gotten
    if current.is .word || current.is .path then
      if (← Query.feedPeek id).isEnd then return .reevaluate current gotten
    let left ← Interp.derelativize current specifier
    Interp.writeOut f { left with unevaluated := true }
    let _ ← Interp.fetchNext id
    runAction f action op.binding next.wordSymbol? true

/-- Writes the value of an expression. -/
def writeValue (f : FrameId) (value : Cell) : Interp Step := do
  Interp.writeOut f { value with stale := false }
  pure .postSwitch

/-- Evaluates the right side of an assignment; `none` for a throw. -/
def evalRight (e : Engine) (f : FrameId) (target : String) : Interp (Option Cell) := do
  let feed ← Query.feed (← Query.frame f).feed
  if feed.isEnd then fail (.needNonEnd target)
  match ← e.evalSubframe f false with
  | none => pure none
  | some value =>
    if value.isEnd then fail (.needNonEnd target)
    if value.isVoid && !feed.value.isQuoted then fail (.needNonVoid target)
    pure (some value)

/-- The operator that the current cell of a feed names. -/
def operatorAt? (id : FeedId) : Interp (Option Operator) := do
  let feed ← Query.feed id
  let next := feed.value
  if ← Query.isDividePath next then
    let label ← Interp.intern "/"
    return some ⟨(← get).specials.divide, .unbound, some label⟩
  if !next.is .word then return none
  match ← Query.tryGetVar? next feed.specifier with
  | none => return none
  | some value =>
    match value.asAction? with
    | none => return none
    | some action =>
      return if value.enfixed then some ⟨action, value.binding, next.wordSymbol?⟩ else none

/-- After something that left the output as it was.  A value from before is there for an operator
that follows; else the next cell belongs to the same expression. -/
def afterInvisible (f : FrameId) : Interp Step := do
  let frame ← Query.frame f
  if (← Query.feed frame.feed).isEnd then return .finished
  if !frame.out.isEnd then
    if (← operatorAt? frame.feed).isSome then
      Interp.writeOut f { frame.out with stale := false }
      return .postSwitch
  return .lookahead

/-- Evaluates a plain word. -/
def evalWord (f : FrameId) (current : Cell) (gotten : Option Cell) (specifier : Specifier) :
    Interp Step := do
  let value ← match gotten with
    | some g => pure g
    | none => Query.ask (Query.getVar current specifier)
  match value.asAction? with
  | some action => runAction f action value.binding current.wordSymbol? value.enfixed
  | none =>
    if value.isNull then fail (.noValue (← Query.wordSpelling current))
    if value.isVoid then fail (.needNonVoid (← Query.wordSpelling current))
    writeValue f { value with unevaluated := false, enfixed := false }

/-- Evaluates a group. -/
def evalGroup (e : Engine) (f : FrameId) (current : Cell) (specifier : Specifier) :
    Interp Step := do
  match ← e.evalArray? (← Query.arrayOf current) current.index
      (Query.deriveSpecifier current specifier) with
  | .thrown => pure .thrown
  | .value out => writeValue f { out with unevaluated := false }
  | .nothing =>
    let frame ← Query.frame f
    Interp.writeOut f { frame.out with stale := true }
    if frame.fulfillingArg then
      Interp.modifyFeed frame.feed fun feed => { feed with barrierHit := true }
      pure .finished
    else afterInvisible f

/-- Evaluates a get-group: gets what its value names, or calls an action without parameters. -/
def evalGetGroup (e : Engine) (f : FrameId) (current : Cell) (specifier : Specifier) :
    Interp Step := do
  match ← e.evalArray (← Query.arrayOf current) current.index
      (Query.deriveSpecifier current specifier) with
  | none => pure .thrown
  | some spare =>
    Interp.modifyFrame f fun fr => { fr with spare }
    if spare.quote == 0 &&
        (spare.kind.isAnyWord || spare.kind.isAnyPath || spare.kind.isAnyBlock) then
      return .reevaluate { spare with kind := spare.kind.withMark .get } none
    match spare.asAction? with
    | some action =>
      if (← Query.firstUnspecializedParam? action).isNone then
        return ← runAction f action spare.binding none false
      fail (.invalidType spare.typeKind.name)
    | none => fail (.invalidType spare.typeKind.name)

/-- Evaluates a set-group: assigns to what its value names, or calls an action. -/
def evalSetGroup (e : Engine) (f : FrameId) (current : Cell) (specifier : Specifier) :
    Interp Step := do
  match ← e.evalRight f "set-group!" with
  | none => pure .thrown
  | some value =>
    Interp.writeOut f value
    match ← e.evalArray (← Query.arrayOf current) current.index
        (Query.deriveSpecifier current specifier) with
    | none => pure .thrown
    | some spare =>
      Interp.modifyFrame f fun fr => { fr with spare }
      match spare.asAction? with
      | some action => runAction f action spare.binding none true
      | none =>
        if 0 < spare.quote then fail (.invalidType spare.typeKind.name)
        if spare.kind.isAnyWord then
          Interp.setVar spare none value
          writeValue f value
        else if spare.kind.isAnyPath then
          if ← Path.set e spare none value false then pure .thrown else writeValue f value
        else if spare.kind.isAnyBlock then
          setBlock spare none value
          writeValue f value
        else fail (.invalidType spare.typeKind.name)

/-- Evaluates a path. -/
def evalPath (e : Engine) (f : FrameId) (current : Cell) (specifier : Specifier) :
    Interp Step := do
  if ← Query.isDividePath current then
    let label ← Interp.intern "/"
    return ← runAction f (← get).specials.divide .unbound (some label) false
  if ← Query.isInertPath current then
    let value ← Interp.derelativize current specifier
    return ← writeValue f { value with unevaluated := true }
  match ← Path.eval e current specifier false with
  | .thrown => pure .thrown
  | .action action binding label => runAction f action binding label false
  | .value value =>
    if value.isNull then fail (.noValue (← Query.mold current))
    if value.isVoid then fail (.needNonVoid (← Query.mold current))
    writeValue f value

/-- Writes the value of an expression, or passes a throw on. -/
def writeOrThrow (f : FrameId) : Option Cell → Interp Step
  | none => pure .thrown
  | some value => writeValue f value

/-- Evaluates a bar, which ends an expression. -/
def evalBar (f : FrameId) : Interp Step := do
  let frame ← Query.frame f
  if frame.fulfillingArg then
    Interp.modifyFeed frame.feed fun feed => { feed with barrierHit := true }
    pure .finished
  else if frame.toEnd && !(← Query.feed frame.feed).isEnd then pure .start
  else pure .finished

/-- Evaluates a cell. -/
def evalCell (e : Engine) (f : FrameId) (current : Cell) (gotten : Option Cell) :
    Interp Step := do
  let specifier := (← Query.feed (← Query.frame f).feed).specifier
  if current.isQuoted then
    let value ← Query.unquotify (← Interp.derelativize current specifier) 1
    return ← writeValue f { value with unevaluated := true }
  match current.kind with
  | .«end» => defect
  | .null => fail .evaluateNull
  | .void => fail .voidEvaluation
  | .bar => evalBar f
  | .word => evalWord f current gotten specifier
  | .setWord =>
    match ← e.evalRight f (← Query.wordSpelling current) with
    | none => pure .thrown
    | some value =>
      Interp.setVar current specifier value
      writeValue f value
  | .getWord =>
    let value ← Query.getVar current specifier
    writeValue f { value with unevaluated := false }
  | .group => evalGroup e f current specifier
  | .getGroup => evalGetGroup e f current specifier
  | .setGroup => evalSetGroup e f current specifier
  | .path => evalPath e f current specifier
  | .setPath =>
    match ← e.evalRight f (← Query.mold current) with
    | none => pure .thrown
    | some value =>
      Interp.writeOut f value
      if ← Path.set e current specifier value false then pure .thrown else writeValue f value
  | .getPath => writeOrThrow f (← Path.get e current specifier false)
  | .getBlock =>
    writeOrThrow f (← e.reduce (← Query.arrayOf current) current.index
      (Query.deriveSpecifier current specifier))
  | .setBlock =>
    match ← e.evalRight f "set-block!" with
    | none => pure .thrown
    | some value =>
      Interp.writeOut f value
      setBlock (← Interp.derelativize current specifier) specifier value
      writeValue f value
  | .action =>
    match current.asAction? with
    | some action => runAction f action current.binding none false
    | none => defect
  | kind =>
    if kind.isInert then
      let value ← Interp.derelativize current specifier
      writeValue f { value with unevaluated := true }
    else fail (.invalidType kind.name)

/-- Abandons the running call because of a throw. -/
def passThrow (f : FrameId) : Interp Step := do
  Interp.abortAction f
  return .thrown

/-- Gathers the arguments of the running call. -/
def processAction (e : Engine) (f : FrameId) : Interp Step := do
  if ← e.fulfill f then return ← passThrow f
  if (← Query.frame f).fulfillOnly then
    Interp.writeOut f Cell.null
    Interp.dropAction f
    return .postSwitch
  return .dispatch

/-- Puts on the result the quoting taken off the arguments. -/
def requote (f : FrameId) : Interp Unit := do
  let frame ← Query.frame f
  match frame.called with
  | none => pure ()
  | some called =>
    if 0 < frame.requotes && (← Query.actionHas called Flags.returnRequotes) &&
        !frame.out.isNull then
      Interp.writeOut f (← Interp.quotify frame.out frame.requotes)

/-- Does what a call has left on the data stack: quotes the result, or hands it to the next action
of a chain. -/
def finishStack (f : FrameId) : Nat → Interp Step
  | 0 => throw .exhausted
  | rounds + 1 => do
    let frame ← Query.frame f
    if (← Interp.stackHeight) ≤ frame.stackBase then
      Interp.dropAction f
      return .postSwitch
    match ← Interp.popStack? with
    | none => return .postSwitch
    | some next =>
      match next.asInteger?, next.asAction? with
      | some depth, _ =>
        Interp.writeOut f (← Interp.quotify frame.out (Bits.unsigned32 depth))
        finishStack f rounds
      | none, some action =>
        Interp.dropAction f
        runAction f action next.binding frame.label true
      | none, none => finishStack f rounds

/-- Ends a call that has its result. -/
def finishAction (f : FrameId) : Interp Step := do
  requote f
  finishStack f ((← Interp.stackHeight) + 1)

/-- What a throw in progress is to a call. -/
inductive Aim where
  /-- It ends the call. -/
  | unwind
  /-- It runs the call again. -/
  | redo
  /-- It is meant for something else. -/
  | elsewhere

/-- What the throw in progress is to the running call of a frame. -/
def throwAim (f : FrameId) : Query Aim := do
  let varlist ← Query.frameVarlist f
  let m ← read
  match m.thrown with
  | none => pure .elsewhere
  | some ⟨label, _⟩ =>
    if label.binding ≠ .specific varlist then pure .elsewhere
    else if label.asAction? = some m.specials.unwind then pure .unwind
    else if label.asAction? = some m.specials.redo then pure .redo
    else pure .elsewhere

/-- Ends the running call with the value thrown. -/
def unwindCall (f : FrameId) : Interp Step := do
  let thrown ← Interp.takeThrown
  Interp.truncateStack (← Query.frame f).stackBase
  Interp.writeOut f { thrown.value with unevaluated := false }
  finishAction f

/-- Runs the running call again, as the action thrown if there is one. -/
def redoCall (f : FrameId) : Interp Step := do
  let thrown ← Interp.takeThrown
  let frame ← Query.frame f
  let phase := thrown.value.asAction? <|> frame.called
  Interp.truncateStack frame.stackBase
  let exemplar : Option SeriesId ← match phase with
    | some p => Query.ask (Query.exemplar? p)
    | none => pure none
  let prefill := match exemplar with
    | some ex => Prefill.exemplar ex
    | none => Prefill.args
  Interp.modifyFrame f fun fr => { fr with phase, typecheckOnly := true, prefill }
  return .processAction

/-- A throw came out of the running action.  One that is aimed at this very call ends it or runs it
again; any other goes on. -/
def dispatchThrown (f : FrameId) : Interp Step := do
  match ← throwAim f with
  | .unwind => unwindCall f
  | .redo => redoCall f
  | .elsewhere => passThrow f

/-- Runs the action of the running call. -/
def dispatchAction (dispatch : Dispatch) (e : Engine) (f : FrameId) : Interp Step := do
  let phase ← expect (← Query.frame f).phase
  if !(← Query.actionHas phase Flags.invisible) then Interp.writeOut f Cell.staleEnd
  match ← dispatch e (← Query.dispatcher phase) f with
  | .out =>
    Interp.modifyFrame f fun fr =>
      { fr with out :=
        if fr.out.isEnd then Cell.null else { fr.out with unevaluated := false, stale := false } }
    finishAction f
  | .null =>
    Interp.writeOut f Cell.null
    finishAction f
  | .thrown => dispatchThrown f
  | .redo false => pure .dispatch
  | .redo true =>
    Interp.modifyFrame f fun fr => { fr with typecheckOnly := true, prefill := .args }
    pure .processAction
  | .invisible =>
    let stale := (← Query.out f).stale
    Interp.dropAction f
    if stale then afterInvisible f else pure .postSwitch

/-- What a frame does after an expression that nothing takes further. -/
def afterExpression (frame : Frame) : Step := if frame.toEnd then .start else .finished

/-- Sees whether an operator follows, and whether it may take the value now. -/
def postSwitch (f : FrameId) : Interp Step := do
  let frame ← Query.frame f
  let id := frame.feed
  let feed ← Query.feed id
  if feed.isEnd then return .finished
  match ← operatorAt? id with
  | none => return afterExpression frame
  | some op =>
    let flags := (← Query.series op.action.paramlist).flags
    let has (flag : Flags) : Bool := flags &&& flag != 0
    if frame.noLookahead && !has Flags.invisible then return .finished
    if has Flags.quotesFirst then
      if has Flags.endableFirst then return afterExpression frame
      let name ← match op.label with
        | some symbol => Query.ask (Query.spelling symbol)
        | none => pure ""
      fail (.literalLeft name)
    if frame.fulfillingArg && has Flags.postpones then
      Interp.modifyFeed id fun feed => { feed with deferringEnfix := true }
      return .finished
    if feed.deferringEnfix then
      Interp.modifyFeed id fun feed => { feed with deferringEnfix := false }
    else if frame.fulfillingArg && has Flags.defersLookback then
      Interp.modifyFeed id fun feed => { feed with deferringEnfix := true }
      return .finished
    let _ ← Interp.fetchNext id
    runAction f op.action op.binding op.label true

/-- Takes one step. -/
def step (dispatch : Dispatch) (e : Engine) (f : FrameId) : Step → Interp Step
  | .start => do
    startExpression f
    pure .lookahead
  | .lookahead => lookahead f
  | .reevaluate current gotten => evalCell e f current gotten
  | .processAction => processAction e f
  | .dispatch => dispatchAction dispatch e f
  | .postSwitch => postSwitch f
  | .finished => pure .finished
  | .thrown => pure .thrown

/-- Ends a frame that has its value. -/
def finish (f : FrameId) : Interp Unit :=
  Interp.modifyFrame f fun fr =>
    { fr with out := { fr.out with
        unevaluated := fr.fulfillingArg && fr.out.unevaluated, stale := false } }

/-- Takes steps until a frame is done; `true` for a throw.  The number of steps bounds the whole
evaluation, nested ones included. -/
def runSteps (dispatch : Dispatch) : Nat → FrameId → Step → Interp Bool
  | 0, _, _ => throw .exhausted
  | fuel + 1, f, current => do
    match ← step dispatch ⟨runSteps dispatch fuel, fuel⟩ f current with
    | .finished =>
      finish f
      pure false
    | .thrown => pure true
    | next => runSteps dispatch fuel f next

end Engine

end Homoicon
