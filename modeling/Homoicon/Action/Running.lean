import Homoicon.Evaluation.Engine

/-!
# Running actions that are not built in

A function evaluates its body over the arguments of the call.  A specialization and a chain put
another action in their place and have the frame run again; a chain also leaves the next action on
the data stack, which gets the result.
-/

namespace Homoicon

/-- Fails if the result of a call does not fit the types that its action declares for it. -/
def Query.checkReturn (f : FrameId) (value : Cell) : Query Unit := do
  match (← frame f).called with
  | none => pure ()
  | some action =>
    let paramlist ← underlyingParamlist action
    let params ← (← slotsOf paramlist).mapM (param paramlist)
    match params.find? (·.paramClass = .return) with
    | none => pure ()
    | some p =>
      if p.kinds.bits != 0 && p.kinds != KindSet.anyValue && !typeMatches p value then
        fail (.badReturnType value.typeName (← frameLabel f))

/-- Evaluates the body of a function. -/
def Engine.runFunction (e : Engine) (f : FrameId) : Interp Bounce := do
  match (← Query.frame f).phase with
  | none => fail (.noPhase "function body")
  | some phase =>
    let body ← Query.cell phase.details 0
    let varlist ← Query.frameVarlist f
    match ← e.evalArray (← Query.arrayOf body) body.index (some varlist) with
    | none => pure .thrown
    | some result =>
      if ← Query.actionHas phase Flags.invisible then return .invisible
      Query.checkReturn f result
      Interp.setOut f result
      pure .out

namespace Interp

/-- Puts another action in the place of the running one. -/
def becomeAction (f : FrameId) (c : Cell) : Interp Bounce := do
  modifyFrame f fun fr => { fr with phase := c.asAction?, binding := c.binding }
  pure (.redo false)

/-- Runs the first action of a chain. -/
def runChain (f : FrameId) : Interp Bounce := do
  match (← Query.frame f).phase with
  | none => fail (.noPhase "chain")
  | some phase =>
    match (← Query.details phase).toList with
    | [] => fail .badChain
    | [first] => becomeAction f first
    | first :: next :: _ =>
      pushStack next
      becomeAction f first

/-- Runs the action that a specialization is made from. -/
def runSpecialization (f : FrameId) : Interp Bounce := do
  match (← Query.frame f).phase with
  | none => fail (.noPhase "specialization")
  | some phase =>
    let inner ← Query.cell phase.details 0
    if inner.asAction?.isSome then becomeAction f inner else fail .badSpecialization

/-- Tells whether the argument has the kind that the details name. -/
def runTypeCheck (f : FrameId) : Interp Bounce := do
  match (← Query.frame f).phase with
  | none => fail .badChecker
  | some phase =>
    let named ← Query.cell phase.details 0
    match named.payload with
    | .datatype wanted =>
      let value ← Query.arg f 1
      setOut f (Cell.logic (!value.isNull && value.typeKind = wanted))
      pure .out
    | _ => fail .badChecker

end Interp

end Homoicon
