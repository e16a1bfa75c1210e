import Homoicon.Proofs.Stacks.Evaluation

/-!
# The steps of the evaluator keep the levels

Each step of a frame keeps a level up to the data stack, whatever way the step is left.  So do any
number of steps, once the actions that they dispatch to do.
-/

open Std.Do

set_option mvcgen.warning false

namespace Homoicon

/-- What is done after a computation in any case can be done during a throw. -/
theorem Interp.keeps_then {α : Type} {threw : α → Bool} {l : Levels} {x : Interp α}
    {finally_ : Interp Unit} (kept : Keeps threw l x) (calm : ∀ l, Calm l finally_) :
    Keeps threw l (do let a ← x; finally_; pure a) := by
  refine Triple.bind _ _ kept fun a => ?_
  have ended := calm (l.after (threw a))
  mvcgen [ended]
  all_goals simp_all

namespace Interp

variable (l : Levels)

@[spec]
theorem setArgChecked_calm (varlist : SeriesId) (i : Nat) (value : Cell) :
    Calm l (setArgChecked varlist i value) := storeCell_calm l varlist i _

@[spec]
theorem markChecked_calm (varlist : SeriesId) (i : Nat) : Calm l (markChecked varlist i) :=
  modifyCell_calm l varlist i _

@[spec]
theorem failNoArg_spec {α : Type} (f : FrameId) (param : Typeset)
    (done : α → Assertion (.arg Machine .pure)) :
    ⦃fun m => ⌜m.At l⌝⦄ (failNoArg f param : Interp α) ⦃post⟨done, fun _ m => ⌜m.Above l⌝⟩⦄ := by
  mvcgen [failNoArg]

@[spec]
theorem finalizeArg_calm (f : FrameId) (varlist : SeriesId) (i : Nat) (param : Typeset) :
    Calm l (finalizeArg f varlist i param) := by
  mvcgen [finalizeArg]
  all_goals simp

@[spec]
theorem takeRefinement?_calm (stackBase : Nat) (param : Typeset) (slot : Nat) :
    Calm l (takeRefinement? stackBase param slot) := by
  mvcgen [takeRefinement?]
  rename_i m here _ _ _ _ _ _ changed
  have same : changed.2.stack.size = m.stack.size := Array.size_modify
  exact ⟨here.bases, here.feeds, same ▸ here.stack, here.guards, here.quiet, here.accounted⟩

end Interp

namespace Engine

variable {e : Engine} (steady : e.Steady) (l : Levels)

@[spec]
theorem varargsOf_calm (cells : List Cell) (param : Nat) : Calm l (varargsOf cells param) := by
  mvcgen [varargsOf]

@[spec]
theorem fillSpecial_calm (call : Call) (g : Gathering) (param : Typeset)
    (specialized : Option Cell) : Calm l (fillSpecial call g param specialized) := by
  mvcgen [fillSpecial]

@[spec]
theorem nextPickup_calm (call : Call) : Calm l (nextPickup call) := by
  mvcgen [nextPickup]
  all_goals simp

@[spec]
theorem startExpression_calm (f : FrameId) : Calm l (startExpression f) := by
  mvcgen [startExpression]
  all_goals simp

@[spec]
theorem runAction_calm (f : FrameId) (action : Action) (binding : Binding)
    (label : Option SymbolId) (lookback : Bool) :
    Keeps Step.threw l (runAction f action binding label lookback) := by
  mvcgen [runAction]
  all_goals simp_all

@[spec]
theorem lookahead_keeps (f : FrameId) : Keeps Step.threw l (lookahead f) := by
  mvcgen [lookahead]
  all_goals simp_all

@[spec]
theorem writeValue_keeps (f : FrameId) (value : Cell) :
    Keeps Step.threw l (writeValue f value) := by
  mvcgen [writeValue]
  all_goals simp_all

@[spec]
theorem operatorAt?_calm (id : FeedId) : Calm l (operatorAt? id) := by
  mvcgen [operatorAt?]

@[spec]
theorem afterInvisible_keeps (f : FrameId) : Keeps Step.threw l (afterInvisible f) := by
  mvcgen [afterInvisible]
  all_goals simp_all

@[spec]
theorem evalWord_keeps (f : FrameId) (current : Cell) (gotten : Option Cell)
    (specifier : Specifier) : Keeps Step.threw l (evalWord f current gotten specifier) := by
  mvcgen [evalWord]

@[spec]
theorem evalBar_keeps (f : FrameId) : Keeps Step.threw l (evalBar f) := by
  mvcgen [evalBar]
  all_goals simp_all

@[spec]
theorem requote_calm (f : FrameId) : Calm l (requote f) := by
  mvcgen [requote]

@[spec]
theorem finishStack_keeps (f : FrameId) (rounds : Nat) :
    Keeps Step.threw l (finishStack f rounds) := by
  induction rounds with
  | zero => exact Interp.throws l (fun _ => rfl) _
  | succ rounds ih =>
      mvcgen [finishStack, ih]
      all_goals simp_all

@[spec]
theorem finishAction_keeps (f : FrameId) : Keeps Step.threw l (finishAction f) := by
  mvcgen [finishAction]

theorem afterExpression_threw (frame : Frame) : (afterExpression frame).threw = false := by
  unfold afterExpression
  split <;> rfl

@[spec]
theorem postSwitch_keeps (f : FrameId) : Keeps Step.threw l (postSwitch f) := by
  mvcgen [postSwitch]
  all_goals first
    | rw [afterExpression_threw, Levels.after_false]; assumption
    | simp_all

theorem finish_calm (f : FrameId) : Calm l (finish f) :=
  Interp.modifyFrame_calm l f _ fun _ => rfl

@[spec]
theorem passThrow_catches (f : FrameId) : Catches Step.threw l (passThrow f) := by
  have aborted := Interp.abortAction_calm (l.after true) f
  mvcgen [passThrow, -Interp.abortAction_calm, aborted]
  all_goals simp_all

@[spec]
theorem unwindCall_catches (f : FrameId) : Catches Step.threw l (unwindCall f) := by
  mvcgen [unwindCall]

@[spec]
theorem redoCall_catches (f : FrameId) : Catches Step.threw l (redoCall f) := by
  mvcgen [redoCall]
  all_goals simp_all

/-- A throw that comes out of a call is taken by it or goes on. -/
@[spec]
theorem dispatchThrown_catches (f : FrameId) : Catches Step.threw l (dispatchThrown f) := by
  have asked := Interp.lift_calm (l.after true) (throwAim f)
  mvcgen [dispatchThrown, -Interp.lift_calm, asked]
  all_goals simp_all

section Evaluation

include steady

theorem evalSoftQuoted_keeps (c : Cell) (specifier : Specifier) (anyStack : l.stack = ⊤) :
    Keeps Option.isNone l (e.evalSoftQuoted c specifier) := by
  have evaluated := evalArray_keeps steady l
  have gotten := Path.get_keeps steady l
  mvcgen [evalSoftQuoted, evaluated, gotten]
  all_goals simp_all

theorem argFromOut_keeps (call : Call) (i : Nat) (param : Typeset) (tight : Bool)
    (anyStack : l.stack = ⊤) : Keeps Option.isNone l (e.argFromOut call i param tight) := by
  have quoted := evalSoftQuoted_keeps steady l
  mvcgen [argFromOut, quoted]
  all_goals simp_all

theorem evalArgument_keeps (f : FrameId) (id : FeedId) :
    Keeps Option.isNone l (e.evalArgument f id) :=
  Interp.keeps_then (evalSubframe_keeps steady l f true) fun l => Interp.modifyFeed_calm l id _

theorem argFromFeed_keeps (call : Call) (g : Gathering) (param : Typeset)
    (anyStack : l.stack = ⊤) : Keeps Option.isNone l (e.argFromFeed call g param) := by
  have quoted := evalSoftQuoted_keeps steady l
  have evaluated := evalArgument_keeps steady l
  mvcgen [argFromFeed, quoted, evaluated]
  all_goals simp_all

theorem fillOrdinary_keeps (call : Call) (g : Gathering) (param : Typeset)
    (specialized : Option Cell) (anyStack : l.stack = ⊤) :
    Keeps Option.isNone l (e.fillOrdinary call g param specialized) := by
  have out := argFromOut_keeps steady l
  have input := argFromFeed_keeps steady l
  mvcgen [fillOrdinary, out, input]
  all_goals simp_all

theorem fillSlot_keeps (call : Call) (g : Gathering) (anyStack : l.stack = ⊤) :
    Keeps Option.isNone l (e.fillSlot call g) := by
  have ordinary := fillOrdinary_keeps steady l
  mvcgen [fillSlot, ordinary]
  all_goals simp_all

theorem fillSlots_keeps (call : Call) (rounds : Nat) (g : Gathering) (anyStack : l.stack = ⊤) :
    Keeps id l (e.fillSlots call rounds g) := by
  have filled := fillSlot_keeps steady l
  induction rounds generalizing g with
  | zero => exact Interp.throws l (fun _ => rfl) _
  | succ rounds ih =>
      mvcgen [fillSlots, filled, ih]
      all_goals simp_all

theorem fulfill_keeps (f : FrameId) (anyStack : l.stack = ⊤) : Keeps id l (e.fulfill f) := by
  have filled := fillSlots_keeps steady l
  mvcgen [fulfill, filled]
  all_goals simp_all

theorem evalRight_keeps (f : FrameId) (target : String) :
    Keeps Option.isNone l (e.evalRight f target) := by
  have evaluated := evalSubframe_keeps steady l
  mvcgen [evalRight, evaluated]
  all_goals simp_all

theorem evalGroup_keeps (f : FrameId) (current : Cell) (specifier : Specifier) :
    Keeps Step.threw l (e.evalGroup f current specifier) := by
  have evaluated := evalArray?_keeps steady l
  mvcgen [evalGroup, evaluated]
  all_goals simp_all

theorem evalGetGroup_keeps (f : FrameId) (current : Cell) (specifier : Specifier) :
    Keeps Step.threw l (e.evalGetGroup f current specifier) := by
  have evaluated := evalArray_keeps steady l
  mvcgen [evalGetGroup, evaluated]
  all_goals simp_all

theorem evalSetGroup_keeps (f : FrameId) (current : Cell) (specifier : Specifier) :
    Keeps Step.threw l (e.evalSetGroup f current specifier) := by
  have evaluated := evalArray_keeps steady l
  have right := evalRight_keeps steady l
  have stored := Path.set_keeps steady l
  mvcgen [evalSetGroup, evaluated, right, stored]
  all_goals simp_all

theorem evalPath_keeps (f : FrameId) (current : Cell) (specifier : Specifier)
    (anyStack : l.stack = ⊤) : Keeps Step.threw l (e.evalPath f current specifier) := by
  have walked := Path.eval_keeps steady l
  mvcgen [evalPath, walked]
  all_goals simp_all

omit steady in
theorem writeOrThrow_keeps (f : FrameId) (value : Option Cell) :
    ⦃fun m => ⌜m.At (l.after value.isNone)⌝⦄ writeOrThrow f value
    ⦃post⟨fun step m => ⌜m.At (l.after step.threw)⌝, fun _ m => ⌜m.Above l⌝⟩⦄ := by
  cases value with
  | none => mvcgen [writeOrThrow]
  | some value =>
      mvcgen [writeOrThrow]
      all_goals simp_all

theorem evalCell_keeps (f : FrameId) (current : Cell) (gotten : Option Cell)
    (anyStack : l.stack = ⊤) : Keeps Step.threw l (e.evalCell f current gotten) := by
  have group := evalGroup_keeps steady l
  have getGroup := evalGetGroup_keeps steady l
  have setGroup := evalSetGroup_keeps steady l
  have path := evalPath_keeps steady l
  have right := evalRight_keeps steady l
  have stored := Path.set_keeps steady l
  have walked := Path.get_keeps steady l
  have reduced := reduce_keeps steady l
  have written := writeOrThrow_keeps l
  mvcgen [evalCell, group, getGroup, setGroup, path, right, stored, walked, reduced, written]
  all_goals clear group getGroup setGroup path right stored walked reduced written
  all_goals simp_all

theorem processAction_keeps (f : FrameId) (anyStack : l.stack = ⊤) :
    Keeps Step.threw l (e.processAction f) := by
  have gathered := fulfill_keeps steady l
  mvcgen [processAction, gathered]
  all_goals simp_all

end Evaluation

section Dispatching

variable {dispatch : Dispatch}

theorem dispatchAction_keeps (f : FrameId)
    (dispatched : ∀ dispatcher, Keeps Bounce.threw l (dispatch e dispatcher f)) :
    Keeps Step.threw l (dispatchAction dispatch e f) := by
  mvcgen [dispatchAction, dispatched]
  all_goals simp_all

/-- A step keeps a level, up to the data stack. -/
theorem step_keeps (steady : e.Steady) (f : FrameId) (current : Step) (anyStack : l.stack = ⊤)
    (dispatched : ∀ dispatcher, Keeps Bounce.threw l (dispatch e dispatcher f)) :
    Keeps Step.threw l (step dispatch e f current) := by
  cases current with
  | start =>
      mvcgen [step]
      all_goals simp_all
  | lookahead => exact lookahead_keeps l f
  | reevaluate current gotten => exact evalCell_keeps steady l f current gotten anyStack
  | processAction => exact processAction_keeps steady l f anyStack
  | dispatch => exact dispatchAction_keeps l f dispatched
  | postSwitch => exact postSwitch_keeps l f
  | finished =>
      mvcgen [step]
      simp_all
  | thrown =>
      mvcgen [step]
      exact Machine.At.after ‹_› true

/-- Any number of steps keep a level, up to the data stack, if the actions do. -/
theorem runSteps_keeps
    (dispatched : ∀ e : Engine, e.Steady → ∀ f dispatcher (l : Levels), l.stack = ⊤ →
      Keeps Bounce.threw l (dispatch e dispatcher f))
    (fuel : Nat) (f : FrameId) (current : Step) (l : Levels) (anyStack : l.stack = ⊤) :
    Keeps id l (runSteps dispatch fuel f current) := by
  induction fuel generalizing f current l with
  | zero => exact Interp.throws l (fun _ => rfl) _
  | succ fuel ih =>
      have steady : Engine.Steady ⟨runSteps dispatch fuel, fuel⟩ := ih
      have stepped := step_keeps l steady f current anyStack fun dispatcher =>
        dispatched _ steady f dispatcher l anyStack
      have ended := finish_calm l f
      have others (next : Step) := ih f next l anyStack
      mvcgen [runSteps, stepped, ended, others]
      all_goals simp_all

end Dispatching

end Engine

end Homoicon
