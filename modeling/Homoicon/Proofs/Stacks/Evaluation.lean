import Homoicon.Evaluation.Steps
import Homoicon.Proofs.Stacks.Data

/-!
# The evaluator keeps the levels

Everything that evaluates code in passing brackets it by a feed and a frame of its own, so whatever
the steps of that frame leave on the data stack is gone afterwards.  What a step itself leaves
there belongs to the frame that takes it: the step keeps a level only up to the data stack.
-/

open Std.Do

set_option mvcgen.warning false

namespace Homoicon

/-- Whether an evaluation ended by a throw. -/
@[simp] def Evaluated.threw : Evaluated → Bool
  | .thrown => true
  | _ => false

/-- Whether a frame ended by a throw. -/
@[simp] def Step.threw : Step → Bool
  | .thrown => true
  | _ => false

/-- Whether an action ended by a throw. -/
@[simp] def Bounce.threw : Bounce → Bool
  | .thrown => true
  | _ => false

/-- Whether a path ended by a throw. -/
@[simp] def PathResult.threw : PathResult → Bool
  | .thrown => true
  | _ => false

@[simp] theorem isNone_unless {α : Type} (threw : Bool) (a : α) :
    (if threw = true then none else some a).isNone = threw := by
  cases threw <;> rfl

/-- An engine that runs frames without touching what lies below them. -/
def Engine.Steady (e : Engine) : Prop :=
  ∀ (f : FrameId) (step : Step) (l : Levels), l.stack = ⊤ → Keeps id l (e.run f step)

namespace Engine

section Brackets

variable {e : Engine} (steady : e.Steady) (l : Levels)

include steady

theorem evalArray?_keeps (array : SeriesId) (index : Nat) (specifier : Specifier) :
    Keeps Evaluated.threw l (e.evalArray? array index specifier) := by
  have ran (input : Feed) : Keeps (fun result => result.1) l
      (Interp.withFeed input fun feed =>
        Interp.withFrame { feed, toEnd := true } fun f => e.run f .start) :=
    Interp.withFeed_keeps l input _ fun _ =>
      Interp.withFrame_keeps l.fed _ _ fun f _ => steady f .start _ rfl
  mvcgen [evalArray?, ran]
  all_goals simp_all

theorem evalArray_keeps (array : SeriesId) (index : Nat) (specifier : Specifier) :
    Keeps Option.isNone l (e.evalArray array index specifier) := by
  have ran := evalArray?_keeps steady l array index specifier
  mvcgen [evalArray, ran]

theorem doBlock_keeps (block : Cell) : Keeps Option.isNone l (e.doBlock block) := by
  have ran := evalArray_keeps steady
  mvcgen [doBlock, ran]

theorem evalSubframe_keeps (parent : FrameId) (fulfillingArg : Bool) :
    Keeps Option.isNone l (e.evalSubframe parent fulfillingArg) := by
  have ran (frame : Frame) : Keeps (fun result => result.1) l
      (Interp.withFrame frame fun f => e.run f .start) :=
    Interp.withFrame_keeps l _ _ fun f _ => steady f .start _ rfl
  mvcgen [evalSubframe, ran]
  simp_all

theorem evalStepAt_keeps (array : SeriesId) (index : Nat) (specifier : Specifier) :
    Keeps Option.isNone l (e.evalStepAt array index specifier) := by
  have ran (frame : Frame) (l : Levels) : Keeps (fun result => result.1) l
      (Interp.withFrame frame fun f => e.run f .start) :=
    Interp.withFrame_keeps l _ _ fun f _ => steady f .start _ rfl
  unfold evalStepAt
  refine Triple.bind _ _ (Interp.lift_calm l _) fun input => ?_
  refine Interp.withFeed_keeps l input _ fun feed => ?_
  mvcgen [ran]
  all_goals simp_all

theorem reduceRest_keeps (f : FrameId) (feed : FeedId) (rounds : Nat) (reversed : List Cell)
    (anyStack : l.stack = ⊤) (anyGuards : l.guards = ⊤) :
    Keeps Option.isNone l (e.reduceRest f feed rounds reversed) := by
  have ran (step : Step) := steady f step
  induction rounds generalizing reversed with
  | zero => exact Interp.throws l (fun _ => rfl) _
  | succ rounds ih =>
      mvcgen [reduceRest, ran, ih]
      all_goals simp_all

theorem reduce_keeps (array : SeriesId) (index : Nat) (specifier : Specifier) :
    Keeps Option.isNone l (e.reduce array index specifier) := by
  have ran (input : Feed) : Keeps (fun result => result.1.isNone) l
      (Interp.guarding (Interp.withFeed input fun feed =>
        Interp.withFrame { feed } fun f => e.reduceRest f feed e.rounds [])) :=
    Interp.guarding_keeps l _ <| Interp.withFeed_keeps _ input _ fun feed =>
      Interp.withFrame_keeps _ _ _ fun f base =>
        reduceRest_keeps steady _ f feed e.rounds [] rfl rfl
  mvcgen [reduce, ran]
  all_goals simp_all

theorem call_keeps (action : Action) (binding : Binding) (fill : FrameId → Interp Unit)
    (filled : ∀ f l, Calm l (fill f)) :
    Keeps Option.isNone l (e.call action binding fill) := by
  have body (f : FrameId) (l : Levels) (anyStack : l.stack = ⊤) : Keeps id l (do
      Interp.pushAction f action binding
      Interp.beginAction f none false
      fill f
      Interp.modifyFrame f fun fr => { fr with typecheckOnly := true, prefill := .args }
      e.run f .processAction) := by
    have ran := steady f .processAction l anyStack
    mvcgen [filled, ran]
    all_goals simp_all
  have ran : Keeps (fun result => result.1) l
      (Interp.withFeed (Feed.ofCells [] none) fun feed =>
        Interp.withFrame { feed } fun f => do
          Interp.pushAction f action binding
          Interp.beginAction f none false
          fill f
          Interp.modifyFrame f fun fr => { fr with typecheckOnly := true, prefill := .args }
          e.run f .processAction) :=
    Interp.withFeed_keeps l _ _ fun _ => Interp.withFrame_keeps l.fed _ _ fun f _ => body f _ rfl
  mvcgen [call, ran]
  all_goals simp_all

omit steady in
theorem fillArgs_calm (f : FrameId) (paramlist varlist : SeriesId) (exemplar : Option SeriesId)
    (slots : List Nat) (refined : Bool) (args : List Cell) :
    Calm l (fillArgs f paramlist varlist exemplar slots refined args) := by
  induction slots generalizing refined args with
  | nil => mvcgen [fillArgs]
  | cons i rest ih => mvcgen [fillArgs, ih]

theorem apply_keeps (action : Action) (binding : Binding) (args : List Cell) :
    Keeps Option.isNone l (e.apply action binding args) := by
  refine call_keeps steady l action binding _ fun f l => ?_
  mvcgen [fillArgs_calm]

theorem doFrame_keeps (value : Cell) : Keeps Option.isNone l (e.doFrame value) := by
  have ran := call_keeps steady
  mvcgen [doFrame, ran]

omit steady in
@[spec]
theorem setBlock_calm (target : Cell) (specifier : Specifier) (value : Cell) :
    Calm l (setBlock target specifier value) := by
  mvcgen [setBlock]

end Brackets

end Engine

/-! ## Paths -/

namespace Path

section Steps

variable (l : Levels)

@[spec]
theorem place_calm (start : Nat) (n : Int) : Calm l (place start n) := by
  mvcgen [place]

@[spec]
theorem arrayStep_calm (current picker : Cell) (setval : Option Cell) :
    Calm l (arrayStep current picker setval) := by
  mvcgen [arrayStep]

@[spec]
theorem stringStep_calm (current picker : Cell) (setval : Option Cell) :
    Calm l (stringStep current picker setval) := by
  mvcgen [stringStep]

@[spec]
theorem binaryStep_calm (current picker : Cell) (setval : Option Cell) :
    Calm l (binaryStep current picker setval) := by
  mvcgen [binaryStep]

@[spec]
theorem contextStep_calm (current picker : Cell) (setval : Option Cell) :
    Calm l (contextStep current picker setval) := by
  mvcgen [contextStep]

@[spec]
theorem pairStep_calm (current picker : Cell) (setval : Option Cell) :
    Calm l (pairStep current picker setval) := by
  mvcgen [pairStep]

@[spec]
theorem tupleStep_calm (current picker : Cell) (setval : Option Cell) :
    Calm l (tupleStep current picker setval) := by
  mvcgen [tupleStep]

@[spec]
theorem dateStep_calm (current picker : Cell) (setval : Option Cell) :
    Calm l (dateStep current picker setval) := by
  mvcgen [dateStep]

@[spec]
theorem timeStep_calm (current picker : Cell) (setval : Option Cell) :
    Calm l (timeStep current picker setval) := by
  mvcgen [timeStep]

@[spec]
theorem step_calm (current picker : Cell) (setval : Option Cell) :
    Calm l (step current picker setval) := by
  mvcgen [step]

@[spec]
theorem pick_calm (current picker : Cell) : Calm l (pick current picker) := by
  mvcgen [pick]

@[spec]
theorem poke_calm (current picker value : Cell) : Calm l (poke current picker value) := by
  mvcgen [poke]

end Steps

section Walks

variable {e : Engine} (steady : e.Steady) (l : Levels)

include steady

theorem picker_keeps (item : Cell) (specifier : Specifier) (noGroups : Bool) :
    Keeps Option.isNone l (picker e item specifier noGroups) := by
  have ran := Engine.evalArray_keeps steady
  mvcgen [picker, ran]
  all_goals simp_all

theorem refinement_keeps (item : Cell) (specifier : Specifier) (noGroups : Bool) :
    Keeps Option.isNone l (refinement e item specifier noGroups) := by
  have picked := picker_keeps steady
  mvcgen [refinement, picked]
  all_goals simp_all

theorem pushNames_keeps (specifier : Specifier) (noGroups : Bool) (base : Nat)
    (items : List Cell) (anyStack : l.stack = ⊤) :
    Keeps id l (pushNames e specifier noGroups base items) := by
  have named := refinement_keeps steady l
  have cut := Interp.truncateStack_calm (l.after true)
  induction items with
  | nil =>
      mvcgen [pushNames]
      simp_all
  | cons item rest ih =>
      mvcgen [pushNames, named, ih, -Interp.truncateStack_calm, cut]
      all_goals simp_all

theorem pushRefinements_keeps (rest : List Cell) (specifier : Specifier) (noGroups : Bool)
    (anyStack : l.stack = ⊤) : Keeps id l (pushRefinements e rest specifier noGroups) := by
  have pushed (base : Nat) := pushNames_keeps steady l specifier noGroups base rest anyStack
  mvcgen [pushRefinements, pushed]
  all_goals simp_all
  rename_i here
  exact ⟨here.bases, here.feeds, anyStack ▸ le_top, here.guards, here.quiet, here.accounted⟩

theorem walk_keeps (specifier : Specifier) (noGroups : Bool) (current previous : Cell)
    (label : Option SymbolId) (items : List Cell) (anyStack : l.stack = ⊤) :
    Keeps PathResult.threw l (walk e specifier noGroups current previous label items) := by
  have picked := picker_keeps steady l
  have pushed := pushRefinements_keeps steady l
  induction items generalizing current previous label with
  | nil =>
      mvcgen [walk]
      all_goals simp_all
  | cons item rest ih =>
      mvcgen [walk, picked, pushed, ih]
      all_goals simp_all

theorem eval_keeps (path : Cell) (specifier : Specifier) (noGroups : Bool)
    (anyStack : l.stack = ⊤) : Keeps PathResult.threw l (eval e path specifier noGroups) := by
  have picked := picker_keeps steady l
  have walked := walk_keeps steady l
  mvcgen [eval, picked, walked]
  all_goals simp_all

theorem get_keeps (path : Cell) (specifier : Specifier) (noGroups : Bool)
    (anyStack : l.stack = ⊤) : Keeps Option.isNone l (get e path specifier noGroups) := by
  have ran := eval_keeps steady l
  mvcgen [get, ran]
  all_goals simp_all

theorem store_keeps (specifier : Specifier) (noGroups : Bool) (value current previous : Cell)
    (place : Place) (items : List Cell) :
    Keeps id l (store e specifier noGroups value current previous place items) := by
  have picked := picker_keeps steady l
  induction items generalizing current previous place with
  | nil =>
      mvcgen [store]
      simp_all
  | cons item rest ih =>
      rw [store]
      cases rest with
      | nil =>
          mvcgen [picked]
          all_goals simp_all
      | cons next rest =>
          mvcgen [picked, ih]
          all_goals simp_all

theorem set_keeps (path : Cell) (specifier : Specifier) (value : Cell) (noGroups : Bool) :
    Keeps id l (set e path specifier value noGroups) := by
  have picked := picker_keeps steady l
  have stored := store_keeps steady l
  mvcgen [set, picked, stored]
  all_goals simp_all

end Walks

end Path

end Homoicon
