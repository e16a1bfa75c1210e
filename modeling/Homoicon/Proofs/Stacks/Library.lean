import Homoicon.Library
import Homoicon.Proofs.Stacks.Parsing
import Homoicon.Proofs.Stacks.Steps

/-!
# The library keeps the levels

Every built-in action, and every other way to run an action, comes back to the level that it was
called at, up to the data stack and to a throw that its result tells of.
-/

open Std.Do

set_option mvcgen.warning false

namespace Homoicon

namespace Interp

variable (l : Levels)

@[spec]
theorem give_keeps (f : FrameId) (c : Cell) : Keeps Bounce.threw l (give f c) := by
  mvcgen [give]
  all_goals simp_all

@[spec]
theorem giveLogic_keeps (f : FrameId) (b : Bool) : Keeps Bounce.threw l (giveLogic f b) :=
  give_keeps l f _

@[spec]
theorem giveOrThrow_keeps (f : FrameId) (result : Option Cell) :
    ⦃fun m => ⌜m.At (l.after result.isNone)⌝⦄ giveOrThrow f result
    ⦃post⟨fun bounce m => ⌜m.At (l.after bounce.threw)⌝, fun _ m => ⌜m.Above l⌝⟩⦄ := by
  cases result with
  | none => mvcgen [giveOrThrow]
  | some c =>
      mvcgen [giveOrThrow]
      all_goals simp_all

@[spec]
theorem throwTo_keeps (label : Action) (binding : Binding) (value : Cell) :
    Keeps Bounce.threw l (throwTo label binding value) := by
  mvcgen [throwTo]

@[spec]
theorem refuseArg_spec {α : Type} (f : FrameId) (n : Nat)
    (done : α → Assertion (.arg Machine .pure)) :
    ⦃fun m => ⌜m.At l⌝⦄ (refuseArg f n : Interp α) ⦃post⟨done, fun _ m => ⌜m.Above l⌝⟩⦄ := by
  mvcgen [refuseArg]

@[spec]
theorem resolvedItems_calm (c : Cell) : Calm l (resolvedItems c) := by
  mvcgen [resolvedItems]

@[spec]
theorem copyBoundTo_calm (context : SeriesId) (block : Cell) :
    Calm l (copyBoundTo context block) := by
  mvcgen [copyBoundTo]

@[spec]
theorem becomeAction_keeps (f : FrameId) (c : Cell) : Keeps Bounce.threw l (becomeAction f c) := by
  mvcgen [becomeAction]
  all_goals simp_all

theorem runChain_keeps (f : FrameId) (anyStack : l.stack = ⊤) :
    Keeps Bounce.threw l (runChain f) := by
  mvcgen [runChain]

theorem runSpecialization_keeps (f : FrameId) : Keeps Bounce.threw l (runSpecialization f) := by
  mvcgen [runSpecialization]

theorem runTypeCheck_keeps (f : FrameId) : Keeps Bounce.threw l (runTypeCheck f) := by
  mvcgen [runTypeCheck]
  all_goals simp_all

end Interp

namespace Engine

variable {e : Engine} (steady : e.Steady) (l : Levels)

include steady

theorem reduceBlock_keeps (block : Cell) : Keeps Option.isNone l (e.reduceBlock block) := by
  have reduced := reduce_keeps steady l
  mvcgen [reduceBlock, reduced]

theorem doGuarded_keeps (kept : List Cell) (block : Cell) :
    Keeps Option.isNone l (e.doGuarded kept block) := by
  refine Interp.guarding_keeps l _ ?_
  have ran := doBlock_keeps steady l.unguarded block
  have guarded : Calm l.unguarded (kept.forM Interp.guard) :=
    Interp.forM_calm _ _ _ fun c _ => Interp.guard_calm _ c rfl
  mvcgen [ran, guarded]
  all_goals simp_all

theorem runFunction_keeps (f : FrameId) : Keeps Bounce.threw l (e.runFunction f) := by
  have ran := evalArray_keeps steady l
  mvcgen [runFunction, ran]
  all_goals simp_all

theorem doBranch_keeps (branch condition : Cell) :
    Keeps Option.isNone l (e.doBranch branch condition) := by
  have ran := doBlock_keeps steady l
  have applied := apply_keeps steady l
  mvcgen [doBranch, ran, applied]
  all_goals simp_all

end Engine

namespace Library

/-- An action that keeps the levels, up to the data stack, with every engine that does. -/
def Keeping (run : Engine → FrameId → Interp Bounce) : Prop :=
  ∀ (e : Engine) (f : FrameId) (l : Levels), e.Steady → l.stack = ⊤ →
    Keeps Bounce.threw l (run e f)

/-! ## Branches -/

section Branches

variable {e : Engine} (steady : e.Steady) (l : Levels)

theorem ifTrue_keeping : Keeping ifTrue := by
  intro e f l steady _
  have ran := e.doBranch_keeps steady l
  mvcgen [ifTrue, ran]
  all_goals simp_all

theorem either_keeping : Keeping either := by
  intro e f l steady _
  have ran := e.doBranch_keeps steady l
  mvcgen [either, ran]

theorem orElse_keeping : Keeping orElse := by
  intro e f l steady _
  have ran := e.doBranch_keeps steady l
  mvcgen [orElse, ran]

theorem andThen_keeping : Keeping andThen := by
  intro e f l steady _
  have ran := e.doBranch_keeps steady l
  mvcgen [andThen, ran]
  all_goals simp_all

theorem also_keeping : Keeping also := by
  intro e f l steady _
  have ran := e.doBranch_keeps steady l
  mvcgen [also, ran]
  all_goals simp_all

include steady in
theorem expressionsUntil_keeps (stop : Cell → Bool) (array : SeriesId) (specifier : Specifier)
    (rounds index : Nat) (last : Cell) :
    Keeps Option.isNone l (expressionsUntil e stop array specifier rounds index last) := by
  have ran := e.evalStepAt_keeps steady l
  induction rounds generalizing index last with
  | zero => exact Interp.throws l (fun _ => rfl) _
  | succ rounds ih =>
      mvcgen [expressionsUntil, ran, ih]
      all_goals simp_all

include steady in
theorem blockUntil_keeps (stop : Cell → Bool) (block : Cell) :
    Keeps Option.isNone l (blockUntil e stop block) := by
  have ran := expressionsUntil_keeps steady l
  mvcgen [blockUntil, ran]

theorem all_keeping : Keeping all := by
  intro e f l steady _
  have ran := blockUntil_keeps steady l
  mvcgen [all, ran]
  all_goals simp_all

theorem any_keeping : Keeping any := by
  intro e f l steady _
  have ran := blockUntil_keeps steady l
  mvcgen [any, ran]
  all_goals simp_all

include steady in
theorem doCase_keeps (branch condition : Cell) :
    Keeps Option.isNone l (doCase e branch condition) := by
  have ran := e.doBlock_keeps steady l
  have branched := e.doBranch_keeps steady l
  mvcgen [doCase, ran, branched]
  all_goals simp_all

include steady in
theorem casesFrom_keeps (array : SeriesId) (specifier : Specifier) (every : Bool)
    (rounds index : Nat) (result : Cell) :
    Keeps Option.isNone l (casesFrom e array specifier every rounds index result) := by
  have ran := e.evalStepAt_keeps steady l
  have branched := doCase_keeps steady l
  induction rounds generalizing index result with
  | zero => exact Interp.throws l (fun _ => rfl) _
  | succ rounds ih =>
      mvcgen [casesFrom, ran, branched, ih]
      all_goals simp_all

theorem case_keeping : Keeping case_ := by
  intro e f l steady _
  have ran := casesFrom_keeps steady l
  mvcgen [case_, ran]

theorem shortCircuit_keeping (decisive : Bool) : Keeping (shortCircuit decisive) := by
  intro e f l steady _
  have ran := e.doBlock_keeps steady l
  mvcgen [shortCircuit, ran]
  all_goals simp_all

theorem not_keeping : Keeping not := by
  intro e f l _ _
  mvcgen [not]

theorem conditionals_keeping : ∀ native ∈ conditionals, Keeping native.run := by
  simp [conditionals, not_keeping, shortCircuit_keeping, ifTrue_keeping, either_keeping,
    orElse_keeping, andThen_keeping, also_keeping, all_keeping, any_keeping, case_keeping]

end Branches

/-! ## Loops -/

section Loops

variable {e : Engine} (steady : e.Steady) (l : Levels)

/-- Whether a loop ended by a throw. -/
@[simp] def Pass.threw : Pass → Bool
  | .thrown => true
  | _ => false

@[spec]
theorem giveOutcome_keeps (f : FrameId) (outcome : Outcome) :
    ⦃fun m => ⌜m.At (l.after outcome.threw)⌝⦄ giveOutcome f outcome
    ⦃post⟨fun bounce m => ⌜m.At (l.after bounce.threw)⌝, fun _ m => ⌜m.Above l⌝⟩⦄ := by
  cases outcome with
  | thrown => mvcgen [giveOutcome]
  | _ =>
      mvcgen [giveOutcome]
      all_goals simp_all

@[spec]
theorem bodyThrown_catches : Catches Pass.threw l bodyThrown := by
  have asked := Interp.thrownLabel?_calm (l.after true)
  mvcgen [bodyThrown, -Interp.thrownLabel?_calm, asked]
  all_goals simp_all

include steady in
theorem runBody_keeps (body : Cell) : Keeps Pass.threw l (runBody e body) := by
  have ran := e.doBlock_keeps steady l
  mvcgen [runBody, ran]

include steady in
theorem rounds_keeps (advance : Int → Interp (Option Bool)) (body : Cell) (fuel : Nat)
    (count : Int) (last : Cell) (advanced : ∀ count, Keeps Option.isNone l (advance count)) :
    Keeps Pass.threw l (rounds e advance body fuel count last) := by
  have ran := runBody_keeps steady l
  induction fuel generalizing count last with
  | zero => exact Interp.throws l (fun _ => rfl) _
  | succ fuel ih =>
      mvcgen [rounds, advanced, ran, ih]
      all_goals simp_all

theorem loop_keeping : Keeping loop := by
  intro e f l steady _
  have ran (times : Int) := rounds_keeps steady l fun i => pure (some (decide (i < times)))
  mvcgen [loop, ran]
  all_goals simp_all

theorem while_keeping : Keeping while_ := by
  intro e f l steady _
  have tested := e.doBlock_keeps steady l
  have ran := rounds_keeps steady l
  mvcgen [while_, ran, tested]
  all_goals simp_all

theorem withVariables_keeps (f : FrameId) (names : List SymbolId) (body : Cell)
    (run : SeriesId → Cell → Interp Outcome)
    (ran : ∀ context bound, Keeps Pass.threw l.unguarded (run context bound)) :
    Keeps Bounce.threw l (withVariables f names body run) := by
  have guarded : Keeps Pass.threw l (Interp.guarding do
      let context ← Interp.makeContext .object names
      let bound := Cell.series .block (← Interp.copyBoundTo context body) 0
      Interp.guard (Cell.context .object context)
      Interp.guard bound
      run context bound) := by
    refine Interp.guarding_keeps l _ ?_
    mvcgen [ran]
  mvcgen [withVariables, guarded]

@[spec]
theorem nextRepeat_keeps (context : SeriesId) (value : Cell) (total count : Int) :
    Keeps Option.isNone l (nextRepeat context value total count) := by
  mvcgen [nextRepeat]
  all_goals simp_all

theorem repeat_keeping : Keeping repeat_ := by
  intro e f l steady _
  have ran (context : SeriesId) (value : Cell) (total : Int) (body : Cell) :=
    rounds_keeps steady l.unguarded (nextRepeat context value total) body e.rounds 0 Cell.blank
      fun count => nextRepeat_keeps l.unguarded context value total count
  have looped (names : List SymbolId) (value body : Cell) (total : Int) :=
    withVariables_keeps l f names body _ fun context body => ran context value total body
  mvcgen [repeat_, looped]

@[spec]
theorem itemsAt_calm (data : Cell) (position width : Nat) :
    Calm l (itemsAt data position width) := by
  mvcgen [itemsAt]

@[spec]
theorem roundItems?_calm (data : Cell) (width count : Nat) :
    Calm l (roundItems? data width count) := by
  mvcgen [roundItems?]

@[spec]
theorem nextEach_keeps (context : SeriesId) (data : Cell) (width : Nat) (count : Int) :
    Keeps Option.isNone l (nextEach context data width count) := by
  mvcgen [nextEach]
  all_goals simp_all

theorem forEach_keeping : Keeping forEach := by
  intro e f l steady _
  have ran (context : SeriesId) (data : Cell) (width : Nat) (body : Cell) :=
    rounds_keeps steady l.unguarded (nextEach context data width) body e.rounds 0 Cell.blank
      fun count => nextEach_keeps l.unguarded context data width count
  have looped (names : List SymbolId) (data body : Cell) :=
    withVariables_keeps l f names body _ fun context body => ran context data names.length body
  mvcgen [forEach, looped]

theorem break_keeping : Keeping break_ := by
  intro e f l _ _
  mvcgen [break_]

theorem continue_keeping : Keeping continue_ := by
  intro e f l _ _
  mvcgen [continue_]

theorem loops_keeping : ∀ native ∈ loops, Keeping native.run := by
  simp [loops, loop_keeping, while_keeping, repeat_keeping, forEach_keeping, break_keeping,
    continue_keeping]

end Loops

/-! ## Jumps and errors -/

section Jumps

variable {e : Engine} (steady : e.Steady) (l : Levels)

@[spec]
theorem catchThrown_catches (f : FrameId) (named quit anyLabel : Bool) :
    Catches Bounce.threw l (catchThrown f named quit anyLabel) := by
  have labelled := Interp.thrownLabel?_calm (l.after true)
  have lifted {α : Type} (q : Query α) := Interp.lift_calm (l.after true) q
  have asked {α : Type} (q : Query α) := Interp.ask_calm (l.after true) q
  mvcgen [catchThrown, -Interp.thrownLabel?_calm, -Interp.lift_calm, -Interp.ask_calm, labelled,
    lifted, asked]
  all_goals simp_all

theorem catch_keeping : Keeping catch_ := by
  intro e f l steady _
  have ran := e.doBlock_keeps steady l
  mvcgen [catch_, ran]

theorem throw_keeping : Keeping throw_ := by
  intro e f l _ _
  mvcgen [throw_]

theorem quit_keeping : Keeping quit := by
  intro e f l _ _
  mvcgen [quit]

theorem halt_keeping : Keeping halt := by
  intro e f l _ _
  mvcgen [halt]

theorem unwind_keeping : Keeping unwind := by
  intro e f l _ _
  mvcgen [unwind]

theorem redo_keeping : Keeping redo := by
  intro e f l _ _
  mvcgen [redo]

theorem return_keeping : Keeping return_ := by
  intro e f l _ _
  mvcgen [return_]

theorem jumps_keeping : ∀ native ∈ jumps, Keeping native.run := by
  simp [jumps, catch_keeping, throw_keeping, quit_keeping, halt_keeping, unwind_keeping,
    redo_keeping, return_keeping]

include steady in
theorem errorOfReason_keeps (reason : Cell) :
    Keeps Option.isNone l (errorOfReason e reason) := by
  have reduced := e.reduceBlock_keeps steady l
  mvcgen [errorOfReason, reduced]
  all_goals simp_all

theorem fail_keeping : Keeping fail_ := by
  intro e f l steady _
  have found := errorOfReason_keeps steady l
  mvcgen [fail_, found]
  all_goals simp_all

theorem trap_keeping : Keeping trap := by
  intro e f l steady _
  have ran (code : Cell) := Interp.trap_keeps l _ (e.doBlock_keeps steady l code)
  mvcgen [trap, ran]
  all_goals simp_all [Except.toOption]

theorem failures_keeping : ∀ native ∈ failures, Keeping native.run := by
  simp [failures, fail_keeping, trap_keeping]

end Jumps

/-! ## Evaluation -/

section Evaluators

variable {e : Engine} (steady : e.Steady) (l : Levels)

theorem vanish_keeping : Keeping vanish := by
  intro e f l _ _
  mvcgen [vanish]
  all_goals simp_all

theorem do_keeping : Keeping do_ := by
  intro e f l steady _
  have ran := e.doBlock_keeps steady l
  have loaded := e.evalArray_keeps steady l
  have framed := e.doFrame_keeps steady l
  have applied := e.apply_keeps steady l
  mvcgen [do_, ran, loaded, framed, applied]
  all_goals simp_all

theorem eval_keeping : Keeping eval := by
  intro e f l steady _
  have ran (frame : Frame) (value : Cell) : Keeps (fun result => result.1) l
      (Interp.withFrame frame fun sub => e.run sub (.reevaluate value none)) :=
    Interp.withFrame_keeps l _ _ fun sub _ => steady sub _ _ rfl
  mvcgen [eval, ran]
  all_goals simp_all

theorem evaluate_keeping : Keeping evaluate := by
  intro e f l steady _
  have ran := e.evalStepAt_keeps steady l
  mvcgen [evaluate, ran]
  all_goals simp_all

theorem reduce_keeping : Keeping reduce := by
  intro e f l steady _
  have reduced := e.reduceBlock_keeps steady l
  mvcgen [reduce, reduced]

@[spec]
theorem composedItems_calm (only newline : Bool) (result : Cell) :
    Calm l (composedItems only newline result) := by
  mvcgen [composedItems]

include steady in
theorem composeItem_keeps (only : Bool) (nested : Cell → Interp (Option Cell)) (deep : Bool)
    (cell : Cell) (inner : ∀ cell, Keeps Option.isNone l (nested cell)) :
    Keeps Option.isNone l (composeItem e only nested deep cell) := by
  have ran := e.doBlock_keeps steady l
  mvcgen [composeItem, ran, inner]
  all_goals simp_all

include steady in
theorem composeItems_keeps (only : Bool) (nested : Cell → Interp (Option Cell)) (deep : Bool)
    (cells : List Cell) (inner : ∀ cell, Keeps Option.isNone l (nested cell)) :
    Keeps Option.isNone l (composeItems e only nested deep cells) := by
  have first (cell : Cell) := composeItem_keeps steady l only nested deep cell inner
  induction cells with
  | nil =>
      mvcgen [composeItems]
      simp_all
  | cons cell rest ih =>
      mvcgen [composeItems, first, ih]
      all_goals simp_all

include steady in
theorem composeIn_keeps (deep only : Bool) (depth : Nat) (value : Cell) :
    Keeps Option.isNone l (composeIn e deep only depth value) := by
  induction depth generalizing value with
  | zero => exact Interp.throws l (fun _ => rfl) _
  | succ depth ih =>
      have composed (cells : List Cell) := composeItems_keeps steady l only _ deep cells ih
      mvcgen [composeIn, composed]
      all_goals simp_all

theorem compose_keeping : Keeping compose := by
  intro e f l steady _
  have composed := composeIn_keeps steady l
  mvcgen [compose, composed]

theorem evaluators_keeping : ∀ native ∈ evaluators, Keeping native.run := by
  simp [evaluators, vanish_keeping, do_keeping, eval_keeping, evaluate_keeping, reduce_keeping,
    compose_keeping]

end Evaluators

/-! ## Making actions and values -/

section Makers

variable {e : Engine} (steady : e.Steady) (l : Levels)

@[spec]
theorem makeFunction_keeps (f : FrameId) (spec body : Cell) :
    Keeps Bounce.threw l (makeFunction f spec body) := by
  mvcgen [makeFunction]

theorem func_keeping : Keeping func := by
  intro e f l _ _
  mvcgen [func]

theorem function_keeping : Keeping function := by
  intro e f l _ _
  mvcgen [function]

theorem does_keeping : Keeping does := by
  intro e f l _ _
  mvcgen [does]

theorem enfix_keeping : Keeping enfix := by
  intro e f l _ _
  mvcgen [enfix]

@[spec]
theorem actionArg_calm (f : FrameId) (n : Nat) : Calm l (actionArg f n) := by
  mvcgen [actionArg]

include steady in
theorem assignArgs_keeps (exemplar : SeriesId) (action : Action) (binding : Binding)
    (block : Cell) : Keeps (! ·) l (assignArgs e exemplar action binding block) := by
  have ran := e.doGuarded_keeps steady l
  mvcgen [assignArgs, ran]
  all_goals simp_all

@[spec]
theorem fixSlots_calm (exemplar base : SeriesId) (slots : List Nat) (refinement : Option Nat) :
    Calm l (fixSlots exemplar base slots refinement) := by
  induction slots generalizing refinement with
  | nil => mvcgen [fixSlots]
  | cons i rest ih => mvcgen [fixSlots, ih]

theorem specialize_keeping : Keeping specialize_ := by
  intro e f l steady _
  have assigned := assignArgs_keeps steady l
  mvcgen [specialize_, assigned]
  all_goals simp_all

@[spec]
theorem linkChain_calm (links : List Cell) (tail : Cell) : Calm l (linkChain links tail) := by
  induction links generalizing tail with
  | nil => mvcgen [linkChain]
  | cons link rest ih => mvcgen [linkChain, ih]

theorem chain_keeping : Keeping chain := by
  intro e f l steady _
  have reduced := e.reduceBlock_keeps steady l
  mvcgen [chain, reduced]
  all_goals simp_all

@[spec]
theorem useRefinements_calm (exemplar base : SeriesId) (slots : List Nat)
    (refinement : Option Nat) : Calm l (useRefinements exemplar base slots refinement) := by
  induction slots generalizing refinement with
  | nil => mvcgen [useRefinements]
  | cons i rest ih => mvcgen [useRefinements, ih]

theorem apply_keeping : Keeping apply := by
  intro e f l steady _
  have assigned := assignArgs_keeps steady l
  have ran (frame : Cell) : Keeps Option.isNone l (Interp.guarding do
      Interp.guard frame
      e.doFrame frame) := by
    refine Interp.guarding_keeps l _ ?_
    have framed := e.doFrame_keeps steady l.unguarded frame
    mvcgen [framed]
  mvcgen [apply, assigned, ran]
  all_goals simp_all

theorem functions_keeping : ∀ native ∈ functions, Keeping native.run := by
  simp [functions, func_keeping, function_keeping, does_keeping, enfix_keeping,
    specialize_keeping, chain_keeping, apply_keeping]

@[spec]
theorem addSetWords_calm (context array : SeriesId) : Calm l (addSetWords context array) := by
  mvcgen [addSetWords]

include steady in
theorem runIn_keeps (context : SeriesId) (block : Cell) :
    Keeps (! ·) l (runIn e context block) := by
  have ran := e.doGuarded_keeps steady l
  mvcgen [runIn, ran]
  all_goals simp_all

include steady in
theorem makeContextValue_keeps (f : FrameId) (kind : Kind) (type spec : Cell) :
    Keeps Bounce.threw l (makeContextValue e f kind type spec) := by
  have ran := runIn_keeps steady l
  mvcgen [makeContextValue, ran]
  all_goals simp_all

include steady in
theorem makeError_keeps (f : FrameId) (spec : Cell) :
    Keeps Bounce.threw l (makeError e f spec) := by
  have ran := runIn_keeps steady l
  mvcgen [makeError, ran]
  all_goals simp_all

@[spec]
theorem makeFrame_keeps (f : FrameId) (spec : Cell) : Keeps Bounce.threw l (makeFrame f spec) := by
  mvcgen [makeFrame]

@[spec]
theorem makeVarargs_keeps (f : FrameId) (spec : Cell) :
    Keeps Bounce.threw l (makeVarargs f spec) := by
  mvcgen [makeVarargs]

@[spec]
theorem emptySeries_calm (kind : Kind) : Calm l (emptySeries kind) := by
  mvcgen [emptySeries]

theorem make_keeping : Keeping make := by
  intro e f l steady _
  have contextual := makeContextValue_keeps steady l
  have failing := makeError_keeps steady l
  mvcgen [make, contextual, failing]

theorem convertTo_keeping : Keeping convertTo := by
  intro e f l _ _
  mvcgen [convertTo]

theorem context_keeping : Keeping context := by
  intro e f l steady _
  have ran := runIn_keeps steady l
  mvcgen [context, ran]
  all_goals simp_all

theorem makers_keeping : ∀ native ∈ makers, Keeping native.run := by
  simp [makers, make_keeping, convertTo_keeping, context_keeping]

end Makers

/-! ## Arithmetic, comparison and output -/

section Plain

variable {e : Engine} (steady : e.Steady) (l : Levels)

theorem arithmetic_keeping (operation : Operation) : Keeping (arithmetic operation) := by
  intro e f l _ _
  mvcgen [arithmetic]

theorem negate_keeping : Keeping negate := by
  intro e f l _ _
  mvcgen [negate]

theorem abs_keeping : Keeping abs := by
  intro e f l _ _
  mvcgen [abs]

theorem extreme_keeping (other : Ordering) : Keeping (extreme other) := by
  intro e f l _ _
  mvcgen [extreme]

theorem ordered_keeping (test : Ordering → Bool) : Keeping (ordered test) := by
  intro e f l _ _
  mvcgen [ordered]

theorem equality_keeping (strict expected : Bool) : Keeping (equality strict expected) := by
  intro e f l _ _
  mvcgen [equality]

theorem same_keeping : Keeping same := by
  intro e f l _ _
  mvcgen [same]

theorem parity_keeping (even : Bool) : Keeping (parity even) := by
  intro e f l _ _
  mvcgen [parity]

theorem zero_keeping : Keeping zero := by
  intro e f l _ _
  mvcgen [zero]

theorem arithmetics_keeping : ∀ native ∈ arithmetics, Keeping native.run := by
  simp [arithmetics, arithmetic_keeping, negate_keeping, abs_keeping, parity_keeping,
    zero_keeping]

theorem comparisons_keeping : ∀ native ∈ comparisons, Keeping native.run := by
  simp [comparisons, extreme_keeping, equality_keeping, same_keeping, ordered_keeping]

include steady in
theorem delimit?_keeps (block : Cell) (delimiter : String) :
    Keeps Option.isNone l (delimit? e block delimiter) := by
  have reduced := e.reduceBlock_keeps steady l
  mvcgen [delimit?, reduced]
  all_goals simp_all

theorem print_keeping : Keeping print := by
  intro e f l steady _
  have joined := delimit?_keeps steady l
  mvcgen [print, joined]
  all_goals simp_all

theorem probe_keeping : Keeping probe := by
  intro e f l _ _
  mvcgen [probe]
  all_goals simp_all

theorem mold_keeping : Keeping mold := by
  intro e f l _ _
  mvcgen [mold]

theorem form_keeping : Keeping form := by
  intro e f l _ _
  mvcgen [form]

theorem delimited_keeping (delimiter : String) : Keeping (delimited delimiter) := by
  intro e f l steady _
  have joined := delimit?_keeps steady l
  mvcgen [delimited, joined]
  all_goals simp_all

theorem writers_keeping : ∀ native ∈ writers, Keeping native.run := by
  simp [writers, print_keeping, probe_keeping, mold_keeping, form_keeping, delimited_keeping]

end Plain

/-! ## Reflection and variables -/

section Reflectors

variable (l : Levels)

@[spec]
theorem bindingOf_calm (word : Cell) : Calm l (Interp.bindingOf word) := by
  mvcgen [Interp.bindingOf]

@[spec]
theorem paramWord_calm (symbol : SymbolId) (paramClass : ParamClass) :
    Calm l (Interp.paramWord symbol paramClass) := by
  mvcgen [Interp.paramWord]

@[spec]
theorem wordsOf_calm (value : Cell) : Calm l (Interp.wordsOf value) := by
  mvcgen [Interp.wordsOf]

@[spec]
theorem valuesOf_calm (value : Cell) : Calm l (Interp.valuesOf value) := by
  mvcgen [Interp.valuesOf]

@[spec]
theorem setProtection_calm (value : Cell) (on : Bool) : Calm l (Interp.setProtection value on) := by
  mvcgen [Interp.setProtection]
  all_goals exact fun _ _ => by decide

@[spec]
theorem property_calm (name : String) (value : Cell) : Calm l (property name value) := by
  mvcgen [property]

theorem of_keeping : Keeping of := by
  intro e f l _ _
  mvcgen [of]

theorem typeOf_keeping : Keeping typeOf := by
  intro e f l _ _
  mvcgen [typeOf]
  all_goals simp_all

theorem isNull_keeping (expected : Bool) : Keeping (isNull expected) := by
  intro e f l _ _
  mvcgen [isNull]

theorem isSet_keeping : Keeping isSet := by
  intro e f l _ _
  mvcgen [isSet]

theorem protection_keeping (on : Bool) : Keeping (protection on) := by
  intro e f l _ _
  mvcgen [protection]

theorem recycle_keeping : Keeping recycle := by
  intro e f l _ _
  mvcgen [recycle]

theorem reflectors_keeping : ∀ native ∈ reflectors, Keeping native.run := by
  simp [reflectors, of_keeping, typeOf_keeping, isNull_keeping, isSet_keeping,
    protection_keeping, recycle_keeping]

@[spec]
theorem valuesOfWords_calm (block : Cell) : Calm l (valuesOfWords block) := by
  mvcgen [valuesOfWords]

theorem get_keeping : Keeping get := by
  intro e f l steady anyStack
  have walked := Path.get_keeps steady l
  mvcgen [get, walked]
  all_goals simp_all

theorem set_keeping : Keeping set := by
  intro e f l steady _
  have stored := Path.set_keeps steady l
  mvcgen [set, stored]
  all_goals simp_all

theorem lit_keeping : Keeping lit := by
  intro e f l _ _
  mvcgen [lit]

@[spec]
theorem quoteCount_calm (f : FrameId) : Calm l (quoteCount f) := by
  mvcgen [quoteCount]

theorem quote_keeping : Keeping quote := by
  intro e f l _ _
  mvcgen [quote]

theorem unquote_keeping : Keeping unquote := by
  intro e f l _ _
  mvcgen [unquote]

theorem null_keeping : Keeping null := by
  intro e f l _ _
  mvcgen [null]
  all_goals simp_all

theorem void_keeping : Keeping void := by
  intro e f l _ _
  mvcgen [void]

theorem variableActions_keeping : ∀ native ∈ variableActions, Keeping native.run := by
  simp [variableActions, get_keeping, set_keeping, lit_keeping, quote_keeping, unquote_keeping,
    null_keeping, void_keeping]

end Reflectors

/-! ## Series -/

section SeriesActions

variable {e : Engine} (steady : e.Steady) (l : Levels)

theorem insertWith_keeping (place : Cell → Query Nat) (result : Cell → Nat → Nat) :
    Keeping (insertWith place result) := by
  intro e f l _ _
  mvcgen [insertWith]

@[spec]
theorem pickNth_keeps (f : FrameId) (n : Int) : Keeps Bounce.threw l (pickNth f n) := by
  mvcgen [pickNth]
  all_goals simp_all

theorem nth_keeping (n : Int) : Keeping (nth n) := fun _ f l _ _ => pickNth_keeps l f n

theorem last_keeping : Keeping last := by
  intro e f l _ _
  mvcgen [last]
  all_goals simp_all

theorem pick_keeping : Keeping pick := by
  intro e f l _ _
  mvcgen [pick]

theorem poke_keeping : Keeping poke := by
  intro e f l _ _
  mvcgen [poke]

theorem select_keeping : Keeping select := by
  intro e f l _ _
  mvcgen [select]
  all_goals simp_all

theorem find_keeping : Keeping find := by
  intro e f l _ _
  mvcgen [find]
  all_goals simp_all

theorem copy_keeping : Keeping copy := by
  intro e f l _ _
  mvcgen [copy]

include steady in
theorem takeFromCall_keeps (f : FrameId) (p : Typeset) :
    Keeps Option.isNone l (Varargs.takeFromCall e f p) := by
  have evaluated := e.evalSubframe_keeps steady l
  mvcgen [Varargs.takeFromCall, evaluated]
  all_goals simp_all

include steady in
theorem takeItem_keeps (varargs : Varargs) : Keeps Option.isNone l (varargs.take e) := by
  have taken := takeFromCall_keeps steady l
  mvcgen [Varargs.take, taken]
  all_goals simp_all

include steady in
theorem takeVariadic_keeps (f : FrameId) (varargs : Varargs) :
    Keeps Bounce.threw l (takeVariadic e f varargs) := by
  have taken := takeItem_keeps steady l
  mvcgen [takeVariadic, taken]
  all_goals simp_all

theorem take_keeping : Keeping take := by
  intro e f l steady _
  have taken := takeVariadic_keeps steady l
  mvcgen [take, taken]
  all_goals simp_all

theorem head_keeping : Keeping head := by
  intro e f l _ _
  mvcgen [head]

theorem tail_keeping : Keeping tail := by
  intro e f l _ _
  mvcgen [tail]

@[spec]
theorem shift_keeps (f : FrameId) (offset : Int) : Keeps Bounce.threw l (shift f offset) := by
  mvcgen [shift]

theorem shiftBy_keeping (offset : Int) : Keeping (shiftBy offset) :=
  fun _ f l _ _ => shift_keeps l f offset

theorem skip_keeping : Keeping skip := by
  intro e f l _ _
  mvcgen [skip]

theorem at_keeping : Keeping at_ := by
  intro e f l _ _
  mvcgen [at_]

theorem index_keeping : Keeping index := by
  intro e f l _ _
  mvcgen [index]

theorem length_keeping : Keeping length := by
  intro e f l _ _
  mvcgen [length]

theorem isHead_keeping : Keeping isHead := by
  intro e f l _ _
  mvcgen [isHead]

theorem isTail_keeping : Keeping isTail := by
  intro e f l _ _
  mvcgen [isTail]

theorem isEmpty_keeping : Keeping isEmpty := by
  intro e f l _ _
  mvcgen [isEmpty]

theorem clear_keeping : Keeping clear := by
  intro e f l _ _
  mvcgen [clear]

theorem remove_keeping : Keeping remove := by
  intro e f l _ _
  mvcgen [remove]

theorem seriesActions_keeping : ∀ native ∈ seriesActions, Keeping native.run := by
  simp [seriesActions, append, insert, insertWith_keeping, nth_keeping, last_keeping,
    pick_keeping, poke_keeping, select_keeping, find_keeping, copy_keeping, take_keeping,
    head_keeping, tail_keeping, shiftBy_keeping, skip_keeping, at_keeping, index_keeping,
    length_keeping, isHead_keeping, isTail_keeping, isEmpty_keeping, clear_keeping,
    remove_keeping]

theorem parse_keeping : Keeping parse := by
  intro e f l steady anyStack
  have matched (input rules : Cell) (strict : Bool) :=
    Parse.run_keeps steady input rules strict l anyStack
  mvcgen [parse, matched]
  all_goals simp_all

theorem labelOnly_keeping (name : String) : Keeping (labelOnly name) := by
  intro e f l _ _
  mvcgen [labelOnly]

theorem parsers_keeping : ∀ native ∈ parsers, Keeping native.run := by
  simp [parsers, parse_keeping, labelOnly_keeping]

end SeriesActions

/-! ## All actions -/

theorem natives_keeping (native : Native) (listed : native ∈ natives) : Keeping native.run := by
  simp only [natives, List.mem_toArray, List.mem_append] at listed
  rcases listed with ((((((((((((( h | h) | h) | h) | h) | h) | h) | h) | h) | h) | h) | h) | h) | h)
  · exact arithmetics_keeping native h
  · exact comparisons_keeping native h
  · exact conditionals_keeping native h
  · exact loops_keeping native h
  · exact jumps_keeping native h
  · exact failures_keeping native h
  · exact evaluators_keeping native h
  · exact variableActions_keeping native h
  · exact functions_keeping native h
  · exact seriesActions_keeping native h
  · exact makers_keeping native h
  · exact reflectors_keeping native h
  · exact writers_keeping native h
  · exact parsers_keeping native h

/-- Whatever an action is made of, running it keeps a level. -/
theorem dispatch_keeping (dispatcher : Dispatcher) :
    Keeping fun e f => dispatch e dispatcher f := by
  intro e f l steady anyStack
  cases dispatcher with
  | native index =>
      unfold dispatch
      simp only
      generalize looked : natives[index]? = found
      cases found with
      | none => exact Interp.throws l (fun _ => rfl) _
      | some native =>
          have listed : native ∈ natives := Array.mem_of_getElem? looked
          exact natives_keeping native listed e f l steady anyStack
  | typeCheck => exact Interp.runTypeCheck_keeps l f
  | body => exact e.runFunction_keeps steady l f
  | specialization => exact Interp.runSpecialization_keeps l f
  | chain => exact Interp.runChain_keeps l f anyStack

end Library

end Homoicon
