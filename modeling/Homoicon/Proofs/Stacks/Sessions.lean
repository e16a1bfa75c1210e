import Homoicon.Interpreter
import Homoicon.Proofs.Stacks.Library

/-!
# Between the runs of a session

A session boots a machine and runs source texts on it one after the other.  Whatever the texts do,
no frame, feed or guarded cell of a run outlives it, the data stack is empty behind it, and no
throw is left in progress: a throw that nothing catches ends at the top, and an error in a trap.
-/

open Std.Do

set_option mvcgen.warning false

namespace Homoicon

/-- Nothing runs, nothing is kept, and no throw is in progress. -/
structure Machine.Resting (m : Machine) : Prop where
  frames : m.frames = #[]
  feeds : m.feeds = #[]
  stack : m.stack = #[]
  guards : m.guards = #[]
  thrown : m.thrown = none
  accounted : Accounted m.heap m.manuals

theorem Machine.resting_iff {m : Machine} : m.Resting ↔ m.At .ground := by
  constructor
  · intro resting
    refine ⟨?_, ?_, ?_, ?_, fun _ => resting.thrown, resting.accounted⟩
    · simp [resting.frames, Levels.ground]
    · simp [resting.feeds]
    · simp [resting.stack]
    · simp [resting.guards]
  · intro here
    refine ⟨?_, ?_, ?_, ?_, here.quiet rfl, here.accounted⟩
    · simpa [Levels.ground] using here.bases
    · simpa [Levels.ground] using here.feeds
    · simpa [Levels.ground] using here.stack
    · simpa [Levels.ground] using here.guards

/-! ## Setting up -/

namespace Interp

variable (l : Levels)

@[spec]
theorem defineLib_calm (name : String) (value : Cell) : Calm l (defineLib name value) := by
  mvcgen [defineLib]

@[spec]
theorem defineAction_calm (name spec : String) (dispatcher : Dispatcher) (details : List Cell)
    (enfix : Bool) : Calm l (defineAction name spec dispatcher details enfix) := by
  mvcgen [defineAction]

-- The tables of the library are large, and what is done for each entry does not depend on them.
attribute [local irreducible] defineActions defineConstants

@[spec]
theorem defineActions_calm : Calm l defineActions := by
  unfold defineActions
  generalize Library.natives.toList.zipIdx = natives
  generalize Kind.named = kinds
  mvcgen

@[spec]
theorem defineConstants_calm : Calm l defineConstants := by
  unfold defineConstants
  generalize Kind.named = kinds
  generalize Library.typesets = typesets
  generalize Library.truths = truths
  mvcgen

theorem boot_calm : Calm l boot := by
  unfold boot
  mvcgen
  all_goals
    rename_i here _
    exact here.congr rfl rfl rfl rfl rfl rfl rfl

end Interp

namespace Interpreter

/-! ## Running -/

theorem engineWithin_steady (limit : Nat) : (engineWithin limit).Steady :=
  Engine.runSteps_keeps (fun e steady f dispatcher l anyStack =>
    Library.dispatch_keeping dispatcher e f l steady anyStack) limit

/-- A throw that nothing catches ends at the top. -/
theorem uncaught_spec (l : Levels) :
    ⦃fun m => ⌜m.At (l.after true)⌝⦄ uncaught
    ⦃post⟨fun _ m => ⌜m.At l⌝, fun _ m => ⌜m.Above l⌝⟩⦄ := by
  have taken := Interp.takeThrown_spec l
  mvcgen [uncaught, taken]

theorem evalTop_calm (limit : Nat) (block : SeriesId) (l : Levels) :
    Calm l (evalTop limit block) := by
  have evaluated := Engine.evalArray_keeps (engineWithin_steady limit) l block 0 none
  have ended := uncaught_spec l
  mvcgen [evalTop, evaluated, ended]
  simp_all

/-- What a run does before its error is trapped. -/
theorem evalTop_load_keeps (limit : Nat) (source : String) (l : Levels) :
    Keeps (fun _ => false) l (do evalTop limit (← Interp.load source)) := by
  have evaluated (block : SeriesId) := evalTop_calm limit block l
  mvcgen [evaluated]
  all_goals simp_all

/-- A run leaves the machine resting, and a failed one lists no more series than there were. -/
theorem run_resting {m : Machine} (resting : m.Resting) (source : String) :
    match run source m with
    | .ok result next =>
        next.Resting ∧ (result.toOption = none → next.manuals.size ≤ m.manuals.size)
    | .error _ _ => True := by
  have here := Machine.resting_iff.mp resting
  have evaluated := evalTop_load_keeps stepLimit source .ground
  have ran := Interp.triple_iff.mp (Interp.trap_keeps .ground _ evaluated) m here
  cases outcome : run source m with
  | error fault next => trivial
  | ok result next =>
      unfold run runWithin at outcome
      rw [outcome] at ran
      refine ⟨Machine.resting_iff.mpr ?_, fun failed => ?_⟩
      · simpa using ran
      · cases result with
        | ok value => simp [Except.toOption] at failed
        | error e => exact Interp.size_manuals_le_of_trap .ground evaluated here outcome

/-! ## Sessions -/

/-- The machine behind the run of a text. -/
def following (m : Machine) (source : String) : Except Fault Machine :=
  match run source m with
  | .ok _ next => .ok next
  | .error fault _ => .error fault

/-- The machine behind a session: the library is set up and the texts are run in turn. -/
def session (config : Config) (sources : List String) : Except Fault Machine := do
  sources.foldlM following (← boot config)

theorem accounted_empty (ballast : Int) : Accounted (.empty ballast) #[] := by
  refine ⟨List.nodup_nil, fun id => ?_⟩
  simp [Heap.Manual, Heap.empty, Heap.get?]

attribute [local irreducible] Interp.boot

theorem boot_resting {config : Config} {m : Machine} (booted : boot config = .ok m) :
    m.Resting := by
  have ran := Interp.triple_iff.mp (Interp.boot_calm .ground)
    { config, heap := .empty config.ballast, countdown := config.evalDose }
    (Machine.resting_iff.mp ⟨rfl, rfl, rfl, rfl, rfl, accounted_empty _⟩)
  unfold boot at booted
  simp only at booted
  split at booted
  · next outcome =>
      rw [outcome] at ran
      cases booted
      exact Machine.resting_iff.mpr ran
  · cases booted

theorem following_resting {m next : Machine} (resting : m.Resting) {source : String}
    (ran : following m source = .ok next) : next.Resting := by
  have kept := run_resting resting source
  unfold following at ran
  cases outcome : run source m with
  | error fault last => simp [outcome] at ran
  | ok result last =>
      rw [outcome] at kept ran
      cases ran
      exact kept.1

theorem foldlM_following_resting (sources : List String) {m next : Machine} (resting : m.Resting)
    (ran : sources.foldlM following m = .ok next) : next.Resting := by
  induction sources generalizing m with
  | nil =>
      cases ran
      exact resting
  | cons source sources ih =>
      rw [List.foldlM_cons] at ran
      cases followed : following m source with
      | error fault => simp [followed, bind, Except.bind] at ran
      | ok mid =>
          rw [followed] at ran
          exact ih (following_resting resting followed) ran

theorem session_resting {config : Config} {sources : List String} {m : Machine}
    (reached : session config sources = .ok m) : m.Resting := by
  unfold session at reached
  cases booted : boot config with
  | error fault => simp [booted, bind, Except.bind] at reached
  | ok first =>
      rw [booted] at reached
      exact foldlM_following_resting sources (boot_resting booted) reached

/-- Whatever was run before, a run begins and ends with no frame, feed, guarded cell, value on the
data stack or throw; if it fails, then it also lists no more series than there were. -/
theorem run_resting_of_session (config : Config) (sources : List String) (source : String) :
    match session config sources with
    | .error _ => True
    | .ok m => m.Resting ∧
        match run source m with
        | .ok result next =>
            next.Resting ∧ (result.toOption = none → next.manuals.size ≤ m.manuals.size)
        | .error _ _ => True := by
  cases reached : session config sources with
  | error fault => trivial
  | ok m =>
      have resting := session_resting reached
      exact ⟨resting, run_resting resting source⟩

end Interpreter

end Homoicon
