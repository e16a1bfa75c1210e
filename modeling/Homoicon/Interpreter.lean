import Homoicon.Exchange
import Homoicon.Library

/-!
# The interpreter

Source text in, values out.  An interpreter is a machine with the library set up; its variables
persist from one run to the next.
-/

namespace Homoicon.Interpreter

/-- The bound on the steps of one evaluation. -/
def stepLimit : Nat := 1152921504606846976

/-- Runs frames with the actions of the library, for at most a number of steps. -/
def engineWithin (limit : Nat) : Engine := ⟨Engine.runSteps Library.dispatch limit, limit⟩

/-- A machine with the library set up. -/
def boot (config : Config) : Except Fault Machine :=
  let bare : Machine :=
    { config, heap := .empty config.ballast, countdown := config.evalDose }
  match Interp.boot bare with
  | .ok _ m => .ok m
  | .error fault _ => .error fault

/-- A machine with the library set up and limits as usual. -/
def standard : Except Fault Machine := boot {}

/-- The end of a throw that nothing catches: QUIT gives its value. -/
def uncaught : Interp Cell := do
  let thrown ← Interp.takeThrown
  if thrown.label.asAction? == some (← get).specials.quit then pure thrown.value
  else fail (.noCatch (← Query.mold thrown.label))

/-- Evaluates a whole array at top level, where a throw that nothing caught ends. -/
def evalTop (limit : Nat) (block : SeriesId) : Interp Cell := do
  match ← (engineWithin limit).evalArray block 0 none with
  | some value => pure value
  | none => uncaught

/-- Loads a source text and evaluates it in at most a number of steps; an error leaves the machine
as high as it was. -/
def runWithin (limit : Nat) (source : String) : Interp (Except Error Cell) :=
  Interp.trap do evalTop limit (← Interp.load source)

/-- Loads and evaluates a source text. -/
def run (source : String) : Interp (Except Error Cell) := runWithin stepLimit source

/-- The compact JSON text of a value. -/
def toJson (library : Json.Library) (c : Cell) : Query String := do
  pure (library.write (← Query.exchange c))

/-- Runs a source text and shows its value as source text or as JSON; void shows as nothing.  An
error shows as its report. -/
def execute (library : Json.Library) (json : Bool) (source : String) :
    Interp (Except String String) := do
  match ← run source with
  | .error e => pure (.error e.display)
  | .ok value =>
    if json then .ok <$> Query.ask (toJson library value)
    else if value.isVoid then pure (.ok "")
    else .ok <$> Query.ask (Query.mold value)

/-- Writes the user's variable with a name, which is added if it is new. -/
def setUser (name : String) (value : Cell) : Interp Unit := do
  let symbol ← Interp.intern name
  let user := (← get).user
  match ← Query.findKey? user symbol with
  | some slot => Interp.writeVar ⟨user, slot⟩ value
  | none =>
    let _ ← Interp.appendKey user symbol value

end Homoicon.Interpreter
