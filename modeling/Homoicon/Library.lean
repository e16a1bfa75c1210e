import Homoicon.Action.Making
import Homoicon.Action.Running
import Homoicon.Evaluation.Steps
import Homoicon.Library.Branch
import Homoicon.Library.Evaluate
import Homoicon.Library.Failure
import Homoicon.Library.Function
import Homoicon.Library.Jump
import Homoicon.Library.Loop
import Homoicon.Library.Making
import Homoicon.Library.Math
import Homoicon.Library.Output
import Homoicon.Library.Parsing
import Homoicon.Library.Reflection
import Homoicon.Library.Series
import Homoicon.Library.Variable

/-!
# The library

All built-in actions and constants, and the context that holds them.
-/

namespace Homoicon

namespace Library

/-- The built-in actions. -/
def natives : Array Native :=
  (arithmetics ++ comparisons ++ conditionals ++ loops ++ jumps ++ failures ++ evaluators ++
    variableActions ++ functions ++ seriesActions ++ makers ++ reflectors ++ writers ++
    parsers).toArray

/-- Runs what an action is made of. -/
def dispatch : Dispatch := fun e dispatcher f =>
  match dispatcher with
  | .native index =>
    match natives[index]? with
    | some native => native.run e f
    | none => defect
  | .typeCheck => Interp.runTypeCheck f
  | .body => e.runFunction f
  | .specialization => Interp.runSpecialization f
  | .chain => Interp.runChain f

/-- The families of kinds that have a constant. -/
def typesets : List (String × KindSet) :=
  KindSet.families.filter fun (name, _) => name != "any-function!"

/-- The truth values by name. -/
def truths : List (String × Bool) :=
  [("true", true), ("false", false), ("on", true), ("off", false), ("yes", true), ("no", false)]

/-- The name of the action that tests for a kind. -/
def checkerName (kind : Kind) : String :=
  String.ofList (kind.name.toList.filter (· != '!')) ++ "?"

end Library

namespace Interp

/-- Defines a variable of the library. -/
def defineLib (name : String) (value : Cell) : Interp Unit := do
  let symbol ← intern name
  let lib := (← get).lib
  match ← Query.findKey? lib symbol with
  | some slot => storeCell lib slot value
  | none =>
    let _ ← appendKey lib symbol value

/-- Defines an action of the library. -/
def defineAction (name spec : String) (dispatcher : Dispatcher) (details : List Cell)
    (enfix : Bool) : Interp Unit := do
  let block ← scan spec
  let paramlist ← makeParamlist block 0 false
  let action ← makeAction paramlist dispatcher details none
  defineLib name { Cell.action action .unbound with enfixed := enfix }

/-- The action of the library with a name. -/
def libAction (name : String) : Query Action := do
  let m ← read
  match m.symbols.lookup? name with
  | none => fail (.noNative name)
  | some symbol =>
    match (← Query.contextVar? m.lib symbol).bind Cell.asAction? with
    | some action => pure action
    | none => fail (.noNative name)

/-- Defines all built-in actions. -/
def defineActions : Interp Unit := do
  Library.natives.toList.zipIdx.forM fun (native, i) =>
    defineAction native.name native.spec (.native i) [] native.enfix
  Kind.named.forM fun kind =>
    defineAction (Library.checkerName kind) "value [<opt> any-value! void!]" .typeCheck
      [Cell.datatype kind] false

/-- Defines all constants. -/
def defineConstants : Interp Unit := do
  Kind.named.forM fun kind => defineLib kind.name (Cell.datatype kind)
  Library.typesets.forM fun (name, kinds) => defineLib name (Cell.typeset { kinds })
  Library.truths.forM fun (name, value) => defineLib name (Cell.logic value)
  defineLib "blank" Cell.blank

/-- The actions that the evaluator knows by identity. -/
def findSpecials : Query Specials := do
  pure {
    unwind := ← libAction "unwind"
    redo := ← libAction "redo"
    divide := ← libAction "path-0"
    break_ := ← libAction "break"
    continue_ := ← libAction "continue"
    quit := ← libAction "quit"
    parseAccept := ← libAction "parse-accept"
    parseReject := ← libAction "parse-reject"
    return_ := ← libAction "return" }

/-- Sets up the two contexts and the library. -/
def boot : Interp Unit := do
  let lib ← makeContext .module []
  let user ← makeContext .module []
  modify fun m => { m with lib, user }
  setFlag lib Flags.root
  setFlag user Flags.root
  defineActions
  defineConstants
  let specials ← Query.ask findSpecials
  modify fun m => { m with specials }

end Interp

end Homoicon
