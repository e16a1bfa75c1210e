import Homoicon.Action.Making
import Homoicon.Conversion
import Homoicon.Error.Value
import Homoicon.Library.Native

/-!
# Making values

MAKE builds contexts, errors, frames and variadic values, and converts to other kinds as TO does.
-/

namespace Homoicon.Library

/-- Adds the set-words at the top level of an array to a context. -/
def addSetWords (context array : SeriesId) : Interp Unit := do
  (← Query.cellsFrom array 0).forM fun c => do
    if c.is .setWord then
      match c.wordSymbol? with
      | some symbol =>
        if (← Query.findKey? context symbol).isNone then
          let _ ← Interp.appendKey context symbol Cell.null
      | none => pure ()

/-- Evaluates a copy of a block whose words refer to a context; set-words at its top level become
variables of it.  `false` for a throw. -/
def runIn (e : Engine) (context : SeriesId) (block : Cell) : Interp Bool := do
  let copy ← Interp.copyArrayDeep (← Query.arrayOf block) block.index
    (Query.deriveSpecifier block none)
  addSetWords context copy
  Interp.bindDeep copy context false
  let owner := Cell.context (← Query.contextKind context) context
  let result ← e.doGuarded [owner] (Cell.series .block copy 0)
  pure result.isSome

/-- Makes an object or module, from scratch or from another context. -/
def makeContextValue (e : Engine) (f : FrameId) (kind : Kind) (type spec : Cell) :
    Interp Bounce := do
  let context ←
    match if type.kind.isAnyContext then type.varlist? else none with
    | some parent => Interp.copyContext parent true
    | none => Interp.makeContext kind []
  if spec.is .block then
    if !(← runIn e context spec) then return .thrown
  else if !spec.isBlank then fail (.badMake kind.name (← Query.mold spec))
  Interp.give f (Cell.context kind context)

/-- Makes an error from a message or from a block that sets its fields. -/
def makeError (e : Engine) (f : FrameId) (spec : Cell) : Interp Bounce := do
  if spec.is .text then
    Interp.give f (← Interp.errorValue (Error.user (← Query.cellText spec)))
  else if !spec.is .block then fail (.badMake "error!" (← Query.mold spec))
  else
    let value ← Interp.errorValue (Error.user "")
    match value.varlist? with
    | none => fail .badErrorValue
    | some context =>
      if ← runIn e context spec then Interp.give f value else pure .thrown

/-- Makes a frame for a call of an action. -/
def makeFrame (f : FrameId) (spec : Cell) : Interp Bounce := do
  match spec.asAction? with
  | some action =>
    let exemplar ← Interp.makeExemplar action spec.binding
    Interp.give f (Cell.frame exemplar action spec.binding)
  | none => fail (.badMake "frame!" (← Query.mold spec))

/-- Makes a variadic value over the items of a block. -/
def makeVarargs (f : FrameId) (spec : Cell) : Interp Bounce := do
  let array ← Query.arrayOf spec
  let copy ← Interp.copyArrayShallow array spec.index (← Query.size array)
    (Query.deriveSpecifier spec none)
  let holder ← Interp.allocArray [Cell.series .block copy 0]
  Interp.give f { kind := .varargs, payload := .varargs (.array holder none 0) }

/-- An empty series of a kind. -/
def emptySeries (kind : Kind) : Interp Cell :=
  if kind.isAnyArray then Interp.arrayCell kind []
  else if kind = .binary then Interp.binaryCell #[]
  else Interp.textCell kind ""

/-- The kind that MAKE is asked for: a datatype, or that of an example. -/
def wantedKind (type spec : Cell) : Query Kind := do
  match type.payload with
  | .datatype k => pure (if type.quote == 0 then k else type.typeKind)
  | _ => if type.isNull then fail (.badMake "null" (← Query.mold spec)) else pure type.typeKind

/-- MAKE: builds a value of a kind. -/
def make (e : Engine) (f : FrameId) : Interp Bounce := do
  let type ← Query.arg f 1
  let spec ← Query.arg f 2
  let kind ← Query.ask (wantedKind type spec)
  match kind with
  | .object | .module => makeContextValue e f kind type spec
  | .error => makeError e f spec
  | .frame => makeFrame f spec
  | .varargs =>
    if spec.is .block then makeVarargs f spec
    else fail (.badMake kind.name (← Query.mold spec))
  | .datatype | .action => fail (.badMake kind.name (← Query.mold spec))
  | _ =>
    if kind.isAnySeries && spec.asInteger?.isSome then Interp.give f (← emptySeries kind)
    else if spec.isNull then fail (.badMake kind.name "null")
    else Interp.give f (← Interp.convert kind spec)

/-- TO: converts a value to a kind. -/
def convertTo (_ : Engine) (f : FrameId) : Interp Bounce := do
  match (← Query.arg f 1).payload with
  | .datatype kind => Interp.give f (← Interp.convert kind (← Query.arg f 2))
  | _ => Interp.refuseArg f 1

/-- CONTEXT: makes an object. -/
def context (e : Engine) (f : FrameId) : Interp Bounce := do
  let object ← Interp.makeContext .object []
  if ← runIn e object (← Query.arg f 1) then Interp.give f (Cell.context .object object)
  else pure .thrown

/-- Actions that make values. -/
def makers : List Native :=
  [{ name := "make", spec := "type [<opt> any-value!] def [<opt> any-value!]", run := make },
    { name := "to", spec := "type [datatype!] value [any-value!]", run := convertTo },
    { name := "context", spec := "spec [block!]", run := context }]

end Homoicon.Library
