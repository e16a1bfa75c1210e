import Homoicon.Collector
import Homoicon.Library.Native
import Homoicon.Quoting
import Homoicon.Series.Editing

/-!
# Looking into values

Kinds, properties of values by name, protection of variables and series, and the collector.
-/

namespace Homoicon

namespace Interp

/-- The context that a word refers to; the frame, if that is a running call. -/
def bindingOf (word : Cell) : Interp Cell := do
  match word.binding with
  | .specific context =>
    if !(← Query.isLive context) then return Cell.null
    match ← Query.frameOfVarlist? context with
    | some f => frameValue f
    | none => pure (Cell.context (← Query.contextKind context) context)
  | _ => pure Cell.null

/-- A parameter as the spec of its action writes it. -/
def paramWord (symbol : SymbolId) : ParamClass → Interp Cell
  | .refinement => arrayCell .path [Cell.blank, Cell.word .word symbol]
  | .hardQuote => pure (Cell.word .getWord symbol)
  | .softQuote => quotify (Cell.word .word symbol) 1
  | _ => pure (Cell.word .word symbol)

/-- The parameters of an action, or the names of a context's variables. -/
def wordsOf (value : Cell) : Interp Cell := do
  match value.asAction? with
  | some action =>
    let params ← Query.paramWords action
    arrayCell .block (← params.mapM fun (symbol, paramClass) => paramWord symbol paramClass)
  | none =>
    match if value.kind.isAnyContext then value.varlist? else none with
    | some context =>
      Query.checkAccessible context
      let keys ← Query.contextKeys context
      arrayCell .block (keys.map (Cell.word .word))
    | none => fail (.cannotReflect value.typeKind.name "words")

/-- The values of a context's variables; blank stands for null. -/
def valuesOf (value : Cell) : Interp Cell := do
  match if value.kind.isAnyContext then value.varlist? else none with
  | some context =>
    Query.checkAccessible context
    let size ← Query.contextSize context
    let vars ← (List.range' 1 size).mapM fun i => (Query.cell context i : Interp Cell)
    arrayCell .block (vars.map fun v => if v.isNull then Cell.blank else v.copied)
  | none => fail (.cannotReflect value.typeKind.name "values")

/-- Protects a variable, all variables of a context or a series, or lifts the protection. -/
def setProtection (value : Cell) (on : Bool) : Interp Unit := do
  if value.kind.isAnyWord then
    let r ← Query.resolveWord value none
    modifyCell r.context r.index fun c => { c with guarded := on }
  else
    match if value.kind.isAnyContext then value.varlist? else none with
    | some context =>
      Query.checkAccessible context
      modifyCells context fun cells =>
        cells.mapIdx fun i c => if i == 0 then c else { c with guarded := on }
    | none =>
      let id ← Query.arrayOf value
      if on then setFlag id Flags.locked else clearFlag id Flags.locked

end Interp

namespace Library

/-- A property of a value by name. -/
def property (name : String) (value : Cell) : Interp Cell := do
  let unknown : Interp Cell := fail (.cannotReflect value.typeName name)
  let isSeries := value.quote == 0 && value.kind.isAnySeries
  match name with
  | "type" => pure (if value.isNull then Cell.null else Cell.datatype value.typeKind)
  | "length" =>
    match ← Query.lengthOf? value with
    | some n => pure (Cell.integer n)
    | none => unknown
  | "index" => if isSeries then pure (Cell.integer (value.index + 1)) else unknown
  | "head" => if isSeries then pure (value.atIndex 0) else unknown
  | "tail" =>
    if isSeries then do pure (value.atIndex (← Query.size (← Query.arrayOf value))) else unknown
  | "words" => Interp.wordsOf value
  | "values" => Interp.valuesOf value
  | "binding" => if value.kind.isAnyWord then Interp.bindingOf value else unknown
  | _ => unknown

/-- OF: a property of a value. -/
def of (_ : Engine) (f : FrameId) : Interp Bounce := do
  let name := Text.lowercase (← Query.wordSpelling (← Query.arg f 1))
  Interp.give f (← property name (← Query.arg f 2))

/-- TYPE-OF: the datatype of a value. -/
def typeOf (_ : Engine) (f : FrameId) : Interp Bounce := do
  let value ← Query.arg f 1
  if value.isNull then pure .null else Interp.give f (Cell.datatype value.typeKind)

/-- NULL? and VALUE?: whether there is no value. -/
def isNull (expected : Bool) (_ : Engine) (f : FrameId) : Interp Bounce := do
  Interp.giveLogic f ((← Query.arg f 1).isNull == expected)

/-- SET?: whether a variable has a value. -/
def isSet (_ : Engine) (f : FrameId) : Interp Bounce := do
  let content? ← Query.tryGetVar? (← Query.arg f 1) none
  Interp.giveLogic f (content?.any fun v => !v.isNull && !v.isVoid)

/-- PROTECT and UNPROTECT. -/
def protection (on : Bool) (_ : Engine) (f : FrameId) : Interp Bounce := do
  let value ← Query.arg f 1
  Interp.setProtection value on
  Interp.give f value

/-- RECYCLE: frees what nothing can reach, and tells how many series that were. -/
def recycle (_ : Engine) (f : FrameId) : Interp Bounce := do
  Interp.give f (Cell.integer (← Interp.recycle))

/-- Actions that look into values. -/
def reflectors : List Native :=
  [{ name := "of", spec := ":property [word!] value [<opt> any-value! void!]", enfix := true,
      run := of },
    { name := "type-of", spec := "value [<opt> any-value! void!]", run := typeOf },
    { name := "null?", spec := "value [<opt> any-value! void!]", run := isNull true },
    { name := "value?", spec := "value [<opt> any-value! void!]", run := isNull false },
    { name := "set?", spec := "var [any-word!]", run := isSet },
    { name := "protect", spec := "value [any-word! any-series! any-context!]",
      run := protection true },
    { name := "unprotect", spec := "value [any-word! any-series! any-context!]",
      run := protection false },
    { name := "recycle", spec := "", run := recycle }]

end Library

end Homoicon
