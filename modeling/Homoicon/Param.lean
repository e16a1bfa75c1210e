import Homoicon.Context

/-!
# Parameters and actions

Questions about actions: their parameters, the conventions cached on their paramlists, what they
run and which arguments a specialization has fixed.
-/

namespace Homoicon

/-- The sets of kinds that have a name of their own. -/
def KindSet.families : List (String × KindSet) :=
  [("any-value!", KindSet.anyValue.erase .void),
    ("any-word!", KindSet.ofFamily Kind.isAnyWord),
    ("any-path!", KindSet.ofFamily Kind.isAnyPath),
    ("any-block!", KindSet.ofFamily Kind.isAnyBlock),
    ("any-group!", KindSet.ofFamily Kind.isAnyGroup),
    ("any-array!", KindSet.ofFamily Kind.isAnyArray),
    ("any-string!", KindSet.ofFamily Kind.isAnyString),
    ("any-series!", KindSet.ofFamily Kind.isAnySeries),
    ("any-number!", KindSet.ofFamily Kind.isAnyNumber),
    ("any-scalar!",
      (KindSet.ofFamily Kind.isAnyNumber).union (KindSet.ofList [.char, .pair, .tuple, .time])),
    ("any-context!", KindSet.ofFamily Kind.isAnyContext),
    ("any-function!", KindSet.ofList [.action])]

/-- The set of kinds with a name: a family or a single datatype. -/
def KindSet.ofName? (name : String) : Option KindSet :=
  match KindSet.families.find? (fun family => family.1 == name) with
  | some (_, kinds) => some kinds
  | none => (Kind.ofName? name).map fun k => KindSet.ofList [k]

/-- The types of a parameter that names none: anything but null and void. -/
def KindSet.paramDefault : KindSet := KindSet.plainValue.insert .action

namespace Query

/-- A parameter of a paramlist. -/
def param (paramlist : SeriesId) (index : Nat) : Query Typeset := do
  expect (← cell paramlist index).key?

/-- The parameter with a name, whatever its case. -/
def findParam? (paramlist : SeriesId) (symbol : SymbolId) : Query (Option Nat) := do
  let params ← cells paramlist
  let m ← read
  pure (m.symbols.findName? params (m.symbols.canon symbol))

/-- Whether an action has some of the given conventions. -/
def actionHas (action : Action) (flags : Flags) : Query Bool := hasFlag action.paramlist flags

/-- What an action runs. -/
def dispatcher (action : Action) : Query Dispatcher := do
  match (← series action.details).role with
  | .dispatcher d => pure d
  | _ => defect

/-- The details of an action. -/
def details (action : Action) : Query (Array Cell) := cells action.details

/-- The arguments that a specialization has fixed. -/
def exemplar? (action : Action) : Query (Option SeriesId) := do
  match (← series action.details).link with
  | .exemplar id => pure (some id)
  | _ => pure none

/-- The parameters that a call of an action is laid out by. -/
def underlyingParamlist (action : Action) : Query SeriesId := do
  match (← series action.paramlist).link with
  | .keylist id => pure id
  | _ => pure action.paramlist

/-- Whether a slot of an exemplar holds a fixed argument. -/
def isSpecialized (exemplar : SeriesId) (index : Nat) : Query Bool := do
  match (← cells exemplar)[index]? with
  | some c => pure c.checked
  | none => pure false

/-- Whether the slot of a specialization, if there is one, holds a fixed argument. -/
def isFixed (exemplar : Option SeriesId) (index : Nat) : Query Bool :=
  match exemplar with
  | some id => isSpecialized id index
  | none => pure false

/-- The first of some parameters that a call would take where it stands. -/
def firstOpenParam? (exemplar : Option SeriesId) (paramlist : SeriesId) :
    List Nat → Query (Option Typeset)
  | [] => pure none
  | i :: rest => do
    let p ← param paramlist i
    match p.paramClass with
    | .local | .return => firstOpenParam? exemplar paramlist rest
    | .refinement => pure none
    | _ =>
      if ← isFixed exemplar i then firstOpenParam? exemplar paramlist rest
      else pure (some p)

/-- The slots of an array after the first. -/
def slotsOf (id : SeriesId) : Query (List Nat) := do
  pure (List.range' 1 ((← size id) - 1))

/-- The first parameter that a call would take where it stands, or from the left for an
operator. -/
def firstUnspecializedParam? (action : Action) : Query (Option Typeset) := do
  let paramlist ← underlyingParamlist action
  firstOpenParam? (← exemplar? action) paramlist (← slotsOf paramlist)

/-- Whether a value fits the types of a parameter. -/
def typeMatches (param : Typeset) (c : Cell) : Bool :=
  if c.isNull then param.allows .null || (c.endish && param.flags.endable)
  else if c.quote == 1 && c.kind = .word && param.flags.quotedWord then true
  else if c.quote == 1 && c.kind = .path && param.flags.quotedPath then true
  else param.allows c.typeKind

/-- The names and classes of the parameters that a caller sees. -/
def paramWords (action : Action) : Query (List (SymbolId × ParamClass)) := do
  let paramlist ← underlyingParamlist action
  let exemplar ← exemplar? action
  let words ← (← slotsOf paramlist).mapM fun i => do
    if ← isFixed exemplar i then pure none
    else
      let p ← param paramlist i
      match p.paramClass with
      | .local | .return => pure none
      | paramClass => pure (p.symbol.map fun s => (s, paramClass))
  pure (words.filterMap id)

/-- The name of a parameter. -/
def paramName (param : Typeset) : Query String :=
  match param.symbol with
  | some symbol => spelling symbol
  | none => pure ""

/-- Whether a cell is a path such as `/name`. -/
def isRefinementPath (c : Cell) : Query Bool := do
  if c.quote != 0 || c.kind != .path then pure false
  else
    match c.seriesId? with
    | none => pure false
    | some id =>
      match (← cells id).toList with
      | [head, name] => pure (head.isBlank && name.is .word)
      | _ => pure false

/-- The name of a path such as `/name`. -/
def refinementSymbol (c : Cell) : Query SymbolId := do
  expect (← cell (← arrayOf c) 1).wordSymbol?

end Query

end Homoicon
