import Homoicon.Action.Making
import Homoicon.Evaluation.Engine
import Homoicon.Path.Step

/-!
# Walking paths

A path picks its way from the value of its first part.  When it reaches an action, the parts behind
it are refinements of the call.
-/

namespace Homoicon

/-- What a path came to. -/
inductive PathResult where
  | value (c : Cell)
  /-- An action to call; its refinements are on the data stack, the first on top. -/
  | action (action : Action) (binding : Binding) (label : Option SymbolId)
  | thrown
deriving Inhabited

namespace Query

/-- The path `/`, which is two blanks. -/
def isDividePath (c : Cell) : Query Bool := do
  if !c.is .path then pure false
  else
    match c.seriesId? with
    | none => pure false
    | some id =>
      match (← cells id).toList.drop c.index with
      | [x, y] => pure (x.isBlank && y.isBlank)
      | _ => pure false

/-- A path with a blank head evaluates to itself. -/
def isInertPath (c : Cell) : Query Bool := do
  match c.seriesId? with
  | none => pure true
  | some id =>
    match (← cells id)[c.index]? with
    | some head => pure head.isBlank
    | none => pure true

end Query

namespace Path

/-- The value of a part of a path; `none` for a throw.  With `noGroups` a group is refused. -/
def picker (e : Engine) (item : Cell) (specifier : Specifier) (noGroups : Bool) :
    Interp (Option Cell) := do
  if item.quote != 0 then
    let v ← Interp.derelativize item specifier
    return some (← Query.unquotify v 1)
  match item.kind with
  | .group =>
    if noGroups then fail .pathGroup
    e.evalArray (← Query.arrayOf item) item.index (Query.deriveSpecifier item specifier)
  | .getWord => pure (some (← Query.getVar item specifier))
  | _ => pure (some (← Interp.derelativize item specifier))

/-- The refinement that a part of a path names, if any; `none` for a throw. -/
def refinement (e : Engine) (item : Cell) (specifier : Specifier) (noGroups : Bool) :
    Interp (Option (Option SymbolId)) := do
  if item.quote != 0 then fail (.badRefine (← Query.mold item))
  match item.kind with
  | .word => pure (some item.wordSymbol?)
  | .getWord =>
    let value ← Query.getVar item specifier
    pure (some (if value.isTruthy then item.wordSymbol? else none))
  | .group =>
    match ← picker e item specifier noGroups with
    | none => pure none
    | some v =>
      if v.isNull || v.isBlank then pure (some none)
      else if v.kind.isAnyWord then pure (some v.wordSymbol?)
      else fail (.badRefine (← Query.mold v))
  | .blank => pure (some none)
  | _ => fail (.badRefine (← Query.mold item))

/-- Pushes the refinements that some parts name, in order; `true` for a throw. -/
def pushNames (e : Engine) (specifier : Specifier) (noGroups : Bool) (base : Nat) :
    List Cell → Interp Bool
  | [] => pure false
  | item :: rest => do
    match ← refinement e item specifier noGroups with
    | none =>
      Interp.truncateStack base
      pure true
    | some symbol =>
      match symbol with
      | some symbol => Interp.pushStack (Cell.word .word symbol)
      | none => pure ()
      pushNames e specifier noGroups base rest

/-- Pushes the refinements that some parts name, the first on top; `true` for a throw. -/
def pushRefinements (e : Engine) (rest : List Cell) (specifier : Specifier) (noGroups : Bool) :
    Interp Bool := do
  let base ← Interp.stackHeight
  if ← pushNames e specifier noGroups base rest then pure true
  else
    modify fun m =>
      { m with stack := m.stack.extract 0 base ++ (m.stack.extract base m.stack.size).reverse }
    pure false

/-- Walks the parts of a path behind `previous`, from the value `current`. -/
def walk (e : Engine) (specifier : Specifier) (noGroups : Bool) :
    Cell → Cell → Option SymbolId → List Cell → Interp PathResult
  | current, _, label, [] =>
    match current.asAction? with
    | some action => pure (.action action current.binding label)
    | none => pure (.value current)
  | current, previous, label, item :: rest => do
    match current.asAction? with
    | some action =>
      if ← pushRefinements e (item :: rest) specifier noGroups then pure .thrown
      else pure (.action action current.binding label)
    | none =>
      if current.isNull then fail (.noValue (← Query.mold previous))
      match ← picker e item specifier noGroups with
      | none => pure .thrown
      | some picker =>
        let label := if picker.is .word then picker.wordSymbol? else label
        let (next, _) ← pick current picker
        walk e specifier noGroups next item label rest

/-- Evaluates a path. -/
def eval (e : Engine) (path : Cell) (specifier : Specifier) (noGroups : Bool) :
    Interp PathResult := do
  if ← Query.isDividePath path then
    return .action (← get).specials.divide .unbound none
  let inner := Query.deriveSpecifier path specifier
  match ← Query.cellsFrom (← Query.arrayOf path) path.index with
  | [] => pure (.value Cell.blank)
  | head :: rest =>
    if head.is .word then
      let current ← Query.getVar head inner
      walk e inner noGroups current head head.wordSymbol? rest
    else
      match ← picker e head inner noGroups with
      | none => pure .thrown
      | some current => walk e inner noGroups current head none rest

/-- The value at a path; an action reached with refinements becomes one that uses them.  `none`
for a throw. -/
def get (e : Engine) (path : Cell) (specifier : Specifier) (noGroups : Bool) :
    Interp (Option Cell) := do
  let base ← Interp.stackHeight
  match ← eval e { path with kind := .path } specifier noGroups with
  | .thrown => pure none
  | .value v => pure (some v)
  | .action action binding _ =>
    let pushed := (← getThe Machine).stack.toList.drop base
    Interp.truncateStack base
    match (pushed.filterMap Cell.wordSymbol?).reverse with
    | [] => pure (some (Cell.action action binding))
    | refinements =>
      let special ← Interp.specializeRefinements action binding refinements
      pure (some (Cell.action special binding))

/-- Walks the parts of a path up to the last, and stores a value there; `true` for a throw. -/
def store (e : Engine) (specifier : Specifier) (noGroups : Bool) (value : Cell) :
    Cell → Cell → Place → List Cell → Interp Bool
  | _, _, _, [] => pure false
  | current, previous, place, item :: rest => do
    if current.isNull then fail (.noValue (← Query.mold previous))
    match ← picker e item specifier noGroups with
    | none => pure true
    | some picker =>
      match rest with
      | _ :: _ =>
        let (next, place) ← pick current picker
        store e specifier noGroups value next item place rest
      | [] =>
        match ← poke current picker value with
        | none => pure false
        | some updated =>
          match place with
          | .variable_ r => Interp.writeVar r updated
          | .slot array index =>
            Query.checkMutable array
            Interp.moveCell array index updated
          | .nowhere => fail (.badPathPoke (← Query.mold picker))
          pure false

/-- Stores a value at a path; `true` for a throw. -/
def set (e : Engine) (path : Cell) (specifier : Specifier) (value : Cell) (noGroups : Bool) :
    Interp Bool := do
  let inner := Query.deriveSpecifier path specifier
  match ← Query.cellsFrom (← Query.arrayOf path) path.index with
  | head :: next :: rest =>
    if head.kind.isAnyWord && head.quote == 0 then
      let r ← Query.resolveWord head inner
      store e inner noGroups value (← Query.varContent r) head (.variable_ r) (next :: rest)
    else
      match ← picker e head inner noGroups with
      | none => pure true
      | some current => store e inner noGroups value current head .nowhere (next :: rest)
  | _ => fail (.badPathPoke (← Query.mold path))

end Path

end Homoicon
