import Homoicon.Frame.Call
import Homoicon.Mold

/-!
# Making actions

A spec block lists parameters with their types and conventions.  From it comes a paramlist, and
with something to run an action.  Specializations and chains share the parameters of the action
they are made from.
-/

namespace Homoicon

/-- What has been read of a spec. -/
structure SpecReader where
  /-- The parameters so far, last first. -/
  reversed : List Typeset := []
  /-- Words now name locals. -/
  locals : Bool := false
  flags : Flags := 0

namespace Query

/-- Adds what one item of a type block says to the kinds and conventions of a parameter. -/
def paramType (paramClass : ParamClass) (kinds : KindSet) (flags : ParamFlags) (t : Cell) :
    Query (KindSet × ParamFlags) := do
  if t.is .tag then
    match ← cellText t with
    | "opt" => pure (kinds.insert .null, flags)
    | "end" => pure (kinds, { flags with endable := true })
    | "..." => pure (kinds, { flags with variadic := true })
    | "blank" => pure (kinds, { flags with noopIfBlank := true })
    | "skip" => pure (kinds, { flags with skippable := true, endable := true })
    | "dequote" | "requote" => pure (kinds, { flags with requote := true })
    | other =>
      if other == "invisible" && paramClass = .return then pure (kinds, flags)
      else fail (.badFuncDef ("<" ++ other ++ ">"))
  else if t.is .text then pure (kinds, flags)
  else if t.quote == 1 && t.kind = .word then pure (kinds, { flags with quotedWord := true })
  else if t.quote == 1 && t.kind = .path then pure (kinds, { flags with quotedPath := true })
  else
    let name ←
      match t.quote, t.kind, t.payload with
      | 0, .word, .word symbol _ => lower symbol
      | 0, .datatype, .datatype k => pure k.name
      | _, _, _ => do fail (.badFuncDef (← mold t))
    match KindSet.ofName? name with
    | some more => pure (kinds.union more, flags)
    | none => fail (.badFuncDef name)

/-- The kinds and conventions that a type block such as `[integer! <opt>]` gives. -/
def paramTypes (paramClass : ParamClass) : List Cell → KindSet → ParamFlags →
    Query (KindSet × ParamFlags)
  | [], kinds, flags => pure (if flags.skippable then kinds.insert .null else kinds, flags)
  | t :: rest, kinds, flags => do
    let (kinds, flags) ← paramType paramClass kinds flags t
    paramTypes paramClass rest kinds flags

/-- The conventions of a parameter joined with further ones. -/
def joinFlags (a b : ParamFlags) : ParamFlags :=
  { endable := a.endable || b.endable, skippable := a.skippable || b.skippable,
    variadic := a.variadic || b.variadic, noopIfBlank := a.noopIfBlank || b.noopIfBlank,
    requote := a.requote || b.requote, quotedWord := a.quotedWord || b.quotedWord,
    quotedPath := a.quotedPath || b.quotedPath }

/-- The class of the parameter that an item of a spec names, and whether words after it still name
locals. -/
def specClass (locals : Bool) (item : Cell) (symbol : SymbolId) : Query (ParamClass × Bool) := do
  match item.kind, item.quote with
  | .word, 0 => pure (if locals then .local else .normal, locals)
  | .word, 1 => pure (.softQuote, locals)
  | .getWord, 0 => pure (.hardQuote, locals)
  | .path, 0 => pure (.refinement, false)
  | .setWord, 0 =>
    if (← lower symbol) == "return" then pure (.return, locals)
    else if locals then pure (.local, locals)
    else fail (.badFuncDef (← mold item))
  | _, _ => fail (.badFuncDef (← mold item))

/-- Gives the last parameter its types. -/
def specTypes (r : SpecReader) (item : Cell) : Query SpecReader := do
  match r.reversed with
  | last :: before =>
    if last.paramClass = .local then fail (.badFuncDef (← mold item))
    let items ← cellsFrom (← arrayOf item) item.index
    let (kinds, flags) ← paramTypes last.paramClass items KindSet.empty {}
    let last := { last with kinds, flags := joinFlags last.flags flags }
    if last.flags.skippable && last.paramClass != .hardQuote then
      fail (.badFuncDef "<skip> is only for hard quoted parameters")
    pure { r with reversed := last :: before }
  | [] => fail (.badFuncDef (← mold item))

/-- The name that an item of a spec gives to a parameter. -/
def specSymbol (item : Cell) : Query SymbolId := do
  match item.wordSymbol? with
  | some symbol => pure symbol
  | none =>
    if ← isRefinementPath item then refinementSymbol item
    else fail (.badFuncDef (← mold item))

/-- Adds the parameter that an item of a spec names. -/
def specParam (r : SpecReader) (item : Cell) : Query SpecReader := do
  let symbol ← specSymbol item
  let (paramClass, locals) ← specClass r.locals item symbol
  let symbols := (← read).symbols
  let isKnown := r.reversed.any fun p =>
    p.symbol.any fun s => symbols.canon s == symbols.canon symbol
  if isKnown then fail (.badFuncDef ("duplicate parameter " ++ symbols.spelling symbol))
  let kinds := match paramClass with
    | .refinement => KindSet.ofList [.logic, .blank]
    | .local => KindSet.anyValue
    | _ => KindSet.paramDefault
  pure { r with locals, reversed := Typeset.param symbol paramClass kinds :: r.reversed }

/-- Reads one item of a spec. -/
def specItem (r : SpecReader) (item : Cell) : Query SpecReader := do
  if item.is .text then pure r
  else if item.is .tag then
    match ← cellText item with
    | "local" => pure { r with locals := true }
    | "defer" => pure { r with flags := r.flags ||| Flags.defersLookback }
    | "postpone" => pure { r with flags := r.flags ||| Flags.postpones }
    | other => fail (.badFuncDef ("<" ++ other ++ ">"))
  else if item.is .block then specTypes r item
  else specParam r item

/-- Whether an action made with these parameters quotes, skips or may lack its first one. -/
def firstParamFlags (paramlist : SeriesId) (exemplar : Option SeriesId) :
    List Nat → Query Flags
  | [] => pure 0
  | i :: rest => do
    let p ← param paramlist i
    if p.paramClass = .local || p.paramClass = .return then
      firstParamFlags paramlist exemplar rest
    else if ← isFixed exemplar i then firstParamFlags paramlist exemplar rest
    else
      let quotes : Flags := if p.paramClass = .hardQuote then Flags.quotesFirst else 0
      let skips : Flags :=
        if p.paramClass = .hardQuote && p.flags.skippable then Flags.skippableFirst else 0
      let ends : Flags := if p.flags.endable then Flags.endableFirst else 0
      pure (quotes ||| skips ||| ends)

/-- The conventions that any parameter brings to an action. -/
def anyParamFlags (p : Typeset) : Flags :=
  (if p.flags.requote then Flags.returnRequotes else 0) |||
    (if p.paramClass = .return then
      Flags.hasReturn ||| (if p.kinds.bits == 0 then Flags.invisible else 0)
    else 0)

/-- The conventions of an action by its parameters. -/
def conventions (paramlist : SeriesId) (exemplar : Option SeriesId) : Query Flags := do
  let slots ← slotsOf paramlist
  let first ← firstParamFlags paramlist exemplar slots
  let params ← slots.mapM (param paramlist)
  pure (params.foldl (fun flags p => flags ||| anyParamFlags p) first)

end Query

namespace Interp

/-- The paramlist of a spec from a position on.  With `ownReturn` a parameter for RETURN is added
unless the spec names one. -/
def makeParamlist (spec : SeriesId) (index : Nat) (ownReturn : Bool) : Interp SeriesId := do
  let items ← Query.cellsFrom spec index
  let r ← Query.ask (items.foldlM Query.specItem ({} : SpecReader))
  let params := r.reversed.reverse
  let params ←
    if ownReturn && !params.any (·.paramClass = .return) then do
      pure (params ++ [Typeset.param (← intern "return") .return KindSet.anyValue])
    else pure params
  alloc ((Series.ofCells (Cell.blank :: params.map Cell.typeset).toArray).withFlags
    (Flags.paramlist ||| Flags.managed ||| r.flags))

/-- Notes on a paramlist the conventions of its action. -/
def setConventions (paramlist : SeriesId) (exemplar : Option SeriesId) : Interp Unit := do
  setFlag paramlist (← Query.conventions paramlist exemplar)

/-- Completes a paramlist into an action. -/
def makeAction (paramlist : SeriesId) (dispatcher : Dispatcher) (details : List Cell)
    (exemplar : Option SeriesId) : Interp Action := do
  let details ← alloc { (Series.ofCells details.toArray).withFlags
      (Flags.details ||| Flags.managed) with
    role := .dispatcher dispatcher
    link := match exemplar with
      | some ex => .exemplar ex
      | none => .none }
  let action : Action := { paramlist, details }
  storeCell paramlist 0 (Cell.action action .unbound)
  setConventions paramlist exemplar
  pure action

/-- The action of a function: its body is copied, and the words in it that name parameters refer to
them. -/
def makeFunc (spec body : Cell) : Interp Action := do
  let paramlist ← makeParamlist (← Query.arrayOf spec) spec.index true
  let copy ← copyArrayDeep (← Query.arrayOf body) body.index (Query.deriveSpecifier body none)
  relativizeDeep copy paramlist
  makeAction paramlist .body [(Cell.series .block copy 0).withBinding (.relative paramlist)] none

/-- A new paramlist over the parameters that calls of an action are laid out by. -/
def sharedParamlist (action : Action) : Interp SeriesId := do
  let base ← Query.underlyingParamlist action
  let cells ← Query.cells base
  let flags := (← Query.series action.paramlist).flags &&&
    (Flags.defersLookback ||| Flags.postpones)
  alloc { (Series.ofCells cells).withFlags (Flags.paramlist ||| Flags.managed ||| flags) with
    link := .keylist base }

/-- An action that runs another one with the arguments that an exemplar fixes. -/
def makeSpecialization (underlying : Action) (binding : Binding) (exemplar : SeriesId) :
    Interp Action := do
  let paramlist ← sharedParamlist underlying
  makeAction paramlist .specialization [Cell.action underlying binding] (some exemplar)

/-- An action with the parameters of another one that runs a chain. -/
def makeChain (first : Action) (details : List Cell) : Interp Action := do
  let paramlist ← sharedParamlist first
  makeAction paramlist .chain details (← Query.exemplar? first)

/-- A new exemplar for an action; what is fixed already stays fixed. -/
def makeExemplar (action : Action) (binding : Binding) : Interp SeriesId := do
  let base ← Query.underlyingParamlist action
  let count ← Query.size base
  let cells ← match ← Query.exemplar? action with
    | some ex => Query.ask (Query.cells ex)
    | none => pure #[]
  let padded := (cells.extract 0 count) ++ Array.replicate (count - cells.size) Cell.null
  let ex ← alloc { (Series.ofCells padded).withFlags (Flags.varlist ||| Flags.managed) with
    link := .keylist base }
  storeCell ex 0 (Cell.frame ex action binding)
  pure ex

/-- A true that counts as a fixed argument. -/
def usedRefinement : Cell := { Cell.logic true with checked := true }

/-- An action that runs another one with some refinements in use. -/
def specializeRefinements (action : Action) (binding : Binding) (refinements : List SymbolId) :
    Interp Action := do
  let ex ← makeExemplar action binding
  let base ← Query.underlyingParamlist action
  refinements.forM fun symbol => do
    match ← Query.findParam? base symbol with
    | some i =>
      if (← Query.param base i).paramClass = .refinement then storeCell ex i usedRefinement
      else fail (.badRefine (← Query.spelling symbol))
    | none => fail (.badRefine (← Query.spelling symbol))
  makeSpecialization action binding ex

end Interp

end Homoicon
