import Homoicon.Action.Making
import Homoicon.Library.Native

/-!
# Making actions

Functions from a spec and a body, operators, specializations and chains of actions, and calls with
arguments assigned by name.
-/

namespace Homoicon

namespace Query

/-- The names that the items of a spec define, whatever they are in it. -/
def specNames (spec : Cell) : Query (List SymbolId) := do
  let symbols := (← read).symbols
  let names ← (← items spec).mapM fun item => do
    match item.wordSymbol? with
    | some symbol => pure (some (symbols.canon symbol))
    | none =>
      if ← isRefinementPath item then
        pure ((← cell (← arrayOf item) 1).wordSymbol?.map symbols.canon)
      else pure none
  pure (names.filterMap id)

/-- The names gathered so far, last first, together with all names that count as known. -/
structure Gathered where
  known : List SymbolId
  found : List SymbolId := []

/-- Adds the set-words among some cells, and in the arrays among them, that are not yet known. -/
def gatherSetWords : Nat → List Cell → Gathered → Query Gathered
  | 0, _, _ => throw .exhausted
  | _ + 1, [], g => pure g
  | fuel + 1, c :: rest, g => do
    if c.is .setWord then
      match c.wordSymbol? with
      | none => gatherSetWords fuel rest g
      | some symbol =>
        let canon ← canon symbol
        if g.known.contains canon then gatherSetWords fuel rest g
        else gatherSetWords fuel rest { known := canon :: g.known, found := symbol :: g.found }
    else if c.quote == 0 && c.kind.isAnyArray then
      match c.seriesId? with
      | some inner =>
        let g ← gatherSetWords fuel (← cellsFrom inner 0) g
        gatherSetWords fuel rest g
      | none => gatherSetWords fuel rest g
    else gatherSetWords fuel rest g

end Query

namespace Library

/-- Makes a function. -/
def makeFunction (f : FrameId) (spec body : Cell) : Interp Bounce := do
  Interp.give f (Cell.action (← Interp.makeFunc spec body) .unbound)

/-- FUNC: a function. -/
def func (_ : Engine) (f : FrameId) : Interp Bounce := do
  makeFunction f (← Query.arg f 1) (← Query.arg f 2)

/-- FUNCTION: a function with the set-words of its body as locals. -/
def function (e : Engine) (f : FrameId) : Interp Bounce := do
  let spec ← Query.arg f 1
  let body ← Query.arg f 2
  let gathered ← Query.gatherSetWords e.rounds (← Query.items body) ⟨← Query.specNames spec, []⟩
  match gathered.found.reverse with
  | [] => makeFunction f spec body
  | locals =>
    let tag ← Interp.textCell .tag "local"
    let widened ← Interp.arrayCell .block
      ((← Query.items spec) ++ tag :: locals.map (Cell.word .word))
    makeFunction f widened body

/-- DOES: a function without parameters. -/
def does (_ : Engine) (f : FrameId) : Interp Bounce := do
  makeFunction f (← Interp.arrayCell .block []) (← Query.arg f 1)

/-- ENFIX: an action that takes its first argument from the left. -/
def enfix (_ : Engine) (f : FrameId) : Interp Bounce := do
  Interp.give f { ← Query.arg f 1 with enfixed := true }

/-- The action of an argument. -/
def actionArg (f : FrameId) (n : Nat) : Interp (Action × Binding) := do
  let c ← Query.arg f n
  match c.asAction? with
  | some action => pure (action, c.binding)
  | none => Interp.refuseArg f n

/-- Assigns arguments by name: runs a block whose words refer to the slots of an exemplar.  `false`
for a throw. -/
def assignArgs (e : Engine) (exemplar : SeriesId) (action : Action) (binding : Binding)
    (block : Cell) : Interp Bool := do
  let copy ← Interp.copyBoundTo exemplar block
  let result ← e.doGuarded [Cell.frame exemplar action binding] (Cell.series .block copy 0)
  pure result.isSome

/-- Marks the slots of an exemplar that were assigned as fixed, from a slot on.  An argument of a
refinement puts the refinement in use. -/
def fixSlots (exemplar base : SeriesId) : List Nat → Option Nat → Interp Unit
  | [], _ => pure ()
  | i :: rest, refinement => do
    let p ← Query.param base i
    match p.paramClass with
    | .local | .return => fixSlots exemplar base rest refinement
    | _ =>
      let isRefinement := p.paramClass = .refinement
      let refinement := if isRefinement then some i else refinement
      let value ← Query.cell exemplar i
      if !(← Query.isSpecialized exemplar i) && !value.isNull then
        if !Query.typeMatches p value then
          fail (.expectArg "specialize" (← Query.paramName p) value.typeKind.name)
        let fixed :=
          if isRefinement then (if value.isTruthy then Cell.logic true else Cell.blank)
          else value.copied
        Interp.storeCell exemplar i { fixed with checked := true }
        match refinement with
        | some r =>
          if r != i && !(← Query.isSpecialized exemplar r) then
            Interp.storeCell exemplar r Interp.usedRefinement
        | none => pure ()
      fixSlots exemplar base rest refinement

/-- SPECIALIZE: an action with some arguments fixed. -/
def specialize_ (e : Engine) (f : FrameId) : Interp Bounce := do
  let (action, binding) ← actionArg f 1
  let exemplar ← Interp.makeExemplar action binding
  if !(← assignArgs e exemplar action binding (← Query.arg f 2)) then return .thrown
  let base ← Query.underlyingParamlist action
  fixSlots exemplar base (← Query.slotsOf base) none
  Interp.give f (Cell.action (← Interp.makeSpecialization action binding exemplar) .unbound)

/-- The chain of some actions, given last first, before a tail. -/
def linkChain : List Cell → Cell → Interp Cell
  | [], tail => pure tail
  | link :: rest, tail => do
    match link.asAction? with
    | none => fail (.invalidArg (← Query.mold link))
    | some first =>
      let chain ← Interp.makeChain first [link, tail]
      linkChain rest (Cell.action chain .unbound)

/-- CHAIN: an action that hands its result to the next one. -/
def chain (e : Engine) (f : FrameId) : Interp Bounce := do
  match ← e.reduceBlock (← Query.arg f 1) with
  | none => pure .thrown
  | some reduced =>
    let actions ← Query.items reduced
    match actions.find? (·.asAction?.isNone) with
    | some other => fail (.invalidArg (← Query.mold other))
    | none =>
      match actions.reverse with
      | [] => fail (.invalidArg "[]")
      | last :: before =>
        Interp.give f { ← linkChain before last with enfixed := false }

/-- Puts the refinements in use whose arguments were assigned. -/
def useRefinements (exemplar base : SeriesId) : List Nat → Option Nat → Interp Unit
  | [], _ => pure ()
  | i :: rest, refinement => do
    match (← Query.param base i).paramClass with
    | .refinement => useRefinements exemplar base rest (some i)
    | .local | .return => useRefinements exemplar base rest refinement
    | _ =>
      match refinement with
      | some r =>
        if !(← Query.cell exemplar i).isNull && (← Query.cell exemplar r).isNull then
          Interp.storeCell exemplar r (Cell.logic true)
      | none => pure ()
      useRefinements exemplar base rest refinement

/-- APPLY: a call with arguments assigned by name. -/
def apply (e : Engine) (f : FrameId) : Interp Bounce := do
  let (action, binding) ← actionArg f 1
  let exemplar ← Interp.makeExemplar action binding
  if !(← assignArgs e exemplar action binding (← Query.arg f 2)) then return .thrown
  let base ← Query.underlyingParamlist action
  useRefinements exemplar base (← Query.slotsOf base) none
  let frame := Cell.frame exemplar action binding
  let result ← Interp.guarding do
    Interp.guard frame
    e.doFrame frame
  Interp.giveOrThrow f result

/-- Actions that make actions. -/
def functions : List Native :=
  [{ name := "func", spec := "spec [block!] body [block!]", run := func },
    { name := "function", spec := "spec [block!] body [block!]", run := function },
    { name := "does", spec := "body [block!]", run := does },
    { name := "enfix", spec := "action [action!]", run := enfix },
    { name := "specialize", spec := "specializee [action!] def [block!]", run := specialize_ },
    { name := "chain", spec := "pipeline [block!]", run := chain },
    { name := "apply", spec := "applicand [action!] def [block!]", run := apply }]

end Library

end Homoicon
