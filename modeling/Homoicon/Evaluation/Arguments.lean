import Homoicon.Path.Walk

/-!
# Gathering arguments

Walks the parameters of the running call in order and fills their slots.  Refinements named in a
path wait on the data stack.  One that is named in the order of the parameters is taken from
there at once; one named out of order is marked with its slot, and its arguments are picked up in
a second pass.
-/

namespace Homoicon

/-- The state of the refinement passed last. -/
inductive RefineState where
  /-- Before any refinement, or inside one that is used. -/
  | ordinary
  | unused
  /-- Used, but its arguments come in a later pass. -/
  | pickup
deriving Repr, DecidableEq, Inhabited

/-- The call whose arguments are gathered. -/
structure Call where
  frame : FrameId
  phase : Action
  paramlist : SeriesId
  varlist : SeriesId
  count : Nat
  stackBase : Nat
  prefill : Prefill
  typecheckOnly : Bool

/-- How far the gathering has come. -/
structure Gathering where
  index : Nat := 1
  refine : RefineState := .ordinary
  pickups : Bool := false
  /-- The argument before was the left side of an operator, so the next is a single operand. -/
  tight : Bool := false

namespace Gathering

/-- On to the next parameter. -/
def next (g : Gathering) : Gathering := { g with index := g.index + 1 }

end Gathering

/-- A cell that a soft quoted parameter evaluates. -/
def Cell.isSoftQuotable (c : Cell) : Bool :=
  c.quote == 0 && (c.kind = .group || c.kind = .getWord || c.kind = .getPath)

namespace Interp

/-- Stores an argument that needs no further check. -/
def setArgChecked (varlist : SeriesId) (i : Nat) (value : Cell) : Interp Unit :=
  storeCell varlist i { value.copied with endish := value.endish, checked := true }

/-- Marks an argument as checked. -/
def markChecked (varlist : SeriesId) (i : Nat) : Interp Unit :=
  modifyCell varlist i fun c => { c with checked := true }

/-- Fails because an argument is missing. -/
def failNoArg {α : Type} (f : FrameId) (param : Typeset) : Interp α := do
  fail (.noArg (← Query.frameLabel f) (← Query.paramName param))

/-- Checks a gathered argument against its parameter. -/
def finalizeArg (f : FrameId) (varlist : SeriesId) (i : Nat) (param : Typeset) :
    Interp Unit := do
  let arg ← Query.cell varlist i
  if arg.isEnd then
    if param.flags.endable then return ← setArgChecked varlist i Cell.endishNull
    failNoArg f param
  if param.flags.variadic && arg.is .varargs then return ← markChecked varlist i
  let arg ←
    if param.flags.requote && arg.isQuoted then do
      let (inner, depth) ← Query.dequotify arg
      modifyFrame f fun fr => { fr with requotes := fr.requotes + depth }
      moveCell varlist i inner
      pure inner
    else pure arg
  if param.flags.noopIfBlank && arg.isBlank then
    modifyFrame f fun fr => { fr with fulfillOnly := true }
    return ← markChecked varlist i
  if !Query.typeMatches param arg then
    fail (.expectArg (← Query.frameLabel f) (← Query.paramName param) arg.typeName)
  markChecked varlist i

/-- Looks for a refinement of this name on the data stack.  On top it is taken and the answer is
`some true`; deeper it is marked with its slot and the answer is `some false`. -/
def takeRefinement? (stackBase : Nat) (param : Typeset) (slot : Nat) :
    Interp (Option Bool) := do
  match param.symbol with
  | none => pure none
  | some symbol =>
    let m ← get
    let canon := m.symbols.canon symbol
    let pushed := m.stack.toList.drop stackBase
    let isWanted (c : Cell) : Bool :=
      c.wordIndex == 0 && c.wordSymbol?.map m.symbols.canon == some canon
    match pushed.reverse.findIdx? isWanted with
    | none => pure none
    | some 0 =>
      let _ ← popStack?
      pure (some true)
    | some back =>
      modify fun m => { m with stack := m.stack.modify (m.stack.size - 1 - back) fun c =>
        match c.payload with
        | .word symbol _ => { c with payload := .word symbol slot }
        | _ => c }
      pure (some false)

end Interp

namespace Engine

/-- Evaluates a soft quoted group, get-word or get-path; `none` for a throw. -/
def evalSoftQuoted (e : Engine) (c : Cell) (specifier : Specifier) : Interp (Option Cell) := do
  match c.kind with
  | .group => e.evalArray (← Query.arrayOf c) c.index (Query.deriveSpecifier c specifier)
  | .getWord => pure (some (← Query.getVar c specifier))
  | _ => Path.get e { c with kind := .getPath } specifier false

/-- A variadic argument that gives some cells. -/
def varargsOf (cells : List Cell) (param : Nat) : Interp Cell := do
  let inner ← Interp.allocArray cells
  let holder ← Interp.allocArray [Cell.series .block inner 0]
  pure { kind := .varargs, payload := .varargs (.array holder none param) }

/-- Takes the left side of an operator from the output.  Returns whether the next argument is a
single operand; `none` for a throw. -/
def argFromOut (e : Engine) (call : Call) (i : Nat) (param : Typeset) (tight : Bool) :
    Interp (Option Bool) := do
  let f := call.frame
  let varlist := call.varlist
  let out ← Query.out f
  if !(← Query.actionHas call.phase Flags.invisible) then Interp.writeOut f Cell.staleEnd
  if out.isEnd || out.stale then
    if param.flags.variadic then
      Interp.setArgChecked varlist i (← varargsOf [] i)
      return some tight
    if param.flags.endable then
      Interp.setArgChecked varlist i Cell.endishNull
      return some tight
    Interp.failNoArg f param
  if param.flags.variadic then
    Interp.setArgChecked varlist i (← varargsOf [out.copied] i)
    return some tight
  match param.paramClass with
  | .hardQuote =>
    if !out.unevaluated then fail (.evaluativeQuote (← Query.frameLabel f))
    Interp.moveCell varlist i out
    Interp.finalizeArg f varlist i param
    return some tight
  | paramClass =>
    if paramClass = .softQuote && out.unevaluated && out.isSoftQuotable then
      match ← e.evalSoftQuoted out none with
      | none => return none
      | some value =>
        Interp.moveCell varlist i value
        Interp.finalizeArg f varlist i param
        return some tight
    Interp.moveCell varlist i out
    let defers ← Query.actionHas call.phase (Flags.defersLookback ||| Flags.postpones)
    let isEnfix := (← Query.frame f).runningEnfix
    Interp.finalizeArg f varlist i param
    return some (tight || (isEnfix && !defers))

/-- Fills the slot of a refinement, a local or a return, which take nothing from the input. -/
def fillSpecial (call : Call) (g : Gathering) (param : Typeset) (specialized : Option Cell) :
    Interp (Option Gathering) := do
  let varlist := call.varlist
  let i := g.index
  match param.paramClass with
  | .refinement =>
    if g.pickups then return some { g with index := call.count }
    let settle (used : Bool) : Interp (Option Gathering) := do
      Interp.setArgChecked varlist i (if used then Cell.logic true else Cell.blank)
      pure (some { g.next with refine := if used then .ordinary else .unused })
    if call.typecheckOnly then settle (← Query.cell varlist i).isTruthy
    else
      match specialized with
      | some v => settle v.isTruthy
      | none =>
        match ← Interp.takeRefinement? call.stackBase param i with
        | some inOrder =>
          Interp.setArgChecked varlist i (Cell.logic true)
          pure (some { g.next with refine := if inOrder then .ordinary else .pickup })
        | none => settle false
  | .local =>
    Interp.setArgChecked varlist i Cell.null
    pure (some g.next)
  | .return =>
    Interp.ensureManaged varlist
    let ret := (← get).specials.return_
    Interp.setArgChecked varlist i (Cell.action ret (.specific varlist))
    pure (some g.next)
  | _ => pure none

/-- Evaluates an argument from the input, after which operators may run again; `none` for a
throw. -/
def evalArgument (e : Engine) (f : FrameId) (id : FeedId) : Interp (Option Cell) := do
  let value ← e.evalSubframe f true
  Interp.modifyFeed id fun feed => { feed with noLookahead := false }
  pure value

/-- Takes an argument from the input; `none` for a throw. -/
def argFromFeed (e : Engine) (call : Call) (g : Gathering) (param : Typeset) :
    Interp (Option Gathering) := do
  let f := call.frame
  let varlist := call.varlist
  let i := g.index
  let id := (← Query.frame f).feed
  let feed ← Query.feed id
  if feed.deferringEnfix then fail .ambiguousInfix
  Interp.modifyFrame f fun fr => { fr with noLookahead := false }
  Interp.modifyFeed id fun feed => { feed with noLookahead := g.tight }
  let g := { g with tight := false }
  if feed.atBarrier then
    Interp.modifyFeed id fun feed => { feed with noLookahead := false }
    if param.flags.endable then
      Interp.setArgChecked varlist i Cell.endishNull
      return some g.next
    Interp.failNoArg f param
  match param.paramClass with
  | .hardQuote =>
    let quoted ← Interp.derelativize feed.value feed.specifier
    if param.flags.skippable && !Query.typeMatches param quoted then
      Interp.setArgChecked varlist i Cell.null
      return some g.next
    let _ ← Interp.fetchNext id
    Interp.moveCell varlist i { quoted with unevaluated := true }
  | .softQuote =>
    let next ← Interp.fetchNext id
    if next.isBar then
      Interp.modifyFeed id fun feed => { feed with barrierHit := true }
      Interp.storeCell varlist i Cell.end_
    else if next.isSoftQuotable then
      match ← e.evalSoftQuoted next feed.specifier with
      | none => return none
      | some value => Interp.moveCell varlist i value
    else
      let quoted ← Interp.derelativize next feed.specifier
      Interp.moveCell varlist i { quoted with unevaluated := true }
  | _ =>
    match ← e.evalArgument f id with
    | none => return none
    | some value => Interp.moveCell varlist i value
  Interp.finalizeArg f varlist i param
  return some g.next

/-- Fills the slot of an ordinary parameter; `none` for a throw. -/
def fillOrdinary (e : Engine) (call : Call) (g : Gathering) (param : Typeset)
    (specialized : Option Cell) : Interp (Option Gathering) := do
  let f := call.frame
  let varlist := call.varlist
  let i := g.index
  match g.refine with
  | .unused =>
    Interp.setArgChecked varlist i Cell.null
    return some g.next
  | .pickup =>
    Interp.storeCell varlist i Cell.null
    return some g.next
  | .ordinary => pure ()
  match specialized with
  | some v =>
    Interp.setArgChecked varlist i v
    return some g.next
  | none => pure ()
  if call.typecheckOnly then
    Interp.finalizeArg f varlist i param
    return some g.next
  if (← Query.frame f).nextArgFromOut then
    Interp.modifyFrame f fun fr => { fr with nextArgFromOut := false }
    match ← e.argFromOut call i param g.tight with
    | none => return none
    | some tight => return some { g.next with tight }
  if param.flags.variadic then
    Interp.ensureManaged varlist
    Interp.setArgChecked varlist i
      { kind := .varargs, payload := .varargs (.frame varlist i), binding := .specific varlist }
    return some g.next
  e.argFromFeed call g param

/-- After the last parameter: the slot whose arguments are still to be picked up. -/
def nextPickup (call : Call) : Interp (Option Gathering) := do
  if (← Interp.stackHeight) ≤ call.stackBase then pure none
  else
    match ← Interp.popStack? with
    | none => pure none
    | some top =>
      if top.wordIndex == 0 then fail (.badRefine (← Query.wordSpelling top))
      Interp.modifyFrame call.frame fun fr => { fr with doingPickups := true }
      pure (some { index := top.wordIndex + 1, pickups := true })

/-- Fills the slot of one parameter; `none` for a throw. -/
def fillSlot (e : Engine) (call : Call) (g : Gathering) : Interp (Option Gathering) := do
  let param ← Query.param call.paramlist g.index
  Interp.modifyFrame call.frame fun fr => { fr with param := g.index }
  let specialized : Option Cell ←
    match call.prefill with
    | .exemplar ex => do
      if ← Query.isSpecialized ex g.index then pure (some (← Query.cell ex g.index))
      else pure none
    | _ => pure none
  match ← fillSpecial call g param specialized with
  | some g => pure (some g)
  | none => e.fillOrdinary call g param specialized

/-- Fills all slots; `true` for a throw. -/
def fillSlots (e : Engine) (call : Call) : Nat → Gathering → Interp Bool
  | 0, _ => throw .exhausted
  | rounds + 1, g => do
    if call.count ≤ g.index then
      match ← nextPickup call with
      | none => pure false
      | some pickup => fillSlots e call rounds { pickup with tight := g.tight }
    else
      match ← e.fillSlot call g with
      | none => pure true
      | some g => fillSlots e call rounds g

/-- Gathers the arguments of the running call; `true` for a throw. -/
def fulfill (e : Engine) (f : FrameId) : Interp Bool := do
  let frame ← Query.frame f
  let phase ← expect frame.phase
  let paramlist ← Query.underlyingParamlist phase
  let varlist ← expect frame.varlist
  let call : Call :=
    { frame := f, phase, paramlist, varlist, count := ← Query.size paramlist,
      stackBase := frame.stackBase, prefill := frame.prefill,
      typecheckOnly := frame.typecheckOnly }
  if ← e.fillSlots call e.rounds {} then pure true
  else
    Interp.modifyFrame f fun fr =>
      { fr with doingPickups := false, typecheckOnly := false, prefill := .args }
    pure false

end Engine

end Homoicon
