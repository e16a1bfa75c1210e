import Homoicon.Library.Branch
import Homoicon.Path.Step

/-!
# Loops

A loop gives the last value of its body.  Null is kept for BREAK and blank for a body that never
ran, so a body that comes to one of them gives void.  The variables of a loop live in a context of
its own, to which a copy of the body is bound.
-/

namespace Homoicon.Library

/-- The value of a body that ran: neither null nor blank. -/
def bodyValue (c : Cell) : Cell := if c.isNull || c.isBlank then Cell.void else c

/-- How one run of a body ended. -/
inductive Pass where
  | done (value : Cell)
  | broke
  | thrown
deriving Inhabited

/-- How a loop ended. -/
abbrev Outcome := Pass

/-- Hands the outcome of a loop back. -/
def giveOutcome (f : FrameId) : Outcome → Interp Bounce
  | .done value => Interp.give f value
  | .broke => pure .null
  | .thrown => pure .thrown

/-- Ends a throw out of the body of a loop, if it is BREAK or CONTINUE. -/
def bodyThrown : Interp Pass := do
  let specials := (← get).specials
  let label := (← Interp.thrownLabel?).bind Cell.asAction?
  if label == some specials.break_ then
    let _ ← Interp.takeThrown
    pure .broke
  else if label == some specials.continue_ then
    let thrown ← Interp.takeThrown
    pure (.done (bodyValue thrown.value))
  else pure .thrown

/-- Runs the body of a loop once; BREAK and CONTINUE end here. -/
def runBody (e : Engine) (body : Cell) : Interp Pass := do
  match ← e.doBlock body with
  | some value => pure (.done (bodyValue value))
  | none => bodyThrown

/-- Runs a body as long as `advance` has another round, which it prepares from a counter. -/
def rounds (e : Engine) (advance : Int → Interp (Option Bool)) (body : Cell) :
    Nat → Int → Cell → Interp Outcome
  | 0, _, _ => throw .exhausted
  | fuel + 1, count, last => do
    match ← advance count with
    | none => pure .thrown
    | some false => pure (.done last)
    | some true =>
      match ← runBody e body with
      | .done value => rounds e advance body fuel (count + 1) value
      | .broke => pure .broke
      | .thrown => pure .thrown

/-- LOOP: runs a body a number of times. -/
def loop (e : Engine) (f : FrameId) : Interp Bounce := do
  let count ← Query.arg f 1
  let times : Int ←
    match count.payload with
    | .logic true => pure Bits.greatest64
    | .logic false => pure 0
    | .integer n => pure n
    | .decimal d => pure (Decimal.toInteger d)
    | _ => Interp.refuseArg f 1
  giveOutcome f (← rounds e (fun i => pure (some (decide (i < times)))) (← Query.arg f 2) e.rounds
    0 Cell.blank)

/-- WHILE: runs a body as long as a condition block holds. -/
def while_ (e : Engine) (f : FrameId) : Interp Bounce := do
  let condition ← Query.arg f 1
  let test : Interp (Option Bool) := do
    match ← e.doBlock condition with
    | none => pure none
    | some value => some <$> Query.ask (Query.holds value)
  giveOutcome f (← rounds e (fun _ => test) (← Query.arg f 2) e.rounds 0 Cell.blank)

/-- The names of the variables of a loop: a word, or a block of words. -/
def loopNames (vars : Cell) : Query (List SymbolId) := do
  match vars.wordSymbol? with
  | some symbol => if vars.kind.isAnyWord then return [symbol]
  | none => pure ()
  let names ← (← Query.items vars).mapM fun c => do
    match c.wordSymbol? with
    | some symbol =>
      if c.kind.isAnyWord then pure symbol else fail (.invalidArg (← Query.mold c))
    | none => fail (.invalidArg (← Query.mold c))
  if names.isEmpty then fail (.invalidArg (← Query.mold vars))
  pure names

/-- Runs a loop over variables of its own. -/
def withVariables (f : FrameId) (names : List SymbolId) (body : Cell)
    (run : SeriesId → Cell → Interp Outcome) : Interp Bounce := do
  let outcome ← Interp.guarding do
    let context ← Interp.makeContext .object names
    let bound := Cell.series .block (← Interp.copyBoundTo context body) 0
    Interp.guard (Cell.context .object context)
    Interp.guard bound
    run context bound
  giveOutcome f outcome

/-- Sets the variable of REPEAT for a round; `false` when there are no more. -/
def nextRepeat (context : SeriesId) (value : Cell) (total count : Int) : Interp (Option Bool) := do
  let slot : VarRef := ⟨context, 1⟩
  if value.kind.isAnySeries then
    let at_ := value.index + count.toNat
    if (← Query.size (← Query.arrayOf value)) ≤ at_ then pure (some false)
    else
      let (item, _) ← Path.pick (value.atIndex at_) (Cell.integer 1)
      Interp.writeVar slot item
      pure (some true)
  else if total ≤ count then pure (some false)
  else
    Interp.writeVar slot (Cell.integer (count + 1))
    pure (some true)

/-- REPEAT: counts up to a number, or goes through the items of a series. -/
def repeat_ (e : Engine) (f : FrameId) : Interp Bounce := do
  let word ← Query.arg f 1
  let value ← Query.arg f 2
  let total := match value.payload with
    | .integer n => n
    | .decimal d => Decimal.toInteger d
    | _ => 0
  withVariables f (← loopNames word) (← Query.arg f 3) fun context body =>
    rounds e (nextRepeat context value total) body e.rounds 0 Cell.blank

/-- The items that FOR-EACH takes at a position of a series; blanks fill up behind the end. -/
def itemsAt (data : Cell) (position width : Nat) : Interp (List Cell) :=
  (List.range width).mapM fun (k : Nat) => do
    let (item, _) ← Path.pick (data.atIndex position) (Cell.integer (k + 1))
    pure (if item.isNull then Cell.blank else item)

/-- What FOR-EACH takes in a round; `none` when there is no more. -/
def roundItems? (data : Cell) (width count : Nat) : Interp (Option (List Cell)) := do
  let context? := if data.kind.isAnyContext then data.varlist? else none
  match context? with
  | some source =>
    Query.checkAccessible source
    let slot := count + 1
    if (← Query.contextSize source) < slot then pure none
    else
      let symbol ← Query.keySymbol source slot
      pure (some [Cell.boundWord .word symbol (.specific source) slot, ← Query.cell source slot])
  | none =>
    let position := data.index + count * width
    if (← Query.size (← Query.arrayOf data)) ≤ position then pure none
    else some <$> itemsAt data position width

/-- Sets the variables of FOR-EACH for a round; `false` when there are no more. -/
def nextEach (context : SeriesId) (data : Cell) (width : Nat) (count : Int) :
    Interp (Option Bool) := do
  match ← roundItems? data width count.toNat with
  | none => pure (some false)
  | some items =>
    (items.take width).zipIdx.forM fun (item, k) => Interp.writeVar ⟨context, k + 1⟩ item
    pure (some true)

/-- FOR-EACH: goes through a series some items at a time, or through the words and values of a
context. -/
def forEach (e : Engine) (f : FrameId) : Interp Bounce := do
  let data ← Query.arg f 2
  let names ← loopNames (← Query.arg f 1)
  withVariables f names (← Query.arg f 3) fun context body =>
    rounds e (nextEach context data names.length) body e.rounds 0 Cell.blank

/-- BREAK: ends a loop. -/
def break_ (_ : Engine) (_ : FrameId) : Interp Bounce := do
  Interp.throwTo (← get).specials.break_ .unbound Cell.null

/-- CONTINUE: ends one run of a body. -/
def continue_ (_ : Engine) (f : FrameId) : Interp Bounce := do
  Interp.throwTo (← get).specials.continue_ .unbound (← Query.arg f 1).voided

/-- Loops. -/
def loops : List Native :=
  [{ name := "loop", spec := "count [<blank> any-number! logic!] body [block!]", run := loop },
    { name := "while", spec := "condition [block!] body [block!]", run := while_ },
    { name := "repeat",
      spec := "'word [word!] value [<blank> any-number! any-series!] body [block!]",
      run := repeat_ },
    { name := "for-each",
      spec := "'vars [word! block!] data [<blank> any-series! any-context!] body [block!]",
      run := forEach },
    { name := "break", spec := "", run := break_ },
    { name := "continue", spec := "value [<end> <opt> any-value!]", run := continue_ }]

end Homoicon.Library
