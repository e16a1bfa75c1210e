import Homoicon.Library.Native

/-!
# Conditions and branches

A condition is any value but void and literal blocks.  A branch is a block to evaluate, an action
to call or a quoted value.  Null means that no branch was taken, so a taken branch that comes to
null gives void.
-/

namespace Homoicon

/-- The result of a taken branch: never null. -/
def Cell.voided (c : Cell) : Cell := if c.isNull then Cell.void else c

/-- Whether a value can be a branch. -/
def Cell.isBranch (c : Cell) : Bool :=
  c.is .block || c.is .action || c.is .group || c.isQuoted

/-- Whether a condition holds. -/
def Query.holds (condition : Cell) : Query Bool := do
  if condition.isVoid then fail (.needNonVoid "condition")
  if condition.is .block && condition.unevaluated then fail .blockConditional
  pure condition.isTruthy

/-- Runs a branch; an action that takes an argument gets the condition.  `none` for a throw. -/
def Engine.doBranch (e : Engine) (branch condition : Cell) : Interp (Option Cell) := do
  if branch.isQuoted then
    let value ← Query.unquotify branch 1
    return some { value with unevaluated := false }
  if branch.is .block || branch.is .group then return ← e.doBlock branch
  match branch.asAction? with
  | some action =>
    let args := if (← Query.firstUnspecializedParam? action).isSome then [condition] else []
    e.apply action branch.binding args
  | none => fail (.invalidType branch.typeKind.name)

namespace Library

/-- IF: the branch, if the condition holds. -/
def ifTrue (e : Engine) (f : FrameId) : Interp Bounce := do
  let condition ← Query.arg f 1
  if !(← Query.holds condition) then return .null
  let result ← e.doBranch (← Query.arg f 2) condition
  Interp.giveOrThrow f (result.map Cell.voided)

/-- EITHER: one of two branches. -/
def either (e : Engine) (f : FrameId) : Interp Bounce := do
  let condition ← Query.arg f 1
  let branch ← Query.arg f (if ← Query.holds condition then 2 else 3)
  Interp.giveOrThrow f (← e.doBranch branch condition)

/-- ELSE: the value on the left, or the branch if it is null. -/
def orElse (e : Engine) (f : FrameId) : Interp Bounce := do
  let optional ← Query.arg f 1
  if !optional.isNull then return ← Interp.give f optional
  Interp.giveOrThrow f (← e.doBranch (← Query.arg f 2) Cell.null)

/-- THEN: the branch, unless the value on the left is null. -/
def andThen (e : Engine) (f : FrameId) : Interp Bounce := do
  let optional ← Query.arg f 1
  if optional.isNull then return .null
  let result ← e.doBranch (← Query.arg f 2) optional
  Interp.giveOrThrow f (result.map Cell.voided)

/-- ALSO: runs the branch unless the value on the left is null, and gives that value. -/
def also (e : Engine) (f : FrameId) : Interp Bounce := do
  let optional ← Query.arg f 1
  if optional.isNull then return .null
  let result ← e.doBranch (← Query.arg f 2) optional
  Interp.giveOrThrow f (result.map fun _ => optional)

/-- Evaluates the expressions of an array until `stop` holds of a value.  Returns the last value
and whether it stopped the evaluation; `none` for a throw. -/
def expressionsUntil (e : Engine) (stop : Cell → Bool) (array : SeriesId) (specifier : Specifier) :
    Nat → Nat → Cell → Interp (Option (Cell × Bool))
  | 0, _, _ => throw .exhausted
  | rounds + 1, index, last => do
    if (← Query.size array) ≤ index then return some (last, false)
    match ← e.evalStepAt array index specifier with
    | none => pure none
    | some (value, next) =>
      if value.isEnd then expressionsUntil e stop array specifier rounds next last
      else if stop value then pure (some (value, true))
      else expressionsUntil e stop array specifier rounds next value

/-- Evaluates the expressions of a block value until `stop` holds of a value. -/
def blockUntil (e : Engine) (stop : Cell → Bool) (block : Cell) :
    Interp (Option (Cell × Bool)) := do
  expressionsUntil e stop (← Query.arrayOf block) (Query.deriveSpecifier block none) e.rounds
    block.index Cell.null

/-- ALL: the last value, or null as soon as one counts as false. -/
def all (e : Engine) (f : FrameId) : Interp Bounce := do
  match ← blockUntil e (fun c => !c.isTruthy) (← Query.arg f 1) with
  | none => pure .thrown
  | some (_, true) => pure .null
  | some (last, false) => Interp.give f last

/-- ANY: the first value that counts as true. -/
def any (e : Engine) (f : FrameId) : Interp Bounce := do
  match ← blockUntil e Cell.isTruthy (← Query.arg f 1) with
  | none => pure .thrown
  | some (found, true) => Interp.give f found
  | some (_, false) => pure .null

/-- Runs the branch that stands in a list of cases; a group gives the branch to run. -/
def doCase (e : Engine) (branch condition : Cell) : Interp (Option Cell) := do
  if branch.is .group then
    match ← e.doBlock branch with
    | none => pure none
    | some inner => e.doBranch inner condition
  else e.doBranch branch condition

/-- Goes through conditions and branches.  A condition at the end without a branch is the result.
`none` for a throw. -/
def casesFrom (e : Engine) (array : SeriesId) (specifier : Specifier) (every : Bool) :
    Nat → Nat → Cell → Interp (Option Cell)
  | 0, _, _ => throw .exhausted
  | rounds + 1, index, result => do
    if (← Query.size array) ≤ index then return some result
    match ← e.evalStepAt array index specifier with
    | none => pure none
    | some (condition, next) =>
      if condition.isEnd then return some result
      match (← Query.cells array)[next]? with
      | none => pure (some condition)
      | some cell =>
        let branch ← Interp.derelativize cell specifier
        if !(← Query.holds condition) then
          if !branch.isBranch then fail (.invalidType branch.typeKind.name)
          casesFrom e array specifier every rounds (next + 1) result
        else
          match ← doCase e branch condition with
          | none => pure none
          | some taken =>
            if every then casesFrom e array specifier every rounds (next + 1) taken.voided
            else pure (some taken.voided)

/-- CASE: the branch of the first condition that holds, or of all of them. -/
def case_ (e : Engine) (f : FrameId) : Interp Bounce := do
  let cases ← Query.arg f 1
  let every ← Query.refine f 2
  Interp.giveOrThrow f (← casesFrom e (← Query.arrayOf cases) (Query.deriveSpecifier cases none)
    every e.rounds cases.index Cell.null)

/-- AND and OR: the right side is evaluated only if the left one does not decide. -/
def shortCircuit (decisive : Bool) (e : Engine) (f : FrameId) : Interp Bounce := do
  let left ← Query.holds (← Query.arg f 1)
  if left == decisive then return ← Interp.giveLogic f left
  match ← e.doBlock (← Query.arg f 2) with
  | none => pure .thrown
  | some right => Interp.giveLogic f (← Query.holds right)

/-- NOT: whether a value counts as false. -/
def not (_ : Engine) (f : FrameId) : Interp Bounce := do
  Interp.giveLogic f !(← Query.arg f 1).isTruthy

/-- The spec of operators that run a branch after a value. -/
def optionalSpec : String :=
  "<defer> optional [<opt> any-value! void!] 'branch [block! action! quoted!]"

/-- The spec of AND and OR. -/
def connectiveSpec : String := "left [<opt> any-value!] :right [block! group!]"

/-- Conditionals. -/
def conditionals : List Native :=
  [{ name := "not", spec := "value [<opt> any-value!]", run := not },
    { name := "and", spec := connectiveSpec, enfix := true, run := shortCircuit false },
    { name := "or", spec := connectiveSpec, enfix := true, run := shortCircuit true },
    { name := "if", spec := "condition [<opt> any-value!] 'branch [block! action! quoted!]",
      run := ifTrue },
    { name := "either",
      spec := "condition [<opt> any-value!] 'true-branch [block! action! quoted!] " ++
        "'false-branch [block! action! quoted!]",
      run := either },
    { name := "else", spec := optionalSpec, enfix := true, run := orElse },
    { name := "then", spec := optionalSpec, enfix := true, run := andThen },
    { name := "also", spec := optionalSpec, enfix := true, run := also },
    { name := "all", spec := "block [block!]", run := all },
    { name := "any", spec := "block [block!]", run := any },
    { name := "case", spec := "cases [block!] /all", run := case_ }]

end Library

end Homoicon
