import Homoicon.Evaluation.Engine

/-!
# Rules of the parse dialect

Rules stand one after the other in a block.  A cursor walks over them; keywords have rules and
other items as their arguments, so that one rule may span several cells.
-/

namespace Homoicon.Parse

/-- The words with a meaning of their own in rules. -/
inductive Keyword where
  | while_ | any | some_ | opt | not_ | ahead
  | copy | set | collect | keep | only
  | remove | insert | change
  | if_ | accept | break_ | reject | fail
  | mark | seek | into | do_ | lit | to_ | thru | skip | end_
deriving Repr, DecidableEq, Inhabited

/-- The keyword with a spelling in small letters. -/
def Keyword.ofName? : String → Option Keyword
  | "while" => some while_
  | "any" => some any
  | "some" => some some_
  | "opt" => some opt
  | "not" => some not_
  | "ahead" => some ahead
  | "copy" => some copy
  | "set" => some set
  | "collect" => some collect
  | "keep" => some keep
  | "only" => some only
  | "remove" => some remove
  | "insert" => some insert
  | "change" => some change
  | "if" => some if_
  | "accept" => some accept
  | "break" => some break_
  | "reject" => some reject
  | "fail" => some fail
  | "mark" => some mark
  | "seek" => some seek
  | "into" => some into
  | "do" => some do_
  | "lit" | "quote" => some lit
  | "to" => some to_
  | "thru" => some thru
  | "skip" => some skip
  | "end" => some end_
  | _ => none

/-- A cursor over a block of rules. -/
structure Rules where
  array : SeriesId
  index : Nat
  specifier : Specifier
deriving Inhabited

namespace Rules

/-- The rules of a block from its position on. -/
def ofBlock (block : Cell) : Query Rules := do
  pure ⟨← Query.arrayOf block, block.index, Query.deriveSpecifier block none⟩

/-- The cursor behind the current cell. -/
def next (rules : Rules) : Rules := { rules with index := rules.index + 1 }

/-- The current cell. -/
def current? (rules : Rules) : Interp (Option Cell) := do
  let cells ← Query.cells rules.array
  match cells[rules.index]? with
  | some c => some <$> Interp.derelativize c rules.specifier
  | none => pure none

/-- The current cell, which must be there, and the cursor behind it. -/
def take (rules : Rules) (after : String) : Interp (Cell × Rules) := do
  match ← rules.current? with
  | some rule => pure (rule, rules.next)
  | none => Homoicon.fail (.parseEnd after)

end Rules

/-- The keyword that a cell is. -/
def keyword? (rule : Cell) : Query (Option Keyword) := do
  if !rule.is .word then pure none
  else
    match rule.wordSymbol? with
    | some symbol => pure (Keyword.ofName? (← Query.lower symbol))
    | none => pure none

namespace Rules

/-- Whether the current cell is a keyword. -/
def isAt (rules : Rules) (keyword : Keyword) : Interp Bool := do
  match ← rules.current? with
  | some rule => pure ((← Query.ask (keyword? rule)) == some keyword)
  | none => pure false

/-- Whether ONLY comes next, and the cursor behind it. -/
def takeOnly (rules : Rules) : Interp (Bool × Rules) := do
  if ← rules.isAt .only then pure (true, rules.next) else pure (false, rules)

/-- The cursor behind one whole rule.  The number bounds how many cells it spans. -/
def skipItem : Nat → Rules → Interp Rules
  | 0, _ => throw .exhausted
  | fuel + 1, rules => do
    let (rule, rules) ← rules.take "rule"
    if rule.is .integer then
      match ← rules.current? with
      | some second => skipItem fuel (if second.is .integer then rules.next else rules)
      | none => skipItem fuel rules
    else
      match ← Query.ask (keyword? rule) with
      | none => pure rules
      | some keyword =>
        let name ← Query.mold rule
        match keyword with
        | .while_ | .any | .some_ | .opt | .not_ | .ahead | .remove | .to_ | .thru | .do_ =>
          skipItem fuel rules
        | .copy | .set | .collect =>
          let (_, rules) ← rules.take name
          skipItem fuel rules
        | .keep =>
          let (_, rules) ← rules.takeOnly
          match ← rules.current? with
          | some r => if r.is .getBlock then pure rules.next else skipItem fuel rules
          | none => skipItem fuel rules
        | .insert =>
          let (_, rules) ← rules.takeOnly
          pure (← rules.take name).2
        | .change =>
          let (_, rules) ← rules.takeOnly
          let rules ← skipItem fuel rules
          pure (← rules.take name).2
        | .into | .mark | .seek | .if_ | .lit => pure (← rules.take name).2
        | _ => pure rules

/-- The variable that follows COPY, SET, COLLECT or MARK. -/
def takeTarget (rules : Rules) (after : String) : Interp (Cell × Rules) := do
  let (target, rules) ← rules.take after
  if !(target.is .word || target.is .setWord) then
    Homoicon.fail (.parseVariable (← Query.mold target))
  if (← Query.ask (keyword? target)).isSome then
    Homoicon.fail (.parseCommand (← Query.mold target))
  pure (target, rules)

end Rules

end Homoicon.Parse
