import Homoicon.Feed

/-!
# Frames

One level of evaluation over a feed, together with the call that it is running, if any.
-/

namespace Homoicon

/-- Where the arguments of a call come from before any is gathered. -/
inductive Prefill where
  /-- All are gathered where the call stands. -/
  | params
  /-- The call already holds candidates for all of them. -/
  | args
  /-- Some are fixed by a specialization. -/
  | exemplar (id : SeriesId)
deriving Repr, DecidableEq, Inhabited

/-- A level of evaluation. -/
structure Frame where
  feed : FeedId
  out : Cell := Cell.staleEnd
  spare : Cell := Cell.end_
  /-- Evaluates to the end of the feed, not one expression. -/
  toEnd : Bool := false
  /-- Gathers an argument of the call one level up. -/
  fulfillingArg : Bool := false
  noLookahead : Bool := false
  /-- Runs an operator that takes its first argument from the left. -/
  runningEnfix : Bool := false
  /-- The next argument is the output. -/
  nextArgFromOut : Bool := false
  /-- A blank argument turns the call into null. -/
  fulfillOnly : Bool := false
  doingPickups : Bool := false
  /-- All arguments are there and only their types are checked. -/
  typecheckOnly : Bool := false
  /-- The height of the data stack when the frame began. -/
  stackBase : Nat := 0
  /-- The position where the current expression begins. -/
  exprIndex : Option Nat := none
  /-- The action that the frame was made for. -/
  called : Option Action := none
  /-- The action that runs at present, which may be one that `called` leads to. -/
  phase : Option Action := none
  binding : Binding := .unbound
  varlist : Option SeriesId := none
  param : Nat := 0
  prefill : Prefill := .params
  label : Option SymbolId := none
  /-- Quoting levels taken off arguments, to be put back on the result. -/
  requotes : Nat := 0
deriving Inhabited

end Homoicon
