import Homoicon.Cell

/-!
# Feeds

A feed is where an evaluation takes its cells from: an array that is read from a position on, or
cells handed in by a caller.  The current cell is fetched ahead, and the cell before it can stay
readable for one advance.
-/

namespace Homoicon

/-- The variables of a running call, by which relative words are resolved. -/
abbrev Specifier := Option SeriesId

/-- The place of a feed on the stack of feeds. -/
abbrev FeedId := Nat

/-- What a feed reads from. -/
inductive FeedSource where
  /-- An array, and the position after the current cell. -/
  | array (array : SeriesId) (index : Nat)
  /-- The cells that follow the current one. -/
  | cells (rest : List Cell)
deriving Inhabited

/-- An input of cells; the current one is the end marker when nothing is left. -/
structure Feed where
  source : FeedSource
  value : Cell
  /-- What the current cell was looked up as, if it was; an advance forgets it. -/
  gotten : Option Cell := none
  /-- The cell before the current one, while it is kept. -/
  lookback : Option Cell := none
  specifier : Specifier := none
  /-- The next operator may not run; only the nearest operand is taken. -/
  noLookahead : Bool := false
  /-- A deferring operator was seen while an argument was gathered, and waits for the expression
  around it. -/
  deferringEnfix : Bool := false
  /-- A bar or a vanished group was met while arguments were gathered. -/
  barrierHit : Bool := false
deriving Inhabited

namespace Feed

/-- Whether nothing is left. -/
def isEnd (f : Feed) : Bool := f.value.isEnd

/-- Whether no further argument can be taken. -/
def atBarrier (f : Feed) : Bool := f.value.isEnd || f.barrierHit

/-- The array and position of the current cell, if the feed reads an array. -/
def position? (f : Feed) : Option (SeriesId × Nat) :=
  match f.source with
  | .array array index => some (array, index - 1)
  | .cells _ => none

end Feed

end Homoicon
