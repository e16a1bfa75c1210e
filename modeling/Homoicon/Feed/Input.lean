import Homoicon.Machine

/-!
# Reading feeds

Advancing a feed, looking at what comes next, and turning handed-in cells into an array when a
position in them is to be kept.
-/

namespace Homoicon

namespace Query

/-- The cell at a position of an array, the end marker behind its end. -/
def cellOrEnd (array : SeriesId) (index : Nat) : Query Cell := do
  pure ((← cells array)[index]?.getD Cell.end_)

/-- The cell after the current one. -/
def feedPeek (id : FeedId) : Query Cell := do
  match (← feed id).source with
  | .array array index => cellOrEnd array index
  | .cells rest => pure (rest.head?.getD Cell.end_)

/-- A feed that reads an array from a position on. -/
def arrayFeed (array : SeriesId) (index : Nat) (specifier : Specifier) : Query Feed := do
  let value ← cellOrEnd array index
  pure { source := .array array (index + 1), value, specifier }

end Query

/-- A feed of cells handed in. -/
def Feed.ofCells (cells : List Cell) (specifier : Specifier) : Feed :=
  match cells with
  | value :: rest => { source := .cells rest, value, specifier }
  | [] => { source := .cells [], value := Cell.end_, specifier }

namespace Interp

/-- Adds a feed to the stack of feeds. -/
def pushFeed (feed : Feed) : Interp FeedId := fun m =>
  .ok m.feeds.size { m with feeds := m.feeds.push feed }

/-- Adds a feed that reads an array from a position on. -/
def pushArrayFeed (array : SeriesId) (index : Nat) (specifier : Specifier) : Interp FeedId := do
  pushFeed (← Query.arrayFeed array index specifier)

/-- Adds a feed of cells handed in. -/
def pushVariadicFeed (cells : List Cell) (specifier : Specifier) : Interp FeedId :=
  pushFeed (Feed.ofCells cells specifier)

/-- Drops a feed and those above it. -/
def dropFeed (id : FeedId) : Interp Unit := modify fun m => { m with feeds := m.feeds.shrink id }

/-- Runs a computation over a new feed, and drops the feed behind it. -/
def withFeed {α : Type} (feed : Feed) (body : FeedId → Interp α) : Interp α := do
  let id ← pushFeed feed
  let a ← body id
  dropFeed id
  pure a

/-- Advances a feed and returns the cell that was current. -/
def fetchNext (id : FeedId) : Interp Cell := do
  let feed ← Query.feed id
  match feed.source with
  | .array array index =>
    let next ← Query.cellOrEnd array index
    modifyFeed id fun f =>
      { f with source := .array array (index + 1), value := next, gotten := none, lookback := none }
  | .cells rest =>
    modifyFeed id fun f =>
      { f with source := .cells rest.tail, value := rest.head?.getD Cell.end_, gotten := none,
               lookback := none }
  pure feed.value

/-- Advances a feed and keeps the cell that was current readable until the next advance. -/
def fetchKeepLookback (id : FeedId) : Interp Cell := do
  let current ← fetchNext id
  modifyFeed id fun f => { f with lookback := some current }
  pure current

/-- The array and position of what a feed has still to give; handed-in cells become an array. -/
def reifyFeed (id : FeedId) : Interp (SeriesId × Nat) := do
  let feed ← Query.feed id
  match feed.source with
  | .array array index => pure (array, index - 1)
  | .cells rest =>
    let array ← allocArray (if feed.isEnd then rest else feed.value :: rest)
    modifyFeed id fun f => { f with source := .array array 1 }
    pure (array, 0)

end Interp

end Homoicon
