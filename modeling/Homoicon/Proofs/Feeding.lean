import Homoicon.Proofs.Arguments.Intake
import Homoicon.Proofs.Natives

/-!
# Reading a feed

Who reads a feed cannot tell whether it reads an array or has its cells handed in: both give the
cells of a list one after the other, the end marker behind it as often as it is asked for, and when
a position is to be kept, both name an array and a place from which on it holds what is left.
-/

namespace Homoicon

namespace Feed

/-- What can be asked of a feed. -/
inductive Request where
  /-- Advances. -/
  | next
  /-- Advances and keeps the cell that was current. -/
  | keep
  | peek
  | atEnd
  | lookback
  /-- Asks for an array and a position. -/
  | reify

/-- What a reader is told; an array and a position stand for the cells from there on. -/
inductive Answer where
  | cell (c : Cell)
  | ended (atEnd : Bool)
  | kept (c : Option Cell)
  | rest (cells : List Cell)

/-- A place in a list of cells: those not yet consumed, and the one before while it is kept. -/
structure Reading where
  rest : List Cell
  kept : Option Cell := none

namespace Reading

/-- The current cell. -/
def current (r : Reading) : Cell := r.rest.headD Cell.end_

/-- What a reader is to be told at a place. -/
def answer (r : Reading) : Request → Answer
  | .next | .keep => .cell r.current
  | .peek => .cell (r.rest.tail.headD Cell.end_)
  | .atEnd => .ended r.rest.isEmpty
  | .lookback => .kept r.kept
  | .reify => .rest r.rest

/-- The place after a request. -/
def after (r : Reading) : Request → Reading
  | .next => ⟨r.rest.tail, none⟩
  | .keep => ⟨r.rest.tail, some r.current⟩
  | .peek | .atEnd | .lookback | .reify => r

/-- What a reader is to be told by one request after the other. -/
def answers (r : Reading) : List Request → List Answer
  | [] => []
  | request :: later => r.answer request :: (r.after request).answers later

end Reading

end Feed

open Feed (Request Answer Reading)

namespace Interp

/-- What a feed tells. -/
def readFeed (id : FeedId) : Request → Interp Answer
  | .next => .cell <$> fetchNext id
  | .keep => .cell <$> fetchKeepLookback id
  | .peek => do pure (.cell (← Query.feedPeek id))
  | .atEnd => do pure (.ended (← Query.feed id).isEnd)
  | .lookback => do pure (.kept (← Query.feed id).lookback)
  | .reify => do
    let (array, index) ← reifyFeed id
    pure (.rest (← Query.cellsFrom array index))

/-- What a feed tells by one request after the other. -/
def readFeedAll (requests : List Request) (id : FeedId) : Interp (List Answer) :=
  requests.mapM (readFeed id)

end Interp

/-! ## A feed at a place -/

/-- A source whose current cell is the first of some cells. -/
inductive FeedSource.Holds (heap : Heap) (rest : List Cell) : FeedSource → Prop where
  | cells : Holds heap rest (.cells rest.tail)
  | array {array : SeriesId} {index : Nat} {items : Array Cell} :
      heap.cells? array = some items → items.toList.drop index = rest →
      Holds heap rest (.array array (index + 1))

/-- A feed that stands at a place in a list of cells, none of which is an end marker. -/
structure Machine.Reads (m : Machine) (id : FeedId) (r : Reading) (feed : Feed) : Prop where
  fed : m.feeds[id]? = some feed
  value : feed.value = r.current
  kept : feed.lookback = r.kept
  source : feed.source.Holds m.heap r.rest
  solid : ∀ c ∈ r.rest, c.isEnd = false

/-- Some feed stands at a place. -/
def Machine.FeedAt (m : Machine) (id : FeedId) (r : Reading) : Prop := ∃ feed, m.Reads id r feed

open Interp (Gives)

namespace Machine.Reads

variable {m : Machine} {id : FeedId} {r : Reading} {feed : Feed}

theorem asked (reads : m.Reads id r feed) : Query.feed id m = .ok feed := by
  rw [Query.feed, reads.fed]

/-- The end marker is the current cell exactly when nothing is left. -/
theorem isEnd (reads : m.Reads id r feed) : feed.isEnd = r.rest.isEmpty := by
  rw [Feed.isEnd, reads.value, Reading.current]
  cases rest : r.rest with
  | nil => rfl
  | cons c later => exact reads.solid c (rest ▸ List.mem_cons_self)

theorem cellOrEnd_run {array : SeriesId} {items : Array Cell} (held : m.heap.cells? array = some items)
    (index : Nat) :
    Query.cellOrEnd array index m = .ok ((items.toList.drop index).headD Cell.end_) := by
  rw [Query.cellOrEnd, Query.bind_ok (Query.cells_iff.mpr held), Query.pure_run,
    ← Array.getElem?_toList, ← List.head?_drop, List.headD_eq_head?_getD]

theorem fetchNext (reads : m.Reads id r feed) :
    Gives (Interp.fetchNext id) m r.current (·.FeedAt id (r.after .next)) := by
  have solid : ∀ c ∈ (r.after .next).rest, c.isEnd = false :=
    fun c member => reads.solid c (List.mem_of_mem_tail member)
  cases source : feed.source with
  | cells rest =>
      obtain ⟨feeds, changed, there⟩ := Interp.modifyFeed_run reads.fed fun f =>
        { f with source := .cells rest.tail, value := rest.head?.getD Cell.end_, gotten := none,
                 lookback := none }
      have holds := reads.source
      rw [source] at holds
      cases holds
      refine ⟨{ m with feeds }, ?_, _, there, ?_, rfl, .cells, solid⟩
      · rw [Interp.fetchNext, Interp.lift_bind_ok reads.asked, source]
        exact (Interp.bind_ok changed _).trans (by rw [reads.value]; rfl)
      · exact List.headD_eq_head?_getD.symm
  | array array next =>
      have holds := reads.source
      rw [source] at holds
      cases holds with
      | @array _ index items held same =>
          obtain ⟨feeds, changed, there⟩ := Interp.modifyFeed_run reads.fed fun f =>
            { f with
              source := .array array (index + 1 + 1)
              value := (items.toList.drop (index + 1)).headD Cell.end_
              gotten := none
              lookback := none }
          have rest : items.toList.drop (index + 1) = r.rest.tail := by
            rw [← List.tail_drop, same]
          refine ⟨{ m with feeds }, ?_, _, there, ?_, rfl, .array held rest, solid⟩
          · rw [Interp.fetchNext, Interp.lift_bind_ok reads.asked, source]
            refine (Interp.lift_bind_ok (cellOrEnd_run held (index + 1)) _).trans
              ((Interp.bind_ok changed _).trans ?_)
            rw [reads.value]
            rfl
          · exact congrArg (List.headD · Cell.end_) rest

theorem fetchKeepLookback (reads : m.Reads id r feed) :
    Gives (Interp.fetchKeepLookback id) m r.current (·.FeedAt id (r.after .keep)) := by
  refine reads.fetchNext.bind fun next at_ => ?_
  obtain ⟨feed, reads⟩ := at_
  obtain ⟨feeds, changed, there⟩ := Interp.modifyFeed_run reads.fed fun f =>
    { f with lookback := some r.current }
  refine ⟨{ next with feeds }, ?_, _, there, reads.value, rfl, reads.source, reads.solid⟩
  exact Interp.bind_ok changed _

theorem feedPeek (reads : m.Reads id r feed) :
    Query.feedPeek id m = .ok (r.rest.tail.headD Cell.end_) := by
  rw [Query.feedPeek, Query.bind_ok reads.asked]
  cases source : feed.source with
  | cells rest =>
      have holds := reads.source
      rw [source] at holds
      cases holds
      exact congrArg Except.ok List.headD_eq_head?_getD.symm
  | array array next =>
      have holds := reads.source
      rw [source] at holds
      cases holds with
      | array held same =>
          rw [← same, List.tail_drop]
          exact cellOrEnd_run held _

/-- The array and position of a feed stand for what is left to read. -/
theorem reifyFeed (reads : m.Reads id r feed) :
    ∃ array index, Gives (Interp.reifyFeed id) m (array, index) fun next =>
      Query.cellsFrom array index next = .ok r.rest ∧ next.FeedAt id r := by
  have denotes {next : Machine} {array : SeriesId} {index : Nat} {items : Array Cell}
      (held : next.heap.cells? array = some items) (same : items.toList.drop index = r.rest) :
      Query.cellsFrom array index next = .ok r.rest :=
    Query.cellsFrom_eq_ok.mpr ⟨items, Query.cells_iff.mpr held, same⟩
  cases source : feed.source with
  | array array next =>
      have holds := reads.source
      rw [source] at holds
      cases holds with
      | @array _ index items held same =>
          refine ⟨array, index, m, ?_, denotes held same, feed, reads⟩
          rw [Interp.reifyFeed, Interp.lift_bind_ok reads.asked, source]
          rfl
  | cells rest =>
      have holds := reads.source
      rw [source] at holds
      cases holds
      have left : (if feed.isEnd then r.rest.tail else feed.value :: r.rest.tail) = r.rest := by
        rw [reads.isEnd, reads.value, Reading.current]
        cases r.rest <;> rfl
      let s := (Series.ofCells r.rest.toArray).managed
      have held : (m.heap.alloc s).2.cells? (m.heap.alloc s).1 = some r.rest.toArray := by
        rw [Heap.cells?, Heap.get?_alloc, if_pos rfl]
        rfl
      obtain ⟨feeds, changed, there⟩ := @Interp.modifyFeed_run { m with heap := (m.heap.alloc s).2 }
        id feed reads.fed fun f => { f with source := .array (m.heap.alloc s).1 1 }
      have allocated : Interp.allocArray r.rest m =
          .ok (m.heap.alloc s).1 { m with heap := (m.heap.alloc s).2 } := rfl
      refine ⟨(m.heap.alloc s).1, 0, { m with heap := (m.heap.alloc s).2, feeds }, ?_,
        denotes held rfl, _, there, reads.value, reads.kept, .array held rfl, reads.solid⟩
      rw [Interp.reifyFeed, Interp.lift_bind_ok reads.asked, source]
      dsimp only
      rw [left, Interp.bind_ok allocated, Interp.bind_ok changed]
      rfl

end Machine.Reads

/-! ## One request after the other -/

namespace Machine.FeedAt

variable {m : Machine} {id : FeedId} {r : Reading}

/-- A feed answers a request as its place demands, and then stands at the next place. -/
theorem readFeed (at_ : m.FeedAt id r) (request : Request) :
    Gives (Interp.readFeed id request) m (r.answer request) (·.FeedAt id (r.after request)) := by
  obtain ⟨feed, reads⟩ := at_
  have asked {α : Type} {q : Query α} {a : α} (told : q m = .ok a) (f : α → Answer) :
      Gives (do pure (f (← q))) m (f a) (·.FeedAt id r) :=
    Gives.asked told (.pure ⟨feed, reads⟩)
  cases request with
  | next =>
      obtain ⟨next, ran, at_⟩ := reads.fetchNext
      exact ⟨next, by rw [Interp.readFeed, Interp.map_run, ran]; rfl, at_⟩
  | keep =>
      obtain ⟨next, ran, at_⟩ := reads.fetchKeepLookback
      exact ⟨next, by rw [Interp.readFeed, Interp.map_run, ran]; rfl, at_⟩
  | peek => exact asked reads.feedPeek .cell
  | atEnd =>
      have told := asked reads.asked fun feed => .ended feed.isEnd
      rwa [reads.isEnd] at told
  | lookback =>
      have told := asked reads.asked fun feed => .kept feed.lookback
      rwa [reads.kept] at told
  | reify =>
      obtain ⟨array, index, reified⟩ := reads.reifyFeed
      exact reified.bind fun next ⟨denotes, at_⟩ => .asked denotes (.pure at_)

/-- A feed answers a sequence of requests as its place demands. -/
theorem readFeedAll (at_ : m.FeedAt id r) (requests : List Request) :
    ∃ next, Interp.readFeedAll requests id m = .ok (r.answers requests) next := by
  unfold Interp.readFeedAll
  induction requests generalizing m r with
  | nil => exact ⟨m, rfl⟩
  | cons request later ih =>
      obtain ⟨middle, ran, at_⟩ := at_.readFeed request
      obtain ⟨next, finished⟩ := ih at_
      refine ⟨next, ?_⟩
      rw [List.mapM_cons, Interp.bind_ok ran, Interp.bind_ok finished]
      rfl

end Machine.FeedAt

/-! ## Both sources -/

namespace Interp

variable {m : Machine} {cells : List Cell}

theorem pushFeed_at {feed : Feed} {r : Reading} (value : feed.value = r.current)
    (kept : feed.lookback = r.kept) (source : feed.source.Holds m.heap r.rest)
    (solid : ∀ c ∈ r.rest, c.isEnd = false) :
    Gives (pushFeed feed) m m.feeds.size (·.FeedAt m.feeds.size r) :=
  ⟨_, rfl, feed, by simp, value, kept, source, solid⟩

theorem pushVariadicFeed_at (solid : ∀ c ∈ cells, c.isEnd = false) (specifier : Specifier) :
    Gives (pushVariadicFeed cells specifier) m m.feeds.size (·.FeedAt m.feeds.size ⟨cells, none⟩) := by
  unfold pushVariadicFeed Feed.ofCells
  cases cells with
  | nil => exact pushFeed_at rfl rfl .cells solid
  | cons value rest => exact pushFeed_at rfl rfl .cells solid

theorem pushArrayFeed_at {array : SeriesId} {index : Nat} {items : Array Cell}
    (solid : ∀ c ∈ cells, c.isEnd = false) (held : Query.cells array m = .ok items)
    (same : items.toList.drop index = cells) (specifier : Specifier) :
    Gives (pushArrayFeed array index specifier) m m.feeds.size
      (·.FeedAt m.feeds.size ⟨cells, none⟩) := by
  have held := Query.cells_iff.mp held
  have made : Query.arrayFeed array index specifier m =
      .ok { source := .array array (index + 1), value := cells.headD Cell.end_, specifier } := by
    rw [Query.arrayFeed, Query.bind_ok (Machine.Reads.cellOrEnd_run held index), same]
    rfl
  exact Gives.asked made (pushFeed_at rfl rfl (.array held same) solid)

/-- A feed of cells handed in and a feed that reads them from an array answer every sequence of
requests alike, and as the list of the cells demands. -/
theorem feeds_alike (solid : ∀ c ∈ cells, c.isEnd = false) {array : SeriesId} {index : Nat}
    {items : Array Cell} (held : Query.cells array m = .ok items)
    (same : items.toList.drop index = cells) (specifier specifier' : Specifier)
    (requests : List Request) :
    (∃ next, (pushVariadicFeed cells specifier >>= readFeedAll requests) m =
      .ok (Reading.answers ⟨cells, none⟩ requests) next) ∧
    ∃ next, (pushArrayFeed array index specifier' >>= readFeedAll requests) m =
      .ok (Reading.answers ⟨cells, none⟩ requests) next := by
  obtain ⟨handed, pushed, at_⟩ := pushVariadicFeed_at (m := m) solid specifier
  obtain ⟨placed, pushed', at_'⟩ := pushArrayFeed_at solid held same specifier'
  rw [bind_ok pushed, bind_ok pushed']
  exact ⟨at_.readFeedAll requests, at_'.readFeedAll requests⟩

/-- A machine with a block of three numbers. -/
def sampleRow : Machine := .ofArgs [] [.ofCells #[.integer 1, .integer 2, .integer 3]]

/-- The last two numbers, taken one by one; the position is asked for in between and behind the
end. -/
theorem feeds_alike_sampleRow :
    (∀ c ∈ [Cell.integer 2, .integer 3], c.isEnd = false) ∧
    Query.cells ⟨1⟩ sampleRow = .ok #[.integer 1, .integer 2, .integer 3] ∧
    (∃ next, (pushVariadicFeed [.integer 2, .integer 3] none >>=
        readFeedAll [.keep, .reify, .lookback, .next, .next, .reify]) sampleRow =
      .ok [.cell (.integer 2), .rest [.integer 3], .kept (some (.integer 2)), .cell (.integer 3),
        .cell .end_, .rest []] next) ∧
    ∃ next, (pushArrayFeed ⟨1⟩ 1 none >>=
        readFeedAll [.keep, .reify, .lookback, .next, .next, .reify]) sampleRow =
      .ok [.cell (.integer 2), .rest [.integer 3], .kept (some (.integer 2)), .cell (.integer 3),
        .cell .end_, .rest []] next := by
  have solid : ∀ c ∈ [Cell.integer 2, .integer 3], c.isEnd = false := by simp [Cell.isEnd, Cell.integer]
  exact ⟨solid, rfl, feeds_alike solid rfl rfl none none _⟩

end Interp

end Homoicon
