import Homoicon.Proofs.Expressions.Formulas

/-!
# Levels of evaluation

A frame takes its cells from a feed on top of the stack of feeds.  What the frames and feeds below
refer to, and what is reached from the array that the feed reads, is in use all the time, so it
outlasts collections; whatever else is made meanwhile takes the place of nothing in use.
-/

namespace Homoicon

open Interp (Gives)

/-! ## Runs with an unknown value -/

theorem Interp.Gives.after {α β : Type} {x : Interp α} {f : α → Interp β} {m m' : Machine} {a : α}
    {b : β} {post : Machine → Prop} (ran : x m = .ok a m') (rest : Gives (f a) m' b post) :
    Gives (x >>= f) m b post := by
  rwa [Gives, Interp.bind_ok ran]

/-- A computation gives a value, and what is known of it and of what it leaves behind. -/
def Interp.Ends {α : Type} (x : Interp α) (m : Machine) (post : α → Machine → Prop) : Prop :=
  ∃ a next, x m = .ok a next ∧ post a next

namespace Interp.Ends

variable {α β : Type} {m : Machine} {x : Interp α} {f : α → Interp β} {a : α}
  {middle : Machine → Prop}
  {found : α → Machine → Prop} {post : β → Machine → Prop}

theorem pure (holds : found a m) : Ends (Pure.pure a) m found := ⟨a, m, rfl, holds⟩

theorem bind (first : Ends x m found) (second : ∀ a next, found a next → Ends (f a) next post) :
    Ends (x >>= f) m post := by
  obtain ⟨a, next, ran, holds⟩ := first
  obtain ⟨b, last, finished, reached⟩ := second a next holds
  exact ⟨b, last, by rw [bind_ok ran, finished], reached⟩

theorem given (first : Gives x m a middle) (second : ∀ next, middle next → Ends (f a) next post) :
    Ends (x >>= f) m post := by
  obtain ⟨next, ran, holds⟩ := first
  obtain ⟨b, last, finished, reached⟩ := second next holds
  exact ⟨b, last, by rw [bind_ok ran, finished], reached⟩

theorem asked {q : Query α} (answer : q m = .ok a) (rest : Ends (f a) m post) :
    Ends ((liftM q : Interp α) >>= f) m post := by
  rwa [Ends, lift_bind_ok answer]

theorem after {m' : Machine} (ran : x m = .ok a m') (rest : Ends (f a) m' post) :
    Ends (x >>= f) m post := by
  rwa [Ends, bind_ok ran]

theorem congr {y : Interp α} {m' : Machine} (same : x m = y m') (ends : Ends y m' found) :
    Ends x m found := by
  rwa [Ends, same]

theorem weaken (ends : Ends x m found) {found' : α → Machine → Prop}
    (entails : ∀ a next, found a next → found' a next) : Ends x m found' := by
  obtain ⟨a, next, ran, holds⟩ := ends
  exact ⟨a, next, ran, entails a next holds⟩

end Interp.Ends

open Interp (Ends)

/-! ## What is in use -/

theorem Array.modify_push {α : Type} (items : Array α) (a : α) (f : α → α) :
    (items.push a).modify items.size f = items.push (f a) := by
  refine Array.ext_getElem? fun place => ?_
  rw [Array.getElem?_modify, Array.getElem?_push, Array.getElem?_push]
  split
  · rename_i here
    rw [if_pos here.symm, if_pos here.symm]
    rfl
  · rename_i other
    rw [if_neg (Ne.symm other), if_neg (Ne.symm other)]

/-- What some frames and feeds refer to. -/
def Seeds (frames : Array Frame) (feeds : Array Feed) (id : SeriesId) : Prop :=
  (∃ frame ∈ frames, id ∈ frame.references) ∨ ∃ feed ∈ feeds, id ∈ feed.references

/-- Another machine has some series as they were, and goes on with the same data stack and
limits. -/
structure Machine.Sustains (m : Machine) (kept : SeriesId → Prop) (m' : Machine) : Prop where
  stack : m'.stack = m.stack
  config : m'.config = m.config
  running : m'.signals.halt = false
  unmarked : m'.heap.Unmarked
  heap : ∀ id s, kept id → m.heap.get? id = some s → m'.heap.get? id = some s

theorem Machine.Sustains.trans {m m' m'' : Machine} {kept kept' : SeriesId → Prop}
    (first : m.Sustains kept m') (second : m'.Sustains kept' m'')
    (inside : ∀ id s, kept id → m.heap.get? id = some s → kept' id) : m.Sustains kept m'' where
  stack := second.stack.trans first.stack
  config := second.config.trans first.config
  running := second.running
  unmarked := second.unmarked
  heap id s here found := second.heap id s (inside id s here found) (first.heap id s here found)

theorem Machine.Sustains.spares {m m' : Machine} {kept : SeriesId → Prop}
    (sustains : m.Sustains kept m') (reads : Places) :
    m.heap.Spares (reads.within kept) m'.heap where
  whole id s whole found := sustains.heap id s (whole 0).2 found
  slot id _ s held _ place found content there :=
    ⟨s, held, sustains.heap id s place.2 found, fun _ => rfl, rfl, content, there⟩

/-- What is reached in a heap is reached in another one that has it as it was. -/
theorem Heap.Reaches.keep {h h' : Heap} {kept : SeriesId → Prop} (closed : h.Closed kept)
    (same : ∀ id s, kept id → h.get? id = some s → h'.get? id = some s) {id target : SeriesId}
    (here : kept id) (reaches : h.Reaches id target) : h'.Reaches id target := by
  induction reaches with
  | here id => exact .here id
  | onward found reference _ ih =>
      exact .onward (same _ _ here found) reference (ih (closed _ _ here found _ reference))

/-! ## Levels -/

/-- A level of evaluation: the machine in which it began, the frames and feeds below its own, and
the array that its feed reads. -/
structure Level where
  start : Machine
  below : Array Frame
  lower : Array Feed
  array : SeriesId
  specifier : Specifier
  cells : List Cell
  holds : start.heap.cells? array = some cells.toArray

namespace Level

variable {l : Level}

/-- What the level refers to, whatever its frame does. -/
def Refers (l : Level) (id : SeriesId) : Prop :=
  Seeds l.below l.lower id ∨ id = l.array ∨ l.specifier = some id

/-- What is in use as long as the level is. -/
def Kept (l : Level) (id : SeriesId) : Prop := ∃ seed, l.Refers seed ∧ l.start.heap.Reaches seed id

theorem closed (l : Level) : l.start.heap.Closed l.Kept :=
  fun _ _ ⟨seed, refers, reaches⟩ found next reference =>
    ⟨seed, refers, reaches.trans (.onward found reference (.here next))⟩

theorem Refers.kept {id : SeriesId} (refers : l.Refers id) : l.Kept id := ⟨id, refers, .here id⟩

theorem kept_array (l : Level) : l.Kept l.array := Refers.kept (.inr (.inl rfl))

theorem kept_specifier (l : Level) : ∀ id ∈ l.specifier, l.Kept id :=
  fun _ member => Refers.kept (.inr (.inr member))

theorem within (l : Level) : ∀ c ∈ l.cells, c.Within l.Kept := by
  obtain ⟨s, found, content⟩ := Heap.cells?_eq_some.mp l.holds
  exact fun c member => l.closed.within l.kept_array found content c (by simpa using member)

/-- A feed that reads the array of a level, with its current cell at a position. -/
structure Reads (l : Level) (i : Nat) (tight : Bool) (feed : Feed) : Prop where
  source : feed.source = .array l.array (i + 1)
  value : feed.value = (l.cells.drop i).headD Cell.end_
  specifier : feed.specifier = l.specifier
  tight : feed.noLookahead = tight
  ready : feed.deferringEnfix = false
  passing : feed.barrierHit = false

/-- A machine that runs a frame at a level, whose feed is at a position; with `tight` the feed is to
give a single operand. -/
structure At (l : Level) (frame : Frame) (i : Nat) (tight : Bool) (m : Machine) : Prop where
  frames : m.frames = l.below.push frame
  feeds : ∃ feed, m.feeds = l.lower.push feed ∧ l.Reads i tight feed
  fed : frame.feed = l.lower.size
  base : frame.stackBase = l.start.stack.size
  since : l.start.Sustains l.Kept m

namespace At

variable {frame : Frame} {i : Nat} {tight : Bool} {m : Machine}

theorem asked (at_ : l.At frame i tight m) : Query.frame l.below.size m = .ok frame := by
  rw [Query.frame, at_.frames, Array.getElem?_push_size]

theorem read (at_ : l.At frame i tight m) :
    ∃ feed, Query.feed frame.feed m = .ok feed ∧ l.Reads i tight feed := by
  obtain ⟨feed, feeds, reads⟩ := at_.feeds
  exact ⟨feed, by rw [Query.feed, feeds, at_.fed, Array.getElem?_push_size], reads⟩

/-- The cells of the level's array are still there. -/
theorem cells (at_ : l.At frame i tight m) : m.heap.cells? l.array = some l.cells.toArray := by
  obtain ⟨s, found, content⟩ := Heap.cells?_eq_some.mp l.holds
  exact Heap.cells?_eq_some.mpr ⟨s, at_.since.heap _ _ l.kept_array found, content⟩

/-! ## Collections -/

/-- What a level keeps is in use. -/
theorem rooted (at_ : l.At frame i tight m) {id : SeriesId} (kept : l.Kept id) : m.Rooted id := by
  obtain ⟨seed, refers, reaches⟩ := kept
  obtain ⟨feed, feeds, reads⟩ := at_.feeds
  have own {id : SeriesId} (reference : id ∈ feed.references) : m.Rooted id :=
    .of_feed (by rw [feeds]; exact Array.mem_push_self) reference
  have first : m.Rooted seed := by
    rcases refers with (⟨frame, member, reference⟩ | ⟨feed, member, reference⟩) | rfl | specifier
    · exact .of_frame (by rw [at_.frames]; exact Array.mem_push_of_mem _ member) reference
    · exact .of_feed (by rw [feeds]; exact Array.mem_push_of_mem _ member) reference
    · exact own (by simp [Feed.references, reads.source])
    · exact own (by simp [Feed.references, reads.specifier, specifier])
  obtain ⟨root, isRoot, reached⟩ := first
  exact ⟨root, isRoot, reached.trans (reaches.keep l.closed at_.since.heap refers.kept)⟩

theorem recycled (at_ : l.At frame i tight m) : l.At frame i tight m.recycle := by
  have agree := Machine.agree_recycle at_.since.unmarked
  have unmarked := Machine.unmarked_recycle at_.since.unmarked
  have heap : ∀ id s, l.Kept id → l.start.heap.get? id = some s →
      m.recycle.heap.get? id = some s := fun id s kept found => by
    rw [agree.get? id (at_.rooted kept), at_.since.heap id s kept found]
  rw [Machine.recycle_rest]
  exact { at_ with since := { at_.since with unmarked, heap } }

/-- Pending signals are handled unseen. -/
theorem outlasts : Interp.Outlasts (l.At frame i tight) where
  running _ at_ := at_.since.running
  counted _ _ at_ := { at_ with since := { at_.since with } }
  signalled _ _ same at_ :=
    { at_ with since := { at_.since with running := same.trans at_.since.running } }
  recycled _ at_ := at_.recycled

/-! ## The frame and the feed -/

theorem onFrame (at_ : l.At frame i tight m) (g : Frame → Frame)
    (fed : (g frame).feed = frame.feed) (base : (g frame).stackBase = frame.stackBase) :
    Gives (Interp.modifyFrame l.below.size g) m () (l.At (g frame) i tight) := by
  have inside : l.below.size < m.frames.size := by
    rw [at_.frames, Array.size_push]
    exact Nat.lt_succ_self _
  refine ⟨_, if_pos inside, ?_, at_.feeds, fed.trans at_.fed, base.trans at_.base,
    { at_.since with }⟩
  change m.frames.modify l.below.size g = _
  rw [at_.frames, Array.modify_push]

theorem onFeed (at_ : l.At frame i tight m) {g : Feed → Feed} (j : Nat) (tight' : Bool)
    (reads : ∀ feed, l.Reads i tight feed → l.Reads j tight' (g feed)) :
    Gives (Interp.modifyFeed frame.feed g) m () (l.At frame j tight') := by
  obtain ⟨feed, feeds, here⟩ := at_.feeds
  have inside : frame.feed < m.feeds.size := by
    rw [at_.fed, feeds, Array.size_push]
    exact Nat.lt_succ_self _
  refine ⟨_, if_pos inside, at_.frames, ⟨g feed, ?_, reads feed here⟩, at_.fed, at_.base,
    { at_.since with }⟩
  change m.feeds.modify frame.feed g = _
  rw [at_.fed, feeds, Array.modify_push]

/-- Whether a single operand is wanted. -/
theorem loosen (at_ : l.At frame i tight m) (tight' : Bool) :
    Gives (Interp.modifyFeed frame.feed fun feed => { feed with noLookahead := tight' }) m ()
      (l.At frame i tight') :=
  at_.onFeed i tight' fun _ reads => { reads with tight := rfl }

theorem fetchNext (at_ : l.At frame i tight m) {c : Cell} {rest : List Cell}
    (here : l.cells.drop i = c :: rest) :
    Gives (Interp.fetchNext frame.feed) m c (l.At frame (i + 1) tight) := by
  obtain ⟨feed, run, reads⟩ := at_.read
  have next : Query.cellOrEnd l.array (i + 1) m =
      .ok ((l.cells.drop (i + 1)).headD Cell.end_) := by
    rw [Query.cellOrEnd, Query.bind_ok (Query.cells_iff.mpr at_.cells), Query.pure_run,
      List.getElem?_toArray, ← List.head?_drop, List.headD_eq_head?_getD]
  have current : feed.value = c := by rw [reads.value, here]; rfl
  unfold Interp.fetchNext
  refine .asked run ?_
  rw [reads.source]
  refine .asked next (.bind (at_.onFeed (i + 1) tight fun feed reads => ?_) fun m at_ => ?_)
  · exact { reads with source := rfl, value := rfl }
  · rw [current]
    exact .pure at_

theorem fetchKept (at_ : l.At frame i tight m) {c : Cell} {rest : List Cell}
    (here : l.cells.drop i = c :: rest) :
    Gives (Interp.fetchKeepLookback frame.feed) m c (l.At frame (i + 1) tight) := by
  refine .bind (at_.fetchNext here) fun m at_ => ?_
  exact .bind (at_.onFeed (i + 1) tight fun _ reads => { reads with }) fun m at_ => .pure at_

/-! ## What is written at the level -/

section

variable {reads : Places}

theorem spells (at_ : l.At frame i tight m) {chain isOpen : Bool} {e : Formula chain isOpen}
    {cells : List Cell} (part : ∀ c ∈ cells, c ∈ l.cells)
    (spells : l.start.heap.Spells reads e l.specifier cells) :
    m.heap.Spells reads e l.specifier cells :=
  Heap.Spells.keep l.closed (at_.since.spares reads) e _ _ (fun c member => l.within c (part c member))
    l.kept_specifier spells

theorem names (at_ : l.At frame i tight m) {op : FormulaOp} {enfix : Bool} {w : Cell}
    (part : w ∈ l.cells) (names : l.start.heap.Names reads l.specifier op enfix w) :
    m.heap.Names reads l.specifier op enfix w :=
  names.keep l.closed (at_.since.spares reads) (l.within w part) l.kept_specifier

theorem follows (at_ : l.At frame i tight m) {operator : Prop} {rest : List Cell}
    (part : ∀ c ∈ rest, c ∈ l.cells)
    (follows : l.start.heap.Follows reads l.specifier operator rest) :
    m.heap.Follows reads l.specifier operator rest := by
  intro c member
  have part := part c (List.mem_of_mem_head? member)
  rcases follows c member with (integer | group | names) | ⟨operator, op, names⟩
  · exact .inl (.integer integer)
  · exact .inl (.group group)
  · exact .inl (.word (at_.names part names))
  · exact .inr ⟨operator, op, at_.names part names⟩

end

end At

/-! ## Leaving a level -/

/-- The frame of a level is gone, and its feed is still there. -/
structure Left (l : Level) (i : Nat) (tight : Bool) (m : Machine) : Prop where
  frames : m.frames = l.below
  feeds : ∃ feed, m.feeds = l.lower.push feed ∧ l.Reads i tight feed
  since : l.start.Sustains l.Kept m

variable {frame : Frame} {i : Nat} {tight : Bool} {m : Machine}

theorem At.drop (at_ : l.At frame i tight m) :
    Gives (Interp.dropFrame l.below.size) m frame (l.Left i tight) := by
  have stack : m.stack.shrink frame.stackBase = m.stack := by
    rw [at_.base, ← at_.since.stack]
    refine Array.toList_inj.mp ?_
    rw [Array.toList_shrink, ← Array.length_toList, List.take_length]
  unfold Interp.dropFrame
  refine .asked at_.asked ⟨{ m with frames := m.frames.pop }, ?_, ?_, at_.feeds, { at_.since with }⟩
  · rw [Interp.bind_ok (Interp.modify_run _ _), stack, Interp.pure_run]
  · change m.frames.pop = l.below
    rw [at_.frames, Array.pop_push]

theorem Left.read (left : l.Left i tight m) :
    ∃ feed, Query.feed l.lower.size m = .ok feed ∧ l.Reads i tight feed := by
  obtain ⟨feed, feeds, reads⟩ := left.feeds
  exact ⟨feed, by rw [Query.feed, feeds, Array.getElem?_push_size], reads⟩

/-! ## A frame above for a single expression -/

/-- The level of a frame above that reads the same feed. -/
def At.above (at_ : l.At frame i tight m) : Level :=
  { l with start := m, below := m.frames, holds := at_.cells }

theorem At.reads_above (at_ : l.At frame i tight m) {j : Nat} {tight' : Bool} {feed : Feed} :
    at_.above.Reads j tight' feed ↔ l.Reads j tight' feed :=
  ⟨fun ⟨source, value, specifier, tight, ready, passing⟩ =>
      ⟨source, value, specifier, tight, ready, passing⟩,
    fun ⟨source, value, specifier, tight, ready, passing⟩ =>
      ⟨source, value, specifier, tight, ready, passing⟩⟩

/-- What the level keeps is kept by a level above, and also what the frame refers to. -/
theorem At.above_kept (at_ : l.At frame i tight m) {id : SeriesId}
    (kept : l.Kept id ∨ id ∈ frame.references) : at_.above.Kept id := by
  have below {id : SeriesId} {fr : Frame} (member : fr ∈ m.frames) (reference : id ∈ fr.references) :
      at_.above.Refers id := .inl (.inl ⟨fr, member, reference⟩)
  rcases kept with ⟨seed, refers, reaches⟩ | reference
  · have refers' : at_.above.Refers seed := by
      rcases refers with (⟨fr, member, reference⟩ | lower) | own
      · exact below (by rw [at_.frames]; exact Array.mem_push_of_mem _ member) reference
      · exact .inl (.inr lower)
      · exact .inr own
    exact ⟨seed, refers', reaches.keep l.closed at_.since.heap refers.kept⟩
  · exact (below (by rw [at_.frames]; exact Array.mem_push_self) reference).kept

theorem At.push (at_ : l.At frame i tight m) (room : l.below.size + 1 < m.config.frameLimit)
    (fulfillingArg : Bool) :
    Gives (Interp.pushFrame { feed := frame.feed, fulfillingArg }) m at_.above.below.size
      (at_.above.At { feed := frame.feed, fulfillingArg, stackBase := m.stack.size } i tight) := by
  have size : m.frames.size = l.below.size + 1 := by rw [at_.frames, Array.size_push]
  obtain ⟨feed, feeds, reads⟩ := at_.feeds
  have free : m.config.isFull m.frames.size = false := size ▸ Config.isFull_of_lt room
  refine ⟨_, if_neg (by simp [free]), rfl,
    ⟨feed, feeds, at_.reads_above.mpr reads⟩, at_.fed, rfl, ?_⟩
  exact { stack := rfl, config := rfl, running := at_.since.running
          unmarked := at_.since.unmarked, heap := fun _ _ _ found => found }

/-- The frame above is gone, and the level goes on. -/
theorem At.back (at_ : l.At frame i tight m) {j : Nat} {tight' : Bool} {m' : Machine}
    (left : at_.above.Left j tight' m') : l.At frame j tight' m' where
  frames := left.frames.trans at_.frames
  feeds := left.feeds.imp fun _ => And.imp_right at_.reads_above.mp
  fed := at_.fed
  base := at_.base
  since := at_.since.trans left.since fun _ _ kept _ => at_.above_kept (.inl kept)

end Level

/-! ## A frame and a feed of their own -/

/-- What the frames and feeds of a machine have in use. -/
def Machine.InUse (m : Machine) (id : SeriesId) : Prop :=
  ∃ seed, Seeds m.frames m.feeds seed ∧ m.heap.Reaches seed id

/-- A machine goes on with its frames and feeds after something was evaluated apart. -/
structure Machine.Resumes (m m' : Machine) : Prop where
  frames : m'.frames = m.frames
  feeds : m'.feeds = m.feeds
  since : m.Sustains m.InUse m'

/-- The level of a frame with a feed of its own, which reads an array. -/
def Machine.level (m : Machine) (array : SeriesId) (specifier : Specifier) (cells : List Cell)
    (holds : m.heap.cells? array = some cells.toArray) : Level :=
  { start := m, below := m.frames, lower := m.feeds, array, specifier, cells, holds }

namespace Level

variable {l : Level} {frame : Frame} {i : Nat} {tight : Bool} {m m' : Machine} {array : SeriesId}
  {specifier : Specifier} {cells : List Cell} {holds : m.heap.cells? array = some cells.toArray}

/-- A level goes on after something was evaluated apart. -/
theorem At.resume (at_ : l.At frame i tight m) (resumes : m.Resumes m') :
    l.At frame i tight m' where
  frames := resumes.frames.trans at_.frames
  feeds := resumes.feeds ▸ at_.feeds
  fed := at_.fed
  base := at_.base
  since := at_.since.trans resumes.since fun id _ kept _ => by
    obtain ⟨seed, refers, reaches⟩ := kept
    obtain ⟨feed, feeds, reads⟩ := at_.feeds
    have reached := reaches.keep l.closed at_.since.heap refers.kept
    have own {id : SeriesId} (reference : id ∈ feed.references) : Seeds m.frames m.feeds id :=
      .inr ⟨feed, by rw [feeds]; exact Array.mem_push_self, reference⟩
    refine ⟨seed, ?_, reached⟩
    rcases refers with (⟨frame, member, reference⟩ | ⟨feed, member, reference⟩) | rfl | specifier
    · exact .inl ⟨frame, by rw [at_.frames]; exact Array.mem_push_of_mem _ member, reference⟩
    · exact .inr ⟨feed, by rw [feeds]; exact Array.mem_push_of_mem _ member, reference⟩
    · exact own (by simp [Feed.references, reads.source])
    · exact own (by simp [Feed.references, reads.specifier, specifier])

/-- A feed that begins to read an array at a position. -/
def feedAt (l : Level) (i : Nat) : Feed :=
  { source := .array l.array (i + 1), value := (l.cells.drop i).headD Cell.end_,
    specifier := l.specifier }

theorem arrayFeed_run (l : Level) (i : Nat) :
    Query.arrayFeed l.array i l.specifier l.start = .ok (l.feedAt i) := by
  have current : Query.cellOrEnd l.array i l.start = .ok ((l.cells.drop i).headD Cell.end_) := by
    rw [Query.cellOrEnd, Query.bind_ok (Query.cells_iff.mpr l.holds), Query.pure_run,
      List.getElem?_toArray, ← List.head?_drop, List.headD_eq_head?_getD]
  rw [Query.arrayFeed, Query.bind_ok current]
  rfl

theorem enter (m : Machine) (holds : m.heap.cells? array = some cells.toArray)
    (room : m.frames.size < m.config.frameLimit) (running : m.signals.halt = false)
    (unmarked : m.heap.Unmarked) (i : Nat) {fr : Frame} (fed : fr.feed = m.feeds.size) :
    Gives (Interp.pushFrame fr)
      { m with feeds := m.feeds.push ((m.level array specifier cells holds).feedAt i) } m.frames.size
      ((m.level array specifier cells holds).At { fr with stackBase := m.stack.size } i false) := by
  refine ⟨_, Interp.pushFrame_run fr room, rfl, ⟨_, rfl, ⟨rfl, rfl, rfl, rfl, rfl, rfl⟩⟩, fed, rfl,
    ?_⟩
  exact { stack := rfl, config := rfl, running, unmarked, heap := fun _ _ _ found => found }

theorem Left.dropFeed (left : (m.level array specifier cells holds).Left i tight m') :
    Gives (Interp.dropFeed m.feeds.size) m' () m.Resumes := by
  obtain ⟨feed, feeds, -⟩ := left.feeds
  refine ⟨_, Interp.modify_run _ _, left.frames, ?_, ?_⟩
  · change m'.feeds.shrink m.feeds.size = m.feeds
    refine Array.toList_inj.mp ?_
    rw [feeds]
    change ((m.feeds.push feed).shrink m.feeds.size).toList = _
    rw [Array.toList_shrink, Array.toList_push, ← Array.length_toList, List.take_left]
  · exact
      { left.since with
        heap := fun id s ⟨seed, seeds, reaches⟩ found =>
          left.since.heap id s ⟨seed, .inl seeds, reaches⟩ found }

section

variable {α : Type}

/-- Something is evaluated with a feed of its own. -/
theorem fed_run {found : α → Prop} {body : FeedId → Interp α}
    (holds : m.heap.cells? array = some cells.toArray) (i j : Nat) (tight : Bool)
    (ran : Ends (body m.feeds.size)
      { m with feeds := m.feeds.push ((m.level array specifier cells holds).feedAt i) }
      fun a m' => found a ∧ (m.level array specifier cells holds).Left j tight m') :
    Ends (Interp.withFeed ((m.level array specifier cells holds).feedAt i) body) m fun a m' =>
      found a ∧ m.Resumes m' := by
  have pushed : Interp.pushFeed ((m.level array specifier cells holds).feedAt i) m =
      .ok m.feeds.size
        { m with feeds := m.feeds.push ((m.level array specifier cells holds).feedAt i) } := rfl
  refine .after pushed (.bind ran fun a m' => ?_)
  rintro ⟨known, left⟩
  exact .given left.dropFeed fun m' resumes => .pure ⟨known, resumes⟩

/-- Something is evaluated in a frame over the feed. -/
theorem framed_run {j : Nat} (found : α → Frame → Prop) {body : FrameId → Interp α}
    (holds : m.heap.cells? array = some cells.toArray) (room : m.frames.size < m.config.frameLimit)
    (running : m.signals.halt = false) (unmarked : m.heap.Unmarked) (i : Nat) {fr : Frame}
    (fed : fr.feed = m.feeds.size)
    (ran : ∀ m', (m.level array specifier cells holds).At { fr with stackBase := m.stack.size } i
      false m' → Ends (body m.frames.size) m' fun a m' => ∃ fr', found a fr' ∧
        (m.level array specifier cells holds).At fr' j tight m') :
    Ends (Interp.withFrame fr body)
      { m with feeds := m.feeds.push ((m.level array specifier cells holds).feedAt i) }
      fun a m' => found a.1 a.2 ∧ (m.level array specifier cells holds).Left j tight m' := by
  refine .given (enter m holds room running unmarked i fed) fun m' at_ => ?_
  refine .bind (ran m' at_) fun a m' => ?_
  rintro ⟨fr', known, at_⟩
  exact .given at_.drop fun m' left => .pure ⟨known, left⟩

end

end Level

end Homoicon
