import Homoicon.Evaluation.Steps
import Homoicon.Proofs.Arguments.Signature
import Homoicon.Proofs.Collection.Writing
import Homoicon.Proofs.Storing

/-!
# A place in the input

What holds while the cells of a feed are taken one after the other at some level of evaluation:
what is left of the input, and which frames stand above that level.  Each operation on frames and
feeds changes one of these, and pending signals are handled unseen.
-/

namespace Homoicon

/-! ## Runs with a known value -/

namespace Interp

variable {α β : Type}

/-- A computation gives a value, and what it leaves behind is known. -/
def Gives (x : Interp α) (m : Machine) (a : α) (post : Machine → Prop) : Prop :=
  ∃ next, x m = .ok a next ∧ post next

namespace Gives

variable {m : Machine} {a : α} {b : β} {middle post : Machine → Prop}

theorem pure (holds : post m) : Gives (Pure.pure a) m a post := ⟨m, rfl, holds⟩

theorem bind {x : Interp α} {f : α → Interp β} (first : Gives x m a middle)
    (second : ∀ next, middle next → Gives (f a) next b post) : Gives (x >>= f) m b post := by
  obtain ⟨next, ran, holds⟩ := first
  obtain ⟨last, finished, reached⟩ := second next holds
  exact ⟨last, by rw [bind_ok ran, finished], reached⟩

theorem asked {q : Query α} {f : α → Interp β} (answer : q m = .ok a)
    (rest : Gives (f a) m b post) : Gives ((liftM q : Interp α) >>= f) m b post := by
  rwa [Gives, lift_bind_ok answer]

theorem weaken {x : Interp α} (given : Gives x m a middle)
    (entails : ∀ next, middle next → post next) : Gives x m a post := by
  obtain ⟨next, ran, holds⟩ := given
  exact ⟨next, ran, entails next holds⟩

end Gives

end Interp

/-! ## Cells of an array -/

/-- The cells of an array, if it lives. -/
def Heap.cells? (h : Heap) (id : SeriesId) : Option (Array Cell) :=
  (h.get? id).bind fun s =>
    match s.content with
    | .array cells => some cells
    | _ => none

theorem Query.cells_iff {m : Machine} {id : SeriesId} {held : Array Cell} :
    cells id m = .ok held ↔ m.heap.cells? id = some held := by
  rw [cells_eq_ok, Heap.cells?, Option.bind_eq_some_iff]
  refine exists_congr fun s => and_congr Iff.rfl ?_
  cases s.content <;> simp

theorem Heap.cells?_congr {h h' : Heap} {id : SeriesId} (same : h'.get? id = h.get? id) :
    h'.cells? id = h.cells? id := by
  rw [cells?, cells?, same]

/-! ## What a feed has to give -/

/-- A feed that has some cells to give, the current one first, from an array that is allowed. -/
structure Feed.Supplies (allowed : SeriesId → Prop) (heap : Heap) (input : List Cell)
    (feed : Feed) : Prop where
  value : feed.value = input.headD Cell.end_
  source : feed.source = .cells input.tail ∨
    ∃ array next held, feed.source = .array array next ∧ allowed array ∧
      heap.cells? array = some held ∧ held.toList.drop next = input.tail
  ready : feed.deferringEnfix = false
  passing : feed.barrierHit = false

/-- A feed has the same to give where its array does. -/
theorem Feed.Supplies.transport {allowed allowed' : SeriesId → Prop} {heap heap' : Heap}
    {input : List Cell} {feed : Feed} (supplies : feed.Supplies allowed heap input)
    (same : ∀ array next, feed.source = .array array next → allowed array →
      heap.cells? array ≠ none → allowed' array ∧ heap'.cells? array = heap.cells? array) :
    feed.Supplies allowed' heap' input where
  value := supplies.value
  source := by
    refine supplies.source.imp_right ?_
    rintro ⟨array, next, held, source, fits, found, rest⟩
    obtain ⟨fits', kept⟩ := same array next source fits (by simp [found])
    exact ⟨array, next, held, source, fits', kept.trans found, rest⟩
  ready := supplies.ready
  passing := supplies.passing

namespace Interp

variable {m : Machine} {id : FeedId} {feed : Feed} {allowed : SeriesId → Prop} {c : Cell}
  {input : List Cell}

theorem modifyFeed_run (fed : m.feeds[id]? = some feed) (g : Feed → Feed) :
    ∃ feeds, modifyFeed id g m = .ok () { m with feeds } ∧ feeds[id]? = some (g feed) := by
  refine ⟨_, if_pos (Array.getElem?_eq_some_iff.mp fed).1, ?_⟩
  rw [Array.getElem?_modify, if_pos rfl, fed]
  rfl

theorem modifyFrame_run {f : FrameId} {frame : Frame} (found : m.frames[f]? = some frame)
    (g : Frame → Frame) :
    ∃ frames, modifyFrame f g m = .ok () { m with frames } ∧ frames[f]? = some (g frame) ∧
      frames.size = m.frames.size := by
  refine ⟨_, if_pos (Array.getElem?_eq_some_iff.mp found).1, ?_, Array.size_modify ..⟩
  rw [Array.getElem?_modify, if_pos rfl, found]
  rfl

/-- Advancing a feed gives its current cell and goes on to the next one. -/
theorem fetchNext_run (fed : m.feeds[id]? = some feed)
    (supplies : feed.Supplies allowed m.heap (c :: input)) :
    ∃ feeds next, fetchNext id m = .ok c { m with feeds } ∧ feeds[id]? = some next ∧
      next.Supplies allowed m.heap input ∧ next.specifier = feed.specifier := by
  have asked : Query.feed id m = .ok feed := by rw [Query.feed, fed]
  have current : feed.value = c := supplies.value
  rcases supplies.source with source | ⟨array, next, held, source, fits, found, rest⟩
  · obtain ⟨feeds, changed, there⟩ := modifyFeed_run fed fun f =>
      { f with source := .cells input.tail, value := input.head?.getD Cell.end_, gotten := none,
               lookback := none }
    refine ⟨feeds, _, ?_, there, ⟨?_, .inl rfl, supplies.ready, supplies.passing⟩, rfl⟩
    · rw [fetchNext, lift_bind_ok asked, source]
      exact (bind_ok changed _).trans (by rw [current]; rfl)
    · exact List.headD_eq_head?_getD.symm
  · have peeked : Query.cellOrEnd array next m = .ok (input.headD Cell.end_) := by
      rw [Query.cellOrEnd, Query.bind_ok (Query.cells_iff.mpr found), Query.pure_run,
        ← Array.getElem?_toList, ← List.head?_drop, rest, List.headD_eq_head?_getD]
      rfl
    obtain ⟨feeds, changed, there⟩ := modifyFeed_run fed fun f =>
      { f with source := .array array (next + 1), value := input.headD Cell.end_, gotten := none,
               lookback := none }
    refine ⟨feeds, _, ?_, there, ⟨rfl, .inr ⟨array, next + 1, held, rfl, fits, found, ?_⟩,
      supplies.ready, supplies.passing⟩, rfl⟩
    · rw [fetchNext, lift_bind_ok asked, source]
      refine (lift_bind_ok peeked _).trans ((bind_ok changed _).trans ?_)
      rw [current]
      rfl
    · rw [← List.tail_drop, rest, List.tail_cons]

theorem fetchKeepLookback_run (fed : m.feeds[id]? = some feed)
    (supplies : feed.Supplies allowed m.heap (c :: input)) :
    ∃ feeds next, fetchKeepLookback id m = .ok c { m with feeds } ∧ feeds[id]? = some next ∧
      next.Supplies allowed m.heap input ∧ next.specifier = feed.specifier := by
  obtain ⟨feeds, next, fetched, there, supplied, specifier⟩ := fetchNext_run fed supplies
  have changed := @modifyFeed_run { m with feeds } id next there
    fun f => { f with lookback := some c }
  obtain ⟨feeds', changed, there⟩ := changed
  refine ⟨feeds', _, ?_, there,
    ⟨supplied.value, supplied.source, supplied.ready, supplied.passing⟩, specifier⟩
  rw [fetchKeepLookback, bind_ok fetched, bind_ok changed]
  rfl

end Interp

/-! ## Pending signals -/

theorem Machine.recycle_rest {m : Machine} : m.recycle = { m with heap := m.recycle.heap } := by
  unfold Machine.recycle
  split <;> rfl

namespace Interp

/-- A property of machines that handling the pending signals does not change. -/
structure Outlasts (p : Machine → Prop) : Prop where
  running : ∀ m, p m → m.signals.halt = false
  counted : ∀ m countdown, p m → p { m with countdown }
  signalled : ∀ m signals, signals.halt = m.signals.halt → p m → p { m with signals }
  recycled : ∀ m, p m → p m.recycle

variable {p post : Machine → Prop} {m : Machine} {α : Type} {a : α}

theorem Outlasts.doSignals (outlasts : Outlasts p) (holds : p m) : Gives doSignals m () p := by
  have finish {m : Machine} (holds : p m) : Gives (do
        modify fun m => { m with signals := { m.signals with interrupt := false } }
        if (← get).signals.halt then
          modify fun m => { m with signals := { m.signals with halt := false } }
          fail .halted) m () p := by
    refine ⟨{ m with signals := { m.signals with interrupt := false } }, ?_,
      outlasts.signalled m _ rfl holds⟩
    rw [bind_ok (modify_run _ _), bind_ok (get_run _), if_neg (by simp [outlasts.running m holds])]
    rfl
  unfold Interp.doSignals
  refine .bind ⟨_, modify_run _ _, outlasts.counted m _ holds⟩ fun m holds => ?_
  refine .bind ⟨m, get_run m, holds⟩ fun m holds => ?_
  split
  · refine .bind ⟨_, modify_run _ _, outlasts.signalled m _ rfl holds⟩ fun m holds => ?_
    exact .bind ⟨_, rfl, outlasts.recycled m holds⟩ fun m holds => finish holds
  · exact finish holds

/-- Now and then the signals are handled first. -/
theorem Outlasts.poll (outlasts : Outlasts p) {next : Interp α} (holds : p m)
    (rest : ∀ m, p m → Gives next m a post) :
    Gives (do
      countDown
      if (← get).countdown ≤ 0 then Interp.doSignals
      next) m a post := by
  refine .bind ⟨_, modify_run _ _, outlasts.counted m _ holds⟩ fun m holds => ?_
  refine .bind ⟨m, get_run m, holds⟩ fun m holds => ?_
  split
  · exact .bind (outlasts.doSignals holds) rest
  · exact rest m holds

end Interp

/-! ## Places -/

/-- A level of evaluation and the feed that it takes cells from. -/
structure Intake where
  frame : FrameId
  feed : FeedId
  /-- What is known of the frame. -/
  runs : Frame → Prop
  /-- Where the feed may take its cells from. -/
  allowed : SeriesId → Prop
  /-- The cells that may be taken. -/
  takes : Cell → Prop
  /-- What follows them. -/
  rest : List Cell
  fed : ∀ frame, runs frame → frame.feed = feed
  calm : ∀ c, takes c → c.IsQuiet
  quiet : (rest.headD Cell.end_).IsQuiet

namespace Intake

/-- What else holds while cells are taken, whatever becomes of the feeds and of the frames from
that of the intake on. -/
structure Around (intake : Intake) where
  holds : Machine → Prop
  frames : ∀ m frames, (∀ i < intake.frame, frames[i]? = m.frames[i]?) → holds m →
    holds { m with frames }
  feeds : ∀ m feeds, holds m → holds { m with feeds }
  counted : ∀ m countdown, holds m → holds { m with countdown }
  signalled : ∀ m signals, holds m → holds { m with signals }
  recycled : ∀ m, m.heap.Unmarked → (∃ frame ∈ m.frames, intake.runs frame) → holds m →
    holds m.recycle
  height : ∀ m m', holds m → holds m' → m.stack.size = m'.stack.size

/-- Some cells are left to be taken, and some frames stand above the level of a intake. -/
structure Holds (intake : Intake) (around : intake.Around) (input : List Cell) (above : List Frame)
    (m : Machine) : Prop where
  unmarked : m.heap.Unmarked
  running : m.signals.halt = false
  room : intake.frame + 1 < m.config.frameLimit
  caller : ∃ frame, m.frames[intake.frame]? = some frame ∧ intake.runs frame
  above : m.frames.toList.drop (intake.frame + 1) = above
  fed : ∃ feed, m.feeds[intake.feed]? = some feed ∧
    feed.Supplies intake.allowed m.heap (input ++ intake.rest)
  input : ∀ c ∈ input, intake.takes c
  around : around.holds m

variable {intake : Intake} {around : intake.Around} {input : List Cell} {above : List Frame}
  {m : Machine}

namespace Holds

/-! ## Frames -/

theorem caller_run (holds : intake.Holds around input above m) :
    ∃ frame, Query.frame intake.frame m = .ok frame ∧ intake.runs frame := by
  obtain ⟨frame, found, runs⟩ := holds.caller
  exact ⟨frame, by rw [Query.frame, found], runs⟩

theorem onCaller {g : Frame → Frame} (holds : intake.Holds around input above m)
    (kept : ∀ frame, intake.runs frame → intake.runs (g frame)) :
    Interp.Gives (Interp.modifyFrame intake.frame g) m () (intake.Holds around input above) := by
  obtain ⟨frame, found, runs⟩ := holds.caller
  have inside := (Array.getElem?_eq_some_iff.mp found).1
  refine ⟨_, if_pos inside, { holds with
    caller := ⟨g frame, ?_, kept frame runs⟩, above := ?_
    around := around.frames _ _ (fun i below => ?_) holds.around }⟩
  · change (m.frames.modify intake.frame g)[intake.frame]? = _
    rw [Array.getElem?_modify, if_pos rfl, found]
    rfl
  · change (m.frames.modify intake.frame g).toList.drop (intake.frame + 1) = above
    rw [Array.toList_modify, List.drop_modify_of_lt _ _ _ _ (Nat.lt_succ_self _), holds.above]
  · rw [Array.getElem?_modify, if_neg (Nat.ne_of_gt below)]

theorem size_frames (holds : intake.Holds around input above m) :
    m.frames.size = intake.frame + 1 + above.length := by
  obtain ⟨frame, found, -⟩ := holds.caller
  have inside := (Array.getElem?_eq_some_iff.mp found).1
  rw [← holds.above, List.length_drop, Array.length_toList]
  omega

theorem frame_above {frame : Frame} (holds : intake.Holds around input [frame] m) :
    Query.frame (intake.frame + 1) m = .ok frame := by
  have found : m.frames[intake.frame + 1]? = some frame := by
    rw [← Array.getElem?_toList, ← List.head?_drop, holds.above]
    rfl
  rw [Query.frame, found]

theorem onAbove {frame : Frame} (holds : intake.Holds around input [frame] m) (g : Frame → Frame) :
    Interp.Gives (Interp.modifyFrame (intake.frame + 1) g) m ()
      (intake.Holds around input [g frame]) := by
  have inside : intake.frame + 1 < m.frames.size := by
    rw [holds.size_frames, List.length_singleton]
    exact Nat.lt_succ_self _
  obtain ⟨caller, found, runs⟩ := holds.caller
  refine ⟨_, if_pos inside, { holds with
    caller := ⟨caller, ?_, runs⟩, above := ?_
    around := around.frames _ _ (fun i below => ?_) holds.around }⟩
  · change (m.frames.modify (intake.frame + 1) g)[intake.frame]? = _
    rw [Array.getElem?_modify, if_neg (Nat.succ_ne_self _), found]
  · change (m.frames.modify (intake.frame + 1) g).toList.drop (intake.frame + 1) = _
    rw [Array.toList_modify, List.drop_modify_of_ge _ _ _ _ (Nat.le_refl _), holds.above,
      Nat.sub_self]
    rfl
  · rw [Array.getElem?_modify, if_neg (Nat.ne_of_gt (Nat.lt_succ_of_lt below))]

theorem push (holds : intake.Holds around input [] m) (frame : Frame) :
    Interp.Gives (Interp.pushFrame frame) m (intake.frame + 1)
      (intake.Holds around input [{ frame with stackBase := m.stack.size }]) := by
  have size : m.frames.size = intake.frame + 1 := holds.size_frames
  obtain ⟨caller, found, runs⟩ := holds.caller
  refine ⟨{ m with frames := m.frames.push { frame with stackBase := m.stack.size } }, ?_,
    { holds with
      caller := ⟨caller, ?_, runs⟩, above := ?_
      around := around.frames _ _ (fun i below => ?_) holds.around }⟩
  · rw [Interp.pushFrame_run frame (size ▸ holds.room), size]
  · change (m.frames.push _)[intake.frame]? = _
    rw [Array.getElem?_push, if_neg (by omega), found]
  · change (m.frames.push _).toList.drop (intake.frame + 1) = _
    rw [Array.toList_push, List.drop_append_of_le_length (by simp [size]), holds.above]
    rfl
  · rw [Array.getElem?_push, if_neg (by rw [size]; exact Nat.ne_of_lt (Nat.lt_succ_of_lt below))]

theorem drop {frame : Frame} (holds : intake.Holds around input [frame] m)
    (base : frame.stackBase = m.stack.size) :
    Interp.Gives (Interp.dropFrame (intake.frame + 1)) m frame
      (intake.Holds around input []) := by
  have size : m.frames.size = intake.frame + 1 + 1 := holds.size_frames
  obtain ⟨caller, found, runs⟩ := holds.caller
  have stack : m.stack.shrink frame.stackBase = m.stack := by
    rw [base]
    refine Array.toList_inj.mp ?_
    rw [Array.toList_shrink, ← Array.length_toList, List.take_length]
  refine .asked holds.frame_above ⟨{ m with frames := m.frames.pop }, ?_, { holds with
    caller := ⟨caller, ?_, runs⟩, above := ?_
    around := around.frames _ _ (fun i below => ?_) holds.around }⟩
  · rw [Interp.bind_ok (Interp.modify_run _ _), stack, Interp.pure_run]
  · change m.frames.pop[intake.frame]? = _
    rw [Array.getElem?_pop, if_pos (by omega), found]
  · change m.frames.pop.toList.drop (intake.frame + 1) = []
    refine List.drop_eq_nil_of_le ?_
    rw [Array.toList_pop, List.length_dropLast, Array.length_toList, size]
    exact Nat.le_refl _
  · rw [Array.getElem?_pop, if_pos (by rw [size]; exact Nat.lt_succ_of_lt below)]

/-! ## The feed -/

theorem feed_run (holds : intake.Holds around input above m) :
    ∃ feed, Query.feed intake.feed m = .ok feed ∧
      feed.Supplies intake.allowed m.heap (input ++ intake.rest) := by
  obtain ⟨feed, found, supplies⟩ := holds.fed
  exact ⟨feed, by rw [Query.feed, found], supplies⟩

theorem lookahead (holds : intake.Holds around input above m) (noLookahead : Bool) :
    Interp.Gives (Interp.modifyFeed intake.feed fun feed => { feed with noLookahead }) m ()
      (intake.Holds around input above) := by
  obtain ⟨feed, found, supplies⟩ := holds.fed
  obtain ⟨feeds, changed, there⟩ := Interp.modifyFeed_run found fun feed =>
    { feed with noLookahead }
  have same : Feed.Supplies intake.allowed m.heap (input ++ intake.rest) { feed with noLookahead } :=
    ⟨supplies.value, supplies.source, supplies.ready, supplies.passing⟩
  exact ⟨_, changed,
    { holds with fed := ⟨_, there, same⟩, around := around.feeds _ _ holds.around }⟩

theorem fetchKept {c : Cell} (holds : intake.Holds around (c :: input) above m) :
    Interp.Gives (Interp.fetchKeepLookback intake.feed) m c
      (intake.Holds around input above) := by
  obtain ⟨feed, found, supplies⟩ := holds.fed
  obtain ⟨feeds, next, fetched, there, supplied, -⟩ := Interp.fetchKeepLookback_run found supplies
  refine ⟨_, fetched, { holds with
    fed := ⟨next, there, supplied⟩, input := ?_, around := around.feeds _ _ holds.around }⟩
  exact fun d member => holds.input d (List.mem_cons_of_mem c member)

/-- What comes next is no operator. -/
theorem next_quiet {feed : Feed} (holds : intake.Holds around input above m)
    (supplies : feed.Supplies intake.allowed m.heap (input ++ intake.rest)) :
    feed.value.IsQuiet := by
  rw [supplies.value]
  cases input with
  | nil => exact intake.quiet
  | cons c rest => exact intake.calm c (holds.input c (List.mem_cons_self ..))

/-! ## Pending signals -/

theorem recycled (holds : intake.Holds around input above m) :
    intake.Holds around input above m.recycle := by
  have agree := Machine.agree_recycle holds.unmarked
  obtain ⟨frame, found, runs⟩ := holds.caller
  obtain ⟨feed, fed, supplies⟩ := holds.fed
  have around := around.recycled m holds.unmarked ⟨frame, Array.mem_of_getElem? found, runs⟩
    holds.around
  have supplies : feed.Supplies intake.allowed m.recycle.heap (input ++ intake.rest) :=
    supplies.transport fun array next source fits _ =>
      ⟨fits, Heap.cells?_congr (agree.get? array
        (.of_feed (Array.mem_of_getElem? fed) (by simp [Feed.references, source])))⟩
  have unmarked := Machine.unmarked_recycle holds.unmarked
  rw [Machine.recycle_rest] at around ⊢
  exact { holds with unmarked, fed := ⟨feed, fed, supplies⟩, around }

/-- Pending signals are handled unseen. -/
theorem outlasts : Interp.Outlasts (intake.Holds around input above) where
  running _ holds := holds.running
  counted _ _ holds := { holds with around := around.counted _ _ holds.around }
  signalled _ _ same holds :=
    { holds with running := same.trans holds.running, around := around.signalled _ _ holds.around }
  recycled _ holds := holds.recycled

end Holds

end Intake

end Homoicon
