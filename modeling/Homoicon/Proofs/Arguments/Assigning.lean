import Homoicon.Proofs.Arguments.Binding

/-!
# Arguments that are assigned by name

The block of a specialization runs in a frame of its own above that of the call, and each assignment
fills one slot of the exemplar.  Garbage may be collected in between: the exemplar is guarded, and
the action is an argument of the call.
-/

namespace Homoicon

open Interp (Gives)

/-- A block of assignments that is evaluated: in which frame and from which feed, for which call,
and to which slots. -/
structure Assignment where
  caller : FrameId
  feed : FeedId
  action : Action
  binding : Binding
  /-- The slots of the call, the first of which has the action. -/
  args : SeriesId
  base : SeriesId
  exemplar : SeriesId
  /-- The heap in which the call began. -/
  heap : Heap
  symbols : Symbols
  specials : Specials
  stack : Array Cell
  fresh : heap.get? exemplar = none
  apart : args ≠ exemplar

namespace Assignment

/-- A frame that evaluates the block. -/
structure Runs (a : Assignment) (frame : Frame) : Prop where
  feed : frame.feed = a.feed
  whole : frame.toEnd = true
  own : frame.fulfillingArg = false
  base : frame.stackBase = a.stack.size

/-- The exemplar as a value. -/
def cell (a : Assignment) : Cell := Cell.frame a.exemplar a.action a.binding

/-- The block is read from elsewhere than the exemplar, and holds no operators. -/
def intake (a : Assignment) : Intake where
  frame := a.caller + 1
  feed := a.feed
  runs := a.Runs
  allowed := (· ≠ a.exemplar)
  takes := Cell.IsQuiet
  rest := []
  fed _ runs := runs.feed
  calm _ quiet := quiet
  quiet := ⟨rfl, rfl⟩

/-- The slots of the exemplar hold some values, and the action is as it was. -/
structure Fills (a : Assignment) (slots : List Cell) (m : Machine) : Prop where
  symbols : m.symbols = a.symbols
  specials : m.specials = a.specials
  stack : m.stack = a.stack
  caller : ∃ frame, m.frames[a.caller]? = some frame ∧ frame.varlist = some a.args
  args : ∃ held c, m.heap.cells? a.args = some held ∧ held[1]? = some c ∧
    c.asAction? = some a.action
  kept : a.heap.Keeps a.action m.heap
  exemplar : m.heap.get? a.exemplar = some (exemplarSeries a.base a.cell slots)

variable {a : Assignment} {slots : List Cell} {m m' : Machine}

/-- The action is in use as an argument of the call. -/
theorem Fills.rooted (fills : a.Fills slots m) :
    m.Rooted a.args ∧ m.Rooted a.action.paramlist ∧ m.Rooted a.action.details := by
  obtain ⟨frame, found, varlist⟩ := fills.caller
  obtain ⟨held, c, cells, here, calls⟩ := fills.args
  have args : m.Rooted a.args :=
    .of_frame (Array.mem_of_getElem? found) (by simp [Frame.references, varlist])
  have listed := Query.cells_iff.mpr cells
  obtain ⟨s, live, content⟩ := Query.cells_eq_ok.mp listed
  have within : c.Within m.Rooted := fun id member => args.next live <| List.mem_append_right _ <| by
    rw [content]
    exact List.mem_flatMap.mpr ⟨c, Array.mem_toList_iff.mpr (Array.mem_of_getElem? here), member⟩
  exact ⟨args, within.of_action calls⟩

def around (a : Assignment) (slots : List Cell) : a.intake.Around where
  holds m := a.Fills slots m ∧ a.cell ∈ m.guards
  frames m frames same holds := by
    obtain ⟨fills, guarded⟩ := holds
    obtain ⟨frame, found, varlist⟩ := fills.caller
    have caller : ∃ frame, frames[a.caller]? = some frame ∧ frame.varlist = some a.args :=
      ⟨frame, (same a.caller (Nat.lt_succ_self _)).trans found, varlist⟩
    exact ⟨{ fills with caller }, guarded⟩
  feeds _ _ holds := ⟨{ holds.1 with }, holds.2⟩
  counted _ _ holds := ⟨{ holds.1 with }, holds.2⟩
  signalled _ _ holds := ⟨{ holds.1 with }, holds.2⟩
  recycled m unmarked _ holds := by
    obtain ⟨fills, guarded⟩ := holds
    obtain ⟨args, paramlist, details⟩ := fills.rooted
    have agree := Machine.agree_recycle unmarked
    have exemplar : m.Rooted a.exemplar :=
      .of_guard guarded (by simp [cell, Cell.frame, Cell.references, Payload.nodes])
    have kept := fills.kept.recycle unmarked paramlist details
    have same := Heap.cells?_congr (agree.get? _ args)
    have held := (agree.get? _ exemplar).trans fills.exemplar
    rw [Machine.recycle_rest]
    exact ⟨{ fills with args := by rw [same]; exact fills.args, kept, exemplar := held }, guarded⟩
  height m m' holds holds' := by rw [holds.1.stack, holds'.1.stack]

/-- The slots of the exemplar hold some values, and some of the block is left. -/
abbrev Holds (a : Assignment) (slots input : List Cell) (above : List Frame) (m : Machine) : Prop :=
  a.intake.Holds (a.around slots) input above m

namespace Holds

variable {input : List Cell} {above : List Frame}

theorem fills (holds : a.Holds slots input above m) : a.Fills slots m := holds.around.1

/-- Only the slots of the exemplar change. -/
theorem become {slots' : List Cell} (holds : a.Holds slots input above m)
    (becomes : m.Becomes a.exemplar (exemplarSeries a.base a.cell slots') m') :
    a.Holds slots' input above m' := by
  obtain ⟨feed, fed, supplies⟩ := holds.fed
  have kept := becomes.keeps holds.fills.kept (.inl a.fresh)
  have unmarked := becomes.unmarked holds.unmarked exemplarSeries_unmarked
  have args := Heap.cells?_congr (becomes.others _ a.apart)
  have held := becomes.self
  have others := becomes.others
  rw [becomes.rest]
  refine { holds with unmarked, fed := ⟨feed, fed, ?_⟩, around := ⟨?_, holds.around.2⟩ }
  · exact supplies.transport fun array _ _ apart _ => ⟨apart, Heap.cells?_congr (others array apart)⟩
  · exact { holds.fills with args := by rw [args]; exact holds.fills.args, kept, exemplar := held }

/-- A word that refers to a slot of the exemplar assigns to it. -/
theorem assign (holds : a.Holds slots input above m) {i : Nat} {w c old : Cell}
    {specifier : Specifier} (refers : w.Refers a.exemplar i) (literal : c.IsLiteral)
    (there : slots[i]? = some old) (free : old.guarded = false) :
    Gives (Interp.setVar w specifier c) m () (a.Holds (slots.set i c) input above) := by
  obtain ⟨bound, symbol, name⟩ := refers
  have live := holds.fills.exemplar
  have inside : i < slots.length := (List.getElem?_eq_some_iff.mp there).1
  have serves : m.Serves a.exemplar a.base (slots.length + 1) :=
    .of_live live exemplarSeries_accessible rfl
  have resolved : Query.resolveWord w specifier m = .ok ⟨a.exemplar, i + 1⟩ :=
    serves.resolveWord name (.inl bound) (Nat.succ_ne_zero i) (Nat.succ_lt_succ inside)
  have content : Query.varContent ⟨a.exemplar, i + 1⟩ m = .ok old := by
    refine Query.cell_eq_ok.mpr ⟨_, Query.cells_eq_ok.mpr ⟨_, live, exemplarSeries_content⟩, ?_⟩
    simpa using there
  obtain ⟨m', stored, becomes⟩ := Interp.storeCell_becomes live exemplarSeries_content
    (by simpa using inside : i + 1 < (a.cell :: slots).toArray.size) c
  rw [exemplarSeries_storing] at becomes
  unfold Interp.setVar Interp.writeVar
  refine .asked resolved (.asked content ?_)
  rw [free, Interp.moveCell, literal.copied]
  exact ⟨m', stored, holds.become becomes⟩

/-! ## One assignment -/

/-- The frame of the block, and what is left of the block. -/
theorem ready (holds : a.Holds slots input [] m) :
    ∃ frame feed, Query.frame (a.caller + 1) m = .ok frame ∧ a.Runs frame ∧
      Query.feed a.feed m = .ok feed ∧ feed.value = input.headD Cell.end_ ∧
      feed.value.IsQuiet := by
  obtain ⟨frame, asked, runs⟩ := holds.caller_run
  obtain ⟨feed, run, supplies⟩ := holds.feed_run
  refine ⟨frame, feed, asked, runs, run, ?_, holds.next_quiet supplies⟩
  exact supplies.value.trans (congrArg (·.headD Cell.end_) (List.append_nil input))

theorem begin (holds : a.Holds slots input [] m) :
    Gives (Engine.startExpression (a.caller + 1)) m () (a.Holds slots input []) := by
  unfold Engine.startExpression
  refine Intake.Holds.outlasts.poll holds fun m holds => ?_
  obtain ⟨frame, feed, asked, runs, run, -⟩ := Holds.ready holds
  refine .asked asked ?_
  rw [runs.feed]
  refine .asked run (.bind (Intake.Holds.lookahead holds false) fun m holds => ?_)
  exact Intake.Holds.onCaller holds fun frame runs => ⟨runs.feed, runs.whole, runs.own, runs.base⟩

theorem look {c : Cell} (more : c.isEnd = false) (holds : a.Holds slots (c :: input) [] m) :
    Gives (Engine.lookahead (a.caller + 1)) m (.reevaluate c none) (a.Holds slots input []) := by
  obtain ⟨frame, feed, asked, runs, run, value, -⟩ := holds.ready
  have current : feed.isEnd = false := by
    rw [Feed.isEnd, value]
    exact more
  obtain ⟨m', fetched, holds'⟩ := Intake.Holds.fetchKept holds
  obtain ⟨frame', next, asked', -, run', -, quiet⟩ := Holds.ready holds'
  have same : a.feed = frame.feed := runs.feed.symm
  exact ⟨m', Engine.lookahead_quiet asked (same ▸ run) current (same ▸ fetched) asked' (same ▸ run')
    quiet, holds'⟩

/-- An assignment of a literal fills its slot. -/
theorem evaluate (dispatch : Dispatch) (fuel : Nat) {rounds i : Nat} {w c old : Cell}
    (word : w.is .setWord = true) (refers : w.Refers a.exemplar i)
    (literal : c.IsLiteral) (there : slots[i]? = some old) (free : old.guarded = false)
    (holds : a.Holds slots (c :: input) [] m) :
    Gives (Engine.evalCell ⟨Engine.runSteps dispatch (fuel + 4), rounds⟩ (a.caller + 1) w none) m
      .postSwitch (a.Holds (slots.set i c) input []) := by
  obtain ⟨bound, symbol, name⟩ := refers
  obtain ⟨unquoted, kind⟩ := Cell.is_iff.mp word
  obtain ⟨frame, feed, asked, runs, run, value, -⟩ := holds.ready
  have plain : w.isQuoted = false := by simp [Cell.isQuoted, unquoted, kind]
  obtain ⟨target, spelled⟩ : ∃ target, Query.wordSpelling w m = .ok target :=
    ⟨_, by rw [Query.wordSpelling, Cell.wordSymbol?, name]; rfl⟩
  have more : feed.isEnd = false := by
    rw [Feed.isEnd, value]
    exact literal.isEnd
  have right : Gives (Engine.evalRight ⟨Engine.runSteps dispatch (fuel + 4), rounds⟩ (a.caller + 1)
      target) m (some c) (a.Holds slots input []) := by
    unfold Engine.evalRight
    refine .asked asked ?_
    rw [runs.feed]
    refine .asked run ?_
    rw [more, if_neg Bool.false_ne_true]
    refine .bind (Intake.Holds.evalSubframe dispatch fuel literal.means false holds)
      fun m holds => ?_
    have same : { c with unevaluated := false, stale := false } = c := by rw [literal.2]
    dsimp only
    rw [same, literal.isEnd, if_neg Bool.false_ne_true, literal.isVoid]
    exact .pure holds
  unfold Engine.evalCell
  refine .asked asked ?_
  rw [runs.feed]
  refine .asked run ?_
  rw [plain, if_neg Bool.false_ne_true, kind]
  refine .asked spelled (.bind right fun m holds => ?_)
  refine .bind (holds.assign ⟨bound, symbol, name⟩ literal there free) fun m holds => ?_
  unfold Engine.writeValue
  refine .bind (Intake.Holds.onCaller holds fun frame runs => ?_) fun m holds => .pure holds
  exact ⟨runs.feed, runs.whole, runs.own, runs.base⟩

/-- Behind an assignment comes the next one, if there is any. -/
theorem settle (real : ∀ c ∈ input, c.isEnd = false) (holds : a.Holds slots input [] m) :
    Gives (Engine.postSwitch (a.caller + 1)) m (if input.isEmpty then .finished else .start)
      (a.Holds slots input []) := by
  obtain ⟨frame, feed, asked, runs, run, value, quiet⟩ := holds.ready
  have ended : feed.isEnd = input.isEmpty := by
    rw [Feed.isEnd, value]
    cases input with
    | nil => rfl
    | cons c input => exact real c (List.mem_cons_self ..)
  rw [← runs.feed] at run
  refine ⟨m, ?_, holds⟩
  rw [Engine.postSwitch_quiet asked run quiet, ended, Engine.afterExpression, runs.whole]
  rfl

end Holds

/-! ## All assignments -/

/-- Slots after some values were put into them. -/
def assigned (slots : List Cell) (pairs : List (Nat × Cell)) : List Cell :=
  pairs.foldl (fun slots pair => slots.set pair.1 pair.2) slots

/-- The whole block is evaluated, and each assignment fills its slot. -/
theorem Holds.run (dispatch : Dispatch) (fuel : Nat) {pairs : List (Nat × Cell)} {items : List Cell}
    (assigns : Assigns (Cell.Refers a.exemplar) pairs items) (holds : a.Holds slots items [] m)
    (empty : ∀ pair ∈ pairs, slots[pair.1]? = some Cell.null) (once : (pairs.map (·.1)).Nodup) :
    Gives (Engine.runSteps dispatch (fuel + 4 * pairs.length + 4) (a.caller + 1) .start) m false
      (a.Holds (assigned slots pairs) [] []) := by
  have finish {k : Nat} {current : Step} {slots : List Cell} {m m' : Machine}
      (ended : Engine.step dispatch ⟨Engine.runSteps dispatch k, k⟩ (a.caller + 1) current m =
        .ok .finished m') (holds : a.Holds slots [] [] m') :
      Gives (Engine.runSteps dispatch (k + 1) (a.caller + 1) current) m false
        (a.Holds slots [] []) := by
    rw [Gives, Engine.runSteps, Interp.bind_ok ended]
    refine Gives.bind (Intake.Holds.onCaller holds fun frame runs => ?_) fun m holds => .pure holds
    exact ⟨runs.feed, runs.whole, runs.own, runs.base⟩
  induction assigns generalizing slots m with
  | nil =>
      refine Gives.steps (.bind (Holds.begin holds) fun m holds => .pure holds) (by simp)
        fun m holds => ?_
      obtain ⟨frame, feed, asked, runs, run, value, -⟩ := Holds.ready holds
      have ended : feed.isEnd = true := by rw [Feed.isEnd, value]; rfl
      have looked : Engine.lookahead (a.caller + 1) m = .ok .finished m := by
        rw [Engine.lookahead, Interp.lift_bind_ok asked, runs.feed, Interp.lift_bind_ok run, ended]
        rfl
      exact finish looked holds
  | @cons i w c pairs items word refers literal assigns ih =>
      have there := empty (i, c) (List.mem_cons_self ..)
      have long : fuel + 4 * (pairs.length + 1) + 4 = fuel + 4 * pairs.length + 4 + 4 := by omega
      rw [List.length_cons, long]
      refine Gives.steps (.bind (Holds.begin holds) fun m holds => .pure holds) (by simp)
        fun m holds => ?_
      have real : w.isEnd = false := by simp [Cell.isEnd, (Cell.is_iff.mp word).2]
      refine Gives.steps (Holds.look real holds) (by simp) fun m holds => ?_
      refine Gives.steps (Holds.evaluate dispatch (fuel + 4 * pairs.length + 1) word refers
        literal there rfl holds) (by simp) fun m holds => ?_
      obtain ⟨m', settled, holds⟩ := Holds.settle assigns.real holds
      cases assigns with
      | nil => exact finish settled holds
      | cons word' refers' literal' assigns' =>
          refine Gives.steps ⟨m', settled, holds⟩ (by simp) fun m holds => ?_
          refine ih holds (fun pair member => ?_) (List.nodup_cons.mp once).2
          have other : i ≠ pair.1 := fun same =>
            (List.nodup_cons.mp once).1 (List.mem_map.mpr ⟨pair, member, same.symm⟩)
          rw [List.getElem?_set_ne other]
          exact empty pair (List.mem_cons_of_mem _ member)

end Assignment

/-! ## The frame of the block -/

/-- A machine in which a frame begins to evaluate a block. -/
def Machine.entering (m : Machine) (block : SeriesId) (items : List Cell) : Machine :=
  { m with
    feeds := m.feeds.push { source := .array block 1, value := items.headD Cell.end_ }
    frames := m.frames.push { feed := m.feeds.size, toEnd := true, stackBase := m.stack.size } }

/-- A machine in which the innermost frame is dropped, with the feeds from one on and the guarded
cells from one on. -/
def Machine.leaving (m : Machine) (frame : Frame) (feeds guards : Nat) : Machine :=
  { m with
    frames := m.frames.pop, stack := m.stack.shrink frame.stackBase, feeds := m.feeds.shrink feeds
    guards := m.guards.shrink guards }

/-- A block is evaluated in a frame of its own while some cells are guarded. -/
theorem Engine.doGuarded_run {e : Engine} {block : SeriesId} {kept : Cell} {items : List Cell}
    {m m' : Machine} {last : Frame} (cells : Query.cells block m = .ok items.toArray)
    (room : m.frames.size < m.config.frameLimit)
    (ran : e.run m.frames.size .start ({ m with
      guards := (m.guards.push kept).push (Cell.series .block block 0) }.entering block items) =
        .ok false m')
    (asked : Query.frame m.frames.size m' = .ok last) :
    ∃ value, e.doGuarded [kept] (Cell.series .block block 0) m =
      .ok (some value) (m'.leaving last m.feeds.size m.guards.size) := by
  let m₁ : Machine := { m with
    guards := (m.guards.push kept).push (Cell.series .block block 0) }
  let m₂ : Machine := { m' with
    frames := m'.frames.pop, stack := m'.stack.shrink last.stackBase
    feeds := m'.feeds.shrink m.feeds.size }
  have reads : Query.arrayFeed block 0 none m₁ =
      .ok { source := .array block 1, value := items.headD Cell.end_ } := by
    obtain ⟨s, live, content⟩ := Query.cells_eq_ok.mp cells
    have cells : Query.cells block m₁ = .ok items.toArray :=
      Query.cells_eq_ok.mpr ⟨s, live, content⟩
    rw [Query.arrayFeed, Query.cellOrEnd, Query.bind_ok (Query.bind_ok cells _)]
    cases items <;> rfl
  have fedAll : Interp.withFeed { source := .array block 1, value := items.headD Cell.end_ }
      (fun feed => Interp.withFrame { feed, toEnd := true } fun f => e.run f .start) m₁ =
        .ok (false, last) m₂ := by
    have pushed : Interp.pushFrame { feed := m.feeds.size, toEnd := true } { m₁ with
        feeds := m.feeds.push { source := .array block 1, value := items.headD Cell.end_ } } =
          .ok m.frames.size (m₁.entering block items) := Interp.pushFrame_run _ room
    have dropped : Interp.dropFrame m.frames.size m' = .ok last { m' with
        frames := m'.frames.pop, stack := m'.stack.shrink last.stackBase } :=
      Interp.lift_bind_ok asked _
    have framed : Interp.withFrame { feed := m.feeds.size, toEnd := true }
        (fun f => e.run f .start) { m₁ with
          feeds := m.feeds.push { source := .array block 1, value := items.headD Cell.end_ } } =
        .ok (false, last) { m' with
          frames := m'.frames.pop, stack := m'.stack.shrink last.stackBase } := by
      rw [Interp.withFrame, Interp.bind_ok pushed, Interp.bind_ok ran, Interp.bind_ok dropped]
      rfl
    exact (Interp.bind_ok rfl _).trans ((Interp.bind_ok framed _).trans rfl)
  have evaluated : e.evalArray? block 0 none m₁ =
      .ok (if last.out.isEnd then .nothing else .value { last.out with stale := false }) m₂ := by
    rw [Engine.evalArray?, Interp.lift_bind_ok reads, Interp.bind_ok fedAll]
    by_cases ended : last.out.isEnd = true
    · rw [if_pos ended]
      exact congrFun (if_pos ended) m₂
    · rw [if_neg ended]
      exact congrFun (if_neg ended) m₂
  obtain ⟨value, whole⟩ : ∃ value, e.evalArray block 0 none m₁ = .ok (some value) m₂ := by
    rw [Engine.evalArray, Interp.bind_ok evaluated]
    by_cases ended : last.out.isEnd = true
    · rw [if_pos ended]
      exact ⟨_, rfl⟩
    · rw [if_neg ended]
      exact ⟨_, rfl⟩
  have own : Query.arrayOf (Cell.series .block block 0) m₁ = .ok block := rfl
  have done : e.doBlock (Cell.series .block block 0) m₁ = .ok (some value) m₂ :=
    (Interp.lift_bind_ok own _).trans whole
  have guarded : (do
      [kept].forM Interp.guard
      Interp.guard (Cell.series .block block 0)
      e.doBlock (Cell.series .block block 0)) m = .ok (some value) m₂ := done
  refine ⟨value, ?_⟩
  rw [Engine.doGuarded, Interp.guarding]
  exact (Interp.bind_ok rfl _).trans ((Interp.bind_ok guarded _).trans rfl)

namespace Assignment

variable {a : Assignment} {slots : List Cell} {m : Machine}

theorem Fills.doGuarded (dispatch : Dispatch) (fuel rounds : Nat) {pairs : List (Nat × Cell)}
    {bound : List Cell} {copy : SeriesId} (fills : a.Fills slots m) (unmarked : m.heap.Unmarked)
    (running : m.signals.halt = false) (top : m.frames.size = a.caller + 1)
    (room : a.caller + 2 < m.config.frameLimit) (feed : a.feed = m.feeds.size)
    (live : m.heap.get? copy = some (blockSeries bound)) (apart : copy ≠ a.exemplar)
    (assigns : Assigns (Cell.Refers a.exemplar) pairs bound)
    (empty : ∀ pair ∈ pairs, slots[pair.1]? = some Cell.null) (once : (pairs.map (·.1)).Nodup) :
    ∃ value, Gives (Engine.doGuarded ⟨Engine.runSteps dispatch (fuel + 4 * pairs.length + 4), rounds⟩
      [a.cell] (Cell.series .block copy 0)) m (some value)
      fun m' => a.Fills (assigned slots pairs) m' ∧ m'.frames.size = a.caller + 1 := by
  let m₁ : Machine := { m with
    guards := (m.guards.push a.cell).push (Cell.series .block copy 0) }
  have supplies : Feed.Supplies a.intake.allowed m.heap (bound ++ a.intake.rest)
      { source := .array copy 1, value := bound.headD Cell.end_ } := by
    have held : m.heap.cells? copy = some bound.toArray :=
      Query.cells_iff.mp (Query.cells_eq_ok.mpr ⟨_, live, rfl⟩)
    rw [show a.intake.rest = [] from rfl, List.append_nil]
    exact ⟨rfl, .inr ⟨copy, 1, bound.toArray, rfl, apart, held, by simp⟩, rfl, rfl⟩
  obtain ⟨caller, found, varlist⟩ := fills.caller
  have holds : a.Holds slots bound [] (m₁.entering copy bound) := by
    have still : (m₁.entering copy bound).frames[a.caller]? = some caller := by
      have inside : a.caller ≠ m.frames.size := by rw [top]; exact Nat.ne_of_lt (Nat.lt_succ_self _)
      exact Array.getElem?_push.trans ((if_neg inside).trans found)
    have entered : (m₁.entering copy bound).frames[a.caller + 1]? =
        some { feed := a.feed, toEnd := true, stackBase := m.stack.size } := by
      rw [← top, feed]
      exact Array.getElem?_push.trans (if_pos rfl)
    have fed : (m₁.entering copy bound).feeds[a.intake.feed]? =
        some { source := .array copy 1, value := bound.headD Cell.end_ } := by
      rw [show a.intake.feed = m.feeds.size from feed]
      exact Array.getElem?_push.trans (if_pos rfl)
    have above : (m₁.entering copy bound).frames.toList.drop (a.caller + 2) = [] := by
      refine List.drop_eq_nil_of_le ?_
      rw [Array.length_toList]
      exact (Array.size_push _).trans_le (Nat.succ_le_succ (Nat.le_of_eq top))
    exact
      { unmarked, running, room, above
        caller := ⟨_, entered, rfl, rfl, rfl, congrArg Array.size fills.stack⟩
        fed := ⟨_, fed, supplies⟩
        input := assigns.quiet
        around := ⟨{ fills with caller := ⟨caller, still, varlist⟩ },
          by simp [m₁, Machine.entering]⟩ }
  obtain ⟨m', ran, holds⟩ := holds.run dispatch fuel assigns empty once
  obtain ⟨last, asked, runs⟩ := holds.caller_run
  have size : m'.frames.size = a.caller + 2 := Intake.Holds.size_frames holds
  have room₁ : m.frames.size < m.config.frameLimit := by
    rw [top]
    exact Nat.lt_of_succ_lt room
  have asked : Query.frame (a.caller + 1) m' = .ok last := asked
  rw [← top] at ran asked
  obtain ⟨value, done⟩ := Engine.doGuarded_run
    (e := ⟨Engine.runSteps dispatch (fuel + 4 * pairs.length + 4), rounds⟩)
    (Query.cells_eq_ok.mpr ⟨_, live, rfl⟩) room₁ ran asked
  refine ⟨value, _, done, ?_, ?_⟩
  · obtain ⟨caller, found, varlist⟩ := holds.fills.caller
    have stack : m'.stack.shrink last.stackBase = a.stack := by
      rw [runs.base, holds.fills.stack]
      refine Array.toList_inj.mp ?_
      rw [Array.toList_shrink, ← Array.length_toList, List.take_length]
    have still : m'.frames.pop[a.caller]? = some caller := by
      rw [Array.getElem?_pop, if_pos (by rw [size]; exact Nat.lt_succ_self _), found]
    exact { holds.fills with stack, caller := ⟨caller, still, varlist⟩ }
  · change m'.frames.pop.size = _
    rw [Array.size_pop, size]
    rfl

end Assignment

end Homoicon
