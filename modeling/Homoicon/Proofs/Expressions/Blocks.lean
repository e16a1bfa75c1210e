import Homoicon.Proofs.Expressions.Cutting
import Homoicon.Proofs.Natives

/-!
# Blocks of formulas

REDUCE takes a block over one feed, ALL and EVALUATE over a new feed at each position.  On a block
of formulas they cut the code at the same places, which are those where a formula ends.
-/

namespace Homoicon

open Interp (Gives Ends)

variable {reads : Places} {m m' : Machine} {f : FrameId} {args others : List Cell} {e : Expression}
  {es : List Expression} {block c : Cell} {depth fuel rounds : Nat}

/-! ## Arguments in use -/

namespace Machine.HasArgs

/-- What the arguments refer to is in use. -/
theorem within (has : m.HasArgs f args) (member : c ∈ args) : c.Within m.InUse := by
  obtain ⟨frame, varlist, first, found, own, listed⟩ := has
  obtain ⟨s, live, content⟩ := Query.cells_eq_ok.mp listed
  have seed : Seeds m.frames m.feeds varlist :=
    .inl ⟨frame, Array.mem_of_getElem? found, by simp [Frame.references, own]⟩
  exact m.closed_inUse.within ⟨varlist, seed, .here _⟩ live content c (by simp [member])

theorem resume (has : m.HasArgs f args) (resumes : m.Resumes m') : m'.HasArgs f args := by
  obtain ⟨frame, varlist, first, found, own, listed⟩ := has
  obtain ⟨s, live, content⟩ := Query.cells_eq_ok.mp listed
  have seed : Seeds m.frames m.feeds varlist :=
    .inl ⟨frame, Array.mem_of_getElem? found, by simp [Frame.references, own]⟩
  refine ⟨frame, varlist, first, by rw [resumes.frames]; exact found, own, ?_⟩
  exact Query.cells_eq_ok.mpr
    ⟨s, resumes.since.heap _ _ ⟨varlist, seed, .here _⟩ live, content⟩

end Machine.HasArgs

/-- A call ends with a value, and the heap stays as it is. -/
theorem Interp.give_ends (inside : f < m.frames.size) (c : Cell) :
    Ends (Interp.give f c) m fun bounce m' => bounce = .out ∧ m'.Puts f c ∧ m'.heap = m.heap :=
  ⟨_, _, Interp.give_run inside c, rfl, Machine.puts_putting inside c, rfl⟩

/-! ## A block as an argument -/

/-- A block holds some formulas, one after the other, from its position to its end. -/
structure Heap.Codes (h : Heap) (reads : Places) (es : List Expression) (block : Cell) : Prop where
  kind : block.is .block = true
  spelled : ∃ (array : SeriesId) (index : Nat) (cells : List Cell),
    block.payload = .series array index ∧ h.cells? array = some cells.toArray ∧
      reads.Whole array ∧ h.SpellsAll reads (Query.deriveSpecifier block none) es (cells.drop index)

/-- An engine with some steps can evaluate an expression in some frames. -/
structure Expression.Runs (depth fuel : Nat) (e : Expression) : Prop where
  fits : e.code.Fits
  nested : e.code.depth ≤ depth
  enough : e.steps ≤ fuel

/-- A machine has room for a frame and some more above it. -/
structure Machine.Ready (m : Machine) (depth : Nat) : Prop where
  room : m.frames.size + 1 + depth ≤ m.config.frameLimit
  running : m.signals.halt = false
  unmarked : m.heap.Unmarked

/-- A call has a block of formulas as its first argument. -/
structure Machine.Offers (m : Machine) (reads : Places) (depth : Nat) (es : List Expression)
    (f : FrameId) (block : Cell) (others : List Cell) : Prop where
  args : m.HasArgs f (block :: others)
  codes : m.heap.Codes reads es block
  ready : m.Ready depth

namespace Machine.Offers

theorem lists (offers : m.Offers reads depth es f block others)
    (runs : ∀ e ∈ es, e.Runs depth fuel) :
    ∃ array cells, block.payload = .series array block.index ∧
      m.Lists reads es array (Query.deriveSpecifier block none) cells block.index := by
  obtain ⟨array, index, cells, payload, holds, whole, spells⟩ := offers.codes.spelled
  have at_ : block.index = index := by rw [Cell.index, payload]
  have within := offers.args.within (List.mem_cons_self ..)
  exact ⟨array, cells, by rw [at_, payload],
    { holds, whole
      spells := by rwa [at_]
      fits := fun e member => (runs e member).fits
      used := within.series (by rw [Cell.seriesId?, payload])
      inside := within.derived fun id none_ => absurd none_ (Option.not_mem_none id)
      room := fun e member => by
        have := offers.ready.room
        have := (runs e member).nested
        omega
      running := offers.ready.running
      unmarked := offers.ready.unmarked }⟩

/-- REDUCE gives the block of the values. -/
theorem reduce_run (offers : m.Offers reads depth es f block others)
    (runs : ∀ e ∈ es, e.Runs depth fuel) (long : es.length < rounds) :
    Ends (Library.reduce ⟨Engine.runSteps Library.dispatch fuel, rounds⟩ f) m fun bounce m' =>
      bounce = .out ∧ ∃ c, m'.Puts f c ∧ m'.IsBlockOf es c := by
  obtain ⟨array, cells, payload, lists⟩ := offers.lists runs
  have free : m.frames.size < m.config.frameLimit := by
    have := offers.ready.room
    omega
  unfold Library.reduce Engine.reduceBlock
  refine .asked (offers.args.arg_run rfl) ?_
  rw [offers.codes.kind, Bool.true_or, if_pos rfl]
  refine .bind (.asked (Query.arrayOf_eq_ok.mpr (by rw [Cell.seriesId?, payload]))
    (lists.reduce free (fun e member => (runs e member).enough) long)) ?_
  rintro _ m' ⟨⟨c, rfl, block⟩, frames⟩
  refine (Interp.give_ends (by rw [frames]; exact offers.args.inside) c).weaken ?_
  rintro bounce m'' ⟨out, puts, heap⟩
  exact ⟨out, c, puts, by rwa [IsBlockOf, heap]⟩

/-- ALL gives the last value. -/
theorem all_run (offers : m.Offers reads depth es f block others)
    (runs : ∀ e ∈ es, e.Runs depth fuel) (long : es.length < rounds) :
    Ends (Library.all ⟨Engine.runSteps Library.dispatch fuel, rounds⟩ f) m fun bounce m' =>
      bounce = .out ∧ ∃ c, m'.Puts f c ∧ ∀ e ∈ es.getLast?, e.IsValue c := by
  obtain ⟨array, cells, payload, lists⟩ := offers.lists runs
  have never (e : Expression) (c : Cell) (value : e.IsValue c) : (!c.isTruthy) = false := by
    simp [Cell.isTruthy, value.kind, value.quote, Cell.integer]
  unfold Library.all Library.blockUntil
  refine .asked (offers.args.arg_run rfl) ?_
  refine .bind (.asked (Query.arrayOf_eq_ok.mpr (by rw [Cell.seriesId?, payload]))
    (lists.until_run never Cell.null (fun e member => (runs e member).enough) long)) ?_
  rintro _ m' ⟨⟨c, rfl, -, last⟩, resumes⟩
  refine (Interp.give_ends (by rw [resumes.frames]; exact offers.args.inside) c).weaken ?_
  rintro bounce m'' ⟨out, puts, -⟩
  exact ⟨out, c, puts, last⟩

end Machine.Offers

/-- With as many frames as there may be, REDUCE takes no formula. -/
theorem Machine.HasArgs.reduce_full (has : m.HasArgs f (block :: others))
    (codes : m.heap.Codes reads es block) (full : m.config.isFull m.frames.size = true)
    (engine : Engine) :
    ∃ m', Library.reduce engine f m = .error (.error Cause.stackOverflow.error) m' := by
  obtain ⟨array, index, cells, payload, holds, -⟩ := codes.spelled
  have at_ : block.index = index := by rw [Cell.index, payload]
  let l := m.level array (Query.deriveSpecifier block none) cells holds
  let fed : Machine := { m with feeds := m.feeds.push (l.feedAt index) }
  have framed (body : FrameId → Interp (Option (List Cell))) :
      Interp.withFrame { feed := m.feeds.size } body fed =
        .error (.error Cause.stackOverflow.error) fed :=
    Interp.bind_error (Interp.pushFrame_full (m := fed) _ full) _
  have guarded (body : FeedId → FrameId → Interp (Option (List Cell))) :
      Interp.guarding (Interp.withFeed (l.feedAt index) fun feed =>
        Interp.withFrame { feed } (body feed)) m =
          .error (.error Cause.stackOverflow.error) fed := by
    have marked : Interp.guardMark m = .ok m.guards.size m := rfl
    have pushed : Interp.pushFeed (l.feedAt index) m = .ok m.feeds.size fed := rfl
    rw [Interp.guarding, Interp.bind_ok marked]
    refine Interp.bind_error ?_ _
    rw [Interp.withFeed, Interp.bind_ok pushed]
    exact Interp.bind_error (framed _) _
  have asked : Query.arrayFeed array index (Query.deriveSpecifier block none) m =
      .ok (l.feedAt index) := l.arrayFeed_run index
  refine ⟨fed, ?_⟩
  unfold Library.reduce
  rw [Interp.lift_bind_ok (has.arg_run rfl), codes.kind, Bool.true_or, if_pos rfl]
  refine Interp.bind_error ?_ _
  unfold Engine.reduceBlock
  rw [Interp.lift_bind_ok (Query.arrayOf_eq_ok.mpr (by rw [Cell.seriesId?, payload])), at_,
    Engine.reduce, Interp.lift_bind_ok asked]
  exact Interp.bind_error (guarded _) _

/-! ## Writing a variable -/

/-- A word refers to a variable that may be written. -/
def Heap.Writes (h : Heap) (var : Cell) (r : VarRef) : Prop :=
  ∃ old, h.Refers .everywhere none var r old ∧ old.guarded = false

variable {var : Cell} {r : VarRef}

theorem Heap.Writes.setVar_run (writes : m.heap.Writes var r) (value : Cell) :
    Interp.setVar var none value m = .ok () (m.stored r.context r.index value.copied) := by
  obtain ⟨old, refers, free⟩ := writes
  obtain ⟨held, listed, here⟩ := Query.cell_eq_ok.mp refers.varContent
  have inside : r.index < held.size := (Array.getElem?_eq_some_iff.mp here).1
  unfold Interp.setVar Interp.writeVar
  rw [Interp.lift_bind_ok refers.resolveWord, Interp.lift_bind_ok refers.varContent, free,
    if_neg Bool.false_ne_true]
  exact Interp.storeCell_run _ listed inside

/-- The word refers to what has been written. -/
theorem Heap.Writes.refers (writes : m.heap.Writes var r) (value : Cell) :
    (m.stored r.context r.index value).heap.Refers .everywhere none var r value := by
  obtain ⟨old, refers, -⟩ := writes
  obtain ⟨s, held, keylist, found, accessible, link, content, there, bound⟩ := refers.slot
  refine { refers with slot := ⟨_, _, keylist, Machine.get?_stored_self found content, accessible,
    link, rfl, ?_, bound⟩ }
  rw [Array.getElem?_modify, if_pos rfl, there, Option.map_some]

/-- Other places are as they were. -/
theorem Heap.spares_stored (m : Machine) {kept : SeriesId → Prop} {c : Cell}
    (apart : ¬ reads r.context r.index) :
    m.heap.Spares (reads.within kept) (m.stored r.context r.index c).heap where
  whole id s whole found := by
    have other : id ≠ r.context := by
      rintro rfl
      exact apart (whole r.index).1
    rwa [Machine.get?_stored_of_ne other]
  slot id i s held d place found content there := by
    by_cases other : id = r.context
    · subst other
      have other : r.index ≠ i := by
        rintro rfl
        exact apart place.1
      refine ⟨_, _, Machine.get?_stored_self found content, fun _ => rfl, rfl, rfl, ?_⟩
      rwa [Array.getElem?_modify, if_neg other]
    · exact ⟨s, held, by rwa [Machine.get?_stored_of_ne other], fun _ => rfl, rfl, content, there⟩

/-! ## Stepping through a block -/

/-- The position behind the first formulas of a block. -/
def Cell.behind (block : Cell) (es : List Expression) : Cell :=
  block.atIndex (block.index + Expression.span es)

/-- EVALUATE is about to run at a position, and to store the value in a variable that the code does
not read. -/
structure Machine.StepsAt (m : Machine) (reads : Places) (depth : Nat) (f : FrameId)
    (position var : Cell) : Prop where
  args : ∃ set, m.HasArgs f [position, set, var] ∧ set.isTruthy = true
  writes : ∃ r, m.heap.Writes var r ∧ ¬ reads r.context r.index
  ready : m.Ready depth

/-- A program steps through a block: it calls EVALUATE at a position, then at the one that the call
gave, and so on until a call gives null.  What it does between the calls leaves the code alone.  The
trace has each position that was given, and what the variable held then. -/
inductive Machine.Steps (engine : Engine) (reads : Places) (depth : Nat) (var : Cell) :
    Machine → FrameId → Cell → List (Nat × Cell) → Prop where
  | tail {m m' : Machine} {f : FrameId} {position : Cell} :
      m.StepsAt reads depth f position var → Library.evaluate engine f m = .ok .null m' →
      Steps engine reads depth var m f position []
  | step {m m' n : Machine} {f f' : FrameId} {position position' v : Cell} {frame : Frame}
      {trace : List (Nat × Cell)} :
      m.StepsAt reads depth f position var → Library.evaluate engine f m = .ok .out m' →
      m'.frames[f]? = some frame → Query.getVar var none m' = .ok v →
      position'.SameValue frame.out →
      (∀ es, m'.heap.Codes reads es frame.out → n.heap.Codes reads es frame.out) →
      Steps engine reads depth var n f' position' trace →
      Steps engine reads depth var m f position ((frame.out.index, v) :: trace)

namespace Machine.StepsAt

variable {position : Cell}

/-- EVALUATE gives the position behind the first formula, and stores its value. -/
theorem evaluate_run (at_ : m.StepsAt reads depth f position var) (rounds : Nat)
    (codes : m.heap.Codes reads (e :: es) position) (runs : ∀ e' ∈ e :: es, e'.Runs depth fuel) :
    Ends (Library.evaluate ⟨Engine.runSteps Library.dispatch fuel, rounds⟩ f) m fun bounce m' =>
      bounce = .out ∧ m'.Puts f (position.behind [e]) ∧
        (∃ v, Query.getVar var none m' = .ok v ∧ e.IsValue v) ∧
        m'.heap.Codes reads es (position.behind [e]) := by
  obtain ⟨set, args, used⟩ := at_.args
  obtain ⟨r, ⟨old, refers, free⟩, apart⟩ := at_.writes
  obtain ⟨array, cells, payload, lists⟩ := Offers.lists ⟨args, codes, at_.ready⟩ runs
  have own : position.seriesId? = some array := by rw [Cell.seriesId?, payload]
  unfold Library.evaluate
  refine .asked (args.arg_run rfl) (.asked (Query.arrayOf_eq_ok.mpr own) (.asked lists.size_run ?_))
  rw [if_neg (mt lists.atEnd.mp (List.cons_ne_nil _ _))]
  refine .bind (lists.evalStep (runs e (List.mem_cons_self ..)).enough) ?_
  rintro _ m' ⟨⟨c, rfl, value⟩, resumes⟩
  have args' := args.resume resumes
  have rest := lists.split.2.resume resumes
  have within : var.Within m.InUse := args.within (by simp)
  have writes : m'.heap.Writes var r :=
    ⟨old, refers.keep (resumes.since.spares .everywhere) within
      (fun id none_ => absurd none_ (Option.not_mem_none id)), free⟩
  have refined : Query.refine f 2 m' = .ok true := by
    rw [Query.refine, Query.bind_ok (args'.arg_run rfl), used]
    rfl
  dsimp only
  refine .asked refined ?_
  rw [if_pos rfl, value.real, if_neg Bool.false_ne_true]
  refine .asked (args'.arg_run rfl) (.after (writes.setVar_run c) ?_)
  have moved : position.behind [e] =
      { position with payload := .series array (position.index + e.code.width) } := by
    simp [Cell.behind, Cell.atIndex, Expression.span, payload]
  have next : position.atIndex (position.index + e.code.width) = position.behind [e] := by
    simp [Cell.behind, Expression.span]
  rw [next]
  refine (Interp.give_ends (by exact args'.inside) _).weaken ?_
  rintro bounce m'' ⟨out, puts, heap⟩
  have stored := writes.refers c.copied
  have spares : m'.heap.Spares (reads.within m'.InUse) (m'.stored r.context r.index c.copied).heap :=
    Heap.spares_stored m' apart
  rw [← heap] at stored spares
  obtain ⟨s, found, content⟩ := Heap.cells?_eq_some.mp rest.holds
  refine ⟨out, puts, ⟨_, stored.getVar, Cell.SameValue.copied value⟩, ?_, array, _, cells,
    by rw [moved], ?_, rest.whole, ?_⟩
  · rw [moved]
    exact codes.kind
  · exact Heap.cells?_eq_some.mpr
      ⟨s, spares.whole _ _ (rest.whole.within rest.used) found, content⟩
  · rw [moved]
    exact rest.spells.keep m'.closed_inUse spares rest.within rest.inside

/-- At the end EVALUATE gives null. -/
theorem evaluate_end (at_ : m.StepsAt reads depth f position var)
    (codes : m.heap.Codes reads [] position) (engine : Engine) :
    Library.evaluate engine f m = .ok .null m := by
  obtain ⟨set, args, -⟩ := at_.args
  have none_run : ∀ e ∈ ([] : List Expression), e.Runs depth 0 := nofun
  obtain ⟨array, cells, payload, lists⟩ := Offers.lists ⟨args, codes, at_.ready⟩ none_run
  have own : position.seriesId? = some array := by rw [Cell.seriesId?, payload]
  unfold Library.evaluate
  rw [Interp.lift_bind_ok (args.arg_run rfl), Interp.lift_bind_ok (Query.arrayOf_eq_ok.mpr own),
    Interp.lift_bind_ok lists.size_run, if_pos (lists.atEnd.mpr rfl), Interp.pure_run]

end Machine.StepsAt

theorem Heap.Codes.congr {h : Heap} {d : Cell} (codes : h.Codes reads es c)
    (same : d.SameValue c) : h.Codes reads es d := by
  obtain ⟨array, index, cells, payload, spelled⟩ := codes.spelled
  refine ⟨?_, array, index, cells, same.payload.trans payload, ?_⟩
  · rw [Cell.is, same.kind, same.quote]
    exact codes.kind
  · rwa [Query.deriveSpecifier, same.binding]

theorem Heap.SpellsAll.length {h : Heap} {specifier : Specifier} {cells : List Cell}
    (spells : h.SpellsAll reads specifier es cells) : cells.length = Expression.span es := by
  induction es generalizing cells with
  | nil =>
      obtain rfl : cells = [] := spells
      rfl
  | cons e es ih =>
      obtain ⟨before, behind, rfl, first, rest⟩ := spells
      rw [List.length_append, first.length, ih rest]
      rfl

theorem Machine.Lists.length {array : SeriesId} {specifier : Specifier} {cells : List Cell}
    {index : Nat} (lists : m.Lists reads es array specifier cells index) (more : es ≠ []) :
    cells.length = index + Expression.span es := by
  have within : ¬ cells.length ≤ index := mt lists.atEnd.mp more
  have := lists.spells.length
  rw [List.length_drop] at this
  omega

/-- The positions behind some expressions, one after the other. -/
def Expression.stops : Nat → List Expression → List Nat
  | _, [] => []
  | i, e :: es => (i + e.code.width) :: stops (i + e.code.width) es

theorem Expression.getLast?_stops {i stop : Nat} {es : List Expression}
    (last : stop ∈ (Expression.stops i es).getLast?) : stop = i + Expression.span es := by
  induction es generalizing i with
  | nil => cases last
  | cons e es ih =>
      cases es with
      | nil => simpa [Expression.stops, Expression.span] using last.symm
      | cons e' es =>
          have := ih (i := i + e.code.width) (by simpa [Expression.stops] using last)
          simp only [Expression.span, List.map_cons, List.sum_cons] at this ⊢
          omega

/-- A program that steps through a block visits the position behind each formula, and has stored its
value then. -/
theorem Machine.Steps.visits {position : Cell} {trace : List (Nat × Cell)}
    (steps : Steps ⟨Engine.runSteps Library.dispatch fuel, rounds⟩ reads depth var m f position trace)
    (codes : m.heap.Codes reads es position) (runs : ∀ e ∈ es, e.Runs depth fuel) :
    trace.map (·.1) = Expression.stops position.index es ∧
      List.Forall₂ Expression.IsValue es (trace.map (·.2)) := by
  induction steps generalizing es with
  | tail at_ ran =>
      cases es with
      | nil => exact ⟨rfl, .nil⟩
      | cons e es =>
          obtain ⟨bounce, m', other, rfl, -⟩ := at_.evaluate_run rounds codes runs
          cases ran.symm.trans other
  | @step m m' n f f' position position' v frame trace at_ ran found got same leaves rest ih =>
      cases es with
      | nil => cases ran.symm.trans (at_.evaluate_end codes _)
      | cons e es =>
          obtain ⟨bounce, _, other, rfl, ⟨frame', found', out⟩, ⟨v', got', value⟩, codes'⟩ :=
            at_.evaluate_run rounds codes runs
          cases ran.symm.trans other
          obtain rfl := Option.some.inj (found.symm.trans found')
          obtain rfl := Except.ok.inj (got.symm.trans got')
          have stop : frame.out.SameValue (position.behind [e]) := by
            rw [out]
            exact ⟨rfl, rfl, rfl, rfl⟩
          obtain ⟨visited, values⟩ := ih ((leaves es (codes'.congr stop)).congr same)
            fun e' member => runs e' (List.mem_cons_of_mem _ member)
          obtain ⟨array, index, cells, payload, -⟩ := codes.spelled
          have here : frame.out.index = position.index + e.code.width := by
            simp [Cell.index, stop.payload, Cell.behind, Cell.atIndex, Expression.span, payload]
          have there : position'.index = frame.out.index := by
            simp only [Cell.index, same.payload]
          rw [there, here] at visited
          refine ⟨?_, .cons value values⟩
          rw [List.map_cons, here, visited]
          rfl

/-- In a machine with room for the frames that the formulas of a block need, REDUCE gives the block
of their values, ALL the last value, and EVALUATE at the position behind some of them the value of
the next one and the position behind it, so a program that steps through the block visits the
positions behind each formula and comes to the tail. -/
theorem blocks_cut_alike (runs : ∀ e ∈ es, e.Runs depth fuel) (long : es.length < rounds) :
    let engine : Engine := ⟨Engine.runSteps Library.dispatch fuel, rounds⟩
    (∀ m f block others, m.Offers reads depth es f block others →
      Ends (Library.reduce engine f) m (fun bounce m' =>
        bounce = .out ∧ ∃ c, m'.Puts f c ∧ m'.IsBlockOf es c) ∧
      Ends (Library.all engine f) m fun bounce m' =>
        bounce = .out ∧ ∃ c, m'.Puts f c ∧ ∀ e ∈ es.getLast?, e.IsValue c) ∧
    ∀ m f position var, m.StepsAt reads depth f position var → m.heap.Codes reads es position →
      (es = [] → Library.evaluate engine f m = .ok .null m) ∧
      (∀ e rest, es = e :: rest → Ends (Library.evaluate engine f) m fun bounce m' =>
        bounce = .out ∧ m'.Puts f (position.behind [e]) ∧
          (∃ v, Query.getVar var none m' = .ok v ∧ e.IsValue v) ∧
          m'.heap.Codes reads rest (position.behind [e])) ∧
      ∀ trace, m.Steps engine reads depth var f position trace →
        trace.map (·.1) = Expression.stops position.index es ∧
        List.Forall₂ Expression.IsValue es (trace.map (·.2)) ∧
        ∀ stop ∈ (trace.map (·.1)).getLast?, ∃ array, position.seriesId? = some array ∧
          Query.size array m = .ok stop := by
  refine ⟨fun m f block others offers => ⟨offers.reduce_run runs long, offers.all_run runs long⟩,
    fun m f position var at_ codes => ⟨?_, ?_, fun trace steps => ?_⟩⟩
  · rintro rfl
    exact at_.evaluate_end codes _
  · rintro e rest rfl
    exact at_.evaluate_run _ codes runs
  · obtain ⟨stops, values⟩ := steps.visits codes runs
    refine ⟨stops, values, fun stop last => ?_⟩
    rw [stops] at last
    have more : es ≠ [] := by
      rintro rfl
      cases last
    obtain ⟨set, args, -⟩ := at_.args
    obtain ⟨array, cells, payload, lists⟩ := Machine.Offers.lists ⟨args, codes, at_.ready⟩ runs
    refine ⟨array, by rw [Cell.seriesId?, payload], ?_⟩
    rw [Expression.getLast?_stops last, ← lists.length more]
    exact lists.size_run

/-! ## A sample -/

/-- An operand of addition. -/
def sampleOperand : Typeset := .param ⟨3⟩ .normal (.ofList [.integer])

/-- A call whose arguments are the block `[1 + 2 add 3 4]`, a refinement that is used and the word
`x`, for which there is a variable beside those of the two additions. -/
def sampleSums : Machine where
  config := {}
  heap :=
    { slots := #[
        some (Series.ofCells #[Cell.integer 1, .boundWord .word ⟨0⟩ (.specific ⟨1⟩) 1,
          Cell.integer 2, .boundWord .word ⟨1⟩ (.specific ⟨1⟩) 2, Cell.integer 3, Cell.integer 4]),
        some { Series.ofCells #[Cell.blank, { Cell.action ⟨⟨2⟩, ⟨3⟩⟩ .unbound with enfixed := true },
          Cell.action ⟨⟨2⟩, ⟨3⟩⟩ .unbound, Cell.blank] with link := .keylist ⟨4⟩ },
        some (Series.ofCells #[Cell.blank, Cell.typeset sampleOperand, Cell.typeset sampleOperand]),
        some { Series.ofCells #[] with role := .dispatcher (.native 0) },
        some (Series.ofCells #[]),
        some (Series.ofCells #[Cell.blank, Cell.series .block ⟨0⟩ 0, Cell.logic true,
          .boundWord .word ⟨2⟩ (.specific ⟨1⟩) 3])]
      ballast := 100000 }
  symbols := { entries := #[⟨"+", "+", ⟨0⟩, ⟨0⟩⟩, ⟨"add", "add", ⟨1⟩, ⟨1⟩⟩, ⟨"x", "x", ⟨2⟩, ⟨2⟩⟩,
    ⟨"value", "value", ⟨3⟩, ⟨3⟩⟩] }
  frames := #[{ feed := 0, varlist := some ⟨5⟩ }]
  countdown := 100

/-- The formulas of the block. -/
def sampleFormulas : List Expression :=
  [⟨.infix_ (.integer 1) .add (.integer 2)⟩, ⟨.call .add (.integer 3) (.integer 4)⟩]

/-- All places but the variable for `x`. -/
def samplePlaces : Places := fun id i => id ≠ ⟨1⟩ ∨ i ≠ 3

theorem counts_sampleOperand : sampleOperand.Counts where
  normal := rfl
  single := rfl
  allows := by decide

theorem computes_sampleSums : sampleSums.heap.Computes samplePlaces .add ⟨⟨2⟩, ⟨3⟩⟩ ⟨2⟩
    sampleOperand sampleOperand where
  lays := by exact ⟨⟨_, rfl, .inl ⟨rfl, rfl⟩⟩, ⟨_, _, rfl, rfl⟩, ⟨_, rfl, rfl⟩, nofun⟩
  first := counts_sampleOperand
  second := counts_sampleOperand
  plain := by exact ⟨_, rfl, by decide⟩
  runs := by exact ⟨_, _, rfl, rfl, Library.dispatch_arithmetic rfl⟩
  paramlist := by exact fun _ => .inl (by decide)
  shared := by exact fun _ => .inl (by decide)
  details := by exact fun _ => .inl (by decide)

theorem names_sampleSums {enfix : Bool} {symbol : SymbolId} {i : Nat}
    (at_ : i = 1 ∧ enfix = true ∨ i = 2 ∧ enfix = false) :
    sampleSums.heap.Names samplePlaces none .add enfix
      (.boundWord .word symbol (.specific ⟨1⟩) i) := by
  obtain ⟨rfl, rfl⟩ | ⟨rfl, rfl⟩ := at_
  · exact ⟨rfl, ⟨⟨1⟩, 1⟩, _, _, _, _, _,
      ⟨rfl, ⟨_, rfl⟩, ⟨_, _, _, rfl, rfl, rfl, rfl, rfl, .inl rfl⟩, by decide, .inr (by decide)⟩,
      rfl, rfl, computes_sampleSums⟩
  · exact ⟨rfl, ⟨⟨1⟩, 2⟩, _, _, _, _, _,
      ⟨rfl, ⟨_, rfl⟩, ⟨_, _, _, rfl, rfl, rfl, rfl, rfl, .inl rfl⟩, by decide, .inr (by decide)⟩,
      rfl, rfl, computes_sampleSums⟩

theorem offers_sampleSums :
    sampleSums.Offers samplePlaces 4 sampleFormulas 0 (Cell.series .block ⟨0⟩ 0)
      [Cell.logic true, .boundWord .word ⟨2⟩ (.specific ⟨1⟩) 3] where
  args := by exact ⟨_, _, _, rfl, rfl, rfl⟩
  codes := by
    refine ⟨rfl, ⟨0⟩, 0, _, rfl, rfl, fun _ => .inl (by decide), ?_⟩
    exact ⟨_, _, rfl,
      ⟨[Cell.integer 1], _, [Cell.integer 2], rfl, ⟨_, rfl⟩, names_sampleSums (.inl ⟨rfl, rfl⟩),
        ⟨_, rfl⟩⟩,
      _, [], rfl,
      ⟨_, [Cell.integer 3], [Cell.integer 4], rfl, names_sampleSums (.inr ⟨rfl, rfl⟩), ⟨_, rfl⟩,
        ⟨_, rfl⟩⟩, rfl⟩
  ready := by exact
    ⟨Config.lt_frameLimit_iff.mpr (by decide), rfl, Heap.unmarked_of_all (by cbv)⟩

theorem runs_sampleFormulas : ∀ e ∈ sampleFormulas, e.Runs 4 40 := by
  intro e member
  simp only [sampleFormulas, List.mem_cons, List.not_mem_nil, or_false] at member
  obtain rfl | rfl := member
  · exact ⟨⟨trivial, trivial, by decide⟩, by decide, by decide⟩
  · exact ⟨⟨trivial, trivial, by decide⟩, by decide, by decide⟩

theorem stepsAt_sampleSums : sampleSums.StepsAt samplePlaces 4 0 (Cell.series .block ⟨0⟩ 0)
    (.boundWord .word ⟨2⟩ (.specific ⟨1⟩) 3) where
  args := by exact ⟨_, offers_sampleSums.args, rfl⟩
  writes := by
    refine ⟨⟨⟨1⟩, 3⟩, ⟨_, ⟨rfl, ⟨_, rfl⟩, ⟨_, _, _, rfl, rfl, rfl, rfl, rfl, .inl rfl⟩, by decide,
      trivial⟩, rfl⟩, ?_⟩
    simp [samplePlaces]
  ready := offers_sampleSums.ready

/-- In the sample the block of the values is given, then the last value, then a position. -/
theorem blocks_cut_alike_sampleSums :
    let engine : Engine := ⟨Engine.runSteps Library.dispatch 40, 9⟩
    (∀ e ∈ sampleFormulas, e.Runs 4 40) ∧ sampleFormulas.length < 9 ∧
    Ends (Library.reduce engine 0) sampleSums (fun bounce m' =>
      bounce = .out ∧ ∃ c, m'.Puts 0 c ∧ m'.IsBlockOf sampleFormulas c) ∧
    Ends (Library.all engine 0) sampleSums (fun bounce m' =>
      bounce = .out ∧ ∃ c, m'.Puts 0 c ∧ c.SameValue (Cell.integer 7)) ∧
    Ends (Library.evaluate engine 0) sampleSums fun bounce m' =>
      bounce = .out ∧ m'.Puts 0 (Cell.series .block ⟨0⟩ 3) ∧
        ∃ v, Query.getVar (.boundWord .word ⟨2⟩ (.specific ⟨1⟩) 3) none m' = .ok v ∧
          v.SameValue (Cell.integer 3) := by
  intro engine
  have long : sampleFormulas.length < 9 := by decide
  obtain ⟨actions, steps⟩ := @blocks_cut_alike samplePlaces _ _ _ _ runs_sampleFormulas long
  obtain ⟨reduced, all⟩ := actions _ _ _ _ offers_sampleSums
  obtain ⟨-, step, -⟩ := steps _ _ _ _ stepsAt_sampleSums offers_sampleSums.codes
  refine ⟨runs_sampleFormulas, long, reduced, all.weaken ?_, (step _ _ rfl).weaken ?_⟩
  · rintro bounce m' ⟨out, c, puts, last⟩
    exact ⟨out, c, puts, last _ rfl⟩
  · rintro bounce m' ⟨out, puts, stored, -⟩
    exact ⟨out, puts, stored⟩


/-- A machine with as many frames as there may be, all of them of one call. -/
def sampleFull : Machine :=
  { sampleSums with
    frames := Array.replicate sampleSums.config.maxDepth { feed := 0, varlist := some ⟨5⟩ } }

/-- The formulas fit and the block is read as them, but REDUCE finds no room for a frame. -/
theorem reduce_sampleFull :
    (∀ e ∈ sampleFormulas, e.code.Fits) ∧ sampleFull.signals.halt = false ∧
      sampleFull.heap.Unmarked ∧
      sampleFull.HasArgs 1023 [Cell.series .block ⟨0⟩ 0, Cell.logic true,
        .boundWord .word ⟨2⟩ (.specific ⟨1⟩) 3] ∧
      sampleFull.heap.Codes samplePlaces sampleFormulas (Cell.series .block ⟨0⟩ 0) ∧
      ∀ engine, ∃ m', Library.reduce engine 1023 sampleFull =
        .error (.error Cause.stackOverflow.error) m' := by
  have has : sampleFull.HasArgs 1023 [Cell.series .block ⟨0⟩ 0, Cell.logic true,
      .boundWord .word ⟨2⟩ (.specific ⟨1⟩) 3] :=
    ⟨{ feed := 0, varlist := some ⟨5⟩ }, ⟨5⟩, Cell.blank, by simp [sampleFull, sampleSums], rfl, rfl⟩
  have codes : sampleFull.heap.Codes samplePlaces sampleFormulas (Cell.series .block ⟨0⟩ 0) :=
    offers_sampleSums.codes
  refine ⟨fun e member => (runs_sampleFormulas e member).fits, rfl, offers_sampleSums.ready.unmarked,
    has, codes, has.reduce_full codes ?_⟩
  simp [sampleFull, Config.isFull]

end Homoicon
