import Homoicon.Proofs.Arguments.Calling

/-!
# An expression that begins with a call

Before an expression pending signals may be handled and garbage may be collected.  What a call
needs is reached from the feed it stands in, so it outlasts that.
-/

namespace Homoicon

open Interp (Gives)

variable {kept : SeriesId → Prop} {m m' : Machine} {f : FrameId} {action : Action}
  {layout : Layout} {names : List SymbolId} {literals rest : List Cell} {c : Cell}
  {specifier : Specifier}

/-! ## What a call needs -/

theorem Cell.Within.derived (within : c.Within kept) (inside : ∀ id ∈ specifier, kept id) :
    ∀ id ∈ Query.deriveSpecifier c specifier, kept id := by
  intro id member
  unfold Query.deriveSpecifier at member
  split at member
  · exact inside id member
  · rename_i bound
    cases member
    exact within id (by simp [Cell.references, bound])
  · cases member

/-- A cell calls the same action where all that is reached from it is the same. -/
theorem Machine.Names.agree (agree : Machine.Agree kept m m') (within : c.Within kept)
    (inside : ∀ id ∈ specifier, kept id) (call : m.Names specifier action c names) :
    m'.Names specifier action c names ∧ kept action.paramlist ∧ kept action.details := by
  cases call with
  | word word found calls prefixed =>
      have alike := agree.getVar within inside
      exact ⟨.word word (alike.same.trans found) calls prefixed,
        (alike.answer _ found).of_action calls⟩
  | @path head value array held parts _ path series listed split word found calls named =>
      have alike := agree.cells (within.series series)
      have member : head ∈ held := by
        refine Array.mem_toList_iff.mp (List.mem_of_mem_drop (i := c.index) ?_)
        rw [split]
        exact List.mem_cons_self ..
      have first := agree.getVar (alike.answer _ listed head member) (within.derived inside)
      exact ⟨.path path series (alike.same.trans listed) split word (first.same.trans found) calls
        named, (first.answer _ found).of_action calls⟩

theorem Machine.Names.same (heap : m'.heap = m.heap) (symbols : m'.symbols = m.symbols)
    (call : m.Names specifier action c names) : m'.Names specifier action c names := by
  have agree : Machine.Agree (fun _ => True) m m' :=
    { symbols, size := by rw [heap], get? := fun _ _ => by rw [heap]
      closed := fun _ _ _ _ _ _ => trivial }
  exact (call.agree agree (fun _ _ => trivial) fun _ _ => trivial).1

/-- The innermost frame is about to evaluate a call of an action, by the names of some refinements
and followed by cells that mean values by themselves, behind which no operator comes. -/
structure Machine.Expects (m : Machine) (f : FrameId) (action : Action) (names : List SymbolId)
    (literals rest : List Cell) : Prop where
  call : ∃ frame feed c, m.Poised f (c :: literals ++ rest) frame feed ∧
    m.Names feed.specifier action c names
  literals : ∀ c ∈ literals, ∃ v, c.Means v
  quiet : (rest.headD Cell.end_).IsQuiet
  space : m.stack.size + names.length ≤ m.config.dataStackLimit

theorem Machine.Calls.expects (calls : m.Calls f action names literals rest) :
    m.Expects f action names literals rest :=
  ⟨calls.call, fun c member => ⟨c, (calls.integers c member).isLiteral.means⟩, calls.quiet,
    calls.space⟩

/-! ## Before an expression -/

/-- A machine in which a call is still about to be evaluated, as it was before. -/
structure Machine.Awaits (before : Machine) (f : FrameId) (action : Action)
    (names : List SymbolId) (literals rest : List Cell) (m : Machine) : Prop where
  expects : m.Expects f action names literals rest
  kept : before.heap.Keeps action m.heap
  stack : m.stack = before.stack
  symbols : m.symbols = before.symbols
  specials : m.specials = before.specials

namespace Machine.Awaits

variable {before : Machine}

/-- Only the heap counts, and what the frame and its feed are made of. -/
theorem change (awaits : before.Awaits f action names literals rest m)
    (heap : m'.heap = m.heap) (symbols : m'.symbols = m.symbols) (stack : m'.stack = m.stack)
    (specials : m'.specials = m.specials) (config : m'.config = m.config)
    (poised : ∀ input frame feed, m.Poised f input frame feed → ∃ frame' feed',
      m'.Poised f input frame' feed' ∧ feed'.specifier = feed.specifier) :
    before.Awaits f action names literals rest m' where
  expects := by
    obtain ⟨⟨frame, feed, c, ready, call⟩, literals, quiet, space⟩ := awaits.expects
    obtain ⟨frame', feed', ready', specifier⟩ := poised _ _ _ ready
    refine ⟨⟨frame', feed', c, ready', ?_⟩, literals, quiet, ?_⟩
    · rw [specifier]
      exact call.same heap symbols
    · rw [stack, config]
      exact space
  kept := heap ▸ awaits.kept
  stack := stack.trans awaits.stack
  symbols := symbols.trans awaits.symbols
  specials := specials.trans awaits.specials

theorem recycled (awaits : before.Awaits f action names literals rest m) :
    before.Awaits f action names literals rest m.recycle := by
  obtain ⟨⟨frame, feed, c, poised, call⟩, plain, quiet, space⟩ := awaits.expects
  have agree := Machine.agree_recycle poised.unmarked
  have rooted {id : SeriesId} (member : id ∈ feed.references) : m.Rooted id :=
    .of_feed (Array.mem_of_getElem? poised.fed) member
  have current : feed.value = c := poised.supplies.value
  have within : c.Within m.Rooted := fun id member =>
    rooted (by simp [Feed.references, current, member])
  have inside : ∀ id ∈ feed.specifier, m.Rooted id := fun id member =>
    rooted (by simp [Feed.references, Option.mem_def.mp member])
  obtain ⟨call, paramlist, details⟩ := call.agree agree within inside
  have supplies : feed.Supplies (fun _ => True) m.recycle.heap (c :: literals ++ rest) :=
    poised.supplies.transport fun array next source _ _ =>
      ⟨trivial, Heap.cells?_congr (agree.get? array (rooted (by simp [Feed.references, source])))⟩
  have kept := awaits.kept.recycle poised.unmarked paramlist details
  have unmarked := Machine.unmarked_recycle poised.unmarked
  rw [Machine.recycle_rest] at call ⊢
  exact ⟨⟨⟨frame, feed, c, { poised with unmarked, supplies }, call⟩, plain, quiet, space⟩,
    kept, awaits.stack, awaits.symbols, awaits.specials⟩

theorem outlasts : Interp.Outlasts (before.Awaits f action names literals rest) where
  running m awaits := by
    obtain ⟨⟨_, _, _, poised, -⟩, -⟩ := awaits.expects
    exact poised.running
  counted m _ awaits := awaits.change rfl rfl rfl rfl rfl fun _ frame feed poised =>
    ⟨frame, feed, { poised with }, rfl⟩
  signalled m _ same awaits := awaits.change rfl rfl rfl rfl rfl fun _ frame feed poised =>
    ⟨frame, feed, { poised with running := same.trans poised.running }, rfl⟩
  recycled _ awaits := awaits.recycled

theorem start (awaits : before.Awaits f action names literals rest m) :
    Gives (Engine.startExpression f) m () (before.Awaits f action names literals rest) := by
  unfold Engine.startExpression
  refine outlasts.poll awaits fun m awaits => ?_
  obtain ⟨frame, feed, _, poised, -⟩ := awaits.expects.call
  have asked : Query.frame f m = .ok frame := by rw [Query.frame, poised.found]
  have run : Query.feed frame.feed m = .ok feed := by rw [Query.feed, poised.fed]
  refine .asked asked (.asked run ?_)
  obtain ⟨feeds, changed, fed⟩ := Interp.modifyFeed_run poised.fed fun feed =>
    { feed with noLookahead := false }
  obtain ⟨frames, begun, found, size⟩ := @Interp.modifyFrame_run { m with feeds } f frame
    poised.found fun fr =>
      { fr with exprIndex := feed.position?.map (·.2), out := { fr.out with stale := true },
                noLookahead := feed.noLookahead }
  refine ⟨{ m with feeds, frames }, (Interp.bind_ok changed _).trans begun, ?_⟩
  refine awaits.change rfl rfl rfl rfl rfl fun input frame' feed' poised' => ?_
  obtain rfl := Option.some.inj (poised.found.symm.trans poised'.found)
  obtain rfl := Option.some.inj (poised.fed.symm.trans poised'.fed)
  refine ⟨_, _, { poised' with found, fed, top := size.trans poised'.top, supplies := ?_ }, rfl⟩
  exact ⟨poised'.supplies.value, poised'.supplies.source, poised'.supplies.ready,
    poised'.supplies.passing⟩

end Machine.Awaits

/-! ## From an expression to its call -/

theorem Machine.Names.isEnd (call : m.Names specifier action c names) : c.isEnd = false := by
  cases call with
  | word word => simp [Cell.isEnd, (Cell.is_iff.mp word).2]
  | path path => simp [Cell.isEnd, (Cell.is_iff.mp path).2]

/-- The evaluator goes from the beginning of an expression to the call that it is. -/
theorem Machine.Expects.begin {takes : Cell → Prop}
    (expects : m.Expects f action names literals rest) (lays : m.heap.Lays action layout)
    (means : ∀ c, takes c → ∃ v, c.Means v) (taken : ∀ c ∈ literals, takes c) :
    ∃ site : Site, site.Opens m f action layout takes rest ∧ ∃ binding m',
      site.Begins names literals binding m' ∧
      ∀ dispatch fuel, Engine.runSteps dispatch (fuel + 3) f .start m =
        Engine.runSteps dispatch fuel f .processAction m' := by
  have ready : m.Awaits f action names literals rest m := ⟨expects, .refl _ _, rfl, rfl, rfl⟩
  obtain ⟨m₁, started, ready⟩ := ready.start
  obtain ⟨⟨frame, feed, c, poised, call⟩, plain, quiet, space⟩ := ready.expects
  have following : ((literals ++ rest).headD Cell.end_).IsQuiet := by
    cases literals with
    | nil => exact quiet
    | cons literal _ => exact (plain literal (List.mem_cons_self ..)).elim fun _ => (·.quiet)
  obtain ⟨feeds, next, looked, poised, specifier⟩ := poised.look call.isEnd following
  have call : { m₁ with feeds }.Names next.specifier action c names := by
    rw [specifier]
    exact call.same (by rfl) (by rfl)
  have asked : Query.frame f { m₁ with feeds } = .ok frame := by rw [Query.frame, poised.found]
  have fed : Query.feed frame.feed { m₁ with feeds } = .ok next := by rw [Query.feed, poised.fed]
  have laid : { m₁ with feeds }.heap.Lays action layout := lays.keep ready.kept
  obtain ⟨binding, label, evaluated⟩ := Engine.evalCell_call asked fed call space
  obtain ⟨site, opens, m', begun, begins⟩ :=
    poised.begin binding label laid means taken quiet
  refine ⟨site, ?_, binding, m', begins, fun dispatch fuel => ?_⟩
  · exact { opens with
      kept := ready.kept.trans opens.kept
      below := opens.below.trans (congrArg Array.toList ready.stack)
      symbols := opens.symbols.trans ready.symbols
      ret := opens.ret.trans (congrArg Specials.return_ ready.specials) }
  · have starting (e : Engine) : Engine.step dispatch e f .start m = .ok .lookahead m₁ :=
      Interp.bind_ok started _
    have looking (e : Engine) : Engine.step dispatch e f .lookahead m₁ =
        .ok (.reevaluate c none) { m₁ with feeds } := looked
    have calling (e : Engine) : Engine.step dispatch e f (.reevaluate c none) { m₁ with feeds } =
        .ok .processAction m' := (evaluated e).trans begun
    rw [Engine.runSteps_step (starting _) (by simp), Engine.runSteps_step (looking _) (by simp),
      Engine.runSteps_step (calling _) (by simp)]

end Homoicon
