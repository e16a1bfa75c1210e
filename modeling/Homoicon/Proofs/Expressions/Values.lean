import Homoicon.Proofs.Expressions.Operations

/-!
# The value of a formula

A frame at a level that begins with a formula comes to its value, and its feed stands behind the
formula then.  The induction is on the formula: operands and arguments are evaluated in frames above
over the same feed, and groups over feeds of their own.
-/

namespace Homoicon

open Interp (Gives Ends)

/-! ## Runs of steps -/

/-- Some steps of a frame lead from one step to another, with a number of them left. -/
def Engine.Leads (dispatch : Dispatch) (left : Nat) (f : FrameId) (count : Nat) (s s' : Step)
    (m : Machine) (post : Machine → Prop) : Prop :=
  ∃ m', Engine.runSteps dispatch (left + count) f s m = Engine.runSteps dispatch left f s' m' ∧
    post m'

namespace Engine.Leads

variable {dispatch : Dispatch} {left count count' : Nat} {f : FrameId} {s s' s'' : Step}
  {m : Machine} {middle post : Machine → Prop}

theorem step (one : Ends (Engine.step dispatch ⟨Engine.runSteps dispatch left, left⟩ f s) m
      fun next m' => next = s' ∧ post m')
    (goesOn : s' ≠ .finished ∧ s' ≠ .thrown) : Leads dispatch left f 1 s s' m post := by
  obtain ⟨next, m', ran, rfl, holds⟩ := one
  exact ⟨m', Engine.runSteps_step ran goesOn, holds⟩

theorem trans (first : Leads dispatch (left + count) f count' s s' m middle)
    (second : ∀ m', middle m' → Leads dispatch left f count s' s'' m' post) :
    Leads dispatch left f (count + count') s s'' m post := by
  obtain ⟨m', ran, holds⟩ := first
  obtain ⟨m'', ran', reached⟩ := second m' holds
  exact ⟨m'', by rw [← Nat.add_assoc, ran, ran'], reached⟩

end Engine.Leads

theorem List.drop_add_of_drop {α : Type} {items before rest : List α} {i n : Nat}
    (here : items.drop i = before ++ rest) (length : before.length = n) :
    items.drop (i + n) = rest := by
  rw [← List.drop_drop, here, ← length, List.drop_left]

namespace Level

variable {reads : Places} {l : Level} {frame : Frame} {i : Nat} {tight : Bool} {m : Machine}
  {chain isOpen : Bool} {operator : Prop}

/-! ## Formulas at a level -/

/-- A formula is written at a position of a level, and behind it what may follow. -/
structure Placed (l : Level) (reads : Places) (e : Formula chain isOpen) (i : Nat)
    (operator : Prop) : Prop where
  spells : ∃ cells, l.cells.drop i = cells ++ l.cells.drop (i + e.width) ∧
    l.start.heap.Spells reads e l.specifier cells
  follows : l.start.heap.Follows reads l.specifier operator (l.cells.drop (i + e.width))

/-- A formula that has a value stands at a position of a level. -/
structure Stands (l : Level) (reads : Places) (e : Formula chain isOpen) (i : Nat)
    (operator : Prop) : Prop extends Placed l reads e i operator where
  fits : e.Fits

/-- What a level names is in use as long as it is. -/
theorem provides {op : FormulaOp} {enfix : Bool} {w : Cell} (part : w ∈ l.cells)
    (names : l.start.heap.Names reads l.specifier op enfix w) :
    ∃ r value a base p₁ p₂, l.start.heap.Refers reads l.specifier w r value ∧
      value.asAction? = some a ∧ value.enfixed = enfix ∧ l.Provides reads op a base p₁ p₂ := by
  obtain ⟨-, r, value, a, base, p₁, p₂, refers, action, fixity, computes⟩ := names
  obtain ⟨paramlist, details⟩ :=
    (refers.within l.closed (l.within w part) l.kept_specifier).of_action action
  exact ⟨r, value, a, base, p₁, p₂, refers, action, fixity, computes, paramlist, details⟩

namespace Placed

variable {left : Formula chain false} {op : FormulaOp} {right : Formula false isOpen}
  {e : Formula chain isOpen}

theorem begins (placed : l.Placed reads e i operator) :
    ((l.cells.drop i).headD Cell.end_).isEnd = false := by
  obtain ⟨cells, here, spells⟩ := placed.spells
  obtain ⟨c, rest, rfl, begins⟩ := spells.begins
  rw [here]
  exact begins.isEnd

theorem above (placed : l.Placed reads e i operator) {j : Nat} (at_ : l.At frame j tight m) :
    at_.above.Placed reads e i operator := by
  obtain ⟨cells, here, spells⟩ := placed.spells
  refine ⟨⟨cells, here, at_.spells (fun c member => ?_) spells⟩, ?_⟩
  · exact List.mem_of_mem_drop (i := i) (by rw [here]; exact List.mem_append_left _ member)
  · exact at_.follows (fun c member => List.mem_of_mem_drop member) placed.follows

theorem infixed (placed : l.Placed reads (.infix_ left op right) i operator) :
    l.Placed reads left i True ∧
      (∃ w rest, l.cells.drop (i + left.width) = w :: rest ∧
        l.start.heap.Names reads l.specifier op true w) ∧
      l.Placed reads right (i + left.width + 1) operator := by
  obtain ⟨cells, here, before, w, behind, rfl, spells, names, spells'⟩ := placed.spells
  have length := spells.length
  have length' := spells'.length
  rw [List.append_assoc] at here
  have there := List.drop_add_of_drop here length
  have next : l.cells.drop (i + left.width + 1) =
      behind ++ l.cells.drop (i + (Formula.infix_ left op right).width) := by
    rw [← List.tail_drop, there]
    rfl
  have last : i + (Formula.infix_ left op right).width = i + left.width + 1 + right.width := by
    simp only [Formula.width]
    omega
  rw [last] at next
  refine ⟨⟨⟨before, ?_, spells⟩, ?_⟩, ⟨w, _, there, names⟩, ⟨behind, next, spells'⟩, ?_⟩
  · rw [there]
    exact here
  · rw [there]
    rintro c ⟨⟩
    exact .inr ⟨trivial, op, names⟩
  · rw [← last]
    exact placed.follows

theorem called {chain' isOpen' : Bool} {first : Formula chain isOpen}
    {second : Formula chain' isOpen'} (placed : l.Placed reads (.call op first second) i operator)
    (closed : ¬ operator) :
    (∃ w rest, l.cells.drop i = w :: rest ∧ l.start.heap.Names reads l.specifier op false w ∧
      l.start.heap.Follows reads l.specifier False rest) ∧
      l.Placed reads first (i + 1) False ∧ l.Placed reads second (i + 1 + first.width) False := by
  obtain ⟨cells, here, w, before, behind, rfl, names, spells, spells'⟩ := placed.spells
  have length := spells.length
  have length' := spells'.length
  rw [List.cons_append, List.append_assoc] at here
  have there : l.cells.drop (i + 1) =
      before ++ (behind ++ l.cells.drop (i + (Formula.call op first second).width)) := by
    rw [← List.tail_drop, here]
    rfl
  have next := List.drop_add_of_drop there length
  have last : i + (Formula.call op first second).width = i + 1 + first.width + second.width := by
    simp only [Formula.width]
    omega
  refine ⟨⟨w, _, here, names, spells.follows _ _⟩, ⟨⟨before, ?_, spells⟩, ?_⟩,
    ⟨⟨behind, ?_, spells'⟩, ?_⟩⟩
  · rw [next]
    exact there
  · rw [next]
    exact spells'.follows _ _
  · rw [← last]
    exact next
  · rw [← last]
    exact placed.follows.weaken closed

end Placed

/-! ## The steps -/

namespace At

/-- A frame begins an expression and fetches its first cell. -/
theorem begin (at_ : l.At frame i tight m) {c : Cell} {rest : List Cell}
    (here : l.cells.drop i = c :: rest) (real : c.isEnd = false)
    (follows : l.start.heap.Follows reads l.specifier operator rest) (dispatch : Dispatch)
    (left : Nat) :
    Engine.Leads dispatch left l.below.size 2 .start (.reevaluate c none) m
      (l.At (starting frame i tight) (i + 1) false) := by
  have started : Ends (Engine.step dispatch ⟨Engine.runSteps dispatch (left + 1), left + 1⟩
      l.below.size .start) m fun next m' =>
        next = .lookahead ∧ l.At (starting frame i tight) i false m' :=
    .given at_.start fun m at_ => .pure ⟨rfl, at_⟩
  refine (Engine.Leads.step started (by simp)).trans fun m at_ => .step ?_ (by simp)
  obtain ⟨m', looked, at_⟩ := at_.look here real follows
  exact ⟨_, m', looked, rfl, at_⟩

theorem evalLiteral (at_ : l.At frame i tight m) (e : Engine) {c : Cell} (literal : c.IsLiteral) :
    Gives (e.evalCell l.below.size c none) m .postSwitch
      (l.At { frame with out := { c with unevaluated := true, stale := false } } i tight) := by
  obtain ⟨feed, fed, -⟩ := at_.read
  rw [Gives, Engine.evalCell_means e literal.means at_.asked fed]
  exact Gives.bind (at_.onFrame _ rfl rfl) fun m at_ => .pure at_

/-- A call begins at a word for an action. -/
theorem evalName (at_ : l.At frame i tight m) {op : FormulaOp} {w : Cell} (part : w ∈ l.cells)
    (names : l.start.heap.Names reads l.specifier op false w) :
    ∃ a base p₁ p₂, l.Provides reads op a base p₁ p₂ ∧ ∀ e : Engine,
      Ends (e.evalCell l.below.size w none) m fun next m' => next = .processAction ∧
        ∃ varlist first binding label, l.Fills varlist [first, Cell.null, Cell.null]
          (opening frame a varlist binding label false) i tight m' := by
  obtain ⟨r, value, a, base, p₁, p₂, refers, action, fixity, provides⟩ := l.provides part names
  have word := names.1
  have here := refers.keep (at_.since.spares reads) (l.within w part) l.kept_specifier
  have kind := (Cell.is_iff.mp word).2
  obtain ⟨feed, fed, current⟩ := at_.read
  obtain ⟨varlist, first, m', ran, fills⟩ :=
    at_.runAction (provides.still at_) value.binding w.wordSymbol? false
  refine ⟨a, base, p₁, p₂, provides, fun e => ⟨_, m', ?_, rfl, varlist, first, _, _, fills⟩⟩
  rw [Engine.evalCell, Interp.lift_bind_ok at_.asked, Interp.lift_bind_ok fed,
    Cell.isQuoted_of_is word (by decide), if_neg Bool.false_ne_true, kind, current.specifier]
  refine (Interp.ask_bind_ok here.getVar _).trans ?_
  simp only [action, fixity]
  exact ran

/-- A call begins at an operator behind a value. -/
theorem evalOperator (at_ : l.At frame i tight m) {op : FormulaOp} {w : Cell} {rest : List Cell}
    (here : l.cells.drop i = w :: rest)
    (names : l.start.heap.Names reads l.specifier op true w) (loose : frame.noLookahead = false) :
    ∃ a base p₁ p₂, l.Provides reads op a base p₁ p₂ ∧
      Ends (Engine.postSwitch l.below.size) m fun next m' => next = .processAction ∧
        ∃ varlist first binding label, l.Fills varlist [first, Cell.null, Cell.null]
          (opening frame a varlist binding label true) (i + 1) tight m' := by
  have part : w ∈ l.cells := List.mem_of_mem_drop (i := i) (by rw [here]; exact List.mem_cons_self ..)
  obtain ⟨r, value, a, base, p₁, p₂, refers, action, fixity, provides⟩ := l.provides part names
  have refers := refers.keep (at_.since.spares reads) (l.within w part) l.kept_specifier
  obtain ⟨feed, fed, current⟩ := at_.read
  have current_value : feed.value = w := by rw [current.value, here]; rfl
  have looked := refers.operator_run names.1 action fed current_value current.specifier
  rw [fixity] at looked
  obtain ⟨s, live, plain⟩ := (provides.still at_).plain
  have without {flags : Flags} (among : flags &&& Flags.lookbacks = flags) :
      ¬(s.flags &&& flags != 0) = true :=
    ne_true_of_eq_false (Series.has_of_mask among plain)
  have neither {flags : Flags} (among : flags &&& Flags.lookbacks = flags) :
      ¬(frame.fulfillingArg && s.flags &&& flags != 0) = true :=
    fun both => without among (Bool.and_eq_true_iff.mp both).2
  refine ⟨a, base, p₁, p₂, provides, ?_⟩
  unfold Engine.postSwitch
  refine .asked at_.asked (.asked fed ?_)
  rw [Feed.isEnd, current_value, names.isEnd, if_neg Bool.false_ne_true]
  refine .after looked (.asked (Query.series_eq_ok.mpr live) ?_)
  dsimp only
  rw [if_neg (by simp [loose]), if_neg (without (by decide)), if_neg (neither (by decide)),
    if_neg (ne_true_of_eq_false current.ready), if_neg (neither (by decide))]
  refine .given (at_.fetchNext here) fun m at_ => ?_
  obtain ⟨varlist, first, m', ran, fills⟩ :=
    at_.runAction (provides.still at_) value.binding w.wordSymbol? true
  exact ⟨_, m', ran, rfl, varlist, first, _, _, fills⟩

end At

/-! ## From the value of a formula -/

/-- A frame that begins with the formula comes to its value. -/
def Leads (reads : Places) (e : Formula chain isOpen) : Prop :=
  ∀ (l : Level) (frame : Frame) (i : Nat) (tight : Bool) (m : Machine) (operator : Prop) (left : Nat),
    l.At frame i tight m → frame.Idle → l.Stands reads e i operator →
    (operator → isOpen = false) → (chain = true → tight = false) →
    l.below.size + 1 + e.depth ≤ l.start.config.frameLimit → e.fuel ≤ left →
    Engine.Leads Library.dispatch left l.below.size e.strides .start .postSwitch m fun m' =>
      ∃ frame', Has frame frame' e.value ∧ (isOpen = false → frame'.noLookahead = tight) ∧
        l.At frame' (i + e.width) false m'

variable {e : Formula chain isOpen}

/-- A frame for a single expression, or whose feed is at its end then, is done. -/
theorem Leads.run (leads : Leads reads e) {left : Nat} (at_ : l.At frame i tight m)
    (idle : frame.Idle) (stands : l.Stands reads e i operator)
    (operand : operator → isOpen = false ∧ tight = true) (chained : chain = true → tight = false)
    (single : l.cells.drop (i + e.width) = [] ∨ frame.toEnd = false)
    (room : l.below.size + 1 + e.depth ≤ l.start.config.frameLimit)
    (fuel : e.fuel + 1 + e.strides ≤ left) :
    Ends (Engine.runSteps Library.dispatch left l.below.size .start) m fun threw m' =>
      threw = false ∧ ∃ frame', Has frame frame' e.value ∧ l.At frame' (i + e.width) false m' := by
  obtain ⟨n, rfl⟩ := Nat.exists_eq_add_of_le fuel
  obtain ⟨m', ran, frame', has, loose, at_⟩ := leads l frame i tight m operator (e.fuel + n + 1) at_
    idle stands (fun follows => (operand follows).1) chained room (by omega)
  have settled := at_.settle (at_.follows (fun c member => List.mem_of_mem_drop member) stands.follows)
    (single.imp_right has.like.toEnd.trans)
    fun follows => (loose (operand follows).1).trans (operand follows).2
  rw [show e.fuel + 1 + e.strides + n = e.fuel + n + 1 + e.strides by omega, Ends, ran]
  refine Ends.after settled ?_
  refine .given (at_.onFrame _ rfl rfl) fun m at_ => .pure ⟨rfl, _, ?_, at_⟩
  exact ⟨{ has.like with }, { has.idle with }, ⟨has.value.kind, has.value.quote, has.value.binding,
    has.value.payload⟩, rfl⟩

/-- An engine with enough steps evaluates the formula as an argument. -/
theorem Leads.evaluates (leads : Leads reads e) (fuel rounds : Nat)
    (stands : l.Stands reads e i operator) (operand : operator → isOpen = false ∧ tight = true)
    (chained : chain = true → tight = false)
    (room : l.below.size + 2 + e.depth ≤ l.start.config.frameLimit)
    (enough : e.fuel + 1 + e.strides ≤ fuel) :
    l.Evaluates ⟨Engine.runSteps Library.dispatch fuel, rounds⟩ i (i + e.width) tight e.value := by
  intro frame m at_
  have size : m.frames.size = l.below.size + 1 := by rw [at_.frames, Array.size_push]
  have limit : m.config.frameLimit = l.start.config.frameLimit := by rw [at_.since.config]
  have evaluated : Ends (Interp.withFrame { feed := frame.feed, fulfillingArg := true } fun f =>
      Engine.runSteps Library.dispatch fuel f .start) m fun value m' =>
        (∃ frame', value = (false, frame') ∧ frame'.out.SameValue (Cell.integer e.value)) ∧
          at_.above.Left (i + e.width) false m' := by
    have above : at_.above.below.size + 1 + e.depth ≤ at_.above.start.config.frameLimit := by
      change m.frames.size + 1 + e.depth ≤ m.config.frameLimit
      omega
    refine .given (at_.push (by omega) true) fun m' at_' => ?_
    refine .bind (leads.run at_' ⟨rfl, rfl, rfl⟩ ⟨stands.above at_, stands.fits⟩ operand chained
      (.inr rfl) above enough) fun threw m' => ?_
    rintro ⟨rfl, frame', has, at_'⟩
    exact .given at_'.drop fun m' left => .pure ⟨⟨frame', rfl, has.value⟩, left⟩
  refine .asked at_.asked (.bind evaluated ?_)
  rintro _ m' ⟨⟨frame', rfl, same⟩, left⟩
  exact .pure ⟨⟨_, rfl, same⟩, left⟩

/-- An array that ends with the formula evaluates to its value. -/
theorem Leads.evalArray (leads : Leads reads e) {array : SeriesId} {specifier : Specifier}
    {cells : List Cell} {index fuel : Nat} (rounds : Nat)
    (holds : m.heap.cells? array = some cells.toArray)
    (spells : m.heap.Spells reads e specifier (cells.drop index)) (fits : e.Fits)
    (room : m.frames.size + 1 + e.depth ≤ m.config.frameLimit) (running : m.signals.halt = false)
    (unmarked : m.heap.Unmarked) (enough : e.fuel + 1 + e.strides ≤ fuel) :
    Ends (Engine.evalArray? ⟨Engine.runSteps Library.dispatch fuel, rounds⟩ array index specifier) m
      fun v m' => (∃ c : Cell, v = .value c ∧ c.SameValue (Cell.integer e.value)) ∧
        m.Resumes m' := by
  have done : cells.drop (index + e.width) = [] :=
    List.drop_add_of_drop (List.append_nil _).symm spells.length
  have stands : (m.level array specifier cells holds).Stands reads e index False := by
    refine ⟨⟨⟨_, ?_, spells⟩, ?_⟩, fits⟩
    · change cells.drop index = cells.drop index ++ cells.drop (index + e.width)
      rw [done, List.append_nil]
    · change m.heap.Follows reads specifier False (cells.drop (index + e.width))
      rw [done]
      exact fun _ member => nomatch member
  have ran (m' : Machine) (at_ : (m.level array specifier cells holds).At
      { feed := m.feeds.size, toEnd := true, stackBase := m.stack.size } index false m') :
      Ends (Engine.runSteps Library.dispatch fuel m.frames.size .start) m' fun threw m' =>
        ∃ frame', (threw = false ∧ frame'.out.SameValue (Cell.integer e.value)) ∧
          (m.level array specifier cells holds).At frame' (index + e.width) false m' := by
    refine (leads.run at_ ⟨rfl, rfl, rfl⟩ stands False.elim (fun _ => rfl) (.inl done) room
      enough).weaken fun threw m' => ?_
    rintro ⟨rfl, frame', has, at_⟩
    exact ⟨frame', ⟨rfl, has.value⟩, at_⟩
  refine .asked ((m.level array specifier cells holds).arrayFeed_run index) ?_
  refine .bind (fed_run holds index _ _ (framed_run (fun threw frame' => threw = false ∧
    frame'.out.SameValue (Cell.integer e.value)) holds (by omega) running unmarked index rfl ran)) ?_
  rintro ⟨threw, frame'⟩ m' ⟨⟨rfl, same⟩, resumes⟩
  have real : frame'.out.isEnd = false := same.real
  dsimp only
  rw [if_neg Bool.false_ne_true, real, if_neg Bool.false_ne_true]
  exact .pure ⟨⟨_, rfl, same.kind, same.quote, same.binding, same.payload⟩, resumes⟩

/-! ## One case for each form -/

/-- A call whose arguments can be gathered goes on to its value. -/
theorem applied {op : FormulaOp} {a : Action} {base : SeriesId} {p₁ p₂ : Typeset} {x y : Int}
    {left : Nat} (provides : l.Provides reads op a base p₁ p₂)
    (fits : Bits.fits64 (op.on x y) = true)
    (gathered : Ends (Engine.processAction ⟨Engine.runSteps Library.dispatch (left + 1), left + 1⟩
      l.below.size) m fun next m' => next = .dispatch ∧ l.Gathered a frame x y i m') :
    Engine.Leads Library.dispatch left l.below.size 2 .processAction .postSwitch m fun m' =>
      ∃ frame', Has frame frame' (op.on x y) ∧ frame'.noLookahead = false ∧
        l.At frame' i false m' := by
  have first : Engine.Leads Library.dispatch (left + 1) l.below.size 1 .processAction .dispatch m
      (l.Gathered a frame x y i) := .step gathered (by simp)
  exact first.trans fun m gathered => .step (gathered.dispatch provides fits _) (by simp)

theorem leads_integer (x : Int) : Leads reads (.integer x) := by
  intro l frame i tight m operator left at_ idle stands _ _ _ _
  obtain ⟨_, here, newline, rfl⟩ := stands.spells
  have literal : ({ Cell.integer x with newline } : Cell).IsLiteral :=
    Cell.IsInteger.isLiteral ⟨x, newline, rfl⟩
  refine (at_.begin here literal.isEnd stands.follows _ (left + 1)).trans fun m at_ =>
    .step ?_ (by simp)
  obtain ⟨m', ran, at_⟩ := at_.evalLiteral ⟨Engine.runSteps Library.dispatch left, left⟩ literal
  refine ⟨_, m', ran, rfl, _, ?_, ?_, at_⟩
  · exact ⟨⟨rfl, rfl⟩, { idle with }, ⟨rfl, rfl, rfl, rfl⟩, rfl⟩
  · exact fun _ => rfl

theorem leads_group (inner : Leads reads e) : Leads reads (.group e) := by
  intro l frame i tight m operator left at_ idle stands _ _ room fuel
  obtain ⟨cells, here, spelled⟩ := stands.spells
  have ⟨c, _, _, same, group, _⟩ := spelled
  subst same
  have real : c.isEnd = false := by simp [Cell.isEnd, (Cell.is_iff.mp group).2]
  have part : c ∈ l.cells := List.mem_of_mem_drop (i := i) (by rw [here]; exact List.mem_cons_self ..)
  simp only [Formula.depth, Formula.fuel] at room fuel
  refine (at_.begin here real stands.follows _ (left + 1)).trans fun m at_ => .step ?_ (by simp)
  have size : m.frames.size = l.below.size + 1 := by rw [at_.frames, Array.size_push]
  obtain ⟨d, array, held, same, -, series, holds, -, spells⟩ :=
    at_.spells (fun d member => List.mem_singleton.mp member ▸ part) spelled
  obtain rfl : c = d := List.singleton_inj.mp same
  have evaluated := inner.evalArray left holds spells stands.fits
    (by rw [at_.since.config]; omega) at_.since.running at_.since.unmarked fuel
  obtain ⟨feed, fed, current⟩ := at_.read
  change Ends (Engine.evalCell _ l.below.size c none) m _
  unfold Engine.evalCell
  refine .asked at_.asked (.asked fed ?_)
  rw [Cell.isQuoted_of_is group (by decide), if_neg Bool.false_ne_true, (Cell.is_iff.mp group).2,
    current.specifier]
  refine Ends.asked (Query.arrayOf_eq_ok.mpr series) (Ends.bind evaluated fun v m' => ?_)
  rintro ⟨⟨v, rfl, value⟩, resumes⟩
  refine .given ((at_.resume resumes).onFrame _ rfl rfl) fun m at_ => .pure ⟨rfl, _, ?_, ?_, at_⟩
  · exact ⟨⟨rfl, rfl⟩, { idle with }, ⟨value.kind, value.quote, value.binding,
      value.payload⟩, rfl⟩
  · exact fun _ => rfl

theorem leads_infix {left : Formula chain false} {op : FormulaOp} {right : Formula false isOpen}
    (first : Leads reads left) (second : Leads reads right) :
    Leads reads (.infix_ left op right) := by
  intro l frame i tight m operator n at_ idle stands closed chained room fuel
  obtain ⟨placed, ⟨w, rest, here, names⟩, placed'⟩ := stands.infixed
  obtain rfl := chained rfl
  obtain ⟨fits, fits', fits''⟩ := stands.fits
  simp only [Formula.depth, Formula.fuel] at room fuel
  refine (first l frame i false m True (n + 3) at_ idle ⟨placed, fits⟩ (fun _ => rfl)
    (fun _ => rfl) (by omega) (by omega)).trans fun m => ?_
  rintro ⟨frame', has, loose, at_⟩
  obtain ⟨a, base, p₁, p₂, provides, begun⟩ := at_.evalOperator here names (loose rfl)
  have called : Engine.Leads Library.dispatch (n + 2) l.below.size 1 .postSwitch .processAction m _ :=
    .step begun (by simp)
  refine called.trans fun m => ?_
  rintro ⟨varlist, start, binding, label, fills⟩
  have evaluates : l.Evaluates ⟨Engine.runSteps Library.dispatch (n + 1), n + 1⟩ (i + left.width + 1)
      (i + left.width + 1 + right.width) true right.value :=
    second.evaluates _ _ ⟨placed', fits'⟩ (fun follows => ⟨closed follows, rfl⟩) nofun (by omega)
      (by omega)
  have gathered := fills.operator provides has.idle has.value has.fresh evaluates placed'.begins
    (by have := right.strides_ge; simp only; omega)
  obtain ⟨m', ran, frame'', has', loose', at_⟩ := applied provides fits'' gathered
  refine ⟨m', ran, frame'', ?_, fun _ => loose', ?_⟩
  · exact { has' with like := ⟨has'.like.toEnd.trans has.like.toEnd,
                               has'.like.argument.trans has.like.argument⟩ }
  · have last : i + (Formula.infix_ left op right).width = i + left.width + 1 + right.width := by
      simp only [Formula.width]
      omega
    rw [last]
    exact at_

theorem leads_call {chain' isOpen' : Bool} {op : FormulaOp} {e' : Formula chain' isOpen'}
    (first : Leads reads e) (second : Leads reads e') : Leads reads (.call op e e') := by
  intro l frame i tight m operator n at_ idle stands closed _ room fuel
  obtain ⟨⟨w, rest, here, names, follows⟩, placed, placed'⟩ := stands.called fun follows =>
    Bool.false_ne_true (closed follows).symm
  obtain ⟨fits, fits', fits''⟩ := stands.fits
  simp only [Formula.depth, Formula.fuel] at room fuel
  refine (at_.begin here names.isEnd follows _ (n + 3)).trans fun m at_ => ?_
  have part : w ∈ l.cells := List.mem_of_mem_drop (i := i) (by rw [here]; exact List.mem_cons_self ..)
  obtain ⟨a, base, p₁, p₂, provides, begun⟩ := at_.evalName part names
  have called : Engine.Leads Library.dispatch (n + 2) l.below.size 1 (.reevaluate w none)
      .processAction m _ := .step (begun _) (by simp)
  refine called.trans fun m => ?_
  rintro ⟨varlist, start, binding, label, fills⟩
  have gathered := fills.call provides { idle with }
    (first.evaluates (n + 1) (n + 1) ⟨placed, fits⟩ False.elim (fun _ => rfl) (by omega)
      (by omega))
    (second.evaluates (n + 1) (n + 1) ⟨placed', fits'⟩ False.elim (fun _ => rfl) (by omega)
      (by omega))
    placed.begins placed'.begins (by have := e.strides_ge; simp only; omega)
  obtain ⟨m', ran, frame', has, -, at_⟩ := applied provides fits'' gathered
  refine ⟨m', ran, frame', { has with like := ⟨has.like.toEnd, has.like.argument⟩ }, nofun, ?_⟩
  have last : i + (Formula.call op e e').width = i + 1 + e.width + e'.width := by
    simp only [Formula.width]
    omega
  rw [last]
  exact at_

/-- A frame that begins with a formula comes to its value. -/
theorem leads (e : Formula chain isOpen) : Leads reads e := by
  induction e with
  | integer x => exact leads_integer x
  | group inner ih => exact leads_group ih
  | infix_ left op right first second => exact leads_infix first second
  | call op first second ih ih' => exact leads_call ih ih'

end Level

end Homoicon
