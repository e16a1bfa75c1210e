import Homoicon.Proofs.Expressions.Values

/-!
# Where code is cut

A block may be evaluated expression by expression over one feed, or with a new feed at each
position.  For formulas written one after the other both find the same expressions: each is
evaluated from where the one before it ends.
-/

namespace Homoicon

open Interp (Gives Ends)

variable {reads : Places} {m m' : Machine} {e : Expression} {es : List Expression}
  {array : SeriesId} {specifier : Specifier} {cells : List Cell} {index fuel rounds : Nat}

/-- A cell has the value of an expression. -/
def Expression.IsValue (e : Expression) (c : Cell) : Prop :=
  c.SameValue (Cell.integer e.code.value)

/-- How many steps an engine needs for an expression. -/
def Expression.steps (e : Expression) : Nat := e.code.fuel + 1 + e.code.strides

/-- How many cells some expressions are written as. -/
def Expression.span (es : List Expression) : Nat := (es.map (·.code.width)).sum

/-! ## Code in use -/

/-- A machine has some formulas in use, one after the other from a position of an array to its end,
and room for the frames that they need. -/
structure Machine.Lists (m : Machine) (reads : Places) (es : List Expression) (array : SeriesId)
    (specifier : Specifier) (cells : List Cell) (index : Nat) : Prop where
  holds : m.heap.cells? array = some cells.toArray
  whole : reads.Whole array
  spells : m.heap.SpellsAll reads specifier es (cells.drop index)
  fits : ∀ e ∈ es, e.code.Fits
  used : m.InUse array
  inside : ∀ id ∈ specifier, m.InUse id
  room : ∀ e ∈ es, m.frames.size + 1 + e.code.depth ≤ m.config.frameLimit
  running : m.signals.halt = false
  unmarked : m.heap.Unmarked

theorem Machine.closed_inUse (m : Machine) : m.heap.Closed m.InUse :=
  fun _ _ ⟨seed, refers, reaches⟩ found next reference =>
    ⟨seed, refers, reaches.trans (.onward found reference (.here next))⟩

namespace Machine

theorem Resumes.refl (running : m.signals.halt = false) (unmarked : m.heap.Unmarked) :
    m.Resumes m where
  frames := rfl
  feeds := rfl
  since := { stack := rfl, config := rfl, running, unmarked, heap := fun _ _ _ found => found }

theorem Resumes.inUse (resumes : m.Resumes m') {id : SeriesId} (used : m.InUse id) :
    m'.InUse id := by
  obtain ⟨seed, seeds, reaches⟩ := used
  refine ⟨seed, ?_, reaches.keep m.closed_inUse resumes.since.heap ⟨seed, seeds, .here seed⟩⟩
  rwa [resumes.frames, resumes.feeds]

theorem Resumes.trans {m'' : Machine} (first : m.Resumes m') (second : m'.Resumes m'') :
    m.Resumes m'' where
  frames := second.frames.trans first.frames
  feeds := second.feeds.trans first.feeds
  since := first.since.trans second.since fun _ _ used _ => first.inUse used

namespace Lists

theorem within (lists : m.Lists reads es array specifier cells index) :
    ∀ c ∈ cells.drop index, c.Within m.InUse := by
  obtain ⟨s, found, content⟩ := Heap.cells?_eq_some.mp lists.holds
  exact fun c member => m.closed_inUse.within lists.used found content c
    (by simpa using List.mem_of_mem_drop member)

/-- Code in use is still there after something was evaluated apart. -/
theorem resume (lists : m.Lists reads es array specifier cells index) (resumes : m.Resumes m') :
    m'.Lists reads es array specifier cells index := by
  obtain ⟨s, found, content⟩ := Heap.cells?_eq_some.mp lists.holds
  exact
    { lists with
      holds := Heap.cells?_eq_some.mpr ⟨s, resumes.since.heap _ _ lists.used found, content⟩
      spells := lists.spells.keep m.closed_inUse (resumes.since.spares reads) lists.within lists.inside
      used := resumes.inUse lists.used
      inside := fun id member => resumes.inUse (lists.inside id member)
      room := by rw [resumes.frames, resumes.since.config]; exact lists.room
      running := resumes.since.running
      unmarked := resumes.since.unmarked }

/-- The first expression stands at the position, and the others stand behind it. -/
theorem split (lists : m.Lists reads (e :: es) array specifier cells index) :
    (m.level array specifier cells lists.holds).Stands reads e.code index False ∧
      m.Lists reads es array specifier cells (index + e.code.width) := by
  obtain ⟨before, behind, here, spells, rest⟩ := lists.spells
  have next : cells.drop (index + e.code.width) = behind :=
    List.drop_add_of_drop here spells.length
  subst next
  refine ⟨⟨⟨⟨before, here, spells⟩, rest.follows False⟩, lists.fits e (List.mem_cons_self ..)⟩, ?_⟩
  exact
    { lists with
      spells := rest
      fits := fun e member => lists.fits e (List.mem_cons_of_mem _ member)
      room := fun e member => lists.room e (List.mem_cons_of_mem _ member) }

/-- One expression is evaluated with a feed of its own. -/
theorem evalStep (lists : m.Lists reads (e :: es) array specifier cells index)
    (enough : e.steps ≤ fuel) :
    Ends (Engine.evalStepAt ⟨Engine.runSteps Library.dispatch fuel, rounds⟩ array index specifier) m
      fun v m' => (∃ c, v = some (c, index + e.code.width) ∧ e.IsValue c) ∧ m.Resumes m' := by
  have room := lists.room e (List.mem_cons_self ..)
  let l := m.level array specifier cells lists.holds
  have ran (m' : Machine) (at_ : l.At { feed := m.feeds.size, stackBase := m.stack.size } index false
      m') : Ends (Engine.runSteps Library.dispatch fuel m.frames.size .start) m' fun threw m' =>
        ∃ frame', (threw = false ∧ e.IsValue frame'.out) ∧
          l.At frame' (index + e.code.width) false m' := by
    refine ((Level.leads e.code).run at_ ⟨rfl, rfl, rfl⟩ lists.split.1 False.elim (fun _ => rfl) (.inr rfl)
      room enough).weaken fun threw m' => ?_
    rintro ⟨rfl, frame', has, at_⟩
    exact ⟨frame', ⟨rfl, has.value⟩, at_⟩
  unfold Engine.evalStepAt
  refine .asked (l.arrayFeed_run index) ?_
  refine Level.fed_run lists.holds index (index + e.code.width) false (.bind (Level.framed_run
    (fun threw frame' => threw = false ∧ e.IsValue frame'.out) lists.holds (by omega) lists.running
    lists.unmarked index rfl ran) ?_)
  rintro ⟨threw, frame'⟩ m' ⟨⟨rfl, value⟩, left⟩
  obtain ⟨feed, fed, here⟩ := left.read
  dsimp only
  rw [if_neg Bool.false_ne_true]
  refine .asked fed ?_
  rw [here.source]
  exact .pure ⟨⟨_, rfl, value⟩, left⟩

theorem size_run (lists : m.Lists reads es array specifier cells index) :
    Query.size array m = .ok cells.length := by
  obtain ⟨s, found, content⟩ := Heap.cells?_eq_some.mp lists.holds
  rw [Query.size, Query.bind_ok (Query.series_eq_ok.mpr found), content]
  simp [Content.size]

/-- The code is at its end only where no expression is left. -/
theorem atEnd (lists : m.Lists reads es array specifier cells index) :
    cells.length ≤ index ↔ es = [] := by
  rw [← List.drop_eq_nil_iff]
  have spells := lists.spells
  cases es with
  | nil => exact ⟨fun _ => rfl, fun _ => spells⟩
  | cons e es =>
      obtain ⟨before, behind, here, first, -⟩ := spells
      obtain ⟨c, rest, rfl, -⟩ := first.begins
      rw [here]
      simp

/-- The expressions are evaluated one after the other, none of which stops the evaluation. -/
theorem until_run {stop : Cell → Bool} (never : ∀ (e : Expression) c, e.IsValue c → stop c = false)
    {n : Nat} (lists : m.Lists reads es array specifier cells index) (last : Cell)
    (enough : ∀ e ∈ es, e.steps ≤ fuel) (long : es.length < n) :
    Ends (Library.expressionsUntil ⟨Engine.runSteps Library.dispatch fuel, rounds⟩ stop array
      specifier n index last) m fun v m' => (∃ c, v = some (c, false) ∧ (es = [] → c = last) ∧
        ∀ e ∈ es.getLast?, e.IsValue c) ∧ m.Resumes m' := by
  induction es generalizing m n index last with
  | nil =>
      obtain ⟨n, rfl⟩ := Nat.exists_eq_add_of_le' long
      refine Ends.asked lists.size_run ?_
      rw [if_pos (lists.atEnd.mpr rfl)]
      exact .pure ⟨⟨last, rfl, fun _ => rfl, nofun⟩, .refl lists.running lists.unmarked⟩
  | cons e es ih =>
      obtain ⟨n, rfl⟩ := Nat.exists_eq_add_of_le' (Nat.one_le_of_lt long)
      refine Ends.asked lists.size_run ?_
      rw [if_neg (mt lists.atEnd.mp (List.cons_ne_nil _ _))]
      refine .bind (lists.evalStep (enough e (List.mem_cons_self ..))) ?_
      rintro _ m' ⟨⟨c, rfl, value⟩, resumes⟩
      dsimp only
      rw [Cell.SameValue.real value, if_neg Bool.false_ne_true, never e c value,
        if_neg Bool.false_ne_true]
      refine (ih (lists.split.2.resume resumes) c
        (fun e member => enough e (List.mem_cons_of_mem _ member)) (by simpa using long)).weaken ?_
      rintro _ m'' ⟨⟨d, rfl, alone, final⟩, resumes'⟩
      refine ⟨⟨d, rfl, nofun, fun e' member => ?_⟩, resumes.trans resumes'⟩
      cases es with
      | nil =>
          obtain rfl := alone rfl
          obtain rfl : e = e' := Option.some.inj member
          exact value
      | cons e'' es => exact final e' (by rwa [List.getLast?_cons_cons] at member)

end Lists

end Machine

/-! ## One feed for all expressions -/

namespace Level

variable {l : Level} {frame : Frame} {i : Nat}

theorem At.guard (at_ : l.At frame i false m) (c : Cell) :
    Gives (Interp.guard c) m () (l.At frame i false) :=
  ⟨_, rfl, { at_ with since := { at_.since with } }⟩

/-- The expressions left at a level are evaluated one after the other. -/
theorem At.reduceRest (at_ : l.At frame i false m) (idle : frame.Idle) (single : frame.toEnd = false)
    (spells : l.start.heap.SpellsAll reads l.specifier es (l.cells.drop i))
    (fits : ∀ e ∈ es, e.code.Fits)
    (room : ∀ e ∈ es, l.below.size + 1 + e.code.depth ≤ l.start.config.frameLimit)
    (enough : ∀ e ∈ es, e.steps ≤ fuel) {n : Nat} (long : es.length < n) (reversed : List Cell) :
    Ends (Engine.reduceRest ⟨Engine.runSteps Library.dispatch fuel, rounds⟩ l.below.size
      l.lower.size n reversed) m fun v m' => ∃ frame',
        (∃ values, v = some (reversed.reverse ++ values) ∧
          List.Forall₂ Expression.IsValue es values) ∧
        l.At frame' (i + Expression.span es) false m' := by
  induction es generalizing m n frame i reversed with
  | nil =>
      obtain ⟨n, rfl⟩ := Nat.exists_eq_add_of_le' long
      obtain ⟨feed, fed, here⟩ := at_.read
      rw [at_.fed] at fed
      have ended : feed.value.isEnd = true := by
        rw [here.value, show l.cells.drop i = [] from spells]
        rfl
      refine Ends.asked fed ?_
      dsimp only
      rw [if_pos ended]
      exact .pure ⟨frame, ⟨[], by rw [List.append_nil], .nil⟩, at_⟩
  | cons e es ih =>
      obtain ⟨n, rfl⟩ := Nat.exists_eq_add_of_le' (Nat.one_le_of_lt long)
      obtain ⟨before, behind, here, first, rest⟩ := spells
      have next : l.cells.drop (i + e.code.width) = behind :=
        List.drop_add_of_drop here first.length
      subst next
      have stands : l.Stands reads e.code i False :=
        ⟨⟨⟨before, here, first⟩, rest.follows False⟩, fits e (List.mem_cons_self ..)⟩
      obtain ⟨feed, fed, reading⟩ := at_.read
      rw [at_.fed] at fed
      have more : feed.value.isEnd = false := by
        rw [reading.value]
        exact stands.begins
      refine Ends.asked fed ?_
      dsimp only
      rw [if_neg (ne_true_of_eq_false more)]
      refine .given (at_.onFrame _ rfl rfl) fun m at_ => ?_
      refine .bind ((leads e.code).run at_ { idle with } stands False.elim (fun _ => rfl)
        (.inr single) (room e (List.mem_cons_self ..)) (enough e (List.mem_cons_self ..))) ?_
      rintro _ m ⟨rfl, frame', has, at_⟩
      rw [if_neg Bool.false_ne_true]
      have out : Query.out l.below.size m = .ok frame'.out := by
        rw [Query.out, Query.bind_ok at_.asked]
        rfl
      have present : frame'.out.isNull = false := by simp [Cell.isNull, has.value.kind, Cell.integer]
      refine .asked out ?_
      rw [has.value.real, has.fresh, Bool.or_false, if_neg Bool.false_ne_true, present,
        if_neg Bool.false_ne_true]
      refine .given (at_.guard _) fun m at_ => ?_
      refine (ih at_ has.idle (has.like.toEnd.trans single) rest
        (fun e member => fits e (List.mem_cons_of_mem _ member))
        (fun e member => room e (List.mem_cons_of_mem _ member))
        (fun e member => enough e (List.mem_cons_of_mem _ member)) (by simpa using long) _).weaken ?_
      rintro _ m' ⟨frame'', ⟨values, same, all⟩, at_⟩
      rw [List.reverse_cons, List.append_assoc] at same
      refine ⟨frame'', ⟨_, same, .cons ?_ all⟩, ?_⟩
      · exact ⟨has.value.kind, has.value.quote, has.value.binding, has.value.payload⟩
      · have last : i + Expression.span (e :: es) = i + e.code.width + Expression.span es := by
          simp [Expression.span, Nat.add_assoc]
        rw [last]
        exact at_

end Level

/-! ## The actions -/

/-- A value is a block, from its head, with the values of some expressions in order. -/
def Machine.IsBlockOf (m : Machine) (es : List Expression) (c : Cell) : Prop :=
  ∃ id held, c = Cell.series .block id 0 ∧ m.heap.cells? id = some held ∧
    List.Forall₂ Expression.IsValue es held.toList

namespace Machine

theorem Lists.reduce (lists : m.Lists reads es array specifier cells index)
    (room : m.frames.size < m.config.frameLimit) (enough : ∀ e ∈ es, e.steps ≤ fuel)
    (long : es.length < rounds) :
    Ends (Engine.reduce ⟨Engine.runSteps Library.dispatch fuel, rounds⟩ array index specifier) m
      fun v m' => (∃ c, v = some c ∧ m'.IsBlockOf es c) ∧ m'.frames = m.frames := by
  let l := m.level array specifier cells lists.holds
  let e : Engine := ⟨Engine.runSteps Library.dispatch fuel, rounds⟩
  have rest (m' : Machine) (at_ : l.At { feed := m.feeds.size, stackBase := m.stack.size } index false
      m') : Ends (e.reduceRest m.frames.size m.feeds.size rounds []) m' fun v m' => ∃ frame',
        (∃ values, v = some values ∧ List.Forall₂ Expression.IsValue es values) ∧
          l.At frame' (index + Expression.span es) false m' :=
    at_.reduceRest ⟨rfl, rfl, rfl⟩ rfl lists.spells lists.fits lists.room enough long []
  have collected : Ends (Interp.withFeed (l.feedAt index) fun feed =>
      Interp.withFrame { feed } fun f => e.reduceRest f feed rounds []) m fun v m' =>
        (∃ values, v.1 = some values ∧ List.Forall₂ Expression.IsValue es values) ∧
          m.Resumes m' :=
    Level.fed_run lists.holds index _ false
      (Level.framed_run (fun v _ => ∃ values, v = some values ∧
        List.Forall₂ Expression.IsValue es values) lists.holds room lists.running lists.unmarked index
        rfl rest)
  have guarded : Ends (Interp.guarding (Interp.withFeed (l.feedAt index) fun feed =>
      Interp.withFrame { feed } fun f => e.reduceRest f feed rounds [])) m fun v m' =>
        (∃ values, v.1 = some values ∧ List.Forall₂ Expression.IsValue es values) ∧
          m'.frames = m.frames := by
    refine .after rfl (.bind collected fun v m' ⟨values, resumes⟩ => ?_)
    exact .after rfl (.pure ⟨values, resumes.frames⟩)
  unfold Engine.reduce
  refine .asked (l.arrayFeed_run index) (.bind guarded ?_)
  rintro ⟨v, frame⟩ m' ⟨⟨values, rfl, all⟩, frames⟩
  let made := m'.heap.alloc (Series.ofCells values.toArray).managed
  have held : made.2.cells? made.1 = some values.toArray :=
    Heap.cells?_eq_some.mpr ⟨_, (Heap.get?_alloc ..).trans (if_pos rfl), rfl⟩
  exact ⟨some (Cell.series .block made.1 0), { m' with heap := made.2 }, rfl,
    ⟨_, rfl, _, values.toArray, rfl, held, all⟩, frames⟩

end Machine

end Homoicon
