import Homoicon.Proofs.Expressions.Stepping

/-!
# Calls of operations

An action of arithmetic takes two arguments.  As an operator it has the first one from the output of
its frame and takes a single operand as the second; else both are expressions behind its name.  The
arguments are kept in slots of their own, which are freed when the call has its result.
-/

namespace Homoicon

open Interp (Gives Ends)

variable {reads : Places} {op : FormulaOp} {m : Machine} {l : Level} {frame : Frame} {i : Nat}
  {tight : Bool} {a : Action} {base varlist : SeriesId} {p₁ p₂ : Typeset} {slots : List Cell}

theorem Cell.SameValue.copied {c d : Cell} (same : c.SameValue d) : c.copied.SameValue d :=
  ⟨same.kind, same.quote, same.binding, same.payload⟩

theorem Cell.SameValue.checked {c d : Cell} (same : c.SameValue d) :
    ({ c.copied with checked := true } : Cell).SameValue d :=
  ⟨same.kind, same.quote, same.binding, same.payload⟩

/-! ## The state of a call -/

/-- A frame that runs a call of an action with some slots. -/
structure Frame.Calls (frame : Frame) (a : Action) (varlist : SeriesId) : Prop where
  called : frame.called = some a
  phase : frame.phase = some a
  varlist : frame.varlist = some varlist
  plain : frame.requotes = 0
  whole : frame.fulfillOnly = false
  typed : frame.typecheckOnly = false

/-- A frame goes on with the same purpose. -/
structure Frame.Like (frame frame' : Frame) : Prop where
  toEnd : frame'.toEnd = frame.toEnd
  argument : frame'.fulfillingArg = frame.fulfillingArg

/-- A frame that is between two calls. -/
structure Frame.Idle (frame : Frame) : Prop where
  whole : frame.fulfillOnly = false
  typed : frame.typecheckOnly = false
  freed : frame.varlist = none

namespace Level

/-- The frame of a level runs a call whose slots have some content. -/
structure Fills (l : Level) (varlist : SeriesId) (slots : List Cell) (frame : Frame) (i : Nat)
    (tight : Bool) (m : Machine) : Prop extends At l frame i tight m where
  slots : ∃ s, m.heap.get? varlist = some s ∧ s.has Flags.managed = false ∧
    s.content = .array slots.toArray
  apart : ∀ id s, l.Kept id → l.start.heap.get? id = some s → id ≠ varlist

/-- A frame in which a call begins. -/
def opening (frame : Frame) (a : Action) (varlist : SeriesId) (binding : Binding)
    (label : Option SymbolId) (lookback : Bool) : Frame :=
  { frame with
    called := some a, phase := some a, binding, varlist := some varlist, param := 1,
    prefill := .params, requotes := 0, label, runningEnfix := lookback, nextArgFromOut := lookback }

end Level

/-! ## Beginning a call -/

/-- A call that takes its first argument from the left begins like any other. -/
theorem Engine.runAction_lookback {f : FrameId} {binding : Binding} {label : Option SymbolId}
    {m' : Machine} (lookback : Bool)
    (ran : Engine.runAction f a binding label false m = .ok .processAction m') :
    Engine.runAction f a binding label lookback m = .ok .processAction
      { m' with frames := m'.frames.modify f fun fr =>
          { fr with runningEnfix := lookback, nextArgFromOut := lookback } } := by
  obtain ⟨⟨⟩, m₁, pushed, begun⟩ := Interp.bind_eq_ok.mp ran
  obtain ⟨⟨⟩, m₂, named, done⟩ := Interp.bind_eq_ok.mp begun
  obtain rfl : m₂ = m' := by
    cases done
    rfl
  change (if f < m₁.frames.size then _ else _) = _ at named
  split at named
  · rename_i inside
    cases named
    rw [Engine.runAction, Interp.bind_ok pushed]
    refine (Interp.bind_ok (if_pos inside) _).trans ?_
    refine congrArg (fun frames => EStateM.Result.ok Step.processAction { m₁ with frames }) ?_
    refine Array.ext_getElem? fun place => ?_
    rw [Array.getElem?_modify, Array.getElem?_modify, Array.getElem?_modify]
    split
    · rw [Option.map_map]
      rfl
    · rfl
  · cases named

theorem newVarlist_unmanaged (base : SeriesId) (f : FrameId) (count : Nat) :
    (newVarlist base f count).has Flags.managed = false := by
  simp only [newVarlist, Series.ofCells, Series.withFlags, Series.has]
  split <;> decide

theorem Heap.get?_slotted_self (h : Heap) (a : Action) (layout : Layout) (f : FrameId)
    (binding : Binding) :
    (h.slotted a layout f binding).2.get? (h.slotted a layout f binding).1 =
      some ((newVarlist layout.base f (layout.params.length + 1)).storing 0
        (Cell.frame (h.slotted a layout f binding).1 a binding)) := by
  rw [slotted, get?_modify, if_pos rfl, get?_alloc, if_pos rfl]
  rfl

theorem Machine.frames_calling (m : Machine) (f : FrameId) (a : Action) (layout : Layout)
    (binding : Binding) (label : Option SymbolId) :
    (m.calling f a layout binding label).frames = m.frames.modify f
      (·.calling a layout (m.heap.slotted a layout f binding).1 binding label) := rfl

theorem Level.At.runAction (at_ : l.At frame i tight m)
    (computes : m.heap.Computes reads op a base p₁ p₂) (binding : Binding)
    (label : Option SymbolId) (lookback : Bool) :
    ∃ varlist first, Gives (Engine.runAction l.below.size a binding label lookback) m .processAction
      (l.Fills varlist [first, Cell.null, Cell.null]
        (opening frame a varlist binding label lookback) i tight) := by
  let layout : Layout := { base, params := [p₁, p₂] }
  let varlist := (m.heap.slotted a layout l.below.size binding).1
  have inside : l.below.size < m.frames.size := by
    rw [at_.frames, Array.size_push]
    exact Nat.lt_succ_self _
  have ran := Engine.runAction_lookback lookback
    (computes.lays.runAction_run inside binding label)
  have apart : ∀ id s, l.Kept id → l.start.heap.get? id = some s → id ≠ varlist :=
    fun id s kept found => Heap.slotted_fresh a layout l.below.size binding
      (by rw [at_.since.heap id s kept found]; exact Option.some_ne_none s)
  refine ⟨varlist, Cell.frame varlist a binding, _, ran, ⟨?_, at_.feeds, at_.fed, at_.base, ?_⟩, ?_,
    apart⟩
  · change (m.calling l.below.size a layout binding label).frames.modify l.below.size (fun fr =>
          { fr with runningEnfix := lookback, nextArgFromOut := lookback }) = _
    rw [Machine.frames_calling, at_.frames, Array.modify_push, Array.modify_push]
    rfl
  · exact
      { at_.since with
        unmarked := Heap.Unmarked.slotted _ _ _ _ at_.since.unmarked
        heap := fun id s kept found =>
          (Heap.get?_slotted _ _ _ _ (apart id s kept found)).trans (at_.since.heap id s kept found) }
  · obtain ⟨s, found, content⟩ := Heap.cells?_eq_some.mp
      (Heap.cells?_slotted a layout l.below.size binding)
    have made := m.heap.get?_slotted_self a layout l.below.size binding
    refine ⟨s, found, ?_, content⟩
    rw [← Option.some.inj (made.symm.trans found), Series.has_storing, newVarlist_unmanaged]

/-! ## Actions that a level keeps -/

namespace Level

/-- An action of arithmetic that is in use as long as the level is. -/
structure Provides (l : Level) (reads : Places) (op : FormulaOp) (a : Action) (base : SeriesId)
    (p₁ p₂ : Typeset) : Prop where
  computes : l.start.heap.Computes reads op a base p₁ p₂
  paramlist : l.Kept a.paramlist
  details : l.Kept a.details

theorem Provides.still (provides : l.Provides reads op a base p₁ p₂) (at_ : l.At frame i tight m) :
    m.heap.Computes reads op a base p₁ p₂ :=
  provides.computes.keep l.closed (at_.since.spares reads) provides.paramlist provides.details

/-! ## Slots -/

/-- The call as the evaluator has it. -/
def call (l : Level) (a : Action) (base varlist : SeriesId) : Call where
  frame := l.below.size
  phase := a
  paramlist := base
  varlist := varlist
  count := 3
  stackBase := l.start.stack.size
  prefill := .params
  typecheckOnly := false

/-- An engine evaluates an argument of a call at a level from one position to another. -/
def Evaluates (l : Level) (e : Engine) (i j : Nat) (tight : Bool) (x : Int) : Prop :=
  ∀ frame m (at_ : l.At frame i tight m),
    Ends (e.evalSubframe l.below.size true) m fun v m' =>
      (∃ c : Cell, v = some c ∧ c.SameValue (Cell.integer x)) ∧ at_.above.Left j false m'

namespace Fills

theorem onFrame (fills : l.Fills varlist slots frame i tight m) (g : Frame → Frame)
    (fed : (g frame).feed = frame.feed) (base : (g frame).stackBase = frame.stackBase) :
    Gives (Interp.modifyFrame l.below.size g) m () (l.Fills varlist slots (g frame) i tight) := by
  obtain ⟨m', ran, at_⟩ := fills.toAt.onFrame g fed base
  have heap : m'.heap = m.heap := by
    unfold Interp.modifyFrame at ran
    split at ran
    · cases ran
      rfl
    · cases ran
  exact ⟨m', ran, at_, heap ▸ fills.slots, fills.apart⟩

theorem onFeed (fills : l.Fills varlist slots frame i tight m) {tight' : Bool} (g : Feed → Feed)
    (reads : ∀ feed, l.Reads i tight feed → l.Reads i tight' (g feed)) :
    Gives (Interp.modifyFeed frame.feed g) m () (l.Fills varlist slots frame i tight') := by
  obtain ⟨m', ran, at_⟩ := fills.toAt.onFeed i tight' reads
  have heap : m'.heap = m.heap := by
    unfold Interp.modifyFeed at ran
    split at ran
    · cases ran
      rfl
    · cases ran
  exact ⟨m', ran, at_, heap ▸ fills.slots, fills.apart⟩

theorem loosen (fills : l.Fills varlist slots frame i tight m) (tight' : Bool) :
    Gives (Interp.modifyFeed frame.feed fun feed => { feed with noLookahead := tight' }) m ()
      (l.Fills varlist slots frame i tight') :=
  fills.onFeed _ fun _ reads => { reads with tight := rfl }

theorem cell_run (fills : l.Fills varlist slots frame i tight m) {j : Nat} {c : Cell}
    (there : slots[j]? = some c) : Query.cell varlist j m = .ok c := by
  obtain ⟨s, live, -, content⟩ := fills.slots
  refine Query.cell_eq_ok.mpr ⟨_, Query.cells_eq_ok.mpr ⟨s, live, content⟩, ?_⟩
  rw [List.getElem?_toArray, there]

theorem arg_run (fills : l.Fills varlist slots frame i tight m) (own : frame.varlist = some varlist)
    {j : Nat} {c : Cell} (there : slots[j]? = some c) : Query.arg l.below.size j m = .ok c := by
  have asked : Query.frameVarlist l.below.size m = .ok varlist := by
    rw [Query.frameVarlist, Query.bind_ok fills.asked, own]
    rfl
  rw [Query.arg, Query.bind_ok asked, fills.cell_run there]

theorem store (fills : l.Fills varlist slots frame i tight m) {j : Nat} (c : Cell)
    (inside : j < slots.length) :
    Gives (Interp.storeCell varlist j c) m () (l.Fills varlist (slots.set j c) frame i tight) := by
  obtain ⟨s, live, unmanaged, content⟩ := fills.slots
  have held := Query.cells_eq_ok.mpr ⟨s, live, content⟩
  refine ⟨m.stored varlist j c, Interp.storeCell_run c held (by simpa using inside), ?_⟩
  have others : ∀ id s, l.Kept id → l.start.heap.get? id = some s →
      (m.stored varlist j c).heap.get? id = some s := fun id s kept found =>
    (Machine.get?_stored_of_ne (fills.apart id s kept found)).trans
      (fills.since.heap id s kept found)
  refine ⟨⟨fills.frames, fills.feeds, fills.fed, fills.base, ?_⟩, ?_, fills.apart⟩
  · exact
      { fills.since with
        unmarked := fills.since.unmarked.modify _ fun s => s.has_storing j c _
        heap := others }
  · refine ⟨_, Machine.get?_stored_self live content, unmanaged, ?_⟩
    rw [List.modify_toArray, ← List.set_eq_modify]

theorem check (fills : l.Fills varlist slots frame i tight m) {j : Nat} {c : Cell}
    (there : slots[j]? = some c) :
    Gives (Interp.markChecked varlist j) m ()
      (l.Fills varlist (slots.set j { c with checked := true }) frame i tight) := by
  obtain ⟨s, live, -, content⟩ := fills.slots
  have same := Interp.modifyCell_eq_storeCell (Query.cells_eq_ok.mpr ⟨s, live, content⟩)
    (by rw [List.getElem?_toArray, there]) fun c => { c with checked := true }
  rw [Gives, Interp.markChecked, same]
  exact fills.store _ (List.getElem?_eq_some_iff.mp there).1

/-- An integer is an argument of a parameter that takes one. -/
theorem finalize (fills : l.Fills varlist slots frame i tight m) {j : Nat} {c : Cell} {x : Int}
    {p : Typeset} (there : slots[j]? = some c) (same : c.SameValue (Cell.integer x))
    (counts : p.Counts) :
    Gives (Interp.finalizeArg l.below.size varlist j p) m ()
      (l.Fills varlist (slots.set j { c with checked := true }) frame i tight) := by
  have real := same.real
  obtain ⟨kind, quote, -, -⟩ := same
  have plain : c.isQuoted = false := by simp [Cell.isQuoted, kind, quote, Cell.integer]
  have solid : c.isBlank = false := by simp [Cell.isBlank, Cell.is, kind, Cell.integer]
  have fits : Query.typeMatches p c = true := by
    have some : c.isNull = false := by simp [Cell.isNull, kind, Cell.integer]
    have type : c.typeKind = .integer := by simp [Cell.typeKind, plain, kind, Cell.integer]
    have shallow : (c.quote == 1) = false := by simp [quote, Cell.integer]
    simp [Query.typeMatches, some, shallow, type, counts.allows]
  unfold Interp.finalizeArg
  refine .asked (fills.cell_run there) ?_
  rw [real, if_neg Bool.false_ne_true, counts.single, plain, Bool.and_false, Bool.false_and,
    if_neg Bool.false_ne_true]
  refine .bind (.pure fills) fun m fills => ?_
  beta_reduce
  rw [solid, Bool.and_false, if_neg Bool.false_ne_true, fits]
  exact fills.check there

/-! ## One argument -/

/-- Nothing but a parameter that evaluates its argument is filled here. -/
theorem fillSlot (fills : l.Fills varlist slots frame i tight m)
    (provides : l.Provides reads op a base p₁ p₂) (e : Engine) {g : Gathering} {j : Nat} {p : Typeset}
    (place : g.index = j + 1) (there : [p₁, p₂][j]? = some p) (counts : p.Counts) :
    ∃ m', l.Fills varlist slots { frame with param := j + 1 } i tight m' ∧
      e.fillSlot (l.call a base varlist) g m =
        e.fillOrdinary (l.call a base varlist) g p none m' := by
  have asked : Query.param base g.index m = .ok p := by
    rw [place]
    exact (provides.still fills.toAt).lays.param_run there
  have special (m : Machine) :
      Engine.fillSpecial (l.call a base varlist) g p none m = .ok none m := by
    rw [Engine.fillSpecial, counts.normal]
    rfl
  obtain ⟨m', ran, fills⟩ := fills.onFrame (fun fr => { fr with param := g.index }) rfl rfl
  rw [place] at fills
  refine ⟨m', fills, ?_⟩
  rw [Engine.fillSlot]
  exact (Interp.lift_bind_ok asked _).trans
    ((Interp.bind_ok ran _).trans (Interp.bind_ok (special m') _))

/-- An operator has its first argument from the output. -/
theorem fromOut (fills : l.Fills varlist slots frame i tight m)
    (provides : l.Provides reads op a base p₁ p₂) (e : Engine) {x : Int}
    (out : frame.out.SameValue (Cell.integer x)) (fresh : frame.out.stale = false)
    (left : frame.nextArgFromOut = true) (enfix : frame.runningEnfix = true)
    (inside : 1 < slots.length) :
    Ends (e.fillSlot (l.call a base varlist) {}) m fun g m' =>
      g = some { index := 2, tight := true } ∧ ∃ v : Cell, v.SameValue (Cell.integer x) ∧
        l.Fills varlist (slots.set 1 v)
          { frame with param := 1, nextArgFromOut := false, out := Cell.staleEnd } i tight m' := by
  have counts := provides.computes.first
  obtain ⟨m, fills, same⟩ := fills.fillSlot provides e (g := {}) (j := 0) rfl rfl counts
  refine .congr same ?_
  unfold Engine.fillOrdinary
  refine .asked fills.asked ?_
  rw [left, if_pos rfl]
  refine .given (fills.onFrame _ rfl rfl) fun m fills => ?_
  have asked : Query.out l.below.size m = .ok frame.out := by
    rw [Query.out, Query.bind_ok fills.asked]
    rfl
  have taken : Gives (e.argFromOut (l.call a base varlist) 1 p₁ false) m (some true)
      (l.Fills varlist (slots.set 1 { frame.out.copied with checked := true })
        { frame with param := 1, nextArgFromOut := false, out := Cell.staleEnd } i tight) := by
    unfold Engine.argFromOut
    refine .asked asked (.asked ((provides.still fills.toAt).without (by decide)) ?_)
    rw [Bool.not_false, if_pos rfl]
    refine .bind (fills.onFrame _ rfl rfl) fun m fills => ?_
    rw [out.real, fresh, Bool.or_false, if_neg Bool.false_ne_true, counts.single,
      if_neg Bool.false_ne_true, counts.normal]
    dsimp only
    rw [if_neg (by simp)]
    refine .bind (fills.store _ inside) fun m fills => ?_
    refine .asked ((provides.still fills.toAt).without (by decide)) (.asked fills.asked ?_)
    refine .bind (fills.finalize (List.getElem?_set_self inside)
      out.copied counts) fun m fills => ?_
    have single : (false || (frame.runningEnfix && !false)) = true := by rw [enfix]; rfl
    rw [List.set_set] at fills
    exact ⟨m, congrArg (fun tight => EStateM.Result.ok (some tight) m) single, fills⟩
  exact .given taken fun m fills =>
    .pure ⟨rfl, _, out.checked, fills⟩

/-- What is evaluated in a frame above leaves the arguments as they were. -/
theorem back (fills : l.Fills varlist slots frame i tight m) (own : frame.varlist = some varlist)
    {j : Nat} {tight' : Bool} {m' : Machine} (left : fills.toAt.above.Left j tight' m') :
    l.Fills varlist slots frame j tight' m' := by
  obtain ⟨s, found, slots⟩ := fills.slots
  have reference : varlist ∈ frame.references := by simp [Frame.references, own]
  exact ⟨fills.toAt.back left,
    ⟨s, left.since.heap _ _ (fills.toAt.above_kept (.inr reference)) found, slots⟩, fills.apart⟩

/-- What an argument from the feed is used for, once it is evaluated. -/
theorem askFeed (fills : l.Fills varlist slots frame i tight m)
    (provides : l.Provides reads op a base p₁ p₂) (e : Engine) {g : Gathering} {j : Nat}
    {p : Typeset} (place : g.index = j + 1) (ordinary : g.refine = .ordinary)
    (there : [p₁, p₂][j]? = some p) (counts : p.Counts) (right : frame.nextArgFromOut = false)
    (more : ((l.cells.drop i).headD Cell.end_).isEnd = false) :
    ∃ m', l.Fills varlist slots { frame with param := j + 1, noLookahead := false } i g.tight m' ∧
      e.fillSlot (l.call a base varlist) g m = (do
        match ← e.evalArgument l.below.size frame.feed with
        | none => pure none
        | some c =>
          Interp.moveCell varlist (j + 1) c
          Interp.finalizeArg l.below.size varlist (j + 1) p
          pure (some { g.next with tight := false })) m' := by
  obtain ⟨m₁, fills, same⟩ := fills.fillSlot provides e place there counts
  obtain ⟨feed, run, here⟩ := fills.read
  have open_ : feed.atBarrier = false := by
    rw [Feed.atBarrier, here.passing, here.value, more]
    rfl
  obtain ⟨m₂, loosened, fills'⟩ := fills.onFrame (fun fr => { fr with noLookahead := false }) rfl rfl
  obtain ⟨m₃, set, fills''⟩ := fills'.loosen g.tight
  refine ⟨m₃, fills'', same.trans ?_⟩
  unfold Engine.fillOrdinary
  rw [ordinary]
  refine (Interp.lift_bind_ok fills.asked _).trans ?_
  rw [if_neg (ne_true_of_eq_false right), counts.single, if_neg Bool.false_ne_true]
  unfold Engine.argFromFeed
  refine (Interp.lift_bind_ok fills.asked _).trans ((Interp.lift_bind_ok run _).trans ?_)
  rw [here.ready, if_neg Bool.false_ne_true]
  refine (Interp.bind_ok loosened _).trans ((Interp.bind_ok set _).trans ?_)
  rw [open_, if_neg Bool.false_ne_true, counts.normal, ← place]
  rfl

/-- An argument is taken from the feed. -/
theorem fromFeed (fills : l.Fills varlist slots frame i tight m)
    (provides : l.Provides reads op a base p₁ p₂) {e : Engine} {g : Gathering} {j k : Nat}
    {p : Typeset} {x : Int} (place : g.index = j + 1) (ordinary : g.refine = .ordinary)
    (there : [p₁, p₂][j]? = some p) (counts : p.Counts) (inside : j + 1 < slots.length)
    (evaluates : l.Evaluates e i k g.tight x) (own : frame.varlist = some varlist)
    (right : frame.nextArgFromOut = false) (more : ((l.cells.drop i).headD Cell.end_).isEnd = false) :
    Ends (e.fillSlot (l.call a base varlist) g) m fun g' m' =>
      g' = some { g.next with tight := false } ∧ ∃ v : Cell, v.SameValue (Cell.integer x) ∧
        l.Fills varlist (slots.set (j + 1) v)
          { frame with param := j + 1, noLookahead := false } k false m' := by
  obtain ⟨m, fills, same⟩ := fills.askFeed provides e place ordinary there counts right more
  have argument : Ends (e.evalArgument l.below.size frame.feed) m fun v m' =>
      (∃ c : Cell, v = some c ∧ c.SameValue (Cell.integer x)) ∧ l.Fills varlist slots
        { frame with param := j + 1, noLookahead := false } k false m' := by
    unfold Engine.evalArgument
    refine .bind (evaluates _ _ fills.toAt) ?_
    rintro v m' ⟨value, left⟩
    exact .given ((fills.back own left).loosen false) fun m fills => .pure ⟨value, fills⟩
  refine .congr same (.bind argument fun v m' => ?_)
  rintro ⟨⟨c, rfl, same⟩, fills⟩
  refine .given (fills.store _ inside) fun m fills => ?_
  refine .given (fills.finalize (List.getElem?_set_self inside) same.copied counts)
    fun m fills => ?_
  rw [List.set_set] at fills
  exact .pure ⟨rfl, _, same.checked, fills⟩

end Fills

/-! ## All arguments -/

/-- A call that began in a frame has its two arguments. -/
def Gathered (l : Level) (a : Action) (frame : Frame) (x y : Int) (i : Nat) (m : Machine) : Prop :=
  ∃ frame' varlist first v w, frame'.Calls a varlist ∧ frame.Like frame' ∧
    frame'.noLookahead = false ∧ v.SameValue (Cell.integer x) ∧ w.SameValue (Cell.integer y) ∧
    l.Fills varlist [first, v, w] frame' i false m

/-- When the first argument of a call is there, the second one is taken from the feed. -/
theorem Fills.gather {e : Engine} {first : Cell} {x y : Int} {j k : Nat} {tight' left : Bool}
    (provides : l.Provides reads op a base p₁ p₂) {frame' : Frame}
    (one : Ends (e.fillSlot (l.call a base varlist) {}) m fun g m' =>
      g = some { index := 2, tight := left } ∧ ∃ v : Cell, v.SameValue (Cell.integer x) ∧
        l.Fills varlist [first, v, Cell.null] frame' j tight' m')
    (evaluates : l.Evaluates e j k left y) (own : frame'.varlist = some varlist)
    (right : frame'.nextArgFromOut = false)
    (more : ((l.cells.drop j).headD Cell.end_).isEnd = false) (rounds : Nat) :
    Ends (e.fillSlots (l.call a base varlist) (rounds + 3) {}) m fun threw m' => threw = false ∧
      ∃ v w : Cell, v.SameValue (Cell.integer x) ∧ w.SameValue (Cell.integer y) ∧
        l.Fills varlist [first, v, w] { frame' with param := 2, noLookahead := false } k false
          m' := by
  rw [Engine.fillSlots, if_neg (by simp [call])]
  refine .bind one fun g m => ?_
  rintro ⟨rfl, v, same, fills⟩
  dsimp only
  rw [Engine.fillSlots, if_neg (by simp [call])]
  refine .bind (fills.fromFeed provides (j := 1) rfl rfl rfl provides.computes.second (by simp)
    evaluates own right more) fun g m => ?_
  rintro ⟨rfl, w, same', fills⟩
  dsimp only
  rw [Engine.fillSlots, if_pos (by simp [call, Gathering.next])]
  have none : Engine.nextPickup (l.call a base varlist) m = .ok none m := by
    rw [Engine.nextPickup, Interp.bind_ok (by rfl : Interp.stackHeight m = .ok m.stack.size m),
      if_pos (by rw [fills.since.stack]; exact Nat.le_refl _)]
    rfl
  exact .after none (.pure ⟨rfl, v, w, same, same', fills⟩)

/-- A call whose slots can be filled goes on to the action. -/
theorem Fills.process (fills : l.Fills varlist slots frame i tight m)
    (provides : l.Provides reads op a base p₁ p₂) (calls : frame.Calls a varlist)
    (plain : frame.prefill = .params) {e : Engine} {x y : Int} {j : Nat} {origin : Frame}
    (filled : Ends (e.fillSlots (l.call a base varlist) e.rounds {}) m fun threw m' =>
      threw = false ∧ l.Gathered a origin x y j m') :
    Ends (Engine.processAction e l.below.size) m fun step m' =>
      step = .dispatch ∧ l.Gathered a origin x y j m' := by
  have lays := (provides.still fills.toAt).lays
  have fulfilled : Ends (Engine.fulfill e l.below.size) m fun threw m' =>
      threw = false ∧ l.Gathered a origin x y j m' := by
    unfold Engine.fulfill
    refine .asked fills.asked ?_
    rw [calls.phase]
    refine .after rfl (.asked lays.underlying ?_)
    rw [calls.varlist]
    refine .after rfl (.asked lays.count ?_)
    rw [fills.base, plain, calls.typed]
    refine .bind filled fun threw m => ?_
    rintro ⟨rfl, frame', varlist, first, v, w, calls, like, loose, same, same', fills⟩
    refine .given (fills.onFrame _ rfl rfl) fun m fills =>
      .pure ⟨rfl, _, _, _, _, _, ?_, ?_, ?_, same, same', fills⟩
    · exact { calls with typed := rfl }
    · exact { like with }
    · exact loose
  unfold Engine.processAction
  refine .bind fulfilled fun threw m => ?_
  rintro ⟨rfl, frame', varlist, first, v, w, calls, like, loose, same, same', fills⟩
  refine .asked fills.asked ?_
  rw [calls.whole]
  exact .pure ⟨rfl, _, _, _, _, _, calls, like, loose, same, same', fills⟩

section

variable {binding : Binding} {label : Option SymbolId} {first : Cell} {e : Engine} {x y : Int}
  {j k : Nat}

/-- An operator has what is on its left, and takes a single operand. -/
theorem Fills.operator (fills : l.Fills varlist [first, Cell.null, Cell.null]
      (opening frame a varlist binding label true) i tight m)
    (provides : l.Provides reads op a base p₁ p₂) (idle : frame.Idle)
    (out : frame.out.SameValue (Cell.integer x)) (fresh : frame.out.stale = false)
    (evaluates : l.Evaluates e i k true y)
    (more : ((l.cells.drop i).headD Cell.end_).isEnd = false) (rounds : 3 ≤ e.rounds) :
    Ends (Engine.processAction e l.below.size) m fun step m' =>
      step = .dispatch ∧ l.Gathered a frame x y k m' := by
  obtain ⟨n, long⟩ := Nat.exists_eq_add_of_le' rounds
  refine fills.process provides ⟨rfl, rfl, rfl, rfl, idle.whole, idle.typed⟩ rfl ?_
  rw [long]
  have one := fills.fromOut provides e out fresh rfl rfl (by simp)
  obtain ⟨threw, m', ran, rfl, v, w, same, same', fills⟩ :=
    Fills.gather provides one evaluates rfl rfl more n
  refine ⟨false, m', ran, rfl, _, _, _, _, _, ?_, ?_, ?_, same, same', fills⟩
  · exact ⟨rfl, rfl, rfl, rfl, idle.whole, idle.typed⟩
  · exact ⟨rfl, rfl⟩
  · rfl

/-- An action before its arguments takes both from the feed. -/
theorem Fills.call (fills : l.Fills varlist [first, Cell.null, Cell.null]
      (opening frame a varlist binding label false) i tight m)
    (provides : l.Provides reads op a base p₁ p₂) (idle : frame.Idle)
    (evaluates : l.Evaluates e i j false x) (evaluates' : l.Evaluates e j k false y)
    (more : ((l.cells.drop i).headD Cell.end_).isEnd = false)
    (more' : ((l.cells.drop j).headD Cell.end_).isEnd = false) (rounds : 3 ≤ e.rounds) :
    Ends (Engine.processAction e l.below.size) m fun step m' =>
      step = .dispatch ∧ l.Gathered a frame x y k m' := by
  obtain ⟨n, long⟩ := Nat.exists_eq_add_of_le' rounds
  refine fills.process provides ⟨rfl, rfl, rfl, rfl, idle.whole, idle.typed⟩ rfl ?_
  rw [long]
  have one := fills.fromFeed provides (g := {}) (j := 0) rfl rfl rfl provides.computes.first
    (by simp) evaluates rfl rfl more
  obtain ⟨threw, m', ran, rfl, v, w, same, same', fills⟩ :=
    Fills.gather provides one evaluates' rfl rfl more' n
  refine ⟨false, m', ran, rfl, _, _, _, _, _, ?_, ?_, ?_, same, same', fills⟩
  · exact ⟨rfl, rfl, rfl, rfl, idle.whole, idle.typed⟩
  · exact ⟨rfl, rfl⟩
  · rfl

end

/-! ## The action -/

/-- The slots are freed at the end of a call. -/
theorem Fills.release (fills : l.Fills varlist slots frame i tight m) :
    Gives (Interp.releaseVarlist varlist) m () (l.At frame i tight) := by
  obtain ⟨s, live, unmanaged, -⟩ := fills.slots
  have alive : Query.isLive varlist m = .ok true := Query.isLive_run live
  have owned : Query.hasFlag varlist Flags.managed m = .ok false :=
    Query.hasFlag_eq_ok.mpr ⟨s, live, unmanaged⟩
  unfold Interp.releaseVarlist
  refine .asked alive ?_
  rw [if_pos rfl]
  refine .asked owned ?_
  rw [if_neg Bool.false_ne_true]
  refine ⟨_, rfl, fills.frames, fills.feeds, fills.fed, fills.base, ?_⟩
  have others {id : SeriesId} (apart : id ≠ varlist) :
      (m.heap.dealloc varlist).get? id = m.heap.get? id := by
    rw [Heap.get?_dealloc, if_neg apart.symm]
  exact
    { fills.since with
      unmarked := fun id s found => by
        by_cases same : id = varlist
        · change (m.heap.dealloc varlist).get? id = some s at found
          rw [Heap.get?_dealloc, if_pos same.symm] at found
          cases found
        · exact fills.since.unmarked id s ((others same).symm.trans found)
      heap := fun id s kept found =>
        (others (fills.apart id s kept found)).trans (fills.since.heap id s kept found) }

theorem Fills.handles (fills : l.Fills varlist slots frame i tight m) (f : FrameId) :
    Gives (Interp.releaseHandles f) m () (l.Fills varlist slots frame i tight) :=
  ⟨_, rfl, { fills with since := { fills.since with } }⟩

/-- A frame whose call has ended. -/
def ending (frame : Frame) : Frame :=
  { frame with
    runningEnfix := false, nextArgFromOut := false, fulfillOnly := false, doingPickups := false,
    typecheckOnly := false, called := none, phase := none, varlist := none, binding := .unbound,
    prefill := .params }

theorem Fills.drop (fills : l.Fills varlist slots frame i tight m)
    (own : frame.varlist = some varlist) :
    Gives (Interp.dropAction l.below.size) m () (l.At (ending frame) i tight) := by
  have release : ∀ m, l.Fills varlist slots frame i tight m → Gives (do
      Interp.releaseHandles l.below.size
      Interp.releaseVarlist varlist
      Interp.modifyFrame l.below.size ending) m () (l.At (ending frame) i tight) :=
    fun m fills => .bind (fills.handles _) fun m fills =>
      .bind fills.release fun m at_ => at_.onFrame ending rfl rfl
  unfold Interp.dropAction
  refine .asked fills.asked ?_
  rw [own]
  dsimp only
  split
  · exact .bind (fills.onFeed _ fun feed reads => { reads with passing := rfl }) release
  · exact release m fills

/-- A call that has its result ends. -/
theorem Fills.finish (fills : l.Fills varlist slots frame i tight m)
    (provides : l.Provides reads op a base p₁ p₂) (calls : frame.Calls a varlist) :
    Gives (Engine.finishAction l.below.size) m .postSwitch (l.At (ending frame) i tight) := by
  have requoted : Engine.requote l.below.size m = .ok () m := by
    obtain ⟨s, found, -⟩ := (provides.still fills.toAt).plain
    rw [Engine.requote, Interp.lift_bind_ok fills.asked]
    simp only [calls.called, calls.plain]
    refine (Interp.lift_bind_ok (Query.hasFlag_eq_ok.mpr ⟨s, found, rfl⟩) _).trans ?_
    rfl
  have height (m : Machine) : Interp.stackHeight m = .ok m.stack.size m := rfl
  unfold Engine.finishAction
  refine .after requoted (.after (height m) ?_)
  unfold Engine.finishStack
  refine .asked fills.asked (.after (height m) ?_)
  rw [if_pos (by rw [fills.since.stack, fills.base])]
  exact .bind (fills.drop calls.varlist) fun m at_ => .pure at_

/-- The value of a frame is an integer. -/
structure Has (frame frame' : Frame) (x : Int) : Prop where
  like : frame.Like frame'
  idle : frame'.Idle
  value : frame'.out.SameValue (Cell.integer x)
  fresh : frame'.out.stale = false

theorem Gathered.dispatch {x y : Int} (gathered : l.Gathered a frame x y i m)
    (provides : l.Provides reads op a base p₁ p₂)
    (fits : Bits.fits64 (op.on x y) = true) (e : Engine) :
    Ends (Engine.dispatchAction Library.dispatch e l.below.size) m fun step m' =>
      step = .postSwitch ∧ ∃ frame', Has frame frame' (op.on x y) ∧ frame'.noLookahead = false ∧
        l.At frame' i false m' := by
  obtain ⟨frame', varlist, first, v, w, calls, like, loose, same, same', fills⟩ := gathered
  have visible : Query.actionHas a Flags.invisible m = .ok false :=
    (provides.still fills.toAt).without (by decide)
  unfold Engine.dispatchAction
  refine .asked fills.asked ?_
  rw [calls.phase]
  refine .after rfl (.asked visible ?_)
  rw [Bool.not_false, if_pos rfl]
  refine .given (fills.onFrame _ rfl rfl) fun m fills => ?_
  obtain ⟨s, d, found, role, runs⟩ := (provides.still fills.toAt).runs
  have asked : Query.dispatcher a m = .ok d := by
    rw [Query.dispatcher, Query.bind_ok (Query.series_eq_ok.mpr found), role]
    rfl
  refine .asked asked ?_
  rw [runs e l.below.size]
  have ran : Gives (Library.arithmetic op.operation e l.below.size) m .out
      (l.Fills varlist [first, v, w]
        { frame' with out := (Cell.integer (op.on x y)).copied } i false) := by
    unfold Library.arithmetic
    refine .asked (fills.arg_run calls.varlist rfl) (.asked (fills.arg_run calls.varlist rfl) ?_)
    refine .after (FormulaOp.apply_run same same' fits m) ?_
    exact .bind (fills.onFrame _ rfl rfl) fun m fills => .pure fills
  refine .given ran fun m fills => ?_
  refine .given (fills.onFrame _ rfl rfl) fun m fills => ?_
  obtain ⟨m', finished, at_⟩ := fills.finish provides { calls with }
  refine ⟨_, m', finished, rfl, _, ?_, ?_, at_⟩
  · exact ⟨{ like with }, ⟨rfl, rfl, rfl⟩, ⟨rfl, rfl, rfl, rfl⟩, rfl⟩
  · exact loose

end Level

end Homoicon
