import Homoicon.Proofs.Expressions.Values
import Homoicon.Proofs.Stacks.Delivering
import Homoicon.Proofs.Writing.Watching

/-!
# What formulas come to

A formula comes to its value, unless the result of an operation leaves the 64 bits or there is no
room for a frame.  The first of these failures, from left to right, ends the evaluation in a machine
from which the error can be handed back with its report.
-/

namespace Homoicon

open Interp (Gives Ends)

/-! ## Outcomes -/

/-- The result of an operation, which must fit the 64 bits. -/
def FormulaOp.checked (op : FormulaOp) (x y : Int) : Except Cause Int :=
  if Bits.fits64 (op.on x y) then .ok (op.on x y) else .error .overflow

theorem FormulaOp.checked_eq_ok {op : FormulaOp} {x y z : Int} :
    op.checked x y = .ok z ↔ Bits.fits64 (op.on x y) = true ∧ z = op.on x y := by
  rw [checked]
  cases Bits.fits64 (op.on x y) <;> simp [eq_comm (a := z)]

theorem FormulaOp.checked_eq_error {op : FormulaOp} {x y : Int} {cause : Cause} :
    op.checked x y = .error cause ↔ Bits.fits64 (op.on x y) = false ∧ cause = .overflow := by
  rw [checked]
  cases Bits.fits64 (op.on x y) <;> simp [eq_comm (a := cause)]

theorem FormulaOp.integers_overflow {op : FormulaOp} {x y : Int}
    (large : Bits.fits64 (op.on x y) = false) :
    Arithmetic.integers op.operation x y = .error (.error Cause.overflow.error) := by
  cases op <;>
    simp only [FormulaOp.on] at large <;>
    simp only [FormulaOp.operation, Arithmetic.integers, Arithmetic.checked, large] <;> rfl

namespace Formula

variable {chain isOpen : Bool} {e : Formula chain isOpen} {room : Nat}

/-- What a formula comes to where there is always room: an operation has both its results, from left
to right, and the first one that leaves the 64 bits is the end. -/
def result {chain isOpen : Bool} : Formula chain isOpen → Except Cause Int
  | integer i => .ok i
  | group inner => inner.result
  | infix_ left op right => do op.checked (← left.result) (← right.result)
  | call op first second => do op.checked (← first.result) (← second.result)

/-- What something evaluated in a frame above comes to with room for some frames. -/
def raised (room : Nat) (inner : Nat → Except Cause Int) : Except Cause Int :=
  match room with
  | 0 => .error .stackOverflow
  | room + 1 => inner room

/-- What a formula comes to with room for some frames above the one that evaluates it. -/
def outcome {chain isOpen : Bool} : Formula chain isOpen → Nat → Except Cause Int
  | integer i, _ => .ok i
  | group inner, room => raised room inner.outcome
  | infix_ left op right, room => do
      op.checked (← left.outcome room) (← raised room right.outcome)
  | call op first second, room => do
      op.checked (← raised room first.outcome) (← raised room second.outcome)

theorem raised_eq_ok {inner : Nat → Except Cause Int} {x : Int} :
    raised room inner = .ok x ↔ ∃ n, room = n + 1 ∧ inner n = .ok x := by
  cases room <;> simp [raised]

theorem bind_checked_eq_ok {op : FormulaOp} {a b : Except Cause Int} {z : Int} :
    (do op.checked (← a) (← b)) = .ok z ↔
      ∃ x y, a = .ok x ∧ b = .ok y ∧ Bits.fits64 (op.on x y) = true ∧ z = op.on x y := by
  cases a <;> cases b <;> simp [Bind.bind, Except.bind, FormulaOp.checked_eq_ok]

theorem bind_checked_eq_error {op : FormulaOp} {a b : Except Cause Int} {cause : Cause} :
    (do op.checked (← a) (← b)) = .error cause ↔ a = .error cause ∨ ∃ x, a = .ok x ∧
      (b = .error cause ∨
        ∃ y, b = .ok y ∧ Bits.fits64 (op.on x y) = false ∧ cause = .overflow) := by
  cases a <;> cases b <;> simp [Bind.bind, Except.bind, FormulaOp.checked_eq_error]

/-- A formula whose operations all fit, and for whose frames there is room, comes to its value. -/
theorem outcome_eq_ok {x : Int} :
    e.outcome room = .ok x ↔ e.Fits ∧ e.depth ≤ room ∧ x = e.value := by
  induction e generalizing room x with
  | integer i => simp [outcome, Fits, depth, value, eq_comm]
  | group inner ih =>
      simp only [outcome, raised_eq_ok, ih, Fits, depth, value]
      constructor
      · rintro ⟨n, rfl, fits, deep, rfl⟩
        exact ⟨fits, by omega, rfl⟩
      · rintro ⟨fits, deep, rfl⟩
        exact ⟨room - 1, by omega, fits, by omega, rfl⟩
  | infix_ left op right first second =>
      simp only [outcome, bind_checked_eq_ok, raised_eq_ok, first, second, Fits, depth, value]
      constructor
      · rintro ⟨_, _, ⟨fits, deep, rfl⟩, ⟨n, rfl, fits', deep', rfl⟩, fits'', rfl⟩
        exact ⟨⟨fits, fits', fits''⟩, by omega, rfl⟩
      · rintro ⟨⟨fits, fits', fits''⟩, deep, rfl⟩
        exact ⟨_, _, ⟨fits, by omega, rfl⟩, ⟨room - 1, by omega, fits', by omega, rfl⟩, fits'', rfl⟩
  | call op first second ih ih' =>
      simp only [outcome, bind_checked_eq_ok, raised_eq_ok, ih, ih', Fits, depth, value]
      constructor
      · rintro ⟨_, _, ⟨n, rfl, fits, deep, rfl⟩, ⟨k, same, fits', deep', rfl⟩, fits'', rfl⟩
        exact ⟨⟨fits, fits', fits''⟩, by omega, rfl⟩
      · rintro ⟨⟨fits, fits', fits''⟩, deep, rfl⟩
        exact ⟨_, _, ⟨room - 1, by omega, fits, by omega, rfl⟩,
          ⟨room - 1, by omega, fits', by omega, rfl⟩, fits'', rfl⟩

/-- Without room for its frames a formula comes to its result or finds no room. -/
theorem outcome_eq_or (e : Formula chain isOpen) (room : Nat) :
    e.outcome room = e.result ∨ room < e.depth ∧ e.outcome room = .error .stackOverflow := by
  have nested {chain isOpen : Bool} {inner : Formula chain isOpen}
      (ih : ∀ room, inner.outcome room = inner.result ∨
        room < inner.depth ∧ inner.outcome room = .error .stackOverflow) (room : Nat) :
      raised room inner.outcome = inner.result ∨
        room < inner.depth + 1 ∧ raised room inner.outcome = .error .stackOverflow := by
    cases room with
    | zero => exact .inr ⟨Nat.succ_pos _, rfl⟩
    | succ room => exact (ih room).imp_right (And.imp_left Nat.succ_lt_succ)
  have both {op : FormulaOp} {a b x y : Except Cause Int} {p q : Prop}
      (left : a = x ∨ p ∧ a = .error .stackOverflow)
      (right : b = y ∨ q ∧ b = .error .stackOverflow) :
      (do op.checked (← a) (← b)) = (do op.checked (← x) (← y)) ∨
        (p ∨ q) ∧ (do op.checked (← a) (← b)) = .error .stackOverflow := by
    obtain rfl | ⟨holds, rfl⟩ := left
    · obtain rfl | ⟨holds, rfl⟩ := right
      · exact .inl rfl
      · cases a with
        | error cause => exact .inl rfl
        | ok x => exact .inr ⟨.inr holds, rfl⟩
    · exact .inr ⟨.inl holds, rfl⟩
  induction e generalizing room with
  | integer i => exact .inl rfl
  | group inner ih => exact nested ih room
  | infix_ left op right first second =>
      refine (both (first room) (nested second room)).imp_right (And.imp_left fun deep => ?_)
      simp only [depth]
      omega
  | call op first second ih ih' =>
      refine (both (nested ih room) (nested ih' room)).imp_right (And.imp_left fun deep => ?_)
      simp only [depth]
      omega

end Formula

/-! ## Runs that fail -/

/-- An error raised in this machine can be handed back with its report. -/
def Machine.Delivers (m : Machine) : Prop := m.Slotted ∧ ∀ height, ∃ text, m.Near height text

/-- A computation raises an error, in a machine from which it can be handed back. -/
def Interp.Errs {α : Type} (x : Interp α) (m : Machine) (cause : Cause) : Prop :=
  ∃ n, x m = .error (.error cause.error) n ∧ n.Delivers

namespace Interp.Errs

variable {α β : Type} {m : Machine} {x : Interp α} {f : α → Interp β} {a : α} {cause : Cause}
  {middle : Machine → Prop} {found : α → Machine → Prop}

theorem first (fails : Errs x m cause) : Errs (x >>= f) m cause := by
  obtain ⟨n, failed, delivers⟩ := fails
  exact ⟨n, bind_error failed f, delivers⟩

theorem bind (ends : Ends x m found) (rest : ∀ a next, found a next → Errs (f a) next cause) :
    Errs (x >>= f) m cause := by
  obtain ⟨a, next, ran, holds⟩ := ends
  rw [Errs, bind_ok ran]
  exact rest a next holds

theorem given (gives : Gives x m a middle) (rest : ∀ next, middle next → Errs (f a) next cause) :
    Errs (x >>= f) m cause := by
  obtain ⟨next, ran, holds⟩ := gives
  rw [Errs, bind_ok ran]
  exact rest next holds

theorem asked {q : Query α} (answer : q m = .ok a) (rest : Errs (f a) m cause) :
    Errs ((liftM q : Interp α) >>= f) m cause := by
  rwa [Errs, lift_bind_ok answer]

theorem after {m' : Machine} (ran : x m = .ok a m') (rest : Errs (f a) m' cause) :
    Errs (x >>= f) m cause := by
  rwa [Errs, bind_ok ran]

theorem congr {y : Interp α} {m' : Machine} (same : x m = y m') (fails : Errs y m' cause) :
    Errs x m cause := by
  rwa [Errs, same]

end Interp.Errs

open Interp (Errs)

theorem Engine.Leads.fails {dispatch : Dispatch} {left count : Nat} {f : FrameId} {s s' : Step}
    {m : Machine} {post : Machine → Prop} {cause : Cause}
    (leads : Leads dispatch left f count s s' m post)
    (rest : ∀ m', post m' → Errs (Engine.runSteps dispatch left f s') m' cause) :
    Errs (Engine.runSteps dispatch (left + count) f s) m cause := by
  obtain ⟨m', ran, holds⟩ := leads
  rw [Errs, ran]
  exact rest m' holds

/-! ## Cells that can be written -/

/-- A cell whose text can be given: an integer, a word, or a group of such cells. -/
inductive Heap.Legible (h : Heap) : Cell → Prop where
  | integer {c : Cell} : c.IsInteger → Legible h c
  | word {c : Cell} : c.is .word = true → Legible h c
  | group {c : Cell} {id : SeriesId} {index : Nat} {held : Array Cell} : c.is .group = true →
      c.payload = .series id index → h.cells? id = some held → (∀ d ∈ held, Legible h d) →
      Legible h c

namespace Heap.Legible

variable {h h' : Heap} {kept : SeriesId → Prop} {c : Cell} {m : Machine}

theorem keep (closed : h.Closed kept)
    (same : ∀ id s, kept id → h.get? id = some s → h'.get? id = some s) (within : c.Within kept)
    (legible : h.Legible c) : h'.Legible c := by
  induction legible with
  | integer integer => exact .integer integer
  | word word => exact .word word
  | group group payload cells _ ih =>
      obtain ⟨s, found, content⟩ := Heap.cells?_eq_some.mp cells
      have here := within.series (by rw [Cell.seriesId?, payload])
      exact .group group payload (Heap.cells?_eq_some.mpr ⟨s, same _ _ here found, content⟩)
        fun d member => ih d member (closed.within here found content d member)

theorem items {write : Mold.Writer} {cells : List Cell}
    (each : ∀ c ∈ cells, ∀ w, ∃ w', write c w m = .ok w') (first broke : Bool) (w : Molder) :
    ∃ answer, Mold.blockItems write cells first broke w m = .ok answer := by
  induction cells generalizing first broke w with
  | nil => exact ⟨_, rfl⟩
  | cons c cells ih =>
      obtain ⟨w', wrote⟩ := each c (List.mem_cons_self ..)
        (if c.newline then w.newline else if first then w else w.write " ")
      obtain ⟨answer, rest⟩ := ih (fun d member => each d (List.mem_cons_of_mem _ member)) false
        (broke || c.newline) w'
      exact ⟨answer, (Query.bind_ok wrote _).trans rest⟩

theorem array {write : Mold.Writer} {id : SeriesId} {held : Array Cell} (index : Nat)
    (cells : m.heap.cells? id = some held) (each : ∀ c ∈ held, ∀ w, ∃ w', write c w m = .ok w')
    (w : Molder) : ∃ w', Mold.array write .group id index w m = .ok w' := by
  rw [Mold.array_eq]
  split
  · exact ⟨_, rfl⟩
  · rw [Query.bind_ok (Query.cells_iff.mpr cells)]
    have each' : ∀ c ∈ held.toList.drop index, ∀ w, ∃ w', write c w m = .ok w' := fun c member =>
      each c (Array.mem_toList_iff.mp (List.mem_of_mem_drop member))
    obtain ⟨inner, wrote⟩ := items each' true false _
    exact ⟨_, Query.bind_ok wrote _⟩

/-- The text of such a cell is given, however deep it is nested. -/
theorem writes (legible : m.heap.Legible c) (depth : Nat) (w : Molder) :
    ∃ w', Mold.cell depth c w m = .ok w' := by
  have flat {c : Cell} {k : Kind} (here : c.is k = true) (plain : k ≠ .quoted) :
      c.quoteDepth = 0 := by
    obtain ⟨unquoted, rfl⟩ := Cell.is_iff.mp here
    unfold Cell.quoteDepth
    cases c.payload <;> simp [unquoted, plain]
  induction legible generalizing depth w with
  | integer integer =>
      obtain ⟨i, newline, rfl⟩ := integer
      cases depth <;> exact ⟨_, rfl⟩
  | @word c word =>
      cases depth with
      | zero => exact ⟨_, rfl⟩
      | succ depth =>
          simp only [Mold.cell, flat word (by decide), Mold.scalarText?, (Cell.is_iff.mp word).2,
            Mold.compound]
          cases c.payload with
          | varargs source => cases source <;> exact ⟨_, rfl⟩
          | _ => exact ⟨_, rfl⟩
  | @group c id index held group payload cells _ ih =>
      cases depth with
      | zero => exact ⟨_, rfl⟩
      | succ depth =>
          obtain ⟨w', wrote⟩ := array index cells (fun d member w => ih d member depth w) w
          refine ⟨w', ?_⟩
          simp only [Mold.cell, flat group (by decide), Mold.scalarText?, (Cell.is_iff.mp group).2,
            payload, Mold.compound]
          exact wrote

theorem molds (legible : m.heap.Legible c) : ∃ text, Query.mold c m = .ok text := by
  obtain ⟨w, wrote⟩ := legible.writes (Mold.nesting m) {}
  exact ⟨w.out, by rw [Query.mold]; exact (Query.bind_ok wrote _).trans rfl⟩

theorem molds_each {cells : List Cell} (each : ∀ c ∈ cells, m.heap.Legible c) :
    ∃ parts, List.Forall₂ (fun c text => Query.mold c m = .ok text) cells parts := by
  induction cells with
  | nil => exact ⟨[], .nil⟩
  | cons c cells ih =>
      obtain ⟨text, mold⟩ := (each c (List.mem_cons_self ..)).molds
      obtain ⟨parts, rest⟩ := ih fun d member => each d (List.mem_cons_of_mem _ member)
      exact ⟨text :: parts, .cons mold rest⟩

/-- The cells of a group whose text can be given. -/
theorem inside {id : SeriesId} {held : Array Cell} (legible : h.Legible c)
    (group : c.is .group = true) (series : c.seriesId? = some id) (cells : h.cells? id = some held) :
    ∀ d ∈ held, h.Legible d := by
  have kind := (Cell.is_iff.mp group).2
  cases legible with
  | integer integer => cases integer.kind.symm.trans kind
  | word word => cases (Cell.is_iff.mp word).2.symm.trans kind
  | group _ payload cells' each =>
      rw [Cell.seriesId?, payload] at series
      obtain rfl := Option.some.inj series
      obtain rfl := Option.some.inj (cells.symm.trans cells')
      exact each

end Heap.Legible

/-! ## Machines that can report -/

/-- The arguments of the call that a frame runs are an array. -/
def Heap.Backs (h : Heap) (frame : Frame) : Prop :=
  ∀ args, frame.varlist = some args → ∃ held, h.cells? args = some held

theorem Heap.backs_of_none {h : Heap} {frame : Frame} (freed : frame.varlist = none) :
    h.Backs frame := fun _ own => nomatch freed.symm.trans own

namespace Level

variable {reads : Places} {l : Level} {frame : Frame} {i : Nat} {tight : Bool} {m : Machine}
  {chain isOpen : Bool} {operator : Prop} {cause : Cause} {room : Nat}

/-- A level of which everything can be reported: the code, and the calls of the frames below. -/
structure Sound (l : Level) : Prop where
  legible : ∀ c ∈ l.cells, l.start.heap.Legible c
  backed : ∀ frame ∈ l.below, l.start.heap.Backs frame

namespace At

theorem backed (at_ : l.At frame i tight m) (sound : l.Sound) (own : m.heap.Backs frame) :
    ∀ fr ∈ m.frames, m.heap.Backs fr := by
  intro fr member args varlist
  rw [at_.frames] at member
  rcases Array.mem_push.mp member with below | rfl
  · obtain ⟨held, cells⟩ := sound.backed fr below args varlist
    obtain ⟨s, found, content⟩ := Heap.cells?_eq_some.mp cells
    have kept : l.Kept args :=
      Refers.kept (.inl (.inl ⟨fr, below, by simp [Frame.references, varlist]⟩))
    exact ⟨held, Heap.cells?_eq_some.mpr ⟨s, at_.since.heap _ _ kept found, content⟩⟩
  · exact own args varlist

theorem legible (at_ : l.At frame i tight m) (sound : l.Sound) : ∀ c ∈ l.cells, m.heap.Legible c :=
  fun c member => (sound.legible c member).keep l.closed at_.since.heap (l.within c member)

theorem sound_above (at_ : l.At frame i tight m) (sound : l.Sound) (own : m.heap.Backs frame) :
    at_.above.Sound :=
  ⟨at_.legible sound, at_.backed sound own⟩

/-- An error can be reported at any place of the code, also while further feeds are open. -/
theorem delivers (at_ : l.At frame i tight m) (sound : l.Sound) (own : m.heap.Backs frame)
    (inside : i ≤ l.cells.length) {feeds : Array Feed}
    (more : feeds[l.lower.size]? = m.feeds[l.lower.size]?) : { m with feeds }.Delivers := by
  refine ⟨fun fr member args s varlist found => ?_, fun height => ?_⟩
  · obtain ⟨held, cells⟩ := at_.backed sound own fr member args varlist
    obtain ⟨s', found', content⟩ := Heap.cells?_eq_some.mp cells
    obtain rfl := Option.some.inj (found.symm.trans found')
    exact ⟨held, content⟩
  · by_cases above : m.frames.size ≤ height
    · exact ⟨none, .outside above⟩
    · obtain ⟨feed, opened, here⟩ := at_.feeds
      have read : feeds[frame.feed]? = some feed := by
        rw [at_.fed, more, opened, Array.getElem?_push_size]
      have top : m.frames.back? = some frame := by rw [at_.frames, Array.back?_push]
      have halts : { m with feeds }.Halts l.cells.toArray (min (frame.exprIndex.getD i) i) i :=
        ⟨frame, feed, l.array, top, read, by rw [Feed.position?, here.source]; rfl,
          Query.cells_iff.mpr at_.cells, rfl⟩
      let near := l.cells.toArray.extract (min (frame.exprIndex.getD i) i)
        (max (min (i + 1) l.cells.toArray.size) (min (frame.exprIndex.getD i) i))
      have part : ∀ c ∈ near.toList, c ∈ l.cells := by
        intro c member
        rw [Array.toList_extract, List.extract_eq_take_drop] at member
        exact List.mem_of_mem_drop (List.mem_of_mem_take member)
      have legible : ∀ c ∈ near.toList, ({ m with feeds } : Machine).heap.Legible c :=
        fun c member => at_.legible sound c (part c member)
      obtain ⟨parts, texts⟩ := Heap.Legible.molds_each legible
      exact ⟨_, .code (Nat.lt_of_not_le above) halts (by simp; omega) texts⟩

end At

theorem Fills.backs {varlist : SeriesId} {slots : List Cell}
    (fills : l.Fills varlist slots frame i tight m) (own : frame.varlist = some varlist) :
    m.heap.Backs frame := by
  intro args same
  obtain rfl := Option.some.inj (own.symm.trans same)
  obtain ⟨s, found, -, content⟩ := fills.slots
  exact ⟨_, Heap.cells?_eq_some.mpr ⟨s, found, content⟩⟩

theorem Placed.inside {e : Formula chain isOpen} (placed : l.Placed reads e i operator) :
    i + e.width ≤ l.cells.length := by
  obtain ⟨cells, here, spells⟩ := placed.spells
  have length := congrArg List.length here
  have width := spells.length
  obtain ⟨c, rest, rfl, -⟩ := spells.begins
  simp only [List.length_drop, List.length_append, List.length_cons] at length width
  omega

/-! ## Arguments that fail -/

/-- The evaluation of an argument of a call at a position of a level fails. -/
def Refuses (l : Level) (e : Engine) (i : Nat) (tight : Bool) (cause : Cause) : Prop :=
  ∀ frame m, l.At frame i tight m → m.heap.Backs frame →
    Errs (e.evalSubframe l.below.size true) m cause

/-- In a machine that has all the frames it may have, there is no room for an argument. -/
theorem At.full (at_ : l.At frame i tight m) (sound : l.Sound) (own : m.heap.Backs frame)
    (inside : i ≤ l.cells.length) (full : m.frames.size = m.config.frameLimit) (e : Engine) :
    Errs (e.evalSubframe l.below.size true) m .stackOverflow := by
  have pushed : Errs (Interp.pushFrame { feed := frame.feed, fulfillingArg := true }) m
      .stackOverflow :=
    ⟨m, Interp.pushFrame_full _ (full ▸ m.config.isFull_frameLimit), (at_.delivers sound own inside rfl : { m with feeds := m.feeds }.Delivers)⟩
  exact .asked at_.asked pushed.first.first

namespace Fills

variable {op : FormulaOp} {a : Action} {base varlist : SeriesId} {p₁ p₂ : Typeset}
  {slots : List Cell} {e : Engine} {j k : Nat} {binding : Binding} {label : Option SymbolId}
  {first : Cell} {x : Int}

theorem refused (fills : l.Fills varlist slots frame i tight m)
    (provides : l.Provides reads op a base p₁ p₂) {g : Gathering} {p : Typeset}
    (place : g.index = j + 1) (ordinary : g.refine = .ordinary) (there : [p₁, p₂][j]? = some p)
    (counts : p.Counts) (refuses : l.Refuses e i g.tight cause)
    (own : frame.varlist = some varlist) (right : frame.nextArgFromOut = false)
    (more : ((l.cells.drop i).headD Cell.end_).isEnd = false) :
    Errs (e.fillSlot (l.call a base varlist) g) m cause := by
  obtain ⟨m', fills, same⟩ := fills.askFeed provides e place ordinary there counts right more
  exact .congr same (refuses _ _ fills.toAt (fills.backs own)).first.first

/-- A call whose slots cannot be filled fails. -/
theorem abandoned (fills : l.Fills varlist slots frame i tight m)
    (provides : l.Provides reads op a base p₁ p₂) (calls : frame.Calls a varlist)
    (plain : frame.prefill = .params)
    (failed : Errs (e.fillSlots (l.call a base varlist) e.rounds {}) m cause) :
    Errs (Engine.processAction e l.below.size) m cause := by
  have lays := (provides.still fills.toAt).lays
  have fulfilled : Errs (Engine.fulfill e l.below.size) m cause := by
    unfold Engine.fulfill
    refine .asked fills.asked ?_
    rw [calls.phase]
    refine .after rfl (.asked lays.underlying ?_)
    rw [calls.varlist]
    refine .after rfl (.asked lays.count ?_)
    rw [fills.base, plain, calls.typed]
    exact failed.first
  exact fulfilled.first

/-- The second argument of a call fails. -/
theorem second {tight' left : Bool} {frame' : Frame}
    (provides : l.Provides reads op a base p₁ p₂)
    (one : Ends (e.fillSlot (l.call a base varlist) {}) m fun g m' =>
      g = some { index := 2, tight := left } ∧ ∃ v : Cell, v.SameValue (Cell.integer x) ∧
        l.Fills varlist [first, v, Cell.null] frame' j tight' m')
    (refuses : l.Refuses e j left cause) (own : frame'.varlist = some varlist)
    (right : frame'.nextArgFromOut = false)
    (more : ((l.cells.drop j).headD Cell.end_).isEnd = false) (rounds : Nat) :
    Errs (e.fillSlots (l.call a base varlist) (rounds + 2) {}) m cause := by
  rw [Engine.fillSlots, if_neg (by simp [Level.call])]
  refine .bind one fun g m => ?_
  rintro ⟨rfl, v, same, fills⟩
  dsimp only
  rw [Engine.fillSlots, if_neg (by simp [Level.call])]
  exact (fills.refused provides (j := 1) rfl rfl rfl provides.computes.second refuses own right
    more).first

/-- The operand of an operator fails. -/
theorem operator_fails (fills : l.Fills varlist [first, Cell.null, Cell.null]
      (opening frame a varlist binding label true) i tight m)
    (provides : l.Provides reads op a base p₁ p₂) (idle : frame.Idle)
    (out : frame.out.SameValue (Cell.integer x)) (fresh : frame.out.stale = false)
    (refuses : l.Refuses e i true cause)
    (more : ((l.cells.drop i).headD Cell.end_).isEnd = false) (rounds : 2 ≤ e.rounds) :
    Errs (Engine.processAction e l.below.size) m cause := by
  obtain ⟨n, long⟩ := Nat.exists_eq_add_of_le' rounds
  refine fills.abandoned provides ⟨rfl, rfl, rfl, rfl, idle.whole, idle.typed⟩ rfl ?_
  rw [long]
  have one := fills.fromOut provides e out fresh rfl rfl (by simp)
  exact second provides one refuses rfl rfl more n

/-- One of the arguments of a call fails. -/
theorem call_fails (fills : l.Fills varlist [first, Cell.null, Cell.null]
      (opening frame a varlist binding label false) i tight m)
    (provides : l.Provides reads op a base p₁ p₂) (idle : frame.Idle)
    (fails : l.Refuses e i false cause ∨
      ∃ x, l.Evaluates e i j false x ∧ l.Refuses e j false cause)
    (more : ((l.cells.drop i).headD Cell.end_).isEnd = false)
    (more' : ((l.cells.drop j).headD Cell.end_).isEnd = false) (rounds : 2 ≤ e.rounds) :
    Errs (Engine.processAction e l.below.size) m cause := by
  obtain ⟨n, long⟩ := Nat.exists_eq_add_of_le' rounds
  refine fills.abandoned provides ⟨rfl, rfl, rfl, rfl, idle.whole, idle.typed⟩ rfl ?_
  rw [long]
  have counts := provides.computes.first
  rcases fails with refuses | ⟨x, evaluates, refuses⟩
  · rw [Engine.fillSlots, if_neg (by simp [Level.call])]
    exact (fills.refused provides (g := {}) (j := 0) rfl rfl rfl counts refuses rfl rfl more).first
  · have one := fills.fromFeed provides (g := {}) (j := 0) rfl rfl rfl counts (by simp) evaluates
      rfl rfl more
    exact second provides one refuses rfl rfl more' n

end Fills

/-- An operation whose result leaves the 64 bits fails. -/
theorem Gathered.overflow {op : FormulaOp} {a : Action} {base : SeriesId} {p₁ p₂ : Typeset}
    {x y : Int} (gathered : l.Gathered a frame x y i m)
    (provides : l.Provides reads op a base p₁ p₂)
    (large : Bits.fits64 (op.on x y) = false) (sound : l.Sound) (inside : i ≤ l.cells.length)
    (e : Engine) :
    Errs (Engine.dispatchAction Library.dispatch e l.below.size) m .overflow := by
  obtain ⟨frame', varlist, first, v, w, calls, -, -, same, same', fills⟩ := gathered
  have visible : Query.actionHas a Flags.invisible m = .ok false :=
    (provides.still fills.toAt).without (by decide)
  unfold Engine.dispatchAction
  refine .asked fills.asked ?_
  rw [calls.phase]
  refine .after rfl (.asked visible ?_)
  rw [Bool.not_false, if_pos rfl]
  refine .given (fills.onFrame _ rfl rfl) fun m fills => ?_
  obtain ⟨s, d, found, role, runs⟩ := (provides.still fills.toAt).runs
  have asked : Query.dispatcher a m = .ok d := by
    rw [Query.dispatcher, Query.bind_ok (Query.series_eq_ok.mpr found), role]
    rfl
  refine .asked asked ?_
  rw [runs e l.below.size]
  have failed : Errs (Arithmetic.apply op.operation v w) m .overflow := by
    refine ⟨m, ?_, fills.toAt.delivers sound (fills.backs calls.varlist) inside rfl⟩
    rw [FormulaOp.apply_eq same same', FormulaOp.integers_overflow large]
    rfl
  refine Interp.Errs.first ?_
  unfold Library.arithmetic
  exact .asked (fills.arg_run calls.varlist rfl)
    (.asked (fills.arg_run calls.varlist rfl) failed.first)

/-! ## From the failure of a formula -/

/-- A frame that begins with a formula that comes to no value fails for that reason. -/
def Breaks (reads : Places) (e : Formula chain isOpen) : Prop :=
  ∀ (l : Level) (frame : Frame) (i : Nat) (tight : Bool) (m : Machine) (operator : Prop)
    (left room : Nat) (cause : Cause),
    l.Sound → l.At frame i tight m → frame.Idle → l.Placed reads e i operator →
    (operator → isOpen = false) → (chain = true → tight = false) →
    l.below.size + 1 + room = l.start.config.frameLimit → e.outcome room = .error cause →
    e.fuel ≤ left →
    Errs (Engine.runSteps Library.dispatch (left + e.strides) l.below.size .start) m cause

variable {e : Formula chain isOpen}

/-- An engine with enough steps fails at the formula as an argument. -/
theorem Breaks.refuses (breaks : Breaks reads e) (sound : l.Sound) (fuel rounds : Nat)
    (placed : l.Placed reads e i operator) (operand : operator → isOpen = false ∧ tight = true)
    (chained : chain = true → tight = false)
    (limit : l.below.size + 1 + room = l.start.config.frameLimit)
    (fails : Formula.raised room e.outcome = .error cause) (enough : e.fuel + e.strides ≤ fuel) :
    l.Refuses ⟨Engine.runSteps Library.dispatch fuel, rounds⟩ i tight cause := by
  intro frame m at_ own
  have size : m.frames.size = l.below.size + 1 := by rw [at_.frames, Array.size_push]
  have most : m.config.frameLimit = l.start.config.frameLimit := by rw [at_.since.config]
  cases room with
  | zero =>
      obtain rfl : Cause.stackOverflow = cause := Except.error.inj fails
      exact at_.full sound own (by have := placed.inside; omega) (by omega) _
  | succ room =>
      obtain ⟨n, rfl⟩ := Nat.exists_eq_add_of_le enough
      have above : at_.above.below.size + 1 + room = at_.above.start.config.frameLimit := by
        change m.frames.size + 1 + room = m.config.frameLimit
        omega
      have evaluated : Errs (Interp.withFrame { feed := frame.feed, fulfillingArg := true }
          fun f => Engine.runSteps Library.dispatch (e.fuel + e.strides + n) f .start) m cause := by
        refine .given (at_.push (by omega) true) fun m' at_' => Interp.Errs.first ?_
        have failed := breaks at_.above _ i tight m' operator (e.fuel + n) room cause
          (at_.sound_above sound own) at_' ⟨rfl, rfl, rfl⟩ (placed.above at_)
          (fun follows => (operand follows).1) chained above fails (by omega)
        rwa [show e.fuel + e.strides + n = e.fuel + n + e.strides by omega]
      exact .asked at_.asked evaluated.first

/-- An array that ends with the formula fails. -/
theorem Breaks.evalArray (breaks : Breaks reads e) {array : SeriesId} {specifier : Specifier}
    {cells : List Cell} {index fuel : Nat} (rounds : Nat)
    (holds : m.heap.cells? array = some cells.toArray)
    (spells : m.heap.Spells reads e specifier (cells.drop index))
    (sound : (m.level array specifier cells holds).Sound)
    (limit : m.frames.size + room = m.config.frameLimit) (running : m.signals.halt = false)
    (unmarked : m.heap.Unmarked) (fails : Formula.raised room e.outcome = .error cause)
    (delivers : ∀ feed, { m with feeds := m.feeds.push feed }.Delivers)
    (enough : e.fuel + e.strides ≤ fuel) :
    Errs (Engine.evalArray? ⟨Engine.runSteps Library.dispatch fuel, rounds⟩ array index specifier)
      m cause := by
  have done : cells.drop (index + e.width) = [] :=
    List.drop_add_of_drop (List.append_nil _).symm spells.length
  have placed : (m.level array specifier cells holds).Placed reads e index False := by
    refine ⟨⟨_, ?_, spells⟩, ?_⟩
    · change cells.drop index = cells.drop index ++ cells.drop (index + e.width)
      rw [done, List.append_nil]
    · change m.heap.Follows reads specifier False (cells.drop (index + e.width))
      rw [done]
      exact fun _ member => nomatch member
  let opened : Machine :=
    { m with feeds := m.feeds.push ((m.level array specifier cells holds).feedAt index) }
  have evaluated : Errs (Interp.withFrame { feed := m.feeds.size, toEnd := true } fun f =>
      Engine.runSteps Library.dispatch fuel f .start) opened cause := by
    cases room with
    | zero =>
        obtain rfl : Cause.stackOverflow = cause := Except.error.inj fails
        have size : opened.frames.size = opened.config.frameLimit := limit
        have pushed : Errs (Interp.pushFrame { feed := m.feeds.size, toEnd := true }) opened
            .stackOverflow :=
          ⟨opened, Interp.pushFrame_full _ (size ▸ opened.config.isFull_frameLimit), delivers _⟩
        exact pushed.first
    | succ room =>
        obtain ⟨n, rfl⟩ := Nat.exists_eq_add_of_le enough
        refine .given (enter m holds (by omega) running unmarked index rfl) fun m' at_ =>
          Interp.Errs.first ?_
        have failed := breaks (m.level array specifier cells holds) _ index false m' False
          (e.fuel + n) room cause sound at_ ⟨rfl, rfl, rfl⟩ placed False.elim (fun _ => rfl)
          (by change m.frames.size + 1 + room = m.config.frameLimit; omega) fails (by omega)
        rw [show e.fuel + e.strides + n = e.fuel + n + e.strides by omega]
        exact failed
  have entered : Interp.pushFeed ((m.level array specifier cells holds).feedAt index) m =
      .ok m.feeds.size opened := rfl
  have fed : Errs (Interp.withFeed ((m.level array specifier cells holds).feedAt index) fun feed =>
      Interp.withFrame { feed, toEnd := true } fun f =>
        Engine.runSteps Library.dispatch fuel f .start) m cause := .after entered evaluated.first
  exact .asked ((m.level array specifier cells holds).arrayFeed_run index) fed.first

/-! ## One case for each form -/

/-- A call whose arguments cannot be gathered, or whose result is too large, fails. -/
theorem unapplied {op : FormulaOp} {a : Action} {base : SeriesId} {p₁ p₂ : Typeset} {left : Nat}
    (sound : l.Sound) (provides : l.Provides reads op a base p₁ p₂)
    (inside : i ≤ l.cells.length)
    (fails : Errs (Engine.processAction
        ⟨Engine.runSteps Library.dispatch (left + 1), left + 1⟩ l.below.size) m cause ∨
      ∃ frame x y, cause = .overflow ∧ Bits.fits64 (op.on x y) = false ∧
        Ends (Engine.processAction ⟨Engine.runSteps Library.dispatch (left + 1), left + 1⟩
          l.below.size) m fun next m' => next = .dispatch ∧ l.Gathered a frame x y i m') :
    Errs (Engine.runSteps Library.dispatch (left + 2) l.below.size .processAction) m cause := by
  rcases fails with failed | ⟨frame, x, y, rfl, large, gathered⟩
  · exact failed.first
  · have first : Engine.Leads Library.dispatch (left + 1) l.below.size 1 .processAction .dispatch m
        (l.Gathered a frame x y i) := .step gathered (by simp)
    exact first.fails fun m gathered =>
      (gathered.overflow provides large sound inside _).first

/-- A formula that comes to a value with the room that is left evaluates to it as an argument. -/
theorem evaluates_of_raised (e : Formula chain isOpen) {x : Int} {fuel : Nat} (rounds : Nat)
    (placed : l.Placed reads e i operator) (operand : operator → isOpen = false ∧ tight = true)
    (chained : chain = true → tight = false)
    (limit : l.below.size + 1 + room = l.start.config.frameLimit)
    (ok : Formula.raised room e.outcome = .ok x) (enough : e.fuel + 1 + e.strides ≤ fuel) :
    l.Evaluates ⟨Engine.runSteps Library.dispatch fuel, rounds⟩ i (i + e.width) tight x := by
  obtain ⟨n, rfl, ok⟩ := Formula.raised_eq_ok.mp ok
  obtain ⟨fits, deep, rfl⟩ := Formula.outcome_eq_ok.mp ok
  exact (leads e).evaluates fuel rounds ⟨placed, fits⟩ operand chained (by omega) enough

theorem breaks_group (inner : Breaks reads e) : Breaks reads (.group e) := by
  intro l frame i tight m operator left room cause sound at_ idle placed _ _ limit fails fuel
  have own {m : Machine} {frame' : Frame} (same : frame'.varlist = frame.varlist) :
      m.heap.Backs frame' := Heap.backs_of_none (same.trans idle.freed)
  obtain ⟨cells, here, spelled⟩ := placed.spells
  have ⟨c, _, _, same, group, _⟩ := spelled
  subst same
  have real : c.isEnd = false := by simp [Cell.isEnd, (Cell.is_iff.mp group).2]
  have part : c ∈ l.cells :=
    List.mem_of_mem_drop (i := i) (by rw [here]; exact List.mem_cons_self ..)
  simp only [Formula.outcome, Formula.fuel] at fails fuel
  refine ((at_.begin here real placed.follows _ (left + 1)).fails fun m at_ =>
    Interp.Errs.first ?_ : Errs (Engine.runSteps _ (left + 1 + 2) _ _) _ _)
  have size : m.frames.size = l.below.size + 1 := by rw [at_.frames, Array.size_push]
  obtain ⟨d, array, held, same, -, series, holds, -, spells⟩ :=
    at_.spells (fun d member => List.mem_singleton.mp member ▸ part) spelled
  obtain rfl : c = d := List.singleton_inj.mp same
  have legible : ∀ d ∈ held.toList, m.heap.Legible d := fun d member =>
    (at_.legible sound c part).inside group series holds d (Array.mem_toList_iff.mp member)
  have evaluated := inner.evalArray left holds spells ⟨legible, at_.backed sound (own rfl)⟩
    (by rw [at_.since.config]; omega) at_.since.running at_.since.unmarked fails
    (fun feed => at_.delivers sound (own rfl) placed.inside (by
      obtain ⟨feed, opened, -⟩ := at_.feeds
      rw [opened, Array.getElem?_push, if_neg (by simp)]))
    (show e.fuel + e.strides ≤ left by omega)
  obtain ⟨feed, fed, current⟩ := at_.read
  change Errs (Engine.evalCell _ l.below.size c none) m _
  unfold Engine.evalCell
  refine .asked at_.asked (.asked fed ?_)
  rw [Cell.isQuoted_of_is group (by decide), if_neg Bool.false_ne_true, (Cell.is_iff.mp group).2,
    current.specifier]
  exact Interp.Errs.asked (Query.arrayOf_eq_ok.mpr series) evaluated.first

theorem breaks_infix {left : Formula chain false} {op : FormulaOp} {right : Formula false isOpen}
    (first : Breaks reads left) (second : Breaks reads right) :
    Breaks reads (.infix_ left op right) := by
  intro l frame i tight m operator n room cause sound at_ idle placed closed chained limit fails
    fuel
  have within := placed.inside
  obtain ⟨placed', ⟨w, rest, here, names⟩, placed''⟩ := placed.infixed
  obtain rfl := chained rfl
  simp only [Formula.fuel] at fuel
  change Errs (Engine.runSteps _ (n + (3 + left.strides)) _ _) _ _
  rw [← Nat.add_assoc]
  rcases Formula.bind_checked_eq_error.mp fails with fails | ⟨x, ok, fails⟩
  · exact first l frame i false m True (n + 3) room cause sound at_ idle placed' (fun _ => rfl)
      (fun _ => rfl) limit fails (by omega)
  · obtain ⟨fits, deep, rfl⟩ := Formula.outcome_eq_ok.mp ok
    refine (leads left l frame i false m True (n + 3) at_ idle ⟨placed', fits⟩ (fun _ => rfl)
      (fun _ => rfl) (by omega) (by omega)).fails fun m => ?_
    rintro ⟨frame', has, loose, at_⟩
    obtain ⟨a, base, p₁, p₂, provides, begun⟩ := at_.evalOperator here names (loose rfl)
    have called : Engine.Leads Library.dispatch (n + 2) l.below.size 1 .postSwitch .processAction m
        _ := .step begun (by simp)
    refine called.fails fun m => ?_
    rintro ⟨varlist, start, binding, label, fills⟩
    have operand (follows : operator) : isOpen = false ∧ true = true := ⟨closed follows, rfl⟩
    have unchained : false ≠ true := Bool.false_ne_true
    have long := right.strides_ge
    have last : i + left.width + 1 + right.width ≤ l.cells.length := by
      simp only [Formula.width] at within
      omega
    rcases fails with fails | ⟨y, ok, large, rfl⟩
    · exact unapplied sound provides last (.inl
        (fills.operator_fails provides has.idle has.value has.fresh
          (second.refuses sound (n + 1) (n + 1) placed'' operand (absurd · unchained) limit fails
            (by omega))
          placed''.begins (by simp only; omega)))
    · have evaluates := evaluates_of_raised right (n + 1) placed'' operand (absurd · unchained)
        limit ok (by omega : right.fuel + 1 + right.strides ≤ n + 1)
      exact unapplied sound provides last (.inr ⟨_, _, _, rfl, large,
        fills.operator provides has.idle has.value has.fresh evaluates placed''.begins
          (by simp only; omega)⟩)

theorem breaks_call {chain' isOpen' : Bool} {op : FormulaOp} {e' : Formula chain' isOpen'}
    (first : Breaks reads e) (second : Breaks reads e') : Breaks reads (.call op e e') := by
  intro l frame i tight m operator n room cause sound at_ idle placed closed _ limit fails fuel
  have within := placed.inside
  obtain ⟨⟨w, rest, here, names, follows⟩, placed', placed''⟩ := placed.called fun follows =>
    Bool.false_ne_true (closed follows).symm
  simp only [Formula.fuel] at fuel
  refine ((at_.begin here names.isEnd follows _ (n + 3)).fails fun m at_ => ?_ :
    Errs (Engine.runSteps _ (n + 3 + 2) _ _) _ _)
  have part : w ∈ l.cells :=
    List.mem_of_mem_drop (i := i) (by rw [here]; exact List.mem_cons_self ..)
  obtain ⟨a, base, p₁, p₂, provides, begun⟩ := at_.evalName part names
  have called : Engine.Leads Library.dispatch (n + 2) l.below.size 1 (.reevaluate w none)
      .processAction m _ := .step (begun _) (by simp)
  refine called.fails fun m => ?_
  rintro ⟨varlist, start, binding, label, fills⟩
  have long := e.strides_ge
  have last : i + 1 + e.width + e'.width ≤ l.cells.length := by
    simp only [Formula.width] at within
    omega
  have evaluates {x : Int} (ok : Formula.raised room e.outcome = .ok x) :
      l.Evaluates ⟨Engine.runSteps Library.dispatch (n + 1), n + 1⟩ (i + 1) (i + 1 + e.width) false
        x :=
    evaluates_of_raised e (n + 1) placed' False.elim (fun _ => rfl) limit ok (by omega)
  have refused (refuses : l.Refuses ⟨Engine.runSteps Library.dispatch (n + 1), n + 1⟩ (i + 1) false
        cause ∨ ∃ x, l.Evaluates ⟨Engine.runSteps Library.dispatch (n + 1), n + 1⟩ (i + 1)
          (i + 1 + e.width) false x ∧ l.Refuses ⟨Engine.runSteps Library.dispatch (n + 1), n + 1⟩
          (i + 1 + e.width) false cause) :
      Errs (Engine.runSteps Library.dispatch (n + 2) l.below.size .processAction) m cause :=
    unapplied sound provides last (.inl (fills.call_fails provides { idle with } refuses
      placed'.begins placed''.begins (by simp only; omega)))
  rcases Formula.bind_checked_eq_error.mp fails with fails | ⟨x, ok, fails | ⟨y, ok', large, rfl⟩⟩
  · exact refused (.inl (first.refuses sound (n + 1) (n + 1) placed' False.elim (fun _ => rfl) limit
      fails (by omega)))
  · exact refused (.inr ⟨x, evaluates ok, second.refuses sound (n + 1) (n + 1) placed'' False.elim
      (fun _ => rfl) limit fails (by omega)⟩)
  · have evaluates' : l.Evaluates ⟨Engine.runSteps Library.dispatch (n + 1), n + 1⟩
        (i + 1 + e.width) (i + 1 + e.width + e'.width) false y :=
      evaluates_of_raised e' (n + 1) placed'' False.elim (fun _ => rfl) limit ok' (by omega)
    exact unapplied sound provides last (.inr ⟨_, _, _, rfl, large, fills.call provides { idle with }
      (evaluates ok) evaluates' placed'.begins placed''.begins (by simp only; omega)⟩)

/-- A frame that begins with a formula that comes to no value fails. -/
theorem breaks (e : Formula chain isOpen) : Breaks reads e := by
  induction e with
  | integer x => exact fun _ _ _ _ _ _ _ _ _ _ _ _ _ _ _ _ fails _ => nomatch fails
  | group inner ih => exact breaks_group ih
  | infix_ left op right first second => exact breaks_infix first second
  | call op first second ih ih' => exact breaks_call ih ih'

end Level

end Homoicon
