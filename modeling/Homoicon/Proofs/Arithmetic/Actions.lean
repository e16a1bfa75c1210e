import Homoicon.Proofs.Arithmetic.Exact
import Homoicon.Proofs.Natives

/-!
# The actions of arithmetic

What ADD, SUBTRACT, MULTIPLY, DIVIDE, REMAINDER, NEGATE and ABS give in any machine: the exact
value, or one of the errors that stand for a value that there is not.
-/

namespace Homoicon

namespace Scalar

/-- The exact negative of a value. -/
def negative : Scalar → Exact
  | integer i => .integer (-i) (-i)
  | time n => .time (-n) (-n)
  | _ => .refused

/-- The exact value without its sign. -/
def magnitude : Scalar → Exact
  | integer i => .integer i.natAbs i.natAbs
  | time n => .time n.natAbs n.natAbs
  | _ => .refused

/-- The least time is the only one whose negative is not held. -/
def HasNegative (a : Scalar) : Prop := a ≠ time Bits.least64

theorem fits64_neg {n : Int} (held : Bits.fits64 n = true) (least : n ≠ Bits.least64) :
    Bits.fits64 (-n) = true := by
  rw [Bits.fits64_iff] at *
  unfold Bits.least64 Bits.greatest64 at *
  omega

theorem fits64_natAbs {n : Int} (held : Bits.fits64 n = true) (least : n ≠ Bits.least64) :
    Bits.fits64 (n.natAbs : Int) = true := by
  rw [Bits.fits64_iff] at *
  unfold Bits.least64 Bits.greatest64 at *
  omega

end Scalar

/-- An action ends with the value of a result as its output, or raises its error. -/
def Machine.concluding (m : Machine) (f : FrameId) :
    Except Fault Cell → EStateM.Result Fault Machine Bounce
  | .ok c => .ok .out (m.putting f c)
  | .error fault => .error fault m

variable {m : Machine} {f : FrameId} {a b : Scalar} {c d : Cell} {op : Operation}

theorem Interp.give_ofExcept (inside : f < m.frames.size) (r : Except Fault Cell) :
    (do Interp.give f (← ofExcept r)) m = m.concluding f r := by
  cases r with
  | ok c => exact Interp.give_run inside c
  | error fault => rfl

namespace Arithmetic

theorem checked_given {name : String} (i : Int) :
    (Exact.integer i i).Given name (Cell.integer <$> checked i) := by
  change _ = if Bits.fits64 i && Bits.fits64 i then Except.ok (Cell.integer i) else fail .overflow
  rw [Bool.and_self, checked_eq]
  split_ifs <;> rfl

theorem held_time_given {name : String} {n : Int} (held : Bits.fits64 n = true) :
    (Exact.time n n).Given name (Cell.time <$> exact64 n) := by
  have here : (exact64 n : Except Fault Int) = .ok n := if_pos held
  change _ = if Bits.fits64 n && Bits.fits64 n then Except.ok (Cell.time n) else fail .overflow
  rw [here, held]
  rfl

theorem arithmetic_run (first : c.IsScalar a) (second : d.IsScalar b) (e : Engine)
    (has : m.HasArgs f [c, d]) :
    Library.arithmetic op e f m = m.concluding f (scalars op c d) := by
  have left : Query.arg f 1 m = .ok c := has.arg_run rfl
  have right : Query.arg f 2 m = .ok d := has.arg_run rfl
  have plain {c : Cell} {a : Scalar} (is : c.IsScalar a) : ¬ c.typeKind = .pair := by
    rw [is.typeKind]
    cases a <;> simp [Scalar.kind]
  rw [Library.arithmetic, Interp.lift_bind_ok left, Interp.lift_bind_ok right, apply,
    if_neg (by simp [plain first, plain second])]
  exact Interp.give_ofExcept has.inside _

theorem map_ofExcept {α β : Type} (g : α → β) (r : Except Fault α) :
    g <$> (ofExcept r : Interp α) = ofExcept (g <$> r) := by
  cases r <;> rfl

theorem negate_given (is : c.IsScalar a) (held : a.Held) (safe : a.HasNegative) :
    ∃ r, a.negative.Given "negate" r ∧ negate c = ofExcept r := by
  unfold negate
  rw [is.payload]
  cases a with
  | integer i => exact ⟨_, checked_given (-i), map_ofExcept _ _⟩
  | time n =>
      have held : Bits.fits64 (-n) = true :=
        Scalar.fits64_neg held fun least => safe (congrArg Scalar.time least)
      exact ⟨_, held_time_given held, map_ofExcept _ _⟩
  | char | tuple | date => exact ⟨_, ⟨_, rfl⟩, rfl⟩

theorem abs_given (is : c.IsScalar a) (held : a.Held) (safe : a.HasNegative) :
    ∃ r, a.magnitude.Given "abs" r ∧ abs c = ofExcept r := by
  unfold abs
  rw [is.payload]
  cases a with
  | integer i => exact ⟨_, checked_given i.natAbs, map_ofExcept _ _⟩
  | time n =>
      have held : Bits.fits64 (n.natAbs : Int) = true :=
        Scalar.fits64_natAbs held fun least => safe (congrArg Scalar.time least)
      exact ⟨_, held_time_given held, map_ofExcept _ _⟩
  | char | tuple | date => exact ⟨_, ⟨_, rfl⟩, rfl⟩

/-- The days that are added to a date lie between it and the result. -/
theorem days_between {day : Date} {n : Int} (is : c.IsScalar (.date day))
    (held : (Scalar.date day).Held) (step : d.IsScalar (.integer n)) (days : Bits.fits64 n = true)
    (safe : Operation.add.Safe (.date day) (.integer n)) :
    ∃ (later : Cell) (day' : Date), later.IsScalar (.date day') ∧ (Scalar.date day').Held ∧
      scalars .add c d = .ok later ∧ scalars .subtract later c = .ok (Cell.integer n) := by
  obtain ⟨day', civil, isCivil, number, clock, sum⟩ :=
    scalars_given .add is step held days safe
  have later : Cell.IsScalar { kind := .date, payload := .date day' } (.date day') :=
    ⟨rfl, rfl, rfl⟩
  have difference := scalars_given .subtract later is ⟨civil, isCivil⟩ held trivial
  have between : dayNumber day' - dayNumber day = n := by
    rw [dayNumber_eq isCivil, number]
    omega
  change _ = if Bits.fits64 (dayNumber day' - dayNumber day) &&
    Bits.fits64 (dayNumber day' - dayNumber day) then _ else _ at difference
  rw [between, days] at difference
  exact ⟨_, day', later, ⟨civil, isCivil⟩, sum, difference⟩

/-- The actions of arithmetic are exact or fail.  Where the values are held and the operation is
safe, an action gives the exact value or raises the error that stands for its absence, and so do
NEGATE and ABS but for the least time; and the days that are added to a date are those between it
and the sum. -/
theorem exact_or_fails (e : Engine) :
    (∀ (op : Operation) (a b : Scalar) (c d : Cell), c.IsScalar a → d.IsScalar b → a.Held →
      b.Held → op.Safe a b → ∃ r, (op.exactly a b).Given op.name r ∧
        ∀ (m : Machine) (f : FrameId), m.HasArgs f [c, d] →
          Library.arithmetic op e f m = m.concluding f r) ∧
    (∀ (a : Scalar) (c : Cell), c.IsScalar a → a.Held → a.HasNegative →
      (∃ r, a.negative.Given "negate" r ∧
        ∀ (m : Machine) (f : FrameId), m.HasArgs f [c] →
          Library.negate e f m = m.concluding f r) ∧
      ∃ r, a.magnitude.Given "abs" r ∧
        ∀ (m : Machine) (f : FrameId), m.HasArgs f [c] →
          Library.abs e f m = m.concluding f r) ∧
    (∀ (day : Date) (n : Int) (c d : Cell), c.IsScalar (.date day) → (Scalar.date day).Held →
      d.IsScalar (.integer n) → Bits.fits64 n = true →
      Operation.add.Safe (.date day) (.integer n) → ∃ later : Cell,
        (∀ (m : Machine) (f : FrameId), m.HasArgs f [c, d] →
          Library.arithmetic .add e f m = .ok .out (m.putting f later)) ∧
        ∀ (m : Machine) (f : FrameId), m.HasArgs f [later, c] →
          Library.arithmetic .subtract e f m = .ok .out (m.putting f (Cell.integer n))) := by
  refine ⟨fun op a b c d first second held held' safe => ?_, fun a c is held safe => ⟨?_, ?_⟩,
    fun day n c d is held step days safe => ?_⟩
  · exact ⟨_, scalars_given _ first second held held' safe,
      fun m f has => arithmetic_run first second e has⟩
  · obtain ⟨r, given, same⟩ := negate_given is held safe
    refine ⟨r, given, fun m f has => ?_⟩
    have only : Query.arg f 1 m = .ok c := has.arg_run rfl
    rw [Library.negate, Interp.lift_bind_ok only, same]
    exact Interp.give_ofExcept has.inside r
  · obtain ⟨r, given, same⟩ := abs_given is held safe
    refine ⟨r, given, fun m f has => ?_⟩
    have only : Query.arg f 1 m = .ok c := has.arg_run rfl
    rw [Library.abs, Interp.lift_bind_ok only, same]
    exact Interp.give_ofExcept has.inside r
  · obtain ⟨later, day', isLater, -, sum, difference⟩ := days_between is held step days safe
    refine ⟨later, fun m f has => ?_, fun m f has => ?_⟩
    · rw [arithmetic_run is step e has, sum]
      rfl
    · rw [arithmetic_run isLater is e has, difference]
      rfl

/-- The day before a leap day. -/
def sampleDay : Date := .ofDay 2024 2 28

theorem sampleDay_isCivil : sampleDay.IsCivil ⟨2024, 2, 28, by decide, by decide⟩ :=
  ⟨rfl, rfl, rfl, by decide, by decide⟩

theorem exact_or_fails_sampleDay :
    Library.arithmetic .multiply .idle 0 (.ofArgs [Cell.integer 6, Cell.integer (-7)]) =
      .ok .out ((Machine.ofArgs [Cell.integer 6, Cell.integer (-7)]).putting 0
        (Cell.integer (-42))) ∧
    Library.negate .idle 0 (.ofArgs [Cell.integer Bits.least64]) =
      .error (.error Cause.overflow.error) (.ofArgs [Cell.integer Bits.least64]) ∧
    ∃ later : Cell,
      Library.arithmetic .add .idle 0
          (.ofArgs [{ kind := .date, payload := .date sampleDay }, Cell.integer 2]) =
        .ok .out ((Machine.ofArgs [{ kind := .date, payload := .date sampleDay },
          Cell.integer 2]).putting 0 later) ∧
      Library.arithmetic .subtract .idle 0
          (.ofArgs [later, { kind := .date, payload := .date sampleDay }]) =
        .ok .out ((Machine.ofArgs [later, { kind := .date, payload := .date sampleDay }]).putting 0
          (Cell.integer 2)) := by
  have number (i : Int) : (Cell.integer i).IsScalar (.integer i) := ⟨rfl, rfl, rfl⟩
  have date : Cell.IsScalar { kind := .date, payload := .date sampleDay } (.date sampleDay) :=
    ⟨rfl, rfl, rfl⟩
  obtain ⟨exact_, signs, days⟩ := exact_or_fails .idle
  refine ⟨?_, ?_, ?_⟩
  · obtain ⟨r, given, ran⟩ := exact_ .multiply (.integer 6) (.integer (-7)) _ _
      (number _) (number _) (by decide : Bits.fits64 6 = true)
      (by decide : Bits.fits64 (-7) = true) trivial
    rw [ran _ _ (Machine.hasArgs_ofArgs _ _), show r = .ok (Cell.integer (-42)) from given]
    rfl
  · obtain ⟨⟨r, given, ran⟩, -⟩ := signs (.integer Bits.least64) _ (number _) rfl
      (by simp [Scalar.HasNegative])
    rw [ran _ _ (Machine.hasArgs_ofArgs _ _), show r = fail .overflow from given]
    rfl
  · obtain ⟨later, sum, ran⟩ := days sampleDay 2 _ _ date ⟨_, sampleDay_isCivil⟩ (number 2) rfl
      ⟨⟨2024, 3, 1, by decide, by decide⟩, ⟨by decide, by decide⟩, by decide⟩
    exact ⟨later, sum _ _ (Machine.hasArgs_ofArgs _ _), ran _ _ (Machine.hasArgs_ofArgs _ _)⟩

end Arithmetic

end Homoicon
