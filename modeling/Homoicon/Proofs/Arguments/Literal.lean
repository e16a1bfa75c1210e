import Homoicon.Proofs.Arguments.Intake

/-!
# Evaluating a literal

An argument or the right side of an assignment is evaluated in a frame of its own over the feed it
stands in.  A cell that means a value by itself, such as a literal, evaluates to that value in a few
steps, whatever signals are pending when it begins, and since neither a word nor a path follows it
no operator takes it.
-/

namespace Homoicon

open Interp (Gives)

/-- A step that does not end the frame leads to the next one. -/
theorem Engine.runSteps_step {dispatch : Dispatch} {fuel : Nat} {f : FrameId}
    {current next : Step} {m m' : Machine}
    (one : Engine.step dispatch ⟨Engine.runSteps dispatch fuel, fuel⟩ f current m = .ok next m')
    (goesOn : next ≠ .finished ∧ next ≠ .thrown) :
    Engine.runSteps dispatch (fuel + 1) f current m = Engine.runSteps dispatch fuel f next m' := by
  rw [Engine.runSteps, Interp.bind_ok one]
  cases next with
  | finished => exact absurd rfl goesOn.1
  | thrown => exact absurd rfl goesOn.2
  | _ => rfl

theorem Interp.Gives.steps {dispatch : Dispatch} {fuel : Nat} {f : FrameId} {current next : Step}
    {m : Machine} {threw : Bool} {middle post : Machine → Prop}
    (one : Gives (Engine.step dispatch ⟨Engine.runSteps dispatch fuel, fuel⟩ f current) m next
      middle)
    (goesOn : next ≠ .finished ∧ next ≠ .thrown)
    (rest : ∀ m, middle m → Gives (Engine.runSteps dispatch fuel f next) m threw post) :
    Gives (Engine.runSteps dispatch (fuel + 1) f current) m threw post := by
  obtain ⟨m', ran, holds⟩ := one
  rw [Gives, Engine.runSteps_step ran goesOn]
  exact rest m' holds

/-! ## Cells that mean a value by themselves -/

theorem Kind.ne_of_isInert {kind other : Kind} (inert : kind.isInert = true)
    (active : other.isInert = false) : kind ≠ other := by
  rintro rfl
  rw [inert] at active
  cases active

/-- What a cell means that is not looked up: a cell of an inert kind itself, a quoted one what it
quotes.  A deeper quoted value is looked up in its pairing, and a relative array in the call. -/
inductive Cell.Means (c : Cell) : Cell → Prop where
  | inert : c.kind.isInert = true → c.quote = 0 → (∀ id, c.binding ≠ .relative id) → Means c c
  | quoted : 0 < c.quote → c.quote ≤ 3 → c.kind ≠ .quoted → c.kind ≠ .«end» →
      (∀ id, c.binding ≠ .relative id) → Means c { c with quote := c.quote - 1 }

namespace Cell.Means

variable {c v : Cell}

theorem isEnd (means : c.Means v) : c.isEnd = false := by
  cases means with
  | inert inert => exact decide_eq_false (Kind.ne_of_isInert inert rfl)
  | quoted _ _ _ real => exact decide_eq_false real

theorem isEnd_value (means : c.Means v) : v.isEnd = false := by
  have real := means.isEnd
  cases means with
  | inert => exact real
  | quoted => exact real

theorem quiet (means : c.Means v) : c.IsQuiet := by
  cases means with
  | inert inert =>
      have noWord : c.kind ≠ .word := Kind.ne_of_isInert inert rfl
      have noPath : c.kind ≠ .path := Kind.ne_of_isInert inert rfl
      simp [Cell.IsQuiet, Cell.is, noWord, noPath]
  | quoted quoted =>
      have depth : (c.quote == 0) = false := beq_false_of_ne (Nat.ne_of_gt quoted)
      simp [Cell.IsQuiet, Cell.is, depth]

theorem free (means : c.Means v) : ∀ id, c.binding ≠ .relative id := by
  cases means with
  | inert _ _ free => exact free
  | quoted _ _ _ _ free => exact free

end Cell.Means

namespace Cell.IsLiteral

variable {c : Cell}

theorem inert (literal : c.IsLiteral) : c.kind.isInert = true := by
  have all := literal.1
  simp only [Bool.and_eq_true] at all
  exact all.1.1

theorem isNull (literal : c.IsLiteral) : c.isNull = false :=
  decide_eq_false (Kind.ne_of_isInert literal.inert rfl)

theorem quote (literal : c.IsLiteral) : c.quote = 0 := by
  rw [literal.2]

theorem isQuoted (literal : c.IsLiteral) : c.isQuoted = false := by
  have shallow : c.kind ≠ .quoted := Kind.ne_of_isInert literal.inert rfl
  simp [Cell.isQuoted, literal.quote, shallow]

theorem isVoid (literal : c.IsLiteral) : c.isVoid = false := by
  have some : c.kind ≠ .void := Kind.ne_of_isInert literal.inert rfl
  simp [Cell.isVoid, Cell.is, some]

theorem copied (literal : c.IsLiteral) : c.copied = c := by
  rw [literal.2]
  rfl

theorem means (literal : c.IsLiteral) : c.Means c := by
  refine .inert literal.inert literal.quote fun id bound => ?_
  rw [literal.2] at bound
  cases bound

theorem isEnd (literal : c.IsLiteral) : c.isEnd = false := literal.means.isEnd

theorem quiet (literal : c.IsLiteral) : c.IsQuiet := literal.means.quiet

end Cell.IsLiteral

theorem Cell.IsInteger.kind {c : Cell} (integer : c.IsInteger) : c.kind = .integer := by
  obtain ⟨i, newline, rfl⟩ := integer
  rfl

theorem Cell.IsInteger.isLiteral {c : Cell} (integer : c.IsInteger) : c.IsLiteral := by
  obtain ⟨i, newline, rfl⟩ := integer
  exact ⟨rfl, rfl⟩

/-- A cell that means a value by itself evaluates to that. -/
theorem Engine.evalCell_means (e : Engine) {f : FrameId} {frame : Frame} {feed : Feed} {c v : Cell}
    {m : Machine} (means : c.Means v) (asked : Query.frame f m = .ok frame)
    (run : Query.feed frame.feed m = .ok feed) :
    Engine.evalCell e f c none m = Engine.writeValue f { v with unevaluated := true } m := by
  have same : Interp.derelativize c feed.specifier m = .ok c m := by
    unfold Interp.derelativize
    cases bound : c.binding with
    | relative id => exact absurd bound (means.free id)
    | unbound => rfl
    | specific => rfl
  rw [Engine.evalCell, Interp.lift_bind_ok asked, Interp.lift_bind_ok run]
  cases means with
  | inert inert unquoted =>
      have shallow : c.kind ≠ .quoted := Kind.ne_of_isInert inert rfl
      have bare : c.isQuoted = false := by simp [Cell.isQuoted, unquoted, shallow]
      rw [bare, if_neg Bool.false_ne_true]
      obtain ⟨kind, payload, binding⟩ := c
      cases kind <;> first | exact Interp.bind_ok same _ | cases inert
  | quoted positive small shallow =>
      have quoted : c.isQuoted = true := by simp [Cell.isQuoted, positive]
      have taken : Query.unquotify c 1 m = .ok { c with quote := c.quote - 1 } := by
        unfold Query.unquotify
        cases payload : c.payload with
        | quoted => exact congrFun (if_neg shallow) m
        | _ => rfl
      rw [quoted, if_pos rfl, Interp.bind_ok same, Interp.lift_bind_ok taken]

/-! ## What is no operator -/

namespace Engine

variable {f : FrameId} {frame frame' : Frame} {feed next : Feed} {c : Cell} {m m' : Machine}

/-- The evaluator fetches a cell that no operator takes. -/
theorem lookahead_quiet (asked : Query.frame f m = .ok frame)
    (run : Query.feed frame.feed m = .ok feed) (more : feed.isEnd = false)
    (fetched : Interp.fetchKeepLookback frame.feed m = .ok c m')
    (asked' : Query.frame f m' = .ok frame') (run' : Query.feed frame.feed m' = .ok next)
    (quiet : next.value.IsQuiet) : Engine.lookahead f m = .ok (.reevaluate c none) m' := by
  have none : Engine.quotingOperator? f frame.feed feed.specifier m' = .ok none := by
    rw [Engine.quotingOperator?, Query.bind_ok run', Query.bind_ok asked', quiet.1, Bool.not_false,
      Bool.or_true, if_pos rfl]
    rfl
  rw [Engine.lookahead, Interp.lift_bind_ok asked, Interp.lift_bind_ok run, more,
    if_neg Bool.false_ne_true, Interp.bind_ok fetched, Interp.lift_bind_ok none]
  rfl

/-- What is no operator takes no value. -/
theorem postSwitch_quiet (asked : Query.frame f m = .ok frame)
    (run : Query.feed frame.feed m = .ok feed) (quiet : feed.value.IsQuiet) :
    Engine.postSwitch f m =
      .ok (if feed.isEnd then .finished else Engine.afterExpression frame) m := by
  have none : Engine.operatorAt? frame.feed m = .ok none m := by
    have plain : Query.isDividePath feed.value m = .ok false := by
      rw [Query.isDividePath, quiet.2]
      rfl
    rw [Engine.operatorAt?, Interp.lift_bind_ok run]
    refine (Interp.lift_bind_ok plain _).trans ?_
    rw [quiet.1]
    rfl
  rw [Engine.postSwitch, Interp.lift_bind_ok asked, Interp.lift_bind_ok run]
  split
  · rfl
  · rw [Interp.bind_ok none]
    rfl

end Engine

namespace Intake

/-- A frame that evaluates an argument, or the right side of an assignment. -/
structure Serves (intake : Intake) (base : Nat) (argument : Bool) (frame : Frame) : Prop where
  feed : frame.feed = intake.feed
  single : frame.toEnd = false
  argument : frame.fulfillingArg = argument
  base : frame.stackBase = base

/-- A frame that evaluates an argument stands above the level of an intake. -/
def Serving (intake : Intake) (around : intake.Around) (base : Nat) (argument : Bool)
    (input : List Cell) (known : Frame → Prop) (m : Machine) : Prop :=
  ∃ frame, intake.Serves base argument frame ∧ known frame ∧ intake.Holds around input [frame] m

variable {intake : Intake} {around : intake.Around} {input : List Cell} {m : Machine} {base : Nat}
  {argument : Bool} {known : Frame → Prop}

theorem Serving.begin (serving : intake.Serving around base argument input known m) :
    Gives (Engine.startExpression (intake.frame + 1)) m ()
      (intake.Serving around base argument input fun _ => True) := by
  obtain ⟨frame, serves, -, holds⟩ := serving
  unfold Engine.startExpression
  refine Holds.outlasts.poll holds fun m holds => ?_
  obtain ⟨feed, run, -⟩ := holds.feed_run
  refine .asked holds.frame_above ?_
  rw [serves.feed]
  refine .asked run (.bind (holds.lookahead false) fun m holds => ?_)
  refine (holds.onAbove _).weaken fun m holds => ⟨_, ?_, trivial, holds⟩
  exact ⟨serves.feed, serves.single, serves.argument, serves.base⟩

theorem Serving.look {c : Cell} (more : c.isEnd = false)
    (serving : intake.Serving around base argument (c :: input) known m) :
    Gives (Engine.lookahead (intake.frame + 1)) m (.reevaluate c none)
      (intake.Serving around base argument input known) := by
  obtain ⟨frame, serves, knows, holds⟩ := serving
  obtain ⟨feed, run, supplies⟩ := holds.feed_run
  have current : feed.isEnd = false := by
    rw [Feed.isEnd, supplies.value, List.cons_append, List.headD_cons, more]
  obtain ⟨m', fetched, holds'⟩ := holds.fetchKept
  obtain ⟨next, run', supplies'⟩ := holds'.feed_run
  rw [← serves.feed] at run run' fetched
  exact ⟨m', Engine.lookahead_quiet holds.frame_above run current fetched holds'.frame_above run'
    (holds'.next_quiet supplies'), frame, serves, knows, holds'⟩

theorem Serving.evaluate (e : Engine) {c v : Cell} (means : c.Means v)
    (serving : intake.Serving around base argument input known m) :
    Gives (Engine.evalCell e (intake.frame + 1) c none) m .postSwitch
      (intake.Serving around base argument input fun frame =>
        frame.out = { v with unevaluated := true, stale := false }) := by
  obtain ⟨frame, serves, -, holds⟩ := serving
  obtain ⟨feed, run, -⟩ := holds.feed_run
  rw [← serves.feed] at run
  rw [Gives, Engine.evalCell_means e means holds.frame_above run]
  refine Gives.bind (holds.onAbove _) fun m holds => .pure ⟨_, ?_, rfl, holds⟩
  exact ⟨serves.feed, serves.single, serves.argument, serves.base⟩

theorem Serving.settle (serving : intake.Serving around base argument input known m) :
    Gives (Engine.postSwitch (intake.frame + 1)) m .finished
      (intake.Serving around base argument input known) := by
  obtain ⟨frame, serves, knows, holds⟩ := serving
  obtain ⟨feed, run, supplies⟩ := holds.feed_run
  have quiet := holds.next_quiet supplies
  rw [← serves.feed] at run
  refine ⟨m, ?_, frame, serves, knows, holds⟩
  rw [Engine.postSwitch_quiet holds.frame_above run quiet, Engine.afterExpression, serves.single]
  simp

/-- A cell that means a value by itself is evaluated to that. -/
theorem Serving.run (dispatch : Dispatch) (fuel : Nat) {c v : Cell} (means : c.Means v)
    (serving : intake.Serving around base argument (c :: input) known m) :
    Gives (Engine.runSteps dispatch (fuel + 4) (intake.frame + 1) .start) m false
      (intake.Serving around base argument input fun frame =>
        frame.out = { v with unevaluated := argument, stale := false }) := by
  have begun : Gives (Engine.step dispatch ⟨Engine.runSteps dispatch (fuel + 3), fuel + 3⟩
      (intake.frame + 1) .start) m .lookahead (intake.Serving around base argument (c :: input)
        fun _ => True) := .bind serving.begin fun m serving => .pure serving
  refine Gives.steps begun (by simp) fun m serving => ?_
  refine Gives.steps (serving.look means.isEnd) (by simp) fun m serving => ?_
  refine Gives.steps (serving.evaluate _ means) (by simp) fun m serving => ?_
  refine .bind serving.settle fun m serving => ?_
  obtain ⟨frame, serves, out, holds⟩ := serving
  refine .bind (holds.onAbove _) fun m holds => .pure ⟨_, ?_, ?_, holds⟩
  · exact ⟨serves.feed, serves.single, serves.argument, serves.base⟩
  · rw [out, serves.argument, Bool.and_true]

/-- The next cell is evaluated in a frame of its own. -/
theorem Holds.evalSubframe (dispatch : Dispatch) (fuel : Nat) {rounds : Nat} {c v : Cell}
    (means : c.Means v) (argument : Bool) (holds : intake.Holds around (c :: input) [] m) :
    Gives (Engine.evalSubframe ⟨Engine.runSteps dispatch (fuel + 4), rounds⟩ intake.frame argument)
      m (some { v with unevaluated := argument, stale := false })
      (intake.Holds around input []) := by
  obtain ⟨caller, asked, runs⟩ := holds.caller_run
  obtain ⟨m₁, pushed, holds₁⟩ := holds.push { feed := intake.feed, fulfillingArg := argument }
  have serving : intake.Serving around m.stack.size argument (c :: input) (fun _ => True) m₁ :=
    ⟨_, ⟨rfl, rfl, rfl, rfl⟩, trivial, holds₁⟩
  obtain ⟨m₂, ran, frame, serves, out, holds₂⟩ := serving.run dispatch fuel means
  have base : frame.stackBase = m₂.stack.size := by
    rw [serves.base, around.height m m₂ holds.around holds₂.around]
  obtain ⟨m₃, dropped, holds₃⟩ := holds₂.drop base
  refine ⟨m₃, ?_, holds₃⟩
  rw [Engine.evalSubframe, Interp.lift_bind_ok asked, intake.fed caller runs, Interp.withFrame,
    Interp.bind_ok (by rw [Interp.bind_ok pushed, Interp.bind_ok ran, Interp.bind_ok dropped]; rfl)]
  simp [out]

end Intake

end Homoicon
