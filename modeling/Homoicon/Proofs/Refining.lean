import Homoicon.Path.Walk
import Homoicon.Proofs.Running

/-!
# Evaluation that ends as another one does

A computation refines another one if it ends as that one does wherever it ends well.  Code that
evaluates over an engine refines the same code over another engine, if the runs of the one refine
those of the other.  An engine that runs nothing refines every engine, so what is proved of code
that gets by without evaluation holds of that code over any engine.
-/

namespace Homoicon

/-- A computation that ends as another one does wherever it ends well. -/
def Interp.Refines {α : Type} (x y : Interp α) : Prop :=
  ∀ m a next, x m = .ok a next → y m = .ok a next

namespace Interp.Refines

variable {α β : Type} {x y : Interp α}

theorem refl (x : Interp α) : Refines x x := fun _ _ _ done => done

theorem bind {f g : α → Interp β} (first : Refines x y) (later : ∀ a, Refines (f a) (g a)) :
    Refines (x >>= f) (y >>= g) := by
  intro m b last done
  obtain ⟨a, next, ran, done⟩ := bind_eq_ok.mp done
  exact bind_eq_ok.mpr ⟨a, next, first m a next ran, later a next b last done⟩

theorem behind {x : Interp α} {f g : α → Interp β} (later : ∀ a, Refines (f a) (g a)) :
    Refines (x >>= f) (x >>= g) := (refl x).bind later

theorem ite {p : Prop} [Decidable p] {x' y' : Interp α} (first : Refines x y)
    (second : Refines x' y') : Refines (if p then x else x') (if p then y else y') := by
  split
  · exact first
  · exact second

theorem map (f : α → β) (refines : Refines x y) : Refines (f <$> x) (f <$> y) := by
  intro m b next done
  rw [map_run] at done ⊢
  cases ran : x m with
  | error => simp [ran] at done
  | ok a last =>
      rw [ran] at done
      rw [refines m a last ran]
      exact done

theorem guarding (refines : Refines x y) : Refines (guarding x) (guarding y) :=
  .behind fun _ => refines.bind fun _ => .refl _

theorem withFeed (feed : Feed) {f g : FeedId → Interp α} (later : ∀ id, Refines (f id) (g id)) :
    Refines (withFeed feed f) (withFeed feed g) :=
  .behind fun id => (later id).bind fun _ => .refl _

theorem withFrame (frame : Frame) {f g : FrameId → Interp α}
    (later : ∀ id, Refines (f id) (g id)) : Refines (withFrame frame f) (withFrame frame g) :=
  .behind fun id => (later id).bind fun _ => .refl _

end Interp.Refines

/-- A computation whose results all have a property. -/
def Interp.Yields {α : Type} (property : α → Prop) (x : Interp α) : Prop :=
  ∀ ⦃m a next⦄, x m = .ok a next → property a

namespace Interp.Yields

variable {α β : Type} {property : α → Prop}

theorem pure {a : α} (holds : property a) : Yields property (Pure.pure a) := by
  rintro _ _ _ ⟨⟩
  exact holds

theorem behind {owned : β → Prop} {x : Interp β} {f : β → Interp α} (first : Yields owned x)
    (later : ∀ b, owned b → Yields property (f b)) : Yields property (x >>= f) := by
  intro m a next done
  obtain ⟨b, middle, ran, done⟩ := bind_eq_ok.mp done
  exact later b (first ran) done

theorem bind {x : Interp β} {f : β → Interp α} (later : ∀ b, Yields property (f b)) :
    Yields property (x >>= f) := by
  intro m a next done
  obtain ⟨b, middle, -, done⟩ := bind_eq_ok.mp done
  exact later b done

theorem ite {p : Prop} [Decidable p] {yes no : Interp α} (first : Yields property yes)
    (second : Yields property no) : Yields property (if p then yes else no) := by
  split
  · exact first
  · exact second

theorem map {x : Interp β} {f : β → α} (holds : ∀ b, property (f b)) :
    Yields property (f <$> x) := by
  intro m a next done
  rw [map_run] at done
  cases ran : x m with
  | error => simp [ran] at done
  | ok b last =>
      rw [ran] at done
      cases done
      exact holds b

theorem guarding {x : Interp α} (yields : Yields property x) : Yields property (guarding x) :=
  .bind fun _ => .behind yields fun _ holds => .bind fun _ => .pure holds

theorem withFeed (feed : Feed) {f : FeedId → Interp α} (later : ∀ id, Yields property (f id)) :
    Yields property (withFeed feed f) :=
  .bind fun id => .behind (later id) fun _ holds => .bind fun _ => .pure holds

theorem withFrame (frame : Frame) {f : FrameId → Interp α}
    (later : ∀ id, Yields property (f id)) :
    Yields (fun r => property r.1) (withFrame frame f) :=
  .bind fun id => .behind (later id) fun _ holds => .bind fun _ => .pure holds

end Interp.Yields

/-- A computation that does not end well. -/
abbrev Interp.Fails {α : Type} (x : Interp α) : Prop := Yields (fun _ => False) x

theorem Interp.Yields.first {α β : Type} {property : α → Prop} {x : Interp β} {f : β → Interp α}
    (fails : Fails x) : Yields property (x >>= f) := .behind fails fun _ => False.elim

theorem Interp.Fails.fail {α : Type} (cause : Cause) : Fails (Homoicon.fail cause : Interp α) := by
  intro m a next done
  cases done

open Interp

/-- An engine whose runs end as those of another one do. -/
structure Engine.Refines (d e : Engine) : Prop where
  run : ∀ f step, Interp.Refines (d.run f step) (e.run f step)
  rounds : d.rounds = e.rounds

/-- An engine that runs nothing. -/
def Engine.Halts (e : Engine) : Prop := ∀ f step, e.run f step = throw .exhausted

/-- An engine without its runs. -/
def Engine.halted (e : Engine) : Engine := { e with run := fun _ _ => throw .exhausted }

theorem Engine.halted_halts (e : Engine) : e.halted.Halts := fun _ _ => rfl

namespace Engine.Refines

variable {d e : Engine}

theorem refl (e : Engine) : Refines e e := ⟨fun _ _ => .refl _, rfl⟩

theorem halted (e : Engine) : Refines e.halted e := by
  refine ⟨fun f step m answer next done => ?_, rfl⟩
  cases done

variable (refines : d.Refines e)

include refines

theorem evalArray (array : SeriesId) (index : Nat) (specifier : Specifier) :
    Interp.Refines (d.evalArray array index specifier) (e.evalArray array index specifier) := by
  refine .bind (.behind fun _ => .bind ?run fun _ => .refl _) fun _ => .refl _
  case run =>
    exact .withFeed _ fun feed => .withFrame _ fun f => refines.run f .start

theorem doBlock (block : Cell) : Interp.Refines (d.doBlock block) (e.doBlock block) :=
  .behind fun _ => refines.evalArray _ _ _

theorem evalStepAt (array : SeriesId) (index : Nat) (specifier : Specifier) :
    Interp.Refines (d.evalStepAt array index specifier) (e.evalStepAt array index specifier) :=
  .behind fun _ => .withFeed _ fun _ =>
    .bind (.withFrame _ fun f => refines.run f .start) fun _ => .refl _

theorem reduceRest (f : FrameId) (feed : FeedId) (rounds : Nat) (reversed : List Cell) :
    Interp.Refines (d.reduceRest f feed rounds reversed) (e.reduceRest f feed rounds reversed) := by
  induction rounds generalizing reversed with
  | zero => exact .refl _
  | succ rounds ih =>
      unfold Engine.reduceRest
      exact .behind fun _ => .ite (.refl _) <| .behind fun _ => .bind (refines.run f .start) fun _ =>
        .ite (.refl _) <| .behind fun _ => .ite (ih _) <| .behind fun _ => ih _

theorem reduce (array : SeriesId) (index : Nat) (specifier : Specifier) :
    Interp.Refines (d.reduce array index specifier) (e.reduce array index specifier) := by
  unfold Engine.reduce
  rw [refines.rounds]
  exact .behind fun _ => .bind
    (.guarding (.withFeed _ fun feed => .withFrame _ fun f => refines.reduceRest f feed _ _))
    fun _ => .refl _

/-! ## Paths -/

theorem picker (item : Cell) (specifier : Specifier) (noGroups : Bool) :
    Interp.Refines (Path.picker d item specifier noGroups)
      (Path.picker e item specifier noGroups) := by
  refine .ite (.refl _) ?_
  dsimp only
  cases item.kind with
  | group => exact .ite (.refl _) (.behind fun _ => refines.evalArray _ _ _)
  | _ => exact .refl _

theorem refinement (item : Cell) (specifier : Specifier) (noGroups : Bool) :
    Interp.Refines (Path.refinement d item specifier noGroups)
      (Path.refinement e item specifier noGroups) := by
  have picked := refines.picker item specifier noGroups
  refine .ite (.refl _) ?_
  cases item.kind with
  | group => exact .bind picked fun _ => .refl _
  | _ => exact .refl _

theorem pushNames (specifier : Specifier) (noGroups : Bool) (base : Nat) (items : List Cell) :
    Interp.Refines (Path.pushNames d specifier noGroups base items)
      (Path.pushNames e specifier noGroups base items) := by
  induction items with
  | nil => exact .refl _
  | cons item rest ih =>
      refine .bind (refines.refinement item specifier noGroups) fun
        | none => .refl _
        | some none => ih
        | some (some _) => .behind fun _ => ih

theorem pushRefinements (rest : List Cell) (specifier : Specifier) (noGroups : Bool) :
    Interp.Refines (Path.pushRefinements d rest specifier noGroups)
      (Path.pushRefinements e rest specifier noGroups) :=
  .behind fun base => .bind (refines.pushNames specifier noGroups base rest) fun _ => .refl _

theorem walk (specifier : Specifier) (noGroups : Bool) (current previous : Cell)
    (label : Option SymbolId) (items : List Cell) :
    Interp.Refines (Path.walk d specifier noGroups current previous label items)
      (Path.walk e specifier noGroups current previous label items) := by
  induction items generalizing current previous label with
  | nil => exact .refl _
  | cons item rest ih =>
      unfold Path.walk
      cases current.asAction? with
      | some action => exact .bind (refines.pushRefinements _ _ _) fun _ => .refl _
      | none =>
          exact .ite (.refl _) <| .bind (refines.picker item specifier noGroups) fun
            | none => .refl _
            | some _ => .behind fun _ => ih _ _ _

theorem evalPath (path : Cell) (specifier : Specifier) (noGroups : Bool) :
    Interp.Refines (Path.eval d path specifier noGroups) (Path.eval e path specifier noGroups) := by
  refine .behind fun _ => .ite (.refl _) <| .behind fun _ => .behind fun
    | [] => .refl _
    | head :: rest => .ite (.behind fun _ => refines.walk _ _ _ _ _ _) <|
        .bind (refines.picker _ _ _) fun
          | none => .refl _
          | some _ => refines.walk _ _ _ _ _ _

theorem getPath (path : Cell) (specifier : Specifier) (noGroups : Bool) :
    Interp.Refines (Path.get d path specifier noGroups) (Path.get e path specifier noGroups) :=
  .behind fun _ => .bind (refines.evalPath _ _ _) fun _ => .refl _

end Engine.Refines

/-! ## Engines that run nothing -/

namespace Engine.Halts

variable {e : Engine} (halts : e.Halts)

include halts

theorem run (f : FrameId) (step : Step) : Fails (e.run f step) := by
  intro m answer next done
  rw [halts f step] at done
  cases done

theorem evalArray (array : SeriesId) (index : Nat) (specifier : Specifier) :
    Fails (e.evalArray array index specifier) := by
  have failed : Fails (e.evalArray? array index specifier) := Yields.bind fun _ =>
    .first (.withFeed _ fun _ => .withFrame _ fun f => halts.run f .start)
  exact .first failed

theorem doBlock (block : Cell) : Fails (e.doBlock block) :=
  Yields.bind fun _ => halts.evalArray _ _ _

theorem evalStepAt (array : SeriesId) (index : Nat) (specifier : Specifier) :
    Fails (e.evalStepAt array index specifier) :=
  Yields.bind fun _ => .withFeed _ fun _ => .first <| .withFrame _ fun f => halts.run f .start

theorem reduceRest (f : FrameId) (feed : FeedId) (rounds : Nat) (reversed : List Cell) :
    Yields (fun items => items.isSome = true) (e.reduceRest f feed rounds reversed) := by
  cases rounds with
  | zero =>
      intro m items next done
      cases done
  | succ =>
      unfold Engine.reduceRest
      exact .bind fun _ => .ite (.pure rfl) (.bind fun _ => .first (halts.run f .start))

/-- An array that is reduced without a run has nothing in it that throws. -/
theorem reduce (array : SeriesId) (index : Nat) (specifier : Specifier) :
    Yields (fun block => block.isSome = true) (e.reduce array index specifier) := by
  have rest (feed : FeedId) := fun f => halts.reduceRest f feed e.rounds []
  refine .bind fun _ => .behind (.guarding (.withFeed _ fun feed => .withFrame _ (rest feed))) ?_
  rintro ⟨_ | items, _⟩ some
  · cases some
  · exact .map fun _ => rfl

end Engine.Halts

end Homoicon
