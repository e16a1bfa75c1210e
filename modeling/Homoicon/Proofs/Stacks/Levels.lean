import Mathlib
import Homoicon.Proofs.Arena
import Homoicon.Trap

/-!
# How high the stacks stand

Computations are judged by what they do to the heights of the stacks.  A level says which frames
are running, how high the other stacks may be and whether a throw may be in progress.  A
computation that keeps a level comes back to it; one that is `Calm` also begins no throw.  When a
fault cuts a computation short, the frames below it are still there, which is all that a trap
needs to clean up.
-/

open Std.Do

set_option mvcgen.warning false

namespace Homoicon

/-- A series that the collector does not own. -/
def Heap.Manual (h : Heap) (id : SeriesId) : Prop :=
  ∃ s, h.get? id = some s ∧ s.has Flags.managed = false

/-- The list of series to be freed by hand names those that the collector does not own, each
once. -/
structure Accounted (heap : Heap) (manuals : Array SeriesId) : Prop where
  distinct : manuals.toList.Nodup
  listed : ∀ id, id ∈ manuals.toList ↔ heap.Manual id

/-- The heights that a computation starts from and has to come back to. -/
structure Levels where
  /-- Where each running frame found the data stack, the outermost first. -/
  bases : List Nat
  feeds : ℕ∞
  stack : ℕ∞
  guards : ℕ∞
  /-- No throw is in progress. -/
  quiet : Bool

namespace Levels

/-- Nothing runs and nothing is kept. -/
def ground : Levels := ⟨[], 0, 0, 0, true⟩

/-- The level after a computation that may have begun a throw. -/
def after (l : Levels) (threw : Bool) : Levels := { l with quiet := l.quiet && !threw }

/-- The level with any number of guarded cells. -/
def unguarded (l : Levels) : Levels := { l with guards := ⊤ }

/-- The level with any number of feeds. -/
def fed (l : Levels) : Levels := { l with feeds := ⊤ }

/-- The level inside a new frame. -/
def within (l : Levels) (base : Nat) : Levels := { l with bases := l.bases ++ [base], stack := ⊤ }

@[simp] theorem after_false (l : Levels) : l.after false = l := by simp [after]

@[simp] theorem after_after (l : Levels) (threw again : Bool) :
    (l.after threw).after again = l.after (threw || again) := by
  simp [after, Bool.and_assoc]

@[simp] theorem stack_after (l : Levels) (threw : Bool) : (l.after threw).stack = l.stack := rfl

@[simp] theorem stack_unguarded (l : Levels) : l.unguarded.stack = l.stack := rfl

@[simp] theorem stack_fed (l : Levels) : l.fed.stack = l.stack := rfl

@[simp] theorem stack_within (l : Levels) (base : Nat) : (l.within base).stack = ⊤ := rfl

@[simp] theorem guards_after (l : Levels) (threw : Bool) :
    (l.after threw).guards = l.guards := rfl

@[simp] theorem guards_unguarded (l : Levels) : l.unguarded.guards = ⊤ := rfl

@[simp] theorem guards_fed (l : Levels) : l.fed.guards = l.guards := rfl

@[simp] theorem guards_within (l : Levels) (base : Nat) :
    (l.within base).guards = l.guards := rfl

end Levels

namespace Machine

/-- A machine that stands at a level. -/
structure At (m : Machine) (l : Levels) : Prop where
  bases : m.frames.toList.map (·.stackBase) = l.bases
  feeds : m.feeds.size ≤ l.feeds
  stack : m.stack.size ≤ l.stack
  guards : m.guards.size ≤ l.guards
  quiet : l.quiet = true → m.thrown = none
  accounted : Accounted m.heap m.manuals

/-- A machine in which the frames of a level are still there. -/
structure Above (m : Machine) (l : Levels) : Prop where
  bases : l.bases <+: m.frames.toList.map (·.stackBase)
  accounted : Accounted m.heap m.manuals

variable {m : Machine} {l : Levels}

@[simp] theorem At.above (here : m.At l) : m.Above l :=
  ⟨here.bases ▸ List.prefix_rfl, here.accounted⟩

@[simp] theorem above_after (threw : Bool) : m.Above (l.after threw) ↔ m.Above l :=
  ⟨fun h => ⟨h.bases, h.accounted⟩, fun h => ⟨h.bases, h.accounted⟩⟩

@[simp] theorem above_unguarded : m.Above l.unguarded ↔ m.Above l :=
  ⟨fun h => ⟨h.bases, h.accounted⟩, fun h => ⟨h.bases, h.accounted⟩⟩

@[simp] theorem above_fed : m.Above l.fed ↔ m.Above l :=
  ⟨fun h => ⟨h.bases, h.accounted⟩, fun h => ⟨h.bases, h.accounted⟩⟩

theorem Above.of_within {base : Nat} (above : m.Above (l.within base)) : m.Above l :=
  ⟨(List.prefix_append l.bases [base]).trans above.bases, above.accounted⟩

theorem At.after (here : m.At l) (threw : Bool) : m.At (l.after threw) :=
  ⟨here.bases, here.feeds, here.stack, here.guards,
    fun quiet => here.quiet (Bool.and_eq_true_iff.mp quiet).1, here.accounted⟩

/-- Only the stacks and what is listed matter. -/
theorem At.congr {next : Machine} (here : m.At l) (frames : next.frames = m.frames)
    (feeds : next.feeds = m.feeds) (stack : next.stack = m.stack)
    (guards : next.guards = m.guards) (thrown : next.thrown = m.thrown)
    (heap : next.heap = m.heap) (manuals : next.manuals = m.manuals) : next.At l :=
  ⟨frames ▸ here.bases, feeds ▸ here.feeds, stack ▸ here.stack, guards ▸ here.guards,
    thrown ▸ here.quiet, heap ▸ manuals ▸ here.accounted⟩

theorem At.onHeap {f : Heap → Heap} (here : m.At l) (accounted : Accounted (f m.heap) m.manuals) :
    (m.onHeap f).At l :=
  ⟨here.bases, here.feeds, here.stack, here.guards, here.quiet, accounted⟩

theorem At.size_frames (here : m.At l) : m.frames.size = l.bases.length := by
  rw [← here.bases]
  simp

end Machine

/-- What a triple about a computation says of its runs. -/
theorem Interp.triple_iff {α : Type} {x : Interp α} {before : Machine → Prop}
    {done : α → Machine → Prop} {failed : Machine → Prop} :
    ⦃fun m => ⌜before m⌝⦄ x ⦃post⟨fun a m => ⌜done a m⌝, fun _ m => ⌜failed m⌝⟩⦄ ↔
      ∀ m, before m → match x m with
        | .ok a next => done a next
        | .error _ next => failed next := by
  have unfolded : ∀ m,
      (wp⟦x⟧ post⟨fun a m => ⌜done a m⌝, fun _ m => ⌜failed m⌝⟩ m).down ↔
        match x m with
          | .ok a next => done a next
          | .error _ next => failed next := by
    intro m
    simp only [wp, PredTrans.apply, EStateM.run]
    cases x m <;> simp
  constructor
  · intro triple m holds
    exact (unfolded m).mp (triple m holds)
  · intro runs m holds
    exact (unfolded m).mpr (runs m holds)

/-- A computation that comes back to a level; `threw` tells from its result whether a throw is then
in progress. -/
abbrev Keeps {α : Type} (threw : α → Bool) (l : Levels) (x : Interp α) : Prop :=
  ⦃fun m => ⌜m.At l⌝⦄ x ⦃post⟨fun a m => ⌜m.At (l.after (threw a))⌝, fun _ m => ⌜m.Above l⌝⟩⦄

/-- A computation that comes back to a level and begins no throw. -/
abbrev Calm {α : Type} (l : Levels) (x : Interp α) : Prop :=
  ⦃fun m => ⌜m.At l⌝⦄ x ⦃post⟨fun _ m => ⌜m.At l⌝, fun _ m => ⌜m.Above l⌝⟩⦄

/-- A computation that starts during a throw, which it may end. -/
abbrev Catches {α : Type} (threw : α → Bool) (l : Levels) (x : Interp α) : Prop :=
  ⦃fun m => ⌜m.At (l.after true)⌝⦄ x
  ⦃post⟨fun a m => ⌜m.At (l.after (threw a))⌝, fun _ m => ⌜m.Above l⌝⟩⦄

end Homoicon
