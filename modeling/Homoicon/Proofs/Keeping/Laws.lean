import Homoicon.Evaluation.Engine
import Homoicon.Proofs.Running
import Homoicon.Proofs.Stacks.Library

/-!
# Laws that computations keep

A law is a property of machines in which the stacks have no part: it is about the heap and the
names only.  A computation keeps it if it holds behind the computation whenever it held before,
whether the computation ends well or fails.
-/

open Std.Do

set_option mvcgen.warning false

namespace Homoicon

/-- A property of the heap and the names of a machine. -/
structure Law where
  holds : Machine → Prop
  congr : ∀ {m next : Machine}, next.heap = m.heap → next.symbols = m.symbols →
    holds m → holds next

/-- Whether a law holds in a machine. -/
def Machine.Obeys (m : Machine) (law : Law) : Prop := law.holds m

theorem Machine.Obeys.congr {law : Law} {m next : Machine} (here : m.Obeys law)
    (heap : next.heap = m.heap) (symbols : next.symbols = m.symbols) : next.Obeys law :=
  law.congr heap symbols here

/-- A computation behind which a law holds that held before it. -/
abbrev Keeping {α : Type} (law : Law) (x : Interp α) : Prop :=
  ⦃fun m => ⌜m.Obeys law⌝⦄ x ⦃post⟨fun _ m => ⌜m.Obeys law⌝, fun _ m => ⌜m.Obeys law⌝⟩⦄

/-- The machine that a computation leaves behind, whether it ends well or fails. -/
def Interp.final {α : Type} (x : Interp α) (m : Machine) : Machine :=
  match x m with
  | .ok _ next => next
  | .error _ next => next

theorem Interp.final_of_triple {α : Type} {before after : Machine → Prop} {x : Interp α}
    (correct : ⦃fun m => ⌜before m⌝⦄ x ⦃post⟨fun _ m => ⌜after m⌝, fun _ m => ⌜after m⌝⟩⦄)
    {m : Machine} (here : before m) : after (x.final m) := by
  have done := triple_iff.mp correct m here
  unfold final
  cases ended : x m <;> simpa only [ended] using done

namespace Law

open Interp

variable {α β : Type} (law : Law)

theorem obeys_of_fails {x : Interp α} {fault : Fault} (fails : ∀ m, x m = .error fault m)
    (done : α → Assertion (.arg Machine .pure)) :
    ⦃fun m => ⌜m.Obeys law⌝⦄ x ⦃post⟨done, fun _ m => ⌜m.Obeys law⌝⟩⦄ := by
  intro m here
  simp only [wp, PredTrans.apply, EStateM.run, fails]
  exact here

@[scoped spec high]
theorem ask_keeping (q : Query α) : Keeping law q.ask := by
  refine triple_iff.mpr fun m here => ?_
  unfold Query.ask
  cases q m with
  | ok => exact here
  | error => exact here

@[scoped spec high]
theorem lift_keeping (q : Query α) : Keeping law (MonadLift.monadLift q : Interp α) :=
  ask_keeping law q

/-- A question that is answered, where the answer matters. -/
theorem answered {before failed : Machine → Prop} {after : α → Machine → Prop} (q : Query α)
    (good : ∀ m a, before m → q m = .ok a → after a m) (bad : ∀ m, before m → failed m) :
    ⦃fun m => ⌜before m⌝⦄ (MonadLift.monadLift q : Interp α)
    ⦃post⟨fun a m => ⌜after a m⌝, fun _ m => ⌜failed m⌝⟩⦄ := by
  refine triple_iff.mpr fun m here => ?_
  change match q.ask m with
    | .ok a next => after a next
    | .error _ next => failed next
  rw [ask_run]
  cases answer : q m with
  | ok a => exact good m a here answer
  | error => exact bad m here

theorem asked {before failed : Machine → Prop} (q : Query α) (weaker : ∀ m, before m → failed m) :
    ⦃fun m => ⌜before m⌝⦄ (MonadLift.monadLift q : Interp α)
    ⦃post⟨fun a m => ⌜before m ∧ q m = .ok a⌝, fun _ m => ⌜failed m⌝⟩⦄ :=
  answered q (fun _ _ here answer => ⟨here, answer⟩) weaker

/-- A question changes nothing, whatever its answer. -/
theorem reading {before failed : Machine → Prop} (q : Query α) (weaker : ∀ m, before m → failed m) :
    ⦃fun m => ⌜before m⌝⦄ (MonadLift.monadLift q : Interp α)
    ⦃post⟨fun _ m => ⌜before m⌝, fun _ m => ⌜failed m⌝⟩⦄ :=
  answered q (fun _ _ here _ => here) weaker

@[scoped spec high]
theorem fail_keeping (cause : Cause) (done : α → Assertion (.arg Machine .pure)) :
    ⦃fun m => ⌜m.Obeys law⌝⦄ (fail cause : Interp α) ⦃post⟨done, fun _ m => ⌜m.Obeys law⌝⟩⦄ :=
  obeys_of_fails law (fun _ => rfl) done

@[scoped spec high]
theorem defect_keeping (done : α → Assertion (.arg Machine .pure)) :
    ⦃fun m => ⌜m.Obeys law⌝⦄ (defect : Interp α) ⦃post⟨done, fun _ m => ⌜m.Obeys law⌝⟩⦄ :=
  obeys_of_fails law (fun _ => rfl) done

@[scoped spec high]
theorem expect_keeping (a : Option α) : Keeping law (expect a : Interp α) := by
  refine triple_iff.mpr fun m here => ?_
  cases a with
  | none => exact here
  | some a => exact here

@[scoped spec high]
theorem exact64_keeping (i : Int) : Keeping law (exact64 i : Interp Int) := by
  unfold exact64
  mvcgen

@[scoped spec high]
theorem place_keeping (start : Nat) (n : Int) : Keeping law (Path.place start n) := by
  unfold Path.place
  mvcgen

@[scoped spec high]
theorem forM_keeping (items : List β) (body : β → Interp PUnit)
    (kept : ∀ item ∈ items, Keeping law (body item)) : Keeping law (items.forM body) := by
  induction items with
  | nil =>
      change Keeping law (pure PUnit.unit)
      mvcgen
  | cons item items ih =>
      have first := kept item List.mem_cons_self
      have others := ih fun other member => kept other (List.mem_cons_of_mem item member)
      exact Triple.bind _ _ first fun _ => others

@[scoped spec high]
theorem mapM_keeping (items : List α) (body : α → Interp β)
    (kept : ∀ item ∈ items, Keeping law (body item)) : Keeping law (items.mapM body) := by
  induction items with
  | nil =>
      rw [List.mapM_nil]
      mvcgen
  | cons item items ih =>
      have first := kept item List.mem_cons_self
      have others := ih fun other member => kept other (List.mem_cons_of_mem item member)
      rw [List.mapM_cons]
      refine Triple.bind _ _ first fun _ => Triple.bind _ _ others fun _ => ?_
      mvcgen

@[scoped spec high]
theorem forCells_keeping (id : SeriesId) (body : Nat → Cell → Interp Unit)
    (kept : ∀ i c, Keeping law (body i c)) : Keeping law (forCells id body) := by
  unfold forCells
  mvcgen [kept]

@[scoped spec high]
theorem nestingBound_keeping : Keeping law nestingBound := by
  unfold nestingBound
  mvcgen

@[scoped spec high]
theorem modifyFrame_keeping (f : FrameId) (g : Frame → Frame) : Keeping law (modifyFrame f g) := by
  refine triple_iff.mpr fun m here => ?_
  unfold modifyFrame
  by_cases running : f < m.frames.size
  · rw [if_pos running]
    exact here.congr rfl rfl
  · rw [if_neg running]
    exact here

@[scoped spec high]
theorem modifyFeed_keeping (id : FeedId) (g : Feed → Feed) : Keeping law (modifyFeed id g) := by
  refine triple_iff.mpr fun m here => ?_
  unfold modifyFeed
  by_cases open_ : id < m.feeds.size
  · rw [if_pos open_]
    exact here.congr rfl rfl
  · rw [if_neg open_]
    exact here

@[scoped spec high]
theorem writeOut_keeping (f : FrameId) (c : Cell) : Keeping law (writeOut f c) :=
  modifyFrame_keeping law f _

@[scoped spec high]
theorem setOut_keeping (f : FrameId) (c : Cell) : Keeping law (setOut f c) :=
  writeOut_keeping law f _

@[scoped spec high]
theorem guard_keeping (c : Cell) : Keeping law (guard c) :=
  triple_iff.mpr fun _ here => here.congr rfl rfl

@[scoped spec high]
theorem unguardTo_keeping (mark : Nat) : Keeping law (unguardTo mark) :=
  triple_iff.mpr fun _ here => here.congr rfl rfl

@[scoped spec high]
theorem guardMark_keeping : Keeping law guardMark := by
  unfold guardMark
  mvcgen

@[scoped spec high]
theorem guarding_keeping (body : Interp α) (kept : Keeping law body) :
    Keeping law (guarding body) := by
  unfold guarding
  mvcgen [kept]

@[scoped spec high]
theorem stackHeight_keeping : Keeping law stackHeight := by
  unfold stackHeight
  mvcgen

@[scoped spec high]
theorem pushStack_keeping (c : Cell) : Keeping law (pushStack c) := by
  refine triple_iff.mpr fun m here => ?_
  unfold pushStack
  by_cases full : m.config.dataStackLimit ≤ m.stack.size
  · rw [if_pos full]
    exact here
  · rw [if_neg full]
    exact here.congr rfl rfl

@[scoped spec high]
theorem truncateStack_keeping (height : Nat) : Keeping law (truncateStack height) :=
  triple_iff.mpr fun _ here => here.congr rfl rfl

@[scoped spec high]
theorem beginThrow_keeping (label value : Cell) : Keeping law (beginThrow label value) :=
  triple_iff.mpr fun _ here => here.congr rfl rfl

@[scoped spec high]
theorem takeThrown_keeping : Keeping law takeThrown := by
  refine triple_iff.mpr fun m here => ?_
  unfold takeThrown
  cases m.thrown with
  | none => exact here
  | some t => exact here.congr rfl rfl

@[scoped spec high]
theorem thrownLabel?_keeping : Keeping law thrownLabel? := by
  unfold thrownLabel?
  mvcgen

/-! ## Feeds and frames -/

@[scoped spec high]
theorem pushFeed_keeping (feed : Feed) : Keeping law (pushFeed feed) :=
  triple_iff.mpr fun _ here => here.congr rfl rfl

@[scoped spec high]
theorem dropFeed_keeping (id : FeedId) : Keeping law (dropFeed id) :=
  triple_iff.mpr fun _ here => here.congr rfl rfl

@[scoped spec high]
theorem withFeed_keeping (feed : Feed) (body : FeedId → Interp α)
    (kept : ∀ id, Keeping law (body id)) : Keeping law (withFeed feed body) := by
  unfold withFeed
  mvcgen [kept]

@[scoped spec high]
theorem fetchNext_keeping (id : FeedId) : Keeping law (fetchNext id) := by
  unfold fetchNext
  mvcgen

@[scoped spec high]
theorem pushFrame_keeping (frame : Frame) : Keeping law (pushFrame frame) := by
  refine triple_iff.mpr fun m here => ?_
  unfold pushFrame
  by_cases full : m.config.isFull m.frames.size = true
  · rw [if_pos full]
    exact here
  · rw [if_neg full]
    exact here.congr rfl rfl

@[scoped spec high]
theorem dropFrame_keeping (f : FrameId) : Keeping law (dropFrame f) := by
  unfold dropFrame
  mvcgen
  rename_i here _
  exact here.congr rfl rfl

@[scoped spec high]
theorem withFrame_keeping (frame : Frame) (body : FrameId → Interp α)
    (kept : ∀ f, Keeping law (body f)) : Keeping law (withFrame frame body) := by
  unfold withFrame
  mvcgen [kept]

end Law

namespace Interp

theorem obeys_of_ok {α : Type} {law : Law} {x : Interp α} (kept : Keeping law x)
    {m next : Machine} {a : α} (here : m.Obeys law) (done : x m = .ok a next) : next.Obeys law := by
  have behind := triple_iff.mp kept m here
  rwa [done] at behind

/-- What follows a question may rely on its answer. -/
theorem keeping_answer {α β : Type} {law : Law} {q : Query α} {next : α → Interp β}
    (kept : ∀ m a, m.Obeys law → q m = .ok a → Keeping law (next a)) : Keeping law (q.ask >>= next) := by
  refine triple_iff.mpr fun m here => ?_
  rw [bind_run, ask_run]
  cases answer : q m with
  | error => exact here
  | ok a => exact triple_iff.mp (kept m a here answer) m here

end Interp

/-! ## Evaluation in passing -/

/-- An engine that keeps a law whatever frame it runs. -/
def Engine.Keeps (e : Engine) (law : Law) : Prop :=
  ∀ (f : FrameId) (step : Step), Keeping law (e.run f step)

namespace Engine

open Law

variable {e : Engine} {law : Law} (safe : e.Keeps law)

include safe

theorem evalArray?_keeping (array : SeriesId) (index : Nat) (specifier : Specifier) :
    Keeping law (e.evalArray? array index specifier) := by
  have ran (f : FrameId) := safe f .start
  unfold evalArray?
  mvcgen [ran]

theorem evalArray_keeping (array : SeriesId) (index : Nat) (specifier : Specifier) :
    Keeping law (e.evalArray array index specifier) := by
  have ran := evalArray?_keeping safe array index specifier
  unfold evalArray
  mvcgen [ran]

theorem doBlock_keeping (block : Cell) : Keeping law (e.doBlock block) := by
  have ran := evalArray_keeping safe
  unfold doBlock
  mvcgen [ran]

theorem evalSubframe_keeping (parent : FrameId) (fulfillingArg : Bool) :
    Keeping law (e.evalSubframe parent fulfillingArg) := by
  have ran (f : FrameId) := safe f .start
  unfold evalSubframe
  mvcgen [ran]

theorem evalStepAt_keeping (array : SeriesId) (index : Nat) (specifier : Specifier) :
    Keeping law (e.evalStepAt array index specifier) := by
  have ran (f : FrameId) := safe f .start
  unfold evalStepAt
  mvcgen [ran]

theorem reduceRest_keeping (f : FrameId) (feed : FeedId) (rounds : Nat) (reversed : List Cell) :
    Keeping law (e.reduceRest f feed rounds reversed) := by
  have ran := safe f .start
  induction rounds generalizing reversed with
  | zero => exact obeys_of_fails law (fun _ => rfl) _
  | succ rounds ih =>
      unfold reduceRest
      mvcgen [ran, ih]

end Engine

end Homoicon
