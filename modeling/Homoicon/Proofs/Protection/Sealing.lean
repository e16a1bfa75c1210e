import Homoicon.Path.Step
import Homoicon.Proofs.Keeping.Series

/-!
# What is protected

A series that may not be changed keeps its content through every action that changes series: each
of them looks at the flag of the series before it writes.  A variable carries its protection in the
cell that holds its value, and whatever writes to variables by name looks at that cell first.
-/

open Std.Do

set_option mvcgen.warning false

namespace Homoicon

/-! ## Series -/

/-- May not be changed, belongs to no other series, and has a content. -/
def Series.Trait.sealed (content : Content) : Series.Trait where
  holds s := s.has Flags.locked = true ∧ s.link = .none ∧ s.content = content
  withFlags added := fun ⟨locked, unlinked, same⟩ => by
    refine ⟨?_, unlinked, same⟩
    rw [Series.has_withFlags, locked, Bool.true_or]

/-- A series is protected and has a content. -/
abbrev Law.sealed (id : SeriesId) (content : Content) : Law := .of id (.sealed content)

namespace Protection

open Law Interp Series.Trait

variable {id : SeriesId} {content : Content}

/-- What may be changed is not the protected series. -/
@[scoped spec 20000]
theorem checkMutable_sealed (i : SeriesId) :
    ⦃fun m => ⌜m.Obeys (.sealed id content)⌝⦄
    (MonadLift.monadLift (Query.checkMutable i) : Interp Unit)
    ⦃post⟨fun _ m => ⌜m.Obeys (.sealed id content) ∧ i ≠ id⌝,
      fun _ m => ⌜m.Obeys (.sealed id content)⌝⟩⦄ := by
  refine asked_apart _ i fun m s live ⟨locked, _⟩ _ free => ?_
  obtain ⟨flag, asked, free⟩ := Query.bind_eq_ok.mp free
  obtain ⟨_, same, rfl⟩ := Query.hasFlag_eq_ok.mp asked
  obtain rfl := Option.some.inj (live.symm.trans same)
  rw [locked, if_pos rfl] at free
  cases free

/-! ## Writing -/

@[scoped spec high]
theorem insertAt_sealed (series : Cell) (at_ : Nat) (value : Cell) (only : Bool)
    (part : Option Nat) (times : Nat) :
    Keeping (.sealed id content) (insertAt series at_ value only part times) := by
  unfold insertAt
  mvcgen
  all_goals first
    | exact And.left ‹_›
    | exact fun same => absurd same (And.right ‹_›)

@[scoped spec high]
theorem removeSpan_sealed (series : Cell) (at_ count : Nat) :
    Keeping (.sealed id content) (removeSpan series at_ count) := by
  unfold removeSpan
  mvcgen
  all_goals first
    | exact And.left ‹_›
    | exact fun same => absurd same (And.right ‹_›)

/-! ## Picking and poking -/

@[scoped spec high]
theorem arrayStep_sealed (current picker : Cell) (setval : Option Cell) :
    Keeping (.sealed id content) (Path.arrayStep current picker setval) := by
  unfold Path.arrayStep
  mvcgen
  all_goals first
    | exact And.left ‹_›
    | exact fun same => absurd same (And.right ‹_›)

@[scoped spec high]
theorem stringStep_sealed (current picker : Cell) (setval : Option Cell) :
    Keeping (.sealed id content) (Path.stringStep current picker setval) := by
  unfold Path.stringStep
  mvcgen
  all_goals first
    | exact And.left ‹_›
    | exact fun same => absurd same (And.right ‹_›)

@[scoped spec high]
theorem binaryStep_sealed (current picker : Cell) (setval : Option Cell) :
    Keeping (.sealed id content) (Path.binaryStep current picker setval) := by
  unfold Path.binaryStep
  mvcgen
  all_goals first
    | exact And.left ‹_›
    | exact fun same => absurd same (And.right ‹_›)

@[scoped spec high]
theorem contextStep_sealed (current picker : Cell) (setval : Option Cell) :
    Keeping (.sealed id content) (Path.contextStep current picker setval) := by
  refine contextStep_of ?_ current picker setval
  exact fun _ ⟨_, unlinked, _⟩ => unlinked

@[scoped spec high]
theorem step_sealed (current picker : Cell) (setval : Option Cell) :
    Keeping (.sealed id content) (Path.step current picker setval) := by
  unfold Path.step Path.pairStep Path.tupleStep Path.dateStep Path.timeStep
  mvcgen

@[scoped spec high]
theorem pick_sealed (current picker : Cell) :
    Keeping (.sealed id content) (Path.pick current picker) := by
  unfold Path.pick
  mvcgen

@[scoped spec high]
theorem poke_sealed (current picker value : Cell) :
    Keeping (.sealed id content) (Path.poke current picker value) := by
  unfold Path.poke
  mvcgen

/-! ## Actions -/

theorem insertWith_sealed (place : Cell → Query Nat) (result : Cell → Nat → Nat) (e : Engine)
    (f : FrameId) : Keeping (.sealed id content) (Library.insertWith place result e f) := by
  unfold Library.insertWith
  mvcgen

theorem pokeAction_sealed (e : Engine) (f : FrameId) :
    Keeping (.sealed id content) (Library.poke e f) := by
  unfold Library.poke
  mvcgen

theorem clear_sealed (e : Engine) (f : FrameId) :
    Keeping (.sealed id content) (Library.clear e f) := by
  unfold Library.clear
  mvcgen

theorem remove_sealed (e : Engine) (f : FrameId) :
    Keeping (.sealed id content) (Library.remove e f) := by
  unfold Library.remove
  mvcgen

theorem takeFromCall_sealed {e : Engine} (safe : e.Keeps (.sealed id content)) (f : FrameId)
    (p : Typeset) : Keeping (.sealed id content) (Varargs.takeFromCall e f p) := by
  have ran := Engine.evalSubframe_keeping safe
  unfold Varargs.takeFromCall
  mvcgen [ran]

/-- Taking from a variadic argument writes to the array that holds its block. -/
theorem takeVariadic_sealed {e : Engine} (safe : e.Keeps (.sealed id content)) (f : FrameId)
    (varargs : Varargs) (apart : ∀ holder paramlist n,
      varargs = .array holder paramlist n → holder ≠ id) :
    Keeping (.sealed id content) (Library.takeVariadic e f varargs) := by
  have called := takeFromCall_sealed safe
  unfold Library.takeVariadic Varargs.take
  mvcgen [called]
  exact fun same => absurd same (apart _ _ _ ‹_›)

/-- No variadic argument that a call takes first is over the protected series. -/
def Apart (id : SeriesId) (f : FrameId) (m : Machine) : Prop :=
  ∀ c holder paramlist n, Query.arg f 1 m = .ok c →
    c.payload = .varargs (.array holder paramlist n) → holder ≠ id

theorem take_sealed {e : Engine} (safe : e.Keeps (.sealed id content)) (f : FrameId) :
    ⦃fun m => ⌜m.Obeys (.sealed id content) ∧ Apart id f m⌝⦄ Library.take e f
    ⦃post⟨fun _ m => ⌜m.Obeys (.sealed id content)⌝,
      fun _ m => ⌜m.Obeys (.sealed id content)⌝⟩⦄ := by
  unfold Library.take
  refine Triple.bind _ _ (asked (Query.arg f 1) fun _ before => before.1) fun series => ?_
  by_cases apart : ∀ holder paramlist n,
      series.payload = .varargs (.array holder paramlist n) → holder ≠ id
  · refine triple_iff.mpr fun m before => triple_iff.mp ?_ m before.1.1
    have variadic := takeVariadic_sealed safe f
    mvcgen [variadic]
    rintro _ _ holder paramlist n rfl
    exact apart holder paramlist n ‹_›
  · exact triple_iff.mpr fun m before =>
      absurd (fun holder paramlist n => before.1.2 series holder paramlist n before.2) apart

/-- No action that changes series changes a protected one, whether it succeeds or fails. -/
theorem editor_sealed {action : Engine → FrameId → Interp Bounce} (listed : action ∈ editors)
    {e : Engine} (safe : e.Keeps (.sealed id content)) (f : FrameId) :
    ⦃fun m => ⌜m.Obeys (.sealed id content) ∧ Apart id f m⌝⦄ action e f
    ⦃post⟨fun _ m => ⌜m.Obeys (.sealed id content)⌝,
      fun _ m => ⌜m.Obeys (.sealed id content)⌝⟩⦄ := by
  have weaken {x : Interp Bounce} (kept : Keeping (.sealed id content) x) :
      ⦃fun m => ⌜m.Obeys (.sealed id content) ∧ Apart id f m⌝⦄ x
      ⦃post⟨fun _ m => ⌜m.Obeys (.sealed id content)⌝,
        fun _ m => ⌜m.Obeys (.sealed id content)⌝⟩⦄ :=
    triple_iff.mpr fun m before => triple_iff.mp kept m before.1
  simp only [editors, List.mem_cons, List.not_mem_nil, or_false] at listed
  obtain rfl | rfl | rfl | rfl | rfl | rfl := listed
  · exact weaken (insertWith_sealed _ _ e f)
  · exact weaken (insertWith_sealed _ _ e f)
  · exact weaken (pokeAction_sealed e f)
  · exact take_sealed safe f
  · exact weaken (remove_sealed e f)
  · exact weaken (clear_sealed e f)

end Protection

/-! ## Variables -/

/-- Holds a protected value in a slot. -/
def Series.Trait.guarding (slot : Nat) (value : Cell) : Series.Trait where
  holds s := value.guarded = true ∧ ∃ cells, s.content = .array cells ∧ cells[slot]? = some value
  withFlags _ here := here

/-- A variable is protected and has a value. -/
abbrev Law.guarding (r : VarRef) (value : Cell) : Law := .of r.context (.guarding r.index value)

namespace Guarding

open Law Interp Series.Trait

variable {r : VarRef} {value : Cell}

theorem cell_of_guarding {m : Machine} (here : m.Obeys (.guarding r value)) :
    Query.varContent r m = .ok value := by
  obtain ⟨s, live, -, cells, content, there⟩ := here
  have found : Query.cells r.context m = .ok cells := Query.cells_eq_ok.mpr ⟨s, live, content⟩
  rw [Query.varContent, Query.cell, Query.bind_ok found, there]
  rfl

/-- Other slots may be written. -/
theorem allows_modify_of_ne {slot place : Nat} (apart : place ≠ slot) (c : Cell) :
    (Series.Trait.guarding slot value).Allows (Series.mapCells (·.modify place fun _ => c)) := by
  rintro ⟨flags, content, link, role⟩ ⟨guarded, cells, rfl, there⟩
  exact ⟨guarded, _, rfl, by rw [Array.getElem?_modify, if_neg apart, there]⟩

@[scoped spec high]
theorem writeVar_guarding (target : VarRef) (new : Cell) :
    Keeping (.guarding r value) (writeVar target new) := by
  unfold writeVar
  refine Triple.bind _ _ (asked (Query.varContent target) fun _ before => before) fun c => ?_
  by_cases same : target = r
  · subst same
    refine triple_iff.mpr fun m ⟨here, answer⟩ => ?_
    obtain rfl : value = c := Except.ok.inj ((cell_of_guarding here).symm.trans answer)
    obtain ⟨-, -, guarded, -⟩ := id here
    rw [if_pos guarded]
    refine triple_iff.mp ?_ m here
    change Keeping _ _
    mvcgen
  · have apart : target.context = r.context → target.index ≠ r.index := by
      rintro context index
      exact same (by cases target; cases r; cases context; cases index; rfl)
    refine triple_iff.mpr fun m ⟨here, _⟩ => triple_iff.mp ?_ m here
    change Keeping _ _
    mvcgen
    exact fun _ _ context => allows_modify_of_ne (apart context) _

/-- No set-word changes a protected variable, nor does SET of a word. -/
@[scoped spec high]
theorem setVar_guarding (word : Cell) (specifier : Specifier) (new : Cell) :
    Keeping (.guarding r value) (setVar word specifier new) := by
  unfold setVar
  mvcgen

/-- No set-block changes a protected variable, nor does SET of a block. -/
theorem setBlock_guarding (target : Cell) (specifier : Specifier) (new : Cell) :
    Keeping (.guarding r value) (Engine.setBlock target specifier new) := by
  unfold Engine.setBlock
  mvcgen

/-- Poking into a context does not change a protected variable. -/
theorem contextStep_guarding (current picker : Cell) (setval : Option Cell) :
    Keeping (.guarding r value) (Path.contextStep current picker setval) := by
  unfold Path.contextStep
  mvcgen

/-- A further variable takes a slot behind the others. -/
theorem appendKey_guarding (context : SeriesId) (symbol : SymbolId) (new : Cell) :
    Keeping (.guarding r value) (appendKey context symbol new) := by
  have pushed (c : Cell) : (Series.Trait.guarding r.index value).Allows
      (Series.mapCells (·.push c)) := by
    rintro ⟨flags, content, link, role⟩ ⟨guarded, cells, rfl, there⟩
    have inside := (Array.getElem?_eq_some_iff.mp there).1
    refine ⟨guarded, _, rfl, ?_⟩
    rw [Array.getElem?_push_lt inside, ← there, Array.getElem?_eq_getElem]
  unfold appendKey
  mvcgen
  all_goals exact fun _ => pushed _

/-- What writes to variables by name: set-words and SET of a word, set-blocks and SET of a block,
and poking into a context; and what adds a variable. -/
inductive Writes : {α : Type} → Interp α → Prop where
  | word (word : Cell) (specifier : Specifier) (new : Cell) : Writes (setVar word specifier new)
  | block (target : Cell) (specifier : Specifier) (new : Cell) :
      Writes (Engine.setBlock target specifier new)
  | field (current picker : Cell) (setval : Option Cell) :
      Writes (Path.contextStep current picker setval)
  | added (context : SeriesId) (symbol : SymbolId) (new : Cell) :
      Writes (appendKey context symbol new)

theorem Writes.guarding {α : Type} {x : Interp α} (writes : Writes x) :
    Keeping (.guarding r value) x := by
  cases writes with
  | word word specifier new => exact setVar_guarding word specifier new
  | block target specifier new => exact setBlock_guarding target specifier new
  | field current picker setval => exact contextStep_guarding current picker setval
  | added context symbol new => exact appendKey_guarding context symbol new

end Guarding

end Homoicon
