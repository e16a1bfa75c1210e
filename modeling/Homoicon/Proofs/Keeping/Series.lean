import Homoicon.Library.Series
import Homoicon.Proofs.Arena
import Homoicon.Proofs.Keeping.Laws
import Homoicon.Proofs.Storing

/-!
# Laws about one series

A series is there and has a trait.  What is put on the heap never takes its place, and a change of
another series does not touch it.
-/

open Std.Do

set_option mvcgen.warning false

namespace Homoicon

/-- A property of a series that further flags leave alone. -/
structure Series.Trait where
  holds : Series → Prop
  withFlags : ∀ {s : Series} (added : Flags), holds s → holds (s.withFlags added)

/-- A series is there and has a trait. -/
def Law.of (id : SeriesId) (trait : Series.Trait) : Law where
  holds m := ∃ s, m.heap.get? id = some s ∧ trait.holds s
  congr heap _ := by
    rintro ⟨s, live, holds⟩
    exact ⟨s, heap ▸ live, holds⟩

namespace Series.Trait

open Law Interp

/-- Whether a change leaves a series with the trait. -/
def Allows (trait : Trait) (change : Series → Series) : Prop :=
  ∀ s, trait.holds s → trait.holds (change s)

variable {α : Type} (id : SeriesId) (trait : Trait)

/-- A new series takes a place of its own. -/
@[scoped spec high]
theorem alloc_of (s : Series) :
    ⦃fun m => ⌜m.Obeys (.of id trait)⌝⦄ alloc s
    ⦃post⟨fun new m => ⌜m.Obeys (.of id trait) ∧ new ≠ id⌝,
      fun _ m => ⌜m.Obeys (.of id trait)⌝⟩⦄ := by
  refine triple_iff.mpr fun m ⟨held, live, holds⟩ => ?_
  have apart : (m.heap.alloc s).1 ≠ id := by
    intro same
    have fresh := m.heap.alloc_fresh s
    rw [same, live] at fresh
    cases fresh
  refine ⟨⟨held, ?_, holds⟩, apart⟩
  exact (Heap.get?_alloc m.heap s id).trans ((if_neg apart).trans live)

@[scoped spec high]
theorem modifySeries_of (i : SeriesId) (f : Series → Series)
    (allowed : i = id → trait.Allows f) : Keeping (.of id trait) (modifySeries i f) := by
  refine triple_iff.mpr fun m here => ?_
  obtain ⟨held, live, holds⟩ := here
  unfold modifySeries
  by_cases inUse : m.heap.isLive i = true
  · rw [if_pos inUse]
    by_cases same : i = id
    · refine ⟨f held, ?_, allowed same held holds⟩
      change (m.heap.modify i f).get? id = _
      rw [Heap.get?_modify, if_pos same, live, Option.map_some]
    · refine ⟨held, ?_, holds⟩
      change (m.heap.modify i f).get? id = _
      rw [Heap.get?_modify, if_neg same, live]
  · rw [if_neg inUse]
    exact ⟨held, live, holds⟩

@[scoped spec high]
theorem setFlag_of (i : SeriesId) (flags : Flags) : Keeping (.of id trait) (setFlag i flags) :=
  modifySeries_of id trait i _ fun _ _ => trait.withFlags flags

@[scoped spec high]
theorem modifyCells_of (i : SeriesId) (f : Array Cell → Array Cell)
    (allowed : i = id → trait.Allows (Series.mapCells f)) :
    Keeping (.of id trait) (modifyCells i f) := by
  unfold modifyCells
  change Keeping _ (do if ← isArray i then modifySeries i (Series.mapCells f) else defect)
  mvcgen
  exact fun _ _ => allowed

@[scoped spec high]
theorem modifyText_of (i : SeriesId) (f : Text.Buffer → Text.Buffer)
    (allowed : i = id → trait.Allows (Series.mapText f)) :
    Keeping (.of id trait) (modifyText i f) := by
  unfold modifyText
  change Keeping _ (do let _ ← Query.text i; modifySeries i (Series.mapText f))
  mvcgen
  exact fun _ _ => allowed

@[scoped spec high]
theorem modifyBytes_of (i : SeriesId) (f : Array UInt8 → Array UInt8)
    (allowed : i = id → trait.Allows (Series.mapBytes f)) :
    Keeping (.of id trait) (modifyBytes i f) := by
  unfold modifyBytes
  change Keeping _ (do let _ ← Query.bytes i; modifySeries i (Series.mapBytes f))
  mvcgen
  exact fun _ _ => allowed

@[scoped spec high]
theorem storeCell_of (i : SeriesId) (index : Nat) (c : Cell)
    (allowed : i = id → trait.Allows (Series.mapCells (·.modify index fun _ => c))) :
    Keeping (.of id trait) (storeCell i index c) := by
  unfold storeCell modifyCell
  mvcgen
  exact fun _ _ => allowed

@[scoped spec high]
theorem moveCell_of (i : SeriesId) (index : Nat) (c : Cell)
    (allowed : i = id → trait.Allows (Series.mapCells (·.modify index fun _ => c.copied))) :
    Keeping (.of id trait) (moveCell i index c) := storeCell_of id trait i index _ allowed

/-! ## Other series -/

variable {id trait}

/-- A question that has no answer about the series, asked about another one. -/
theorem asked_apart (q : Query α) (i : SeriesId)
    (refused : ∀ m s, m.heap.get? i = some s → trait.holds s → ∀ a, q m ≠ .ok a) :
    ⦃fun m => ⌜m.Obeys (.of id trait)⌝⦄ (MonadLift.monadLift q : Interp α)
    ⦃post⟨fun _ m => ⌜m.Obeys (.of id trait) ∧ i ≠ id⌝,
      fun _ m => ⌜m.Obeys (.of id trait)⌝⟩⦄ := by
  refine answered q (fun m a here answer => ⟨here, ?_⟩) fun _ here => here
  rintro rfl
  obtain ⟨s, live, holds⟩ := here
  exact refused m s live holds a answer

/-- A context is not a series without a link. -/
@[local spec 20000]
theorem findKey?_apart (unlinked : ∀ s, trait.holds s → s.link = .none) (context : SeriesId)
    (symbol : SymbolId) :
    ⦃fun m => ⌜m.Obeys (.of id trait)⌝⦄
    (MonadLift.monadLift (Query.findKey? context symbol) : Interp (Option Nat))
    ⦃post⟨fun _ m => ⌜m.Obeys (.of id trait) ∧ context ≠ id⌝,
      fun _ m => ⌜m.Obeys (.of id trait)⌝⟩⦄ := by
  refine asked_apart _ context fun m s live holds _ found => ?_
  obtain ⟨keylist, linked, -⟩ := Query.bind_eq_ok.mp found
  rw [Query.keylist, Query.bind_ok (Query.series_eq_ok.mpr live), unlinked s holds] at linked
  cases linked

@[local spec high]
theorem writeVar_of (r : VarRef) (value : Cell) (apart : r.context ≠ id) :
    Keeping (.of id trait) (writeVar r value) := by
  unfold writeVar
  mvcgen
  exact fun _ _ same => absurd same apart

/-- Stepping into a context writes to a context only. -/
theorem contextStep_of (unlinked : ∀ s, trait.holds s → s.link = .none) (current picker : Cell)
    (setval : Option Cell) : Keeping (.of id trait) (Path.contextStep current picker setval) := by
  unfold Path.contextStep
  mvcgen
  all_goals first
    | exact And.left ‹_›
    | exact And.right ‹_›

variable (id trait)

/-! ## Making values -/

/-- A computation that keeps the series and gives another one. -/
abbrev Another (law : Law) (x : Interp SeriesId) : Prop :=
  ⦃fun m => ⌜m.Obeys law⌝⦄ x ⦃post⟨fun new m => ⌜m.Obeys law ∧ new ≠ id⌝, fun _ m => ⌜m.Obeys law⌝⟩⦄

@[scoped spec high]
theorem allocArray_of (cells : List Cell) : Another id (.of id trait) (allocArray cells) :=
  alloc_of id trait _

@[scoped spec high]
theorem allocText_of (s : String) : Another id (.of id trait) (allocText s) := alloc_of id trait _

@[scoped spec high]
theorem allocBytes_of (bytes : Array UInt8) : Another id (.of id trait) (allocBytes bytes) :=
  alloc_of id trait _

@[scoped spec high]
theorem textCell_of (kind : Kind) (s : String) : Keeping (.of id trait) (textCell kind s) := by
  unfold textCell
  mvcgen
  exact And.left ‹_›

@[scoped spec high]
theorem arrayCell_of (kind : Kind) (cells : List Cell) :
    Keeping (.of id trait) (arrayCell kind cells) := by
  unfold arrayCell
  mvcgen
  exact And.left ‹_›

@[scoped spec high]
theorem binaryCell_of (bytes : Array UInt8) : Keeping (.of id trait) (binaryCell bytes) := by
  unfold binaryCell
  mvcgen
  exact And.left ‹_›

@[scoped spec high]
theorem pairCell_of (x y : Cell) : Keeping (.of id trait) (pairCell x y) := by
  unfold pairCell
  mvcgen
  exact And.left ‹_›

@[scoped spec high]
theorem intern_of (text : String) : Keeping (.of id trait) (intern text) :=
  triple_iff.mpr fun _ here => here

@[scoped spec high]
theorem ensureManaged_of (i : SeriesId) : Keeping (.of id trait) (ensureManaged i) := by
  unfold ensureManaged
  mvcgen

@[scoped spec high]
theorem derelativize_of (c : Cell) (specifier : Specifier) :
    Keeping (.of id trait) (derelativize c specifier) := by
  unfold derelativize
  mvcgen

@[scoped spec high]
theorem quotify_of (c : Cell) (n : Nat) : Keeping (.of id trait) (quotify c n) := by
  unfold quotify
  mvcgen
  exact And.left ‹_›

@[scoped spec high]
theorem insertionItems_of (value : Cell) (only : Bool) :
    Keeping (.of id trait) (insertionItems value only) := by
  unfold insertionItems
  mvcgen

@[scoped spec high]
theorem repeatedText_of (chars : List Char) (times : Nat) :
    Keeping (.of id trait) (repeatedText chars times) := by
  unfold repeatedText
  mvcgen

theorem copyDeepIn_of (depth : Nat) (array : SeriesId) (index : Nat) (specifier : Specifier) :
    Another id (.of id trait) (copyDeepIn depth array index specifier) := by
  induction depth generalizing array index specifier with
  | zero => exact obeys_of_fails _ (fun _ => rfl) _
  | succ depth ih =>
      unfold copyDeepIn
      mvcgen [ih]
      exact And.left ‹_›

@[scoped spec high]
theorem copyArrayDeep_of (array : SeriesId) (index : Nat) (specifier : Specifier) :
    Another id (.of id trait) (copyArrayDeep array index specifier) := by
  unfold copyArrayDeep
  mvcgen [copyDeepIn_of]

@[scoped spec high]
theorem copyArrayShallow_of (array : SeriesId) (start stop : Nat) (specifier : Specifier) :
    Another id (.of id trait) (copyArrayShallow array start stop specifier) := by
  unfold copyArrayShallow
  mvcgen

@[scoped spec high]
theorem copySeries_of (value : Cell) (part : Option Nat) (deep : Bool) :
    Keeping (.of id trait) (copySeries value part deep) := by
  unfold copySeries
  mvcgen
  all_goals first
    | exact And.left ‹_›
    | exact fun same => absurd same (And.right ‹_›)

/-- A block of the values of an array's expressions is a new one. -/
theorem reduce_of {e : Engine} (safe : e.Keeps (.of id trait)) (array : SeriesId) (index : Nat)
    (specifier : Specifier) : Keeping (.of id trait) (e.reduce array index specifier) := by
  have ran := Engine.reduceRest_keeping safe
  unfold Engine.reduce
  mvcgen [ran]

end Series.Trait

/-! ## Actions -/

/-- The actions that put elements into a series or take them out. -/
def editors : List (Engine → FrameId → Interp Bounce) :=
  [Library.append, Library.insert, Library.poke, Library.take, Library.remove, Library.clear]

namespace Law

open Interp

@[scoped spec high]
theorem give_keeping (law : Law) (f : FrameId) (c : Cell) : Keeping law (give f c) := by
  unfold give
  mvcgen

end Law

/-- An engine that evaluates nothing. -/
def idle : Engine := { run := fun _ _ => fail .stackOverflow, rounds := 0 }

theorem idle_keeps (law : Law) : idle.Keeps law :=
  fun _ _ => law.obeys_of_fails (fun _ => rfl) _

end Homoicon
