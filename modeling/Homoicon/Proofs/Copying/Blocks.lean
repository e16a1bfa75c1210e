import Homoicon.Library.Making
import Homoicon.Proofs.Copying.Walks

/-!
# Copies of blocks that are bound

A block is copied, and the copy bound to a context or to the parameters of an action, which is new
as well.  All of this keeps the fence around what was there before.
-/

open Std.Do

set_option mvcgen.warning false

namespace Homoicon

namespace Copying

open Law Interp

variable {α : Type} {old : Machine} {start : Cell → Prop}

/-! ## Contexts with names of their own -/

variable (old) in
/-- Holds variables whose names stand in a new array. -/
def owned : Series.Trait where
  holds s := ∃ keylist, s.link = .keylist keylist ∧ old.heap.get? keylist = none
  withFlags _ here := here

theorem owned_allows (f : Array Cell → Array Cell) : (owned old).Allows (Series.mapCells f) := by
  rintro ⟨flags, content, link, role⟩ here
  cases content <;> exact here

namespace Owned

@[scoped spec 30000]
theorem storeCell (context i : SeriesId) (index : Nat) (c : Cell) :
    Keeping (.of context (owned old)) (Interp.storeCell i index c) :=
  Series.Trait.storeCell_of _ _ i index c fun _ => owned_allows _

@[scoped spec 30000]
theorem copyArrayDeep (context array : SeriesId) (index : Nat) (specifier : Specifier) :
    Keeping (.of context (owned old)) (Interp.copyArrayDeep array index specifier) := by
  open Series.Trait in mvcgen
  exact fun here _ => here

@[scoped spec 30000]
theorem bindDeep (context array place : SeriesId) :
    Keeping (.of place (owned old)) (Interp.bindDeep array context false) := by
  have bound (depth : Nat) (array : SeriesId) :
      Keeping (.of place (owned old)) (bindDeepIn context false depth array) := by
    induction depth generalizing array with
    | zero => exact obeys_of_fails _ (fun _ => rfl) _
    | succ depth ih =>
        unfold bindDeepIn modifyCell
        open Series.Trait in mvcgen [ih]
        exact fun _ _ _ => owned_allows _
  exact Triple.bind _ _ (nestingBound_keeping _) fun depth => bound depth array

end Owned

/-! ## Copies of blocks -/

variable (old start) in
/-- The items of a block are among the first cells of a copy. -/
def Begins (block : Cell) : Prop :=
  ∃ items, Query.items block old = .ok items ∧ ∀ c ∈ items, start c

theorem arrayOf_enclosed (E : Enclosure old start) {block : Cell}
    (begins : Begins old start block) :
    ⦃fun m => ⌜m.Obeys E.law⌝⦄ (MonadLift.monadLift (Query.arrayOf block) : Interp SeriesId)
    ⦃post⟨fun id m => ⌜m.Obeys E.law ∧ E.Readable id block.index⌝,
      fun _ m => ⌜m.Obeys E.law⌝⟩⦄ := by
  refine learning _ _ fun m id here answer => ?_
  obtain ⟨items, held, first⟩ := begins
  obtain ⟨id', leads, read⟩ := Query.bind_eq_ok.mp held
  rw [Query.arrayOf_eq_ok] at answer leads
  obtain rfl : id' = id := Option.some.inj (leads.symm.trans answer)
  obtain ⟨cells, found, same⟩ := Query.bind_eq_ok.mp read
  cases same
  exact Enclosure.readable_of_old found fun c member => .start (first c member)

section Enclosed

open Enclosure

variable {E : Enclosure old start}

theorem makeAction_enclosed {paramlist : SeriesId} (new : old.heap.get? paramlist = none)
    (dispatcher : Dispatcher) {details : List Cell} (exemplar : Option SeriesId)
    (leads : ∀ c ∈ details, ∀ id, c.array? = some id → E.inside id) :
    Keeping E.law (makeAction paramlist dispatcher details exemplar) := by
  unfold makeAction setConventions
  mvcgen
  · exact .ofCells _ _ _ leads
  · exact fun _ id leads => nomatch (Cell.array?_eq_some.mp leads).1
  · exact And.left ‹_›

theorem copyBoundTo_enclosed (context : SeriesId) {block : Cell}
    (begins : Begins old start block) : Keeping E.law (copyBoundTo context block) := by
  unfold copyBoundTo
  refine Triple.bind _ _ (arrayOf_enclosed E begins) fun array => knowing fun readable =>
    Triple.bind _ _ (copyArrayDeep_enclosed array _ _ readable) fun copy => knowing fun fresh => ?_
  refine Triple.bind _ _ (bindDeep_enclosed copy context (.inr fresh)) fun _ => ?_
  mvcgen

/-! ## Running a block in a context -/

@[local spec 20000]
theorem appendKey_enclosed {context : SeriesId} (new : old.heap.get? context = none)
    (symbol : SymbolId) :
    Keeping (.both E.law (.of context (owned old))) (appendKey context symbol Cell.null) := by
  unfold appendKey
  refine Triple.bind _ _ (learning (fun keylist => old.heap.get? keylist = none)
    (Query.keylist context) fun m keylist here answer => ?own)
    fun keylist => knowing fun newNames => ?_
  case own =>
    obtain ⟨s, live, keylist', linked, new'⟩ := here.2
    rw [Query.keylist, Query.bind_ok (Query.series_eq_ok.mpr live), linked] at answer
    cases answer
    exact new'
  have pushed (i : SeriesId) (new : old.heap.get? i = none) (c : Cell) (nowhere : c.array? = none) :
      Keeping (.both E.law (.of context (owned old))) (modifyCells i (·.push c)) := by
    refine Law.both_keeping (modifyCells_enclosed i _ new fun _ held d member id leads => ?_)
      (Series.Trait.modifyCells_of _ _ i _ fun _ => owned_allows _)
    rcases Array.mem_push.mp member with old | rfl
    · exact .inl ⟨d, old, leads⟩
    · rw [nowhere] at leads
      cases leads
  refine Triple.bind _ _ (pushed keylist newNames _ rfl) fun _ =>
    Triple.bind _ _ (pushed context new _ rfl) fun _ => ?_
  mvcgen

/-- Names are added to new arrays only. -/
theorem addSetWords_enclosed {context : SeriesId} (new : old.heap.get? context = none)
    (array : SeriesId) :
    Keeping (.both E.law (.of context (owned old))) (Library.addSetWords context array) := by
  unfold Library.addSetWords
  mvcgen

end Enclosed

/-! ## New series -/

theorem new_of_another {x : Interp SeriesId}
    (kept : ∀ id trait, Series.Trait.Another id (.of id trait) x) :
    ⦃fun m => ⌜m.Obeys (.fenced old start)⌝⦄ x
    ⦃post⟨fun new m => ⌜m.Obeys (.fenced old start) ∧ old.heap.get? new = none⌝,
      fun _ m => ⌜m.Obeys (.fenced old start)⌝⟩⦄ := by
  refine triple_iff.mpr fun m here => ?_
  have each (place : { p : SeriesId × Series // old.heap.get? p.1 = some p.2 }) :=
    triple_iff.mp (kept place.1.1 _) m (here place)
  cases ended : x m with
  | ok new next =>
      simp only [ended] at each
      refine ⟨fun place => (each place).1, ?_⟩
      cases live : old.heap.get? new with
      | none => rfl
      | some s => exact absurd rfl (each ⟨(new, s), live⟩).2
  | error fault next =>
      simp only [ended] at each
      exact each

@[scoped spec 20000]
theorem alloc_fenced (s : Series) :
    ⦃fun m => ⌜m.Obeys (.fenced old start)⌝⦄ alloc s
    ⦃post⟨fun new m => ⌜m.Obeys (.fenced old start) ∧ old.heap.get? new = none⌝,
      fun _ m => ⌜m.Obeys (.fenced old start)⌝⟩⦄ :=
  new_of_another fun id trait => Series.Trait.alloc_of id trait s

/-- A new series may hold variables of its own. -/
theorem alloc_owned {s : Series} (named : (owned old).holds s) :
    ⦃fun m => ⌜m.Obeys (.fenced old start)⌝⦄ alloc s
    ⦃post⟨fun new m => ⌜m.Obeys (.both (.fenced old start) (.of new (owned old))) ∧
        old.heap.get? new = none⌝, fun _ m => ⌜m.Obeys (.fenced old start)⌝⟩⦄ := by
  refine triple_iff.mpr fun m here => ?_
  have ⟨fence, new⟩ := triple_iff.mp (alloc_fenced s) m here
  exact ⟨⟨fence, s, (Heap.get?_alloc m.heap s _).trans (if_pos rfl), named⟩, new⟩

@[scoped spec 20000]
theorem storeCell_fenced (i : SeriesId) (index : Nat) (c : Cell) (new : old.heap.get? i = none) :
    Keeping (.fenced old start) (storeCell i index c) :=
  every_keeping fun place => Series.Trait.storeCell_of _ _ i index c fun same =>
    absurd place.2 (by rw [← same, new]; nofun)

@[scoped spec 20000]
theorem intern_fenced (text : String) : Keeping (.fenced old start) (intern text) :=
  fenced_of_each fun id trait => Series.Trait.intern_of id trait text

@[scoped spec 20000]
theorem writeVar_fenced (r : VarRef) (value : Cell) (new : old.heap.get? r.context = none) :
    Keeping (.fenced old start) (writeVar r value) := by
  unfold writeVar moveCell
  mvcgen
  exact fun _ _ => new

/-- What is known of a new context is still known if the rest of its making fails or not. -/
theorem both_at_worst {new : SeriesId} {x : Interp Unit}
    (kept : Keeping (.both (.fenced old start) (.of new (owned old))) x)
    (apart : old.heap.get? new = none) :
    ⦃fun m => ⌜m.Obeys (.both (.fenced old start) (.of new (owned old)))⌝⦄ (do x; pure new)
    ⦃post⟨fun new m => ⌜m.Obeys (.both (.fenced old start) (.of new (owned old))) ∧
        old.heap.get? new = none⌝, fun _ m => ⌜m.Obeys (.fenced old start)⌝⟩⦄ := by
  refine triple_iff.mpr fun m here => ?_
  have done := triple_iff.mp kept m here
  rw [bind_run]
  cases ran : x m with
  | ok _ next =>
      rw [ran] at done
      exact ⟨done, apart⟩
  | error fault next =>
      rw [ran] at done
      exact done.1

/-- A new context has names of its own. -/
theorem makeContext_fenced (kind : Kind) (keys : List SymbolId) :
    ⦃fun m => ⌜m.Obeys (.fenced old start)⌝⦄ makeContext kind keys
    ⦃post⟨fun new m => ⌜m.Obeys (.both (.fenced old start) (.of new (owned old))) ∧
        old.heap.get? new = none⌝, fun _ m => ⌜m.Obeys (.fenced old start)⌝⟩⦄ := by
  unfold makeContext
  refine Triple.bind _ _ (alloc_fenced _) fun names => knowing fun newNames =>
    Triple.bind _ _ (alloc_owned ⟨names, rfl, newNames⟩) fun new => knowing fun newContext => ?_
  exact both_at_worst (both_keeping (storeCell_fenced new 0 _ newContext)
    (Owned.storeCell new new 0 _)) newContext

@[scoped spec 20000]
theorem newContext_fenced (kind : Kind) (keys : List SymbolId) :
    ⦃fun m => ⌜m.Obeys (.fenced old start)⌝⦄ makeContext kind keys
    ⦃post⟨fun new m => ⌜m.Obeys (.fenced old start) ∧ old.heap.get? new = none⌝,
      fun _ m => ⌜m.Obeys (.fenced old start)⌝⟩⦄ :=
  triple_mono (makeContext_fenced kind keys) (fun _ here => here)
    (fun _ _ ⟨here, new⟩ => ⟨here.1, new⟩) fun _ here => here

@[scoped spec 20000]
theorem makeParamlist_fenced (spec : SeriesId) (index : Nat) (ownReturn : Bool) :
    ⦃fun m => ⌜m.Obeys (.fenced old start)⌝⦄ makeParamlist spec index ownReturn
    ⦃post⟨fun new m => ⌜m.Obeys (.fenced old start) ∧ old.heap.get? new = none⌝,
      fun _ m => ⌜m.Obeys (.fenced old start)⌝⟩⦄ := by
  unfold makeParamlist
  mvcgen

/-! ## Blocks -/

section Blocks

variable (whole : old.Whole start) {block : Cell} (begins : Begins old start block)

include whole begins

@[scoped spec 20000]
theorem copyBoundTo_fenced (context : SeriesId) :
    Keeping (.fenced old start) (copyBoundTo context block) :=
  fenced_of_enclosed whole fun _ => copyBoundTo_enclosed context begins

/-- The body of a function is a copy. -/
theorem makeFunc_fenced (spec : Cell) : Keeping (.fenced old start) (makeFunc spec block) := by
  unfold makeFunc
  refine Triple.bind _ _ (lift_keeping _ _) fun id => Triple.bind _ _ (makeParamlist_fenced _ _ _)
    fun paramlist => knowing fun new => fenced_of_enclosed whole fun E => ?_
  refine Triple.bind _ _ (arrayOf_enclosed E begins) fun array => knowing fun readable =>
    Triple.bind _ _ (Enclosure.copyArrayDeep_enclosed array _ _ readable) fun copy =>
      knowing fun fresh => ?_
  refine Triple.bind _ _ (Enclosure.relativizeDeep_enclosed copy paramlist (.inr fresh)) fun _ => ?_
  exact makeAction_enclosed new _ _ fun c member id leads => by
    obtain rfl := List.mem_singleton.mp member
    cases (Cell.array?_eq_some.mp leads).2
    exact .inr fresh

/-- What an object is made of is a copy. -/
theorem runIn_fenced (e : Engine) (safe : ∀ law, e.Keeps law) {context : SeriesId}
    (new : old.heap.get? context = none) :
    Keeping (.both (.fenced old start) (.of context (owned old)))
      (Library.runIn e context block) := by
  refine both_of_enclosed whole fun E => ?_
  unfold Library.runIn
  have copied (array : SeriesId) (readable : E.Readable array block.index) :=
    both_knowing (Enclosure.copyArrayDeep_enclosed (E := E) array block.index
      (Query.deriveSpecifier block none) readable)
      (@Owned.copyArrayDeep old context array block.index (Query.deriveSpecifier block none))
  refine Triple.bind _ _ (both_knowing (arrayOf_enclosed E begins) (lift_keeping _ _))
    fun array => knowing fun readable => Triple.bind _ _ (copied array readable)
      fun copy => knowing fun fresh => ?_
  refine Triple.bind _ _ (addSetWords_enclosed new copy) fun _ => Triple.bind _ _
    (both_keeping (Enclosure.bindDeep_enclosed copy context (.inr fresh)) (Owned.bindDeep _ _ _))
    fun _ => ?_
  have ran := Engine.doBlock_keeping (safe (.both E.law (.of context (owned old))))
  unfold Engine.doGuarded
  mvcgen [ran]

end Blocks

/-! ## Contexts -/

/-- A variable may hold a copy of an array whose words refer to the variables beside it. -/
theorem storeCopy_fenced (whole : old.Whole start) {copy inner : SeriesId}
    (new : old.heap.get? copy = none) {c : Cell} (plain : c.quote = 0)
    (leads : c.array? = some inner)
    (sourced : old.Copied start c ∨ ∀ id, c.array? = some id → old.Shared start id)
    (kind : Kind) (slot index : Nat) :
    Keeping (.fenced old start) (do
      let array ← copyArrayDeep inner 0 none
      bindDeep array copy false
      storeCell copy slot (Cell.series kind array index)) := by
  refine fenced_of_enclosed whole fun E => ?_
  have fits : E.Fits c := sourced.imp_right fun shared id leads => .inl (shared id leads)
  refine Triple.bind _ _ (Enclosure.copyArrayDeep_enclosed inner 0 none
    (Enclosure.readable_of_fits fits plain leads)) fun array => knowing fun fresh => ?_
  refine Triple.bind _ _ (Enclosure.bindDeep_enclosed array copy (.inr fresh)) fun _ => ?_
  refine Enclosure.storeCell_enclosed copy slot _ new fun _ id leads => ?_
  cases (Cell.array?_eq_some.mp leads).2
  exact .inr fresh

/-- The copy of a context holds its values, and copies of the arrays among them. -/
theorem copyContext_fenced (whole : old.Whole start) {parent : SeriesId} {vars : Array Cell}
    (found : Query.cells parent old = .ok vars) (first : ∀ c ∈ vars, c.quote = 0 → start c) :
    ⦃fun m => ⌜m.Obeys (.fenced old start)⌝⦄ copyContext parent true
    ⦃post⟨fun new m => ⌜m.Obeys (.both (.fenced old start) (.of new (owned old))) ∧
        old.heap.get? new = none⌝, fun _ m => ⌜m.Obeys (.fenced old start)⌝⟩⦄ := by
  unfold copyContext
  refine Triple.bind _ _ (lift_keeping _ _) fun _ => Triple.bind _ _ (lift_keeping _ _) fun kind =>
    Triple.bind _ _ (lift_keeping _ _) fun keys => Triple.bind _ _ (makeContext_fenced kind keys)
      fun copy => knowing fun new => ?_
  refine both_at_worst ?_ new
  refine both_keeping (forM_keeping _ _ _ fun i _ => ?fence) (forM_keeping _ _ _ fun i _ => ?names)
  case fence =>
    refine Triple.bind _ _ (learning (fun c => c.quote = 0 →
        old.Copied start c ∨ ∀ id, c.array? = some id → old.Shared start id)
      (Query.cell parent (i + 1)) fun m c here answer plain => ?sourced)
      fun c => knowing fun sourced => ?_
    case sourced =>
      obtain ⟨now, foundNow, there⟩ := Query.cell_eq_ok.mp answer
      have member : c ∈ now := Array.mem_of_getElem? there
      rcases cells_of_fenced here found foundNow with rfl | shared
      · exact .inl (.start (first c member plain))
      · exact .inr (shared c member)
    dsimp only
    cases leads : c.copied.seriesId? with
    | none => exact storeCell_fenced _ _ _ new
    | some inner =>
        dsimp only
        by_cases deep : (true && c.copied.quote == 0 && c.copied.kind.isAnyArray) = true
        · rw [if_pos deep]
          simp only [Bool.true_and, Bool.and_eq_true, beq_iff_eq] at deep
          exact storeCopy_fenced whole new (c := c) deep.1
            (Cell.array?_eq_some.mpr ⟨deep.2, leads⟩) (sourced deep.1) _ _ _
        · rw [if_neg deep]
          exact storeCell_fenced _ _ _ new
  case names =>
    open Owned in mvcgen

end Copying

end Homoicon
