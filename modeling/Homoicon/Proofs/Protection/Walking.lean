import Homoicon.Library.Variable
import Homoicon.Proofs.Protection.Sealing

/-!
# A protected text

A text or binary has no cells, so writing to variables and to arrays cannot touch it either.  With
this, paths can be walked and set, and words assigned.
-/

open Std.Do

set_option mvcgen.warning false

namespace Homoicon

/-- A content without cells. -/
inductive Leaf where
  | text (buffer : Text.Buffer)
  | binary (bytes : Array UInt8)

def Leaf.content : Leaf → Content
  | text buffer => .text buffer
  | binary bytes => .binary bytes

theorem Leaf.content_ne_array (leaf : Leaf) (cells : Array Cell) : leaf.content ≠ .array cells := by
  cases leaf <;> nofun

namespace Protection

open Law Interp Series.Trait

variable {id : SeriesId} {leaf : Leaf}

@[scoped spec 20000]
theorem modifyCells_leaf (i : SeriesId) (f : Array Cell → Array Cell) :
    Keeping (.sealed id leaf.content) (modifyCells i f) := by
  refine modifyCells_of id _ i f fun _ s ⟨locked, unlinked, same⟩ => ?_
  obtain ⟨flags, held, link, role⟩ := s
  cases held with
  | array cells => exact absurd same.symm (leaf.content_ne_array cells)
  | text buffer => exact ⟨locked, unlinked, same⟩
  | binary bytes => exact ⟨locked, unlinked, same⟩

@[scoped spec 20000]
theorem modifyCell_leaf (i : SeriesId) (index : Nat) (f : Cell → Cell) :
    Keeping (.sealed id leaf.content) (modifyCell i index f) := by
  unfold modifyCell
  mvcgen

@[scoped spec 20000]
theorem storeCell_leaf (i : SeriesId) (index : Nat) (c : Cell) :
    Keeping (.sealed id leaf.content) (storeCell i index c) := modifyCell_leaf i index _

@[scoped spec 20000]
theorem moveCell_leaf (i : SeriesId) (index : Nat) (c : Cell) :
    Keeping (.sealed id leaf.content) (moveCell i index c) := storeCell_leaf i index _

@[scoped spec 20000]
theorem writeVar_leaf (r : VarRef) (value : Cell) :
    Keeping (.sealed id leaf.content) (writeVar r value) := by
  unfold writeVar
  mvcgen

@[scoped spec high]
theorem setVar_leaf (word : Cell) (specifier : Specifier) (value : Cell) :
    Keeping (.sealed id leaf.content) (setVar word specifier value) := by
  unfold setVar
  mvcgen

@[scoped spec high]
theorem setBlock_leaf (target : Cell) (specifier : Specifier) (value : Cell) :
    Keeping (.sealed id leaf.content) (Engine.setBlock target specifier value) := by
  unfold Engine.setBlock
  mvcgen

/-! ## Copying contexts -/

@[scoped spec high]
theorem makeContext_leaf (kind : Kind) (keys : List SymbolId) :
    Keeping (.sealed id leaf.content) (makeContext kind keys) := by
  unfold makeContext
  mvcgen
  all_goals exact And.left ‹_›

@[scoped spec high]
theorem appendKey_leaf (context : SeriesId) (symbol : SymbolId) (value : Cell) :
    Keeping (.sealed id leaf.content) (appendKey context symbol value) := by
  unfold appendKey
  mvcgen

theorem bindDeepIn_leaf (context : SeriesId) (addSetWords : Bool) (depth : Nat)
    (array : SeriesId) :
    Keeping (.sealed id leaf.content) (bindDeepIn context addSetWords depth array) := by
  induction depth generalizing array with
  | zero => exact obeys_of_fails _ (fun _ => rfl) _
  | succ depth ih =>
      unfold bindDeepIn
      mvcgen [ih]

@[scoped spec high]
theorem copyContext_leaf (context : SeriesId) (deep : Bool) :
    Keeping (.sealed id leaf.content) (copyContext context deep) := by
  unfold copyContext bindDeep
  mvcgen [bindDeepIn_leaf]
  all_goals exact And.left ‹_›

@[scoped spec high]
theorem copyValue_leaf (value : Cell) (part : Option Nat) (deep : Bool) :
    Keeping (.sealed id leaf.content) (copyValue value part deep) := by
  unfold copyValue
  mvcgen

/-! ## Making actions -/

@[scoped spec high]
theorem sharedParamlist_leaf (action : Action) :
    Keeping (.sealed id leaf.content) (sharedParamlist action) := by
  unfold sharedParamlist
  mvcgen
  all_goals exact fun here _ => here

@[scoped spec high]
theorem makeAction_leaf (paramlist : SeriesId) (dispatcher : Dispatcher) (details : List Cell)
    (exemplar : Option SeriesId) :
    Keeping (.sealed id leaf.content) (makeAction paramlist dispatcher details exemplar) := by
  unfold makeAction setConventions
  mvcgen
  all_goals exact And.left ‹_›

@[scoped spec high]
theorem makeExemplar_leaf (action : Action) (binding : Binding) :
    Keeping (.sealed id leaf.content) (makeExemplar action binding) := by
  unfold makeExemplar
  mvcgen
  all_goals exact And.left ‹_›

@[scoped spec high]
theorem specializeRefinements_leaf (action : Action) (binding : Binding)
    (refinements : List SymbolId) :
    Keeping (.sealed id leaf.content) (specializeRefinements action binding refinements) := by
  unfold specializeRefinements makeSpecialization
  mvcgen

/-! ## Paths -/

section Paths

variable {e : Engine} (safe : e.Keeps (.sealed id leaf.content))

include safe

theorem picker_leaf (item : Cell) (specifier : Specifier) (noGroups : Bool) :
    Keeping (.sealed id leaf.content) (Path.picker e item specifier noGroups) := by
  have ran := Engine.evalArray_keeping safe
  unfold Path.picker
  mvcgen [ran]

theorem refinement_leaf (item : Cell) (specifier : Specifier) (noGroups : Bool) :
    Keeping (.sealed id leaf.content) (Path.refinement e item specifier noGroups) := by
  have picked := picker_leaf safe
  unfold Path.refinement
  mvcgen [picked]

theorem pushNames_leaf (specifier : Specifier) (noGroups : Bool) (base : Nat)
    (items : List Cell) :
    Keeping (.sealed id leaf.content) (Path.pushNames e specifier noGroups base items) := by
  have named := refinement_leaf safe
  induction items with
  | nil =>
      unfold Path.pushNames
      mvcgen
  | cons item rest ih =>
      unfold Path.pushNames
      mvcgen [named, ih]

theorem pushRefinements_leaf (rest : List Cell) (specifier : Specifier) (noGroups : Bool) :
    Keeping (.sealed id leaf.content) (Path.pushRefinements e rest specifier noGroups) := by
  have pushed := pushNames_leaf safe
  unfold Path.pushRefinements
  mvcgen [pushed]

theorem walk_leaf (specifier : Specifier) (noGroups : Bool) (current previous : Cell)
    (label : Option SymbolId) (items : List Cell) :
    Keeping (.sealed id leaf.content)
      (Path.walk e specifier noGroups current previous label items) := by
  have picked := picker_leaf safe
  have pushed := pushRefinements_leaf safe
  induction items generalizing current previous label with
  | nil =>
      unfold Path.walk
      mvcgen
  | cons item rest ih =>
      unfold Path.walk
      mvcgen [picked, pushed, ih]

theorem eval_leaf (path : Cell) (specifier : Specifier) (noGroups : Bool) :
    Keeping (.sealed id leaf.content) (Path.eval e path specifier noGroups) := by
  have picked := picker_leaf safe
  have walked := walk_leaf safe
  unfold Path.eval
  mvcgen [picked, walked]

theorem get_leaf (path : Cell) (specifier : Specifier) (noGroups : Bool) :
    Keeping (.sealed id leaf.content) (Path.get e path specifier noGroups) := by
  have ran := eval_leaf safe
  unfold Path.get
  mvcgen [ran]

theorem store_leaf (specifier : Specifier) (noGroups : Bool) (value current previous : Cell)
    (place : Place) (items : List Cell) :
    Keeping (.sealed id leaf.content)
      (Path.store e specifier noGroups value current previous place items) := by
  have picked := picker_leaf safe
  induction items generalizing current previous place with
  | nil =>
      unfold Path.store
      mvcgen
  | cons item rest ih =>
      rw [Path.store]
      cases rest with
      | nil =>
          mvcgen [picked]
          exact And.left ‹_›
      | cons next rest => mvcgen [picked, ih]

theorem setPath_leaf (path : Cell) (specifier : Specifier) (value : Cell) (noGroups : Bool) :
    Keeping (.sealed id leaf.content) (Path.set e path specifier value noGroups) := by
  have picked := picker_leaf safe
  have stored := store_leaf safe
  unfold Path.set
  mvcgen [picked, stored]

theorem set_leaf (f : FrameId) : Keeping (.sealed id leaf.content) (Library.set e f) := by
  have stored := setPath_leaf safe
  unfold Library.set
  mvcgen [stored]

end Paths

end Protection

end Homoicon
