import Homoicon.Action.Making
import Homoicon.Arithmetic
import Homoicon.Conversion
import Homoicon.Error.Value
import Homoicon.Proofs.Stacks.Calls
import Homoicon.Series.Editing

/-!
# Making and changing values keeps the levels

Nothing that only works on data touches the stacks.
-/

open Std.Do

set_option mvcgen.warning false

namespace Homoicon

namespace Interp

variable {α β : Type} (l : Levels)

@[spec]
theorem mapM_calm (items : List α) (body : α → Interp β)
    (kept : ∀ item ∈ items, Calm l (body item)) : Calm l (items.mapM body) := by
  induction items with
  | nil => mvcgen [List.mapM_nil]
  | cons item items ih =>
      have first := kept item List.mem_cons_self
      have others := ih fun other member => kept other (List.mem_cons_of_mem item member)
      rw [List.mapM_cons]
      mvcgen [first, others]

/-! ## Contexts -/

@[spec]
theorem makeContext_calm (kind : Kind) (keys : List SymbolId) : Calm l (makeContext kind keys) := by
  mvcgen [makeContext]
  all_goals exact Series.has_managed_of_flags rfl (by decide)

@[spec]
theorem appendKey_calm (context : SeriesId) (symbol : SymbolId) (value : Cell) :
    Calm l (appendKey context symbol value) := by
  mvcgen [appendKey]

@[spec]
theorem writeVar_calm (r : VarRef) (value : Cell) : Calm l (writeVar r value) := by
  mvcgen [writeVar]

@[spec]
theorem setVar_calm (word : Cell) (specifier : Specifier) (value : Cell) :
    Calm l (setVar word specifier value) := by
  mvcgen [setVar]

@[spec]
theorem nestingBound_calm : Calm l nestingBound := by
  mvcgen [nestingBound]

@[spec]
theorem forCells_calm (id : SeriesId) (body : Nat → Cell → Interp Unit)
    (kept : ∀ i c, Calm l (body i c)) : Calm l (forCells id body) := by
  mvcgen [forCells, kept]

theorem bindDeepIn_calm (context : SeriesId) (addSetWords : Bool) (depth : Nat)
    (array : SeriesId) : Calm l (bindDeepIn context addSetWords depth array) := by
  induction depth generalizing array with
  | zero => exact throws l (fun _ => rfl) _
  | succ depth ih => mvcgen [bindDeepIn, ih]

@[spec]
theorem bindDeep_calm (array context : SeriesId) (addSetWords : Bool) :
    Calm l (bindDeep array context addSetWords) := by
  mvcgen [bindDeep, bindDeepIn_calm]

@[spec]
theorem userSlot_calm (symbol : SymbolId) : Calm l (userSlot symbol) := by
  mvcgen [userSlot]

theorem bindUserIn_calm (depth : Nat) (array : SeriesId) : Calm l (bindUserIn depth array) := by
  induction depth generalizing array with
  | zero => exact throws l (fun _ => rfl) _
  | succ depth ih => mvcgen [bindUserIn, ih]

@[spec]
theorem bindUser_calm (array : SeriesId) : Calm l (bindUser array) := by
  mvcgen [bindUser, bindUserIn_calm]

theorem relativizeIn_calm (paramlist : SeriesId) (depth : Nat) (array : SeriesId) :
    Calm l (relativizeIn paramlist depth array) := by
  induction depth generalizing array with
  | zero => exact throws l (fun _ => rfl) _
  | succ depth ih => mvcgen [relativizeIn, ih]

@[spec]
theorem relativizeDeep_calm (array paramlist : SeriesId) :
    Calm l (relativizeDeep array paramlist) := by
  mvcgen [relativizeDeep, relativizeIn_calm]

theorem copyDeepIn_calm (depth : Nat) (array : SeriesId) (index : Nat) (specifier : Specifier) :
    Calm l (copyDeepIn depth array index specifier) := by
  induction depth generalizing array index specifier with
  | zero => exact throws l (fun _ => rfl) _
  | succ depth ih => mvcgen [copyDeepIn, ih]

@[spec]
theorem copyArrayDeep_calm (array : SeriesId) (index : Nat) (specifier : Specifier) :
    Calm l (copyArrayDeep array index specifier) := by
  mvcgen [copyArrayDeep, copyDeepIn_calm]

@[spec]
theorem copyArrayShallow_calm (array : SeriesId) (start stop : Nat) (specifier : Specifier) :
    Calm l (copyArrayShallow array start stop specifier) := by
  mvcgen [copyArrayShallow]

@[spec]
theorem copyContext_calm (context : SeriesId) (deep : Bool) :
    Calm l (copyContext context deep) := by
  mvcgen [copyContext]

@[spec]
theorem quotify_calm (c : Cell) (n : Nat) : Calm l (quotify c n) := by
  mvcgen [quotify]
  exact Series.has_managed_of_flags rfl (by decide)

@[spec]
theorem errorValue_calm (e : Error) : Calm l (errorValue e) := by
  mvcgen [errorValue]

/-! ## Actions -/

theorem anyParamFlags_apart (p : Typeset) : Query.anyParamFlags p &&& Flags.managed = 0 := by
  unfold Query.anyParamFlags
  split <;> split <;> try split
  all_goals decide

theorem foldl_anyParamFlags_apart (params : List Typeset) {first : Flags}
    (apart : first &&& Flags.managed = 0) :
    params.foldl (fun flags p => flags ||| Query.anyParamFlags p) first &&& Flags.managed = 0 := by
  induction params generalizing first with
  | nil => exact apart
  | cons p params ih =>
      apply ih
      rw [Flags.or_and, apart, anyParamFlags_apart]
      rfl

theorem firstParamFlags_apart {paramlist : SeriesId} {exemplar : Option SeriesId}
    {slots : List Nat} {m : Machine} {flags : Flags}
    (answer : Query.firstParamFlags paramlist exemplar slots m = .ok flags) :
    flags &&& Flags.managed = 0 := by
  induction slots with
  | nil =>
      cases answer
      decide
  | cons i rest ih =>
      simp only [Query.firstParamFlags, Query.bind_eq_ok] at answer
      obtain ⟨p, -, answer⟩ := answer
      split at answer
      · exact ih answer
      · obtain ⟨fixed, -, answer⟩ := Query.bind_eq_ok.mp answer
        split at answer
        · exact ih answer
        · cases answer
          split <;> split <;> split <;> decide

theorem conventions_apart {paramlist : SeriesId} {exemplar : Option SeriesId} {m : Machine}
    {flags : Flags} (answer : Query.conventions paramlist exemplar m = .ok flags) :
    flags &&& Flags.managed = 0 := by
  simp only [Query.conventions, Query.bind_eq_ok] at answer
  obtain ⟨slots, -, first, asked, params, -, folded⟩ := answer
  cases folded
  exact foldl_anyParamFlags_apart params (firstParamFlags_apart asked)

@[spec]
theorem setConventions_calm (paramlist : SeriesId) (exemplar : Option SeriesId) :
    Calm l (setConventions paramlist exemplar) := by
  refine triple_iff.mpr fun m here => ?_
  unfold setConventions
  cases asked : Query.conventions paramlist exemplar m with
  | ok flags =>
      rw [lift_bind_ok asked]
      exact triple_iff.mp (setFlag_calm l paramlist flags (conventions_apart asked)) m here
  | error fault =>
      rw [bind_run, lift_run, asked]
      exact here.above

@[spec]
theorem makeParamlist_calm (spec : SeriesId) (index : Nat) (ownReturn : Bool) :
    Calm l (makeParamlist spec index ownReturn) := by
  mvcgen [makeParamlist]
  all_goals exact Series.has_managed_of_flags rfl (Flags.or_managed_or _ _)

@[spec]
theorem makeAction_calm (paramlist : SeriesId) (dispatcher : Dispatcher) (details : List Cell)
    (exemplar : Option SeriesId) : Calm l (makeAction paramlist dispatcher details exemplar) := by
  mvcgen [makeAction]
  exact Series.has_managed_of_flags rfl (by decide)

@[spec]
theorem makeFunc_calm (spec body : Cell) : Calm l (makeFunc spec body) := by
  mvcgen [makeFunc]

@[spec]
theorem sharedParamlist_calm (action : Action) : Calm l (sharedParamlist action) := by
  mvcgen [sharedParamlist]
  intro _ _
  exact Series.has_managed_of_flags rfl (Flags.or_managed_or _ _)

@[spec]
theorem makeSpecialization_calm (underlying : Action) (binding : Binding) (exemplar : SeriesId) :
    Calm l (makeSpecialization underlying binding exemplar) := by
  mvcgen [makeSpecialization]

@[spec]
theorem makeChain_calm (first : Action) (details : List Cell) :
    Calm l (makeChain first details) := by
  mvcgen [makeChain]

@[spec]
theorem makeExemplar_calm (action : Action) (binding : Binding) :
    Calm l (makeExemplar action binding) := by
  mvcgen [makeExemplar]
  all_goals exact Series.has_managed_of_flags rfl (by decide)

@[spec]
theorem specializeRefinements_calm (action : Action) (binding : Binding)
    (refinements : List SymbolId) :
    Calm l (specializeRefinements action binding refinements) := by
  mvcgen [specializeRefinements]

/-! ## Source text and conversion -/

@[spec]
theorem ofScan_calm (result : Scan α) : Calm l (ofScan result) := by
  mvcgen [ofScan]

@[spec]
theorem lexemeCell_calm (lexeme : Lexeme) : Calm l (lexemeCell lexeme) := by
  mvcgen [lexemeCell, constructCell]
  all_goals simp_all

mutual

theorem nodeCell_calm (node : Node) : Calm l (nodeCell node) := by
  cases node with
  | scalar lexeme =>
      rw [nodeCell]
      exact lexemeCell_calm l lexeme
  | quoted depth node =>
      have inner := nodeCell_calm node
      mvcgen [nodeCell, inner]
  | array shape mark items =>
      have inner := itemCells_calm items
      mvcgen [nodeCell, inner]

theorem itemCell_calm (item : Item) : Calm l (itemCell item) := by
  cases item with
  | mk node newline =>
      have inner := nodeCell_calm node
      mvcgen [itemCell, inner]

theorem itemCells_calm (items : List Item) : Calm l (itemCells items) := by
  cases items with
  | nil => mvcgen [itemCells]
  | cons item rest =>
      have first := itemCell_calm item
      have others := itemCells_calm rest
      mvcgen [itemCells, first, others]

end

@[spec]
theorem scan_calm (source : String) : Calm l (scan source) := by
  mvcgen [scan, itemCells_calm]

@[spec]
theorem load_calm (source : String) : Calm l (load source) := by
  mvcgen [load]

@[spec]
theorem toWord_calm (kind : Kind) (value : Cell) : Calm l (toWord kind value) := by
  mvcgen [toWord]

@[spec]
theorem toItems_calm (value : Cell) : Calm l (toItems value) := by
  mvcgen [toItems]

@[spec]
theorem binaryCell_calm (bytes : Array UInt8) : Calm l (binaryCell bytes) := by
  mvcgen [binaryCell]

@[spec]
theorem convert_calm (kind : Kind) (value : Cell) : Calm l (convert kind value) := by
  mvcgen [convert]

/-! ## Series and numbers -/

@[spec]
theorem insertionItems_calm (value : Cell) (only : Bool) :
    Calm l (insertionItems value only) := by
  mvcgen [insertionItems]

@[spec]
theorem insertAt_calm (series : Cell) (place : Nat) (value : Cell) (only : Bool)
    (part : Option Nat) (times : Nat) : Calm l (insertAt series place value only part times) := by
  mvcgen [insertAt, repeatedText]

@[spec]
theorem removeSpan_calm (series : Cell) (place count : Nat) :
    Calm l (removeSpan series place count) := by
  mvcgen [removeSpan]

@[spec]
theorem copySeries_calm (value : Cell) (part : Option Nat) (deep : Bool) :
    Calm l (copySeries value part deep) := by
  mvcgen [copySeries]

@[spec]
theorem copyValue_calm (value : Cell) (part : Option Nat) (deep : Bool) :
    Calm l (copyValue value part deep) := by
  mvcgen [copyValue]

@[spec]
theorem ofExcept_calm (result : Except Fault α) : Calm l (ofExcept result : Interp α) := by
  cases result with
  | ok a => exact triple_iff.mpr fun _ here => here
  | error fault => exact throws l (fun _ => rfl) _

end Interp

namespace Arithmetic

variable (l : Levels)

@[spec]
theorem apply_calm (operation : Operation) (a b : Cell) : Calm l (apply operation a b) := by
  mvcgen [apply]

@[spec]
theorem negate_calm (v : Cell) : Calm l (negate v) := by
  mvcgen [negate]

@[spec]
theorem absPart_calm (c : Cell) : Calm l (absPart c) := by
  mvcgen [absPart]

@[spec]
theorem abs_calm (v : Cell) : Calm l (abs v) := by
  mvcgen [abs]

end Arithmetic

end Homoicon
