import Homoicon.Proofs.Arguments.Exemplars
import Homoicon.Proofs.Arguments.Literal
import Homoicon.Proofs.Contexts.Resolving
import Homoicon.Proofs.Parsing.Spelling

/-!
# Blocks of assignments

A specialization is given a block in which literals are assigned to the names of parameters.  It
evaluates a copy of the block whose words refer to the slots of the exemplar.
-/

namespace Homoicon

open Interp (Gives)

/-- Literals that are assigned, each to a word that stands for a place in some way. -/
inductive Assigns (target : Cell → Nat → Prop) : List (Nat × Cell) → List Cell → Prop where
  | nil : Assigns target [] []
  | cons {i : Nat} {w c : Cell} {pairs : List (Nat × Cell)} {items : List Cell} :
      w.is .setWord = true → target w i → c.IsLiteral → Assigns target pairs items →
      Assigns target ((i, c) :: pairs) (w :: c :: items)

/-- A word has the name of a parameter. -/
def Cell.Named (slot? : SymbolId → Option Nat) (w : Cell) (i : Nat) : Prop :=
  ∃ symbol, w.wordSymbol? = some symbol ∧ slot? symbol = some (i + 1)

/-- A word refers to a slot of an exemplar. -/
def Cell.Refers (ex : SeriesId) (w : Cell) (i : Nat) : Prop :=
  w.binding = .specific ex ∧ ∃ symbol, w.payload = .word symbol (i + 1)

theorem Assigns.real {target : Cell → Nat → Prop} {pairs : List (Nat × Cell)} {items : List Cell}
    (assigns : Assigns target pairs items) : ∀ c ∈ items, c.isEnd = false := by
  induction assigns with
  | nil => simp
  | cons word _ literal _ ih =>
      simp only [List.mem_cons, forall_eq_or_imp]
      exact ⟨by simp [Cell.isEnd, (Cell.is_iff.mp word).2], literal.isEnd, ih⟩

/-! ## The copy -/

/-- The series of a copied block. -/
def blockSeries (items : List Cell) : Series := (Series.ofCells items.toArray).managed

theorem blockSeries_unmarked {items : List Cell} :
    (blockSeries items).has Flags.marked = false := by
  simp only [blockSeries, Series.managed, Series.ofCells, Series.withFlags, Series.has]
  split <;> decide

theorem blockSeries_storing (done todo : List Cell) (w c : Cell) :
    (blockSeries (done ++ w :: todo)).storing done.length c = blockSeries (done ++ c :: todo) := by
  have stored : (done ++ w :: todo).toArray.modify done.length (fun _ => c) =
      (done ++ c :: todo).toArray := by
    rw [List.modify_toArray, ← List.set_eq_modify, List.set_append_right _ _ (Nat.le_refl _),
      Nat.sub_self]
    rfl
  rw [Series.storing_array rfl, stored]
  simp [blockSeries, Series.managed, Series.ofCells, Series.withFlags]

theorem Cell.IsLiteral.resolved {c : Cell} (literal : c.IsLiteral) (specifier : Specifier) :
    c.resolved specifier = c := by
  rw [literal.2]
  rfl

/-- Resolving the words of a block leaves its assignments. -/
theorem Assigns.resolved {slot? : SymbolId → Option Nat} {pairs : List (Nat × Cell)}
    {items : List Cell} (assigns : Assigns (Cell.Named slot?) pairs items) (specifier : Specifier) :
    Assigns (Cell.Named slot?) pairs (items.map (·.resolved specifier)) := by
  induction assigns with
  | nil => exact .nil
  | @cons i w c pairs items word named literal assigns ih =>
      have same : w.resolved specifier = { w with binding := (w.resolved specifier).binding } := by
        unfold Cell.resolved
        split <;> rfl
      rw [List.map_cons, List.map_cons, literal.resolved]
      refine .cons ?_ ?_ literal ih
      · rw [same]
        exact word
      · obtain ⟨symbol, name, slot⟩ := named
        exact ⟨symbol, by rw [same]; exact name, slot⟩

namespace Interp

variable {m : Machine} {slot? : SymbolId → Option Nat} {pairs : List (Nat × Cell)}

theorem mapM_run {α β : Type} {f : α → Interp β} {g : α → β} {items : List α}
    (each : ∀ a ∈ items, f a m = .ok (g a) m) : items.mapM f m = .ok (items.map g) m := by
  induction items with
  | nil => rfl
  | cons a items ih =>
      rw [List.mapM_cons, bind_ok (each a (List.mem_cons_self ..)),
        bind_ok (ih fun other member => each other (List.mem_cons_of_mem a member))]
      rfl

/-- A block without arrays in it is copied. -/
theorem copyArrayDeep_flat {source : SeriesId} {index : Nat} {held : Array Cell}
    {specifier : Specifier} (listed : Query.cells source m = .ok held) (settled : m.Settled specifier)
    (flat : ∀ c ∈ held.toList.drop index, c.kind.isAnyArray = false) :
    copyArrayDeep source index specifier m =
      allocArray ((held.toList.drop index).map (·.resolved specifier)) m := by
  have items : Query.cellsFrom source index m = .ok (held.toList.drop index) :=
    Query.cellsFrom_eq_ok.mpr ⟨held, listed, rfl⟩
  change copyDeepIn (m.heap.slots.size + 1) source index specifier m = _
  rw [copyDeepIn, lift_bind_ok items]
  refine bind_ok (mapM_run fun c member => ?_) _
  rw [bind_ok (derelativize_run settled c), flat c member, Bool.and_false, if_neg Bool.false_ne_true]
  rfl

/-- What binding does to one cell of an array. -/
def bindCell (context : SeriesId) (depth : Nat) (array : SeriesId) (i : Nat) (c : Cell) :
    Interp Unit := do
  if c.kind.isAnyWord then
    match c.wordSymbol? with
    | none => pure ()
    | some symbol =>
      match ← Query.findKey? context symbol with
      | some slot =>
        modifyCell array i fun c =>
          { c with binding := .specific context, payload := .word symbol slot }
      | none => pure ()
  else if c.kind.isAnyArray then
    match c.seriesId? with
    | some inner => bindDeepIn context false depth inner
    | none => pure ()

theorem bindDeepIn_succ (context : SeriesId) (depth : Nat) (array : SeriesId) :
    bindDeepIn context false (depth + 1) array =
      forCells array (bindCell context depth array) := by
  rw [bindDeepIn]
  refine congrArg (forCells array) (funext fun i => funext fun c => ?_)
  rw [bindCell]
  split
  · cases c.wordSymbol? with
    | none => rfl
    | some symbol =>
        refine bind_congr fun slot => ?_
        cases slot <;> rfl
  · rfl

theorem bindCell_literal {ex copy : SeriesId} {depth i : Nat} {c : Cell} (literal : c.IsLiteral) :
    bindCell ex depth copy i c = pure () := by
  have plain := literal.1
  simp only [Bool.and_eq_true, Bool.not_eq_true'] at plain
  rw [bindCell, plain.1.2, plain.2]
  rfl

theorem bindCell_word {ex copy : SeriesId} {depth i slot : Nat} {w : Cell} {symbol : SymbolId}
    (word : w.is .setWord = true) (name : w.wordSymbol? = some symbol)
    (found : Query.findKey? ex symbol m = .ok (some slot)) :
    bindCell ex depth copy i w m = modifyCell copy i
      (fun c => { c with binding := .specific ex, payload := .word symbol slot }) m := by
  have isWord : w.kind.isAnyWord = true := by rw [(Cell.is_iff.mp word).2]; rfl
  rw [bindCell, isWord, if_pos rfl, name]
  exact lift_bind_ok found _

/-- From a place of a copied block on, the words with the names of parameters are bound to the slots
of an exemplar. -/
theorem bindCells_assigns {copy ex : SeriesId} {done todo : List Cell} (depth : Nat)
    (assigns : Assigns (Cell.Named slot?) pairs todo)
    (live : m.heap.get? copy = some (blockSeries (done ++ todo)))
    (found : ∀ s m', m.Becomes copy s m' → ∀ symbol,
      Query.findKey? ex symbol m' = .ok (slot? symbol)) :
    ∃ bound, Assigns (Cell.Refers ex) pairs bound ∧
      Gives ((todo.zipIdx done.length).forM fun (c, i) => bindCell ex depth copy i c) m ()
        (m.Becomes copy (blockSeries (done ++ bound))) := by
  induction assigns generalizing m done with
  | nil => exact ⟨[], .nil, m, rfl, rfl, live, fun _ _ => rfl⟩
  | @cons i w c pairs items setWord named inert assigns ih =>
      obtain ⟨unquoted, kind⟩ := Cell.is_iff.mp setWord
      obtain ⟨symbol, name, slot⟩ := named
      let w' := { w with binding := .specific ex, payload := .word symbol (i + 1) }
      have cells := Query.cells_eq_ok.mpr ⟨_, live, rfl⟩
      have here : (done ++ w :: c :: items).toArray[done.length]? = some w := by simp
      obtain ⟨m', stored, becomes⟩ := storeCell_becomes live rfl
        (by simp : done.length < (done ++ w :: c :: items).toArray.size) w'
      rw [blockSeries_storing] at becomes
      have bound : bindCell ex depth copy done.length w m = .ok () m' := by
        have key := (found _ m ⟨rfl, live, fun _ _ => rfl⟩ symbol).trans (by rw [slot])
        rw [bindCell_word setWord name key, modifyCell_eq_storeCell cells here]
        exact stored
      have live' : m'.heap.get? copy = some (blockSeries (done ++ [w', c] ++ items)) := by
        simpa using becomes.self
      obtain ⟨rest, assigns', ran⟩ := ih live' fun s m'' later => found s m'' (becomes.trans later)
      refine ⟨w' :: c :: rest, .cons ?_ ⟨rfl, symbol, rfl⟩ inert assigns', ?_⟩
      · exact Cell.is_iff.mpr ⟨unquoted, kind⟩
      · obtain ⟨m'', others, reached⟩ := ran
        have place : (done ++ [w', c]).length = done.length + 1 + 1 := by simp
        have last : done ++ w' :: c :: rest = done ++ [w', c] ++ rest := by simp
        rw [place] at others
        refine ⟨m'', ?_, last ▸ becomes.trans reached⟩
        rw [List.zipIdx_cons, List.zipIdx_cons]
        change (bindCell ex depth copy done.length w >>= fun _ =>
          bindCell ex depth copy (done.length + 1) c >>= fun _ => _) m = _
        rw [bind_ok bound, bindCell_literal inert, pure_bind]
        exact others

/-- The words of a block that name parameters are bound to the slots of an exemplar. -/
theorem bindDeep_assigns {copy ex : SeriesId} {items : List Cell}
    (assigns : Assigns (Cell.Named slot?) pairs items)
    (live : m.heap.get? copy = some (blockSeries items))
    (found : ∀ s m', m.Becomes copy s m' → ∀ symbol,
      Query.findKey? ex symbol m' = .ok (slot? symbol)) :
    ∃ bound, Assigns (Cell.Refers ex) pairs bound ∧
      Gives (bindDeep copy ex false) m () (m.Becomes copy (blockSeries bound)) := by
  have cells : Query.cells copy m = .ok items.toArray := Query.cells_eq_ok.mpr ⟨_, live, rfl⟩
  have walk : bindDeep copy ex false m =
      (items.zipIdx.forM fun (c, i) => bindCell ex m.heap.slots.size copy i c) m := by
    change bindDeepIn ex false (m.heap.slots.size + 1) copy m = _
    rw [bindDeepIn_succ]
    exact lift_bind_ok cells _
  obtain ⟨bound, refers, ran⟩ := bindCells_assigns m.heap.slots.size assigns
    (by simpa using live : m.heap.get? copy = some (blockSeries ([] ++ items))) found
  exact ⟨bound, refers, by rw [Gives, walk]; exact ran⟩

end Interp

/-- A block value in which literals are assigned to names. -/
structure Machine.AssignsIn (m : Machine) (slot? : SymbolId → Option Nat) (block : Cell)
    (pairs : List (Nat × Cell)) : Prop where
  items : ∃ source held, block.seriesId? = some source ∧ Query.cells source m = .ok held ∧
    Assigns (Cell.Named slot?) pairs (held.toList.drop block.index)
  settled : m.Settled (Query.deriveSpecifier block none)

theorem Assigns.flat {target : Cell → Nat → Prop} {pairs : List (Nat × Cell)} {items : List Cell}
    (assigns : Assigns target pairs items) : ∀ c ∈ items, c.kind.isAnyArray = false := by
  induction assigns with
  | nil => simp
  | cons word _ literal _ ih =>
      have plain := literal.1
      simp only [Bool.and_eq_true, Bool.not_eq_true'] at plain
      simp only [List.mem_cons, forall_eq_or_imp]
      exact ⟨by rw [(Cell.is_iff.mp word).2]; rfl, plain.2, ih⟩

theorem Assigns.quiet {target : Cell → Nat → Prop} {pairs : List (Nat × Cell)} {items : List Cell}
    (assigns : Assigns target pairs items) : ∀ c ∈ items, c.IsQuiet := by
  induction assigns with
  | nil => simp
  | cons word _ literal _ ih =>
      simp only [List.mem_cons, forall_eq_or_imp]
      exact ⟨by simp [Cell.IsQuiet, Cell.is, (Cell.is_iff.mp word).2], literal.quiet, ih⟩

/-- The block is copied, and its words refer to the slots of the exemplar. -/
theorem Interp.copyBoundTo_assigns {m : Machine} {block : Cell} {pairs : List (Nat × Cell)}
    {ex base : SeriesId} {names : Array Cell} (linked : Query.keylist ex m = .ok base)
    (listed : Query.cells base m = .ok names)
    (assigns : m.AssignsIn (fun symbol => m.symbols.findName? names (m.symbols.canon symbol)) block
      pairs) :
    ∃ copy bound, m.heap.get? copy = none ∧ Assigns (Cell.Refers ex) pairs bound ∧
      Gives (copyBoundTo ex block) m copy (m.Becomes copy (blockSeries bound)) := by
  obtain ⟨source, held, array, cells, assigns'⟩ := assigns.items
  have own : Query.arrayOf block m = .ok source := Query.arrayOf_eq_ok.mpr array
  obtain ⟨copy, fresh, m₁, made, becomes⟩ := alloc_becomes m
    (blockSeries ((held.toList.drop block.index).map (·.resolved (Query.deriveSpecifier block none))))
  have copied : copyArrayDeep source block.index (Query.deriveSpecifier block none) m =
      .ok copy m₁ := (copyArrayDeep_flat cells assigns.settled assigns'.flat).trans made
  obtain ⟨bound, refers, m₂, walked, becomes'⟩ : ∃ bound, Assigns (Cell.Refers ex) pairs bound ∧
      Gives (bindDeep copy ex false) m₁ () (m₁.Becomes copy (blockSeries bound)) :=
    bindDeep_assigns (assigns'.resolved _) becomes.self fun s m' later symbol => by
      have both := becomes.trans later
      have kept {id : SeriesId} (old : m.heap.get? id ≠ none) : m'.heap.get? id = m.heap.get? id :=
        both.others id fun same => old (same ▸ fresh)
      obtain ⟨t, live, link⟩ := Law.keylist_eq_ok.mp linked
      obtain ⟨u, live', content⟩ := Query.cells_eq_ok.mp listed
      have linked' : Query.keylist ex m' = .ok base :=
        Law.keylist_eq_ok.mpr ⟨t, (kept (by simp [live])).trans live, link⟩
      have listed' : Query.cells base m' = .ok names :=
        Query.cells_eq_ok.mpr ⟨u, (kept (by simp [live'])).trans live', content⟩
      have symbols : m'.symbols = m.symbols := by rw [both.rest]
      rw [Query.findKey?, Query.bind_ok linked', Query.bind_ok listed', Query.bind_ok
        (Query.read_run m'), symbols]
      rfl
  refine ⟨copy, bound, fresh, refers, m₂, ?_, becomes.trans becomes'⟩
  rw [copyBoundTo, lift_bind_ok own, bind_ok copied, bind_ok walked]
  rfl

end Homoicon
