import Homoicon.Proofs.Booting.Defining
import Homoicon.Proofs.Expressions.Outcomes
import Homoicon.Proofs.Source.Lexing

/-!
# Formulas as source text

The text of a formula has a space between any two of its values.  Scanning it puts the values on the
heap as they stand in the formula, and once its words refer to the operations of their names, they
are the formula.
-/

namespace Homoicon

/-! ## Texts -/

/-- The name of an operation, as an operator or as an action that stands before its arguments. -/
def FormulaOp.name : FormulaOp → (enfix : Bool) → String
  | add, true => "+"
  | subtract, true => "-"
  | multiply, true => "*"
  | add, false => "add"
  | subtract, false => "subtract"
  | multiply, false => "multiply"

/-- The word for an operation. -/
def FormulaOp.item (op : FormulaOp) (enfix : Bool) : Item :=
  .mk (.scalar (.word (op.name enfix) .plain)) false

theorem FormulaOp.isName_name (op : FormulaOp) (enfix : Bool) : Token.IsName (op.name enfix) := by
  cases op <;> cases enfix <;> exact ⟨⟨_, rfl, rfl⟩, by decide⟩

namespace Formula

variable {chain isOpen : Bool}

/-- The integers of a formula can be written in 64 bits. -/
def Written {chain isOpen : Bool} : Formula chain isOpen → Prop
  | integer i => Bits.fits64 i = true
  | group inner => inner.Written
  | infix_ left _ right => left.Written ∧ right.Written
  | call _ first second => first.Written ∧ second.Written

/-- The source text of a formula. -/
def source {chain isOpen : Bool} : Formula chain isOpen → String
  | integer i => toString i
  | group inner => "(" ++ inner.source ++ ")"
  | infix_ left op right => left.source ++ " " ++ op.name true ++ " " ++ right.source
  | call op first second => op.name false ++ " " ++ first.source ++ " " ++ second.source

/-- The values that a formula is written as. -/
def items {chain isOpen : Bool} : Formula chain isOpen → List Item
  | integer i => [.mk (.scalar (.integer i)) false]
  | group inner => [.mk (.array .group .plain inner.items) false]
  | infix_ left op right => left.items ++ op.item true :: right.items
  | call op first second => op.item false :: (first.items ++ second.items)

theorem structural_items {e : Formula chain isOpen} (written : e.Written) :
    ∀ item ∈ e.items, item.node.Structural := by
  induction e with
  | integer i =>
      rintro item (_ | ⟨_, ⟨⟩⟩)
      exact .scalar (.integer written)
  | group inner ih =>
      rintro item (_ | ⟨_, ⟨⟩⟩)
      exact .array .group .plain (ih written)
  | infix_ left op right first second =>
      intro item member
      rcases List.mem_append.mp member with member | member
      · exact first written.1 item member
      · rcases List.mem_cons.mp member with rfl | member
        · exact .scalar (.word .plain (op.isName_name true))
        · exact second written.2 item member
  | call op first second ih ih' =>
      intro item member
      rcases List.mem_cons.mp member with rfl | member
      · exact .scalar (.word .plain (op.isName_name false))
      · rcases List.mem_append.mp member with member | member
        · exact ih written.1 item member
        · exact ih' written.2 item member

theorem newline_items (e : Formula chain isOpen) : e.items.any Item.newline = false := by
  induction e with
  | integer i => rfl
  | group inner => rfl
  | infix_ left op right first second => simp [items, first, second, FormulaOp.item, Item.newline]
  | call op first second ih ih' => simp [items, ih, ih', FormulaOp.item, Item.newline]

/-- What molding writes for the values of a formula is its text. -/
theorem itemsText_items (e : Formula chain isOpen) (indent : Nat) (first : Bool)
    (rest : List Item) : Node.itemsText indent first (e.items ++ rest) =
      (if first then [] else [' ']) ++ e.source.toList ++ Node.itemsText indent false rest := by
  induction e generalizing indent first rest with
  | integer i => simp [items, source, Node.itemsText, Node.text, Lexeme.molded]
  | group inner ih =>
      have inside := ih (indent + 1) true []
      simp only [List.append_nil] at inside
      simp [items, source, Node.itemsText, Node.text, Node.leadText, Node.trailText, Node.openText,
        Node.closeText, inside, newline_items]
  | infix_ left op right ih ih' =>
      rw [items, List.append_assoc, ih, List.cons_append, FormulaOp.item, Node.itemsText, ih']
      simp [source, Node.text, Lexeme.molded, Mold.wordText]
  | call op e e' ih ih' =>
      rw [items, List.cons_append, List.append_assoc, FormulaOp.item, Node.itemsText, ih, ih']
      simp [source, Node.text, Lexeme.molded, Mold.wordText]

/-- The text of a formula is scanned as its values. -/
theorem scan_source {e : Formula chain isOpen} (written : e.Written) :
    Node.scan e.source = .ok e.items := by
  refine Token.scan_itemsText (structural_items written) ?_
  have text := e.itemsText_items 0 true []
  simp only [List.append_nil, Node.itemsText] at text
  exact text.symm

/-! ## Chains -/

/-- A formula that goes on with some operators and their right sides. -/
def chained {chain : Bool} (left : Formula chain false) :
    List (FormulaOp × Formula false false) → (chain : Bool) × Formula chain false
  | [] => ⟨chain, left⟩
  | (op, right) :: rest => chained (.infix_ left op right) rest

/-- A chain is written as its operands with the operators between them. -/
theorem source_chained (left : Formula chain false)
    (rest : List (FormulaOp × Formula false false)) :
    (left.chained rest).2.source = left.source ++
      String.join (rest.map fun (op, right) => " " ++ op.name true ++ " " ++ right.source) := by
  induction rest generalizing chain with
  | nil => simp [chained]
  | cons next rest ih =>
      obtain ⟨op, right⟩ := next
      rw [chained, ih]
      simp [source, String.append_assoc]

/-- A chain comes to the left fold of its operands: no operator binds more tightly. -/
theorem result_chained (left : Formula chain false)
    (rest : List (FormulaOp × Formula false false)) :
    (left.chained rest).2.result = (do
      rest.foldlM (fun x (op, right) => do op.checked x (← right.result)) (← left.result)) := by
  induction rest generalizing chain with
  | nil => simp [chained]
  | cons next rest ih =>
      obtain ⟨op, right⟩ := next
      rw [chained, ih]
      simp [result]

end Formula

/-! ## Scanning -/

/-- Some cells are a formula as it is written, whatever its words refer to. -/
def Machine.Drafts (m : Machine) {chain isOpen : Bool} : Formula chain isOpen → List Cell → Prop
  | .integer i, cells => cells = [Cell.integer i]
  | .group inner, cells => ∃ id held, cells = [Cell.series .group id 0] ∧
      Query.cells id m = .ok held ∧ m.Drafts inner held.toList
  | .infix_ left op right, cells => ∃ before w behind symbol, cells = before ++ w :: behind ∧
      m.Drafts left before ∧ m.HoldsWord w .word 0 (op.name true) symbol ∧ m.Drafts right behind
  | .call op first second, cells => ∃ w before behind symbol, cells = w :: (before ++ behind) ∧
      m.HoldsWord w .word 0 (op.name false) symbol ∧ m.Drafts first before ∧
      m.Drafts second behind

section

variable {m m' : Machine} {chain isOpen : Bool} {cells : List Cell}

theorem Machine.Drafts.keep (kept : m.Keeps [] m') {e : Formula chain isOpen}
    (drafts : m.Drafts e cells) : m'.Drafts e cells := by
  induction e generalizing cells with
  | integer i => exact drafts
  | group inner ih =>
      obtain ⟨id, held, rfl, found, inside⟩ := drafts
      exact ⟨id, held, rfl, kept.cells found, ih inside⟩
  | infix_ left op right first second =>
      obtain ⟨before, w, behind, symbol, rfl, left, word, right⟩ := drafts
      exact ⟨before, w, behind, symbol, rfl, first left, word.keep kept, second right⟩
  | call op first second ih ih' =>
      obtain ⟨w, before, behind, symbol, rfl, word, first, second⟩ := drafts
      exact ⟨w, before, behind, symbol, rfl, word.keep kept, ih first, ih' second⟩

namespace Interp

theorem itemCells_append (first rest : List Item) : itemCells (first ++ rest) = (do
    let before ← itemCells first
    let behind ← itemCells rest
    pure (before ++ behind)) := by
  induction first with
  | nil => simp [itemCells]
  | cons item first ih => simp [itemCells, ih]

/-- The values of a formula are put on the heap. -/
theorem itemCells_items (e : Formula chain isOpen) (m : Machine) :
    ∃ cells m', itemCells e.items m = .ok cells m' ∧ m.Alters [] m' ∧ m'.Drafts e cells := by
  induction e generalizing m with
  | integer i => exact ⟨_, m, rfl, .refl m, rfl⟩
  | group inner ih =>
      obtain ⟨cells, m₁, made, alters, drafts⟩ := ih m
      obtain ⟨id, m₂, put, alters', held, -⟩ := allocArray_run cells m₁
      have group : itemCell (.mk (.array .group .plain inner.items) false) m =
          .ok (Cell.series .group id 0) m₂ := by
        have node : nodeCell (.array .group .plain inner.items) m =
            .ok (Cell.series .group id 0) m₂ := by
          rw [nodeCell, bind_ok made]
          exact (bind_ok put _).trans rfl
        rw [itemCell, bind_ok node]
        rfl
      refine ⟨_, m₂, ?_, alters.trans alters', id, _, rfl, held, drafts.keep alters'.keeps⟩
      rw [Formula.items, itemCells, bind_ok group]
      rfl
  | infix_ left op right first second =>
      obtain ⟨before, m₁, made, alters, drafts⟩ := first m
      obtain ⟨w, m₂, symbol, named, alters', word⟩ := wordCell_run .word (op.name true) m₁
      obtain ⟨behind, m₃, made', alters'', drafts'⟩ := second m₂
      have item : itemCell (op.item true) m₁ = .ok w m₂ := bind_ok named _
      refine ⟨before ++ w :: behind, m₃, ?_, alters.trans (alters'.trans alters''), before, w,
        behind, symbol, rfl, ?_, word.keep alters''.keeps, drafts'⟩
      · have rest : itemCells (op.item true :: right.items) m₁ = .ok (w :: behind) m₃ := by
          rw [itemCells, bind_ok item, bind_ok made']
          rfl
        rw [Formula.items, itemCells_append, bind_ok made, bind_ok rest]
        rfl
      · exact drafts.keep (alters'.keeps.trans alters''.keeps)
  | call op e e' ih ih' =>
      obtain ⟨w, m₁, symbol, named, alters, word⟩ := wordCell_run .word (op.name false) m
      obtain ⟨before, m₂, made, alters', drafts⟩ := ih m₁
      obtain ⟨behind, m₃, made', alters'', drafts'⟩ := ih' m₂
      have item : itemCell (op.item false) m = .ok w m₁ := bind_ok named _
      have rest : itemCells (e.items ++ e'.items) m₁ = .ok (before ++ behind) m₃ := by
        rw [itemCells_append, bind_ok made, bind_ok made']
        rfl
      refine ⟨w :: (before ++ behind), m₃, ?_, alters.trans (alters'.trans alters''), w, before,
        behind, symbol, rfl, ?_, drafts.keep alters''.keeps, drafts'⟩
      · rw [Formula.items, itemCells, bind_ok item, bind_ok rest]
        rfl
      · exact word.keep (alters'.keeps.trans alters''.keeps)

end Interp

/-! ## Binding -/

/-- A formula as it is written is the formula once its words refer to the operations. -/
theorem Machine.Drafts.spells {v : ContextView} {t : Symbols} {cells' : List Cell}
    {ids : List SeriesId} {e : Formula chain isOpen} (drafts : m.Drafts e cells)
    (rebinds : v.Rebinds t m m' cells cells' ids)
    (names : ∀ {op enfix c c' symbol}, m.HoldsWord c .word 0 (FormulaOp.name op enfix) symbol →
      v.Binds t c c' → m'.heap.Names .everywhere none op enfix c') :
    m'.heap.Spells .everywhere e none cells' ∧ ∀ c ∈ cells', m'.heap.Legible c := by
  have isAnyWord {c : Cell} {name : String} {symbol : SymbolId}
      (word : m.HoldsWord c .word 0 name symbol) : c.kind.isAnyWord = true := by
    rw [word.2.1]
    rfl
  induction e generalizing cells cells' ids with
  | integer i =>
      obtain rfl : cells = [Cell.integer i] := drafts
      cases rebinds with
      | word kind => cases kind
      | within leads => cases leads
      | other _ _ rest =>
          cases rest
          refine ⟨⟨false, rfl⟩, ?_⟩
          rintro c (_ | ⟨_, ⟨⟩⟩)
          exact .integer ⟨i, false, rfl⟩
  | group inner ih =>
      obtain ⟨id, held, rfl, found, inside⟩ := drafts
      cases rebinds with
      | word kind => cases kind
      | other _ none_ => cases none_
      | within leads found' after here rest =>
          cases leads
          cases rest
          obtain rfl := Except.ok.inj (found.symm.trans found')
          obtain ⟨spells, legible⟩ := ih inside here
          have cells := Query.cells_iff.mp after
          refine ⟨⟨_, id, _, rfl, rfl, rfl, cells, fun _ => trivial, spells⟩, ?_⟩
          rintro c (_ | ⟨_, ⟨⟩⟩)
          exact .group rfl rfl cells fun d member => legible d (Array.mem_toList_iff.mpr member)
  | infix_ left op right first second =>
      obtain ⟨before, w, behind, symbol, rfl, left, word, right⟩ := drafts
      obtain ⟨before', rest, _, _, rfl, here, there⟩ := rebinds.split
      obtain ⟨w', behind', _, rfl, binds, there⟩ := there.behind_word (isAnyWord word)
      obtain ⟨spells, legible⟩ := first left here
      obtain ⟨spells', legible'⟩ := second right there
      have named := names word binds
      refine ⟨⟨before', w', behind', rfl, spells, named, spells'⟩, fun c member => ?_⟩
      rcases List.mem_append.mp member with member | member
      · exact legible c member
      · rcases List.mem_cons.mp member with rfl | member
        · exact .word named.1
        · exact legible' c member
  | call op first second ih ih' =>
      obtain ⟨w, before, behind, symbol, rfl, word, first, second⟩ := drafts
      obtain ⟨w', rest, _, rfl, binds, there⟩ := rebinds.behind_word (isAnyWord word)
      obtain ⟨before', behind', _, _, rfl, here, there⟩ := there.split
      obtain ⟨spells, legible⟩ := ih first here
      obtain ⟨spells', legible'⟩ := ih' second there
      have named := names word binds
      refine ⟨⟨w', before', behind', rfl, named, spells, spells'⟩, fun c member => ?_⟩
      rcases List.mem_cons.mp member with rfl | member
      · exact .word named.1
      · exact (List.mem_append.mp member).elim (legible c) (legible' c)

end

end Homoicon
