import Homoicon.Library
import Homoicon.Proofs.Arguments.Starting
import Homoicon.Proofs.Contexts.Resolving

/-!
# Formulas

The expressions of arithmetic: integers, groups, chains of operators and calls of the actions that
do the same.  A formula is written as some cells, whose words refer to variables with the actions in
them.  An operator takes what stands on its left at once, so a chain is a chain of operands, and
only the last argument of a call goes on with an operator that follows.
-/

namespace Homoicon

/-! ## The language -/

/-- An operation that a formula is built with. -/
inductive FormulaOp where
  | add
  | subtract
  | multiply
deriving Repr, DecidableEq

namespace FormulaOp

/-- The operation of the library. -/
def operation : FormulaOp → Operation
  | add => .add
  | subtract => .subtract
  | multiply => .multiply

/-- The result for two integers. -/
def on : FormulaOp → Int → Int → Int
  | add, x, y => x + y
  | subtract, x, y => x - y
  | multiply, x, y => x * y

end FormulaOp

/-- A formula.  A chain ends in an operator and its right side, so it is no operand of another
operator; an open formula ends in the last argument of a call, to which an operator behind it would
belong. -/
inductive Formula : (chain isOpen : Bool) → Type where
  | integer (i : Int) : Formula false false
  | group {chain isOpen : Bool} (inner : Formula chain isOpen) : Formula false false
  | infix_ {chain isOpen : Bool} (left : Formula chain false) (op : FormulaOp)
      (right : Formula false isOpen) : Formula true isOpen
  | call {chain isOpen chain' isOpen' : Bool} (op : FormulaOp) (first : Formula chain isOpen)
      (second : Formula chain' isOpen') : Formula false true

namespace Formula

variable {chain isOpen : Bool}

/-- The value of a formula, however large. -/
def value {chain isOpen : Bool} : Formula chain isOpen → Int
  | integer i => i
  | group inner => inner.value
  | infix_ left op right => op.on left.value right.value
  | call op first second => op.on first.value second.value

/-- No operation in a formula leaves the 64 bits. -/
def Fits {chain isOpen : Bool} : Formula chain isOpen → Prop
  | integer _ => True
  | group inner => inner.Fits
  | infix_ left op right =>
      left.Fits ∧ right.Fits ∧ Bits.fits64 (op.on left.value right.value) = true
  | call op first second =>
      first.Fits ∧ second.Fits ∧ Bits.fits64 (op.on first.value second.value) = true

/-- How many cells a formula is written as. -/
def width {chain isOpen : Bool} : Formula chain isOpen → Nat
  | integer _ => 1
  | group _ => 1
  | infix_ left _ right => left.width + (right.width + 1)
  | call _ first second => first.width + second.width + 1

/-- How many frames a formula needs above the one that evaluates it. -/
def depth {chain isOpen : Bool} : Formula chain isOpen → Nat
  | integer _ => 0
  | group inner => inner.depth + 1
  | infix_ left _ right => max left.depth (right.depth + 1)
  | call _ first second => max first.depth second.depth + 1

/-- How many steps a frame takes until it has the value of a formula. -/
def strides {chain isOpen : Bool} : Formula chain isOpen → Nat
  | integer _ => 3
  | group _ => 3
  | infix_ left _ _ => 3 + left.strides
  | call _ _ _ => 5

/-- How many steps must be left by then, for what is evaluated in frames above. -/
def fuel {chain isOpen : Bool} : Formula chain isOpen → Nat
  | integer _ => 0
  | group inner => inner.fuel + 1 + inner.strides
  | infix_ left _ right => left.fuel + (right.fuel + 1 + right.strides)
  | call _ first second =>
      (first.fuel + 1 + first.strides) + (second.fuel + 1 + second.strides)

theorem strides_ge (e : Formula chain isOpen) : 3 ≤ e.strides := by
  cases e <;> simp [strides]

end Formula

/-- A formula of any form. -/
structure Expression where
  {chain isOpen : Bool}
  code : Formula chain isOpen

/-! ## Operations on integers -/

theorem FormulaOp.integers_run {op : FormulaOp} {x y : Int}
    (fits : Bits.fits64 (op.on x y) = true) :
    Arithmetic.integers op.operation x y = .ok (Cell.integer (op.on x y)) := by
  cases op <;>
    simp only [FormulaOp.on] at fits <;>
    simp only [FormulaOp.operation, FormulaOp.on, Arithmetic.integers, Arithmetic.checked, fits,
      if_true] <;> rfl

theorem Cell.SameValue.real {c : Cell} {x : Int} (same : c.SameValue (Cell.integer x)) :
    c.isEnd = false := by
  simp [Cell.isEnd, same.kind, Cell.integer]

/-- The library does on cells what an operation does on integers. -/
theorem FormulaOp.apply_eq {op : FormulaOp} {x y : Int} {a b : Cell}
    (first : a.SameValue (Cell.integer x)) (second : b.SameValue (Cell.integer y)) :
    Arithmetic.apply op.operation a b = ofExcept (Arithmetic.integers op.operation x y) := by
  have kind {c : Cell} {i : Int} (same : c.SameValue (Cell.integer i)) : c.typeKind = .integer := by
    simp [Cell.typeKind, Cell.isQuoted, same.kind, same.quote, Cell.integer]
  have number {c : Cell} {i : Int} (same : c.SameValue (Cell.integer i)) :
      c.asInteger? = some i := by
    simp [Cell.asInteger?, same.payload, same.quote, Cell.integer]
  have scalars : Arithmetic.scalars op.operation a b = Arithmetic.integers op.operation x y := by
    simp only [Arithmetic.scalars, kind first, kind second, Arithmetic.numbers, number first,
      number second]
    rfl
  simp only [Arithmetic.apply, kind first, kind second]
  rw [scalars]
  rfl

theorem FormulaOp.apply_run {op : FormulaOp} {x y : Int} {a b : Cell}
    (first : a.SameValue (Cell.integer x)) (second : b.SameValue (Cell.integer y))
    (fits : Bits.fits64 (op.on x y) = true) (m : Machine) :
    Arithmetic.apply op.operation a b m = .ok (Cell.integer (op.on x y)) m := by
  rw [apply_eq first second, integers_run fits]
  rfl

/-! ## Formulas as cells -/

theorem Heap.cells?_eq_some {h : Heap} {id : SeriesId} {held : Array Cell} :
    h.cells? id = some held ↔ ∃ s, h.get? id = some s ∧ s.content = .array held := by
  rw [Heap.cells?, Option.bind_eq_some_iff]
  refine exists_congr fun s => and_congr Iff.rfl ?_
  cases s.content <;> simp

/-- The conventions by which an operator would take its left side otherwise than at once. -/
def Flags.lookbacks : Flags :=
  Flags.quotesFirst ||| Flags.defersLookback ||| Flags.postpones ||| Flags.invisible

/-- A parameter that takes an integer, evaluated. -/
structure Typeset.Counts (p : Typeset) : Prop where
  normal : p.paramClass = .normal
  single : p.flags.variadic = false
  allows : p.allows .integer = true

/-- Where words are read: slots of series. -/
abbrev Places := SeriesId → Nat → Prop

/-- All slots of all series. -/
def Places.everywhere : Places := fun _ _ => True

/-- All slots of a series. -/
def Places.Whole (reads : Places) (id : SeriesId) : Prop := ∀ i, reads id i

/-- An action that does an operation of arithmetic on its two arguments. -/
structure Heap.Computes (h : Heap) (reads : Places) (op : FormulaOp) (a : Action)
    (base : SeriesId) (p₁ p₂ : Typeset) : Prop where
  lays : h.Lays a { base, params := [p₁, p₂] }
  first : p₁.Counts
  second : p₂.Counts
  plain : ∃ s, h.get? a.paramlist = some s ∧ s.has Flags.lookbacks = false
  runs : ∃ s d, h.get? a.details = some s ∧ s.role = .dispatcher d ∧
    ∀ e f, Library.dispatch e d f = Library.arithmetic op.operation e f
  paramlist : reads.Whole a.paramlist
  shared : reads.Whole base
  details : reads.Whole a.details

/-- A word that refers to a variable of an open context. -/
structure Heap.Refers (h : Heap) (reads : Places) (specifier : Specifier) (w : Cell) (r : VarRef)
    (value : Cell) : Prop where
  word : w.kind.isAnyWord = true
  named : ∃ symbol, w.payload = .word symbol r.index
  slot : ∃ s held keylist, h.get? r.context = some s ∧ s.has Flags.inaccessible = false ∧
    s.link = .keylist keylist ∧ s.content = .array held ∧ held[r.index]? = some value ∧
    (w.binding = .specific r.context ∨
      w.binding = .relative keylist ∧ specifier = some r.context)
  positive : r.index ≠ 0
  reads : reads r.context r.index

/-- A word for an operation, as an operator or as an action that stands before its arguments. -/
def Heap.Names (h : Heap) (reads : Places) (specifier : Specifier) (op : FormulaOp)
    (enfix : Bool) (w : Cell) : Prop :=
  w.is .word = true ∧ ∃ r value a base p₁ p₂, h.Refers reads specifier w r value ∧
    value.asAction? = some a ∧ value.enfixed = enfix ∧ h.Computes reads op a base p₁ p₂

/-- Some cells are a formula. -/
def Heap.Spells (h : Heap) (reads : Places) {chain isOpen : Bool} :
    Formula chain isOpen → Specifier → List Cell → Prop
  | .integer i, _, cells => ∃ newline, cells = [{ Cell.integer i with newline }]
  | .group inner, specifier, cells => ∃ c id held, cells = [c] ∧ c.is .group = true ∧
      c.seriesId? = some id ∧ h.cells? id = some held ∧ reads.Whole id ∧
      h.Spells reads inner (Query.deriveSpecifier c specifier) (held.toList.drop c.index)
  | .infix_ left op right, specifier, cells => ∃ before w behind, cells = before ++ w :: behind ∧
      h.Spells reads left specifier before ∧ h.Names reads specifier op true w ∧
      h.Spells reads right specifier behind
  | .call op first second, specifier, cells => ∃ w before behind, cells = w :: (before ++ behind) ∧
      h.Names reads specifier op false w ∧ h.Spells reads first specifier before ∧
      h.Spells reads second specifier behind

/-- Some cells are formulas, one after the other. -/
def Heap.SpellsAll (h : Heap) (reads : Places) (specifier : Specifier) :
    List Expression → List Cell → Prop
  | [], cells => cells = []
  | e :: rest, cells => ∃ before behind, cells = before ++ behind ∧
      h.Spells reads e.code specifier before ∧ h.SpellsAll reads specifier rest behind

/-! ## Heaps that keep what is read -/

/-- Another heap has what is in some places as it was. -/
structure Heap.Spares (h : Heap) (places : Places) (h' : Heap) : Prop where
  whole : ∀ id s, places.Whole id → h.get? id = some s → h'.get? id = some s
  slot : ∀ id i s held c, places id i → h.get? id = some s → s.content = .array held →
    held[i]? = some c → ∃ s' held', h'.get? id = some s' ∧ (∀ flags, s'.has flags = s.has flags) ∧
      s'.link = s.link ∧ s'.content = .array held' ∧ held'[i]? = some c

/-- What some series refer to is among them. -/
def Heap.Closed (h : Heap) (kept : SeriesId → Prop) : Prop :=
  ∀ id s, kept id → h.get? id = some s → ∀ next ∈ s.references, kept next

/-- Some places, in some series only. -/
def Places.within (reads : Places) (kept : SeriesId → Prop) : Places :=
  fun id i => reads id i ∧ kept id

theorem Places.Whole.within {reads : Places} {kept : SeriesId → Prop} {id : SeriesId}
    (whole : reads.Whole id) (inside : kept id) : (reads.within kept).Whole id :=
  fun i => ⟨whole i, inside⟩

section

variable {h h' : Heap} {kept : SeriesId → Prop} {reads : Places} {specifier : Specifier}
  {op : FormulaOp} {enfix : Bool} {w : Cell}

theorem Heap.Closed.within (closed : h.Closed kept) {id : SeriesId} {s : Series}
    {held : Array Cell} (inside : kept id) (found : h.get? id = some s)
    (content : s.content = .array held) : ∀ c ∈ held, c.Within kept :=
  fun _ member => Machine.Agree.within_of_references content (fun _ => closed id s inside found _)
    member

theorem Heap.Refers.context {r : VarRef} {value : Cell} (within : w.Within kept)
    (inside : ∀ id ∈ specifier, kept id) (refers : h.Refers reads specifier w r value) :
    kept r.context := by
  obtain ⟨s, held, keylist, -, -, -, -, -, bound | ⟨-, rfl⟩⟩ := refers.slot
  · exact within _ (by simp [Cell.references, bound])
  · exact inside _ rfl

/-- The value of a variable that is kept refers to what is kept. -/
theorem Heap.Refers.within {r : VarRef} {value : Cell} (closed : h.Closed kept)
    (within : w.Within kept) (inside : ∀ id ∈ specifier, kept id)
    (refers : h.Refers reads specifier w r value) : value.Within kept := by
  obtain ⟨s, held, keylist, found, -, -, content, there, -⟩ := refers.slot
  exact closed.within (refers.context within inside) found content value
    (Array.mem_of_getElem? there)

theorem Heap.Refers.keep {r : VarRef} {value : Cell} (spares : h.Spares (reads.within kept) h')
    (within : w.Within kept) (inside : ∀ id ∈ specifier, kept id)
    (refers : h.Refers reads specifier w r value) : h'.Refers reads specifier w r value := by
  obtain ⟨s, held, keylist, found, accessible, link, content, there, bound⟩ := refers.slot
  obtain ⟨s', held', found', flags, link', content', there'⟩ :=
    spares.slot _ _ _ _ _ ⟨refers.reads, refers.context within inside⟩ found content there
  refine { refers with slot := ⟨s', held', keylist, found', ?_, ?_, content', there', bound⟩ }
  · exact (flags _).trans accessible
  · exact link'.trans link

/-- What an operation does depends on what its action is made of. -/
theorem Heap.Computes.transfer {a : Action} {base : SeriesId} {p₁ p₂ : Typeset}
    (computes : h.Computes reads op a base p₁ p₂)
    (keep : ∀ id s, id = a.paramlist ∨ id = base ∨ id = a.details → h.get? id = some s →
      h'.get? id = some s) : h'.Computes reads op a base p₁ p₂ := by
  obtain ⟨own, ownFound, ownLink⟩ := computes.lays.own
  obtain ⟨shared, first, sharedFound, content⟩ := computes.lays.base
  obtain ⟨made, madeFound, madeLink⟩ := computes.lays.details
  obtain ⟨s, found, plain⟩ := computes.plain
  obtain ⟨t, d, found', role, runs⟩ := computes.runs
  exact
    { computes with
      lays :=
        { own := ⟨own, keep _ _ (.inl rfl) ownFound, ownLink⟩
          base := ⟨shared, first, keep _ _ (.inr (.inl rfl)) sharedFound, content⟩
          details := ⟨made, keep _ _ (.inr (.inr rfl)) madeFound, madeLink⟩
          fixed := fun ex none_ => absurd none_.symm (Option.some_ne_none ex) }
      plain := ⟨s, keep _ _ (.inl rfl) found, plain⟩
      runs := ⟨t, d, keep _ _ (.inr (.inr rfl)) found', role, runs⟩ }

theorem Heap.Computes.keep {a : Action} {base : SeriesId} {p₁ p₂ : Typeset}
    (closed : h.Closed kept) (spares : h.Spares (reads.within kept) h')
    (paramlist : kept a.paramlist) (details : kept a.details)
    (computes : h.Computes reads op a base p₁ p₂) : h'.Computes reads op a base p₁ p₂ := by
  obtain ⟨own, ownFound, ownLink⟩ := computes.lays.own
  have shares : kept base := by
    rcases ownLink with ⟨-, rfl⟩ | link
    · exact paramlist
    · exact closed _ _ paramlist ownFound _ (by simp [Series.references, link])
  refine computes.transfer fun id s made found => ?_
  rcases made with rfl | rfl | rfl
  · exact spares.whole _ _ (computes.paramlist.within paramlist) found
  · exact spares.whole _ _ (computes.shared.within shares) found
  · exact spares.whole _ _ (computes.details.within details) found

theorem Heap.Names.keep (closed : h.Closed kept) (spares : h.Spares (reads.within kept) h')
    (within : w.Within kept) (inside : ∀ id ∈ specifier, kept id)
    (names : h.Names reads specifier op enfix w) : h'.Names reads specifier op enfix w := by
  obtain ⟨word, r, value, a, base, p₁, p₂, refers, action, fixity, computes⟩ := names
  obtain ⟨paramlist, details⟩ := (refers.within closed within inside).of_action action
  exact ⟨word, r, value, a, base, p₁, p₂, refers.keep spares within inside, action, fixity,
    computes.keep closed spares paramlist details⟩

theorem Heap.Spells.keep (closed : h.Closed kept) (spares : h.Spares (reads.within kept) h')
    {chain isOpen : Bool} (e : Formula chain isOpen) (specifier : Specifier) (cells : List Cell)
    (within : ∀ c ∈ cells, c.Within kept) (inside : ∀ id ∈ specifier, kept id)
    (spells : h.Spells reads e specifier cells) : h'.Spells reads e specifier cells := by
  induction e generalizing specifier cells with
  | integer i => exact spells
  | group inner ih =>
      obtain ⟨c, id, held, rfl, group, series, cells, whole, spells⟩ := spells
      obtain ⟨s, found, content⟩ := Heap.cells?_eq_some.mp cells
      have here : kept id := (within c (List.mem_singleton.mpr rfl)).series series
      refine ⟨c, id, held, rfl, group, series, ?_, whole, ih _ _ (fun d member => ?_) ?_ spells⟩
      · exact Heap.cells?_eq_some.mpr ⟨s, spares.whole _ _ (whole.within here) found, content⟩
      · exact closed.within here found content d
          (Array.mem_toList_iff.mp (List.mem_of_mem_drop member))
      · exact (within c (List.mem_singleton.mpr rfl)).derived inside
  | infix_ left op right first second =>
      obtain ⟨before, w, behind, rfl, left, names, right⟩ := spells
      have within' : ∀ c ∈ w :: behind, c.Within kept := fun c member =>
        within c (List.mem_append_right _ member)
      refine ⟨before, w, behind, rfl, ?_, ?_, ?_⟩
      · exact first _ _ (fun c member => within c (List.mem_append_left _ member)) inside left
      · exact names.keep closed spares (within' w (List.mem_cons_self ..)) inside
      · exact second _ _ (fun c member => within' c (List.mem_cons_of_mem _ member)) inside right
  | call op first second ih ih' =>
      obtain ⟨w, before, behind, rfl, names, first, second⟩ := spells
      have within' : ∀ c ∈ before ++ behind, c.Within kept := fun c member =>
        within c (List.mem_cons_of_mem _ member)
      refine ⟨w, before, behind, rfl, ?_, ?_, ?_⟩
      · exact names.keep closed spares (within w (List.mem_cons_self ..)) inside
      · exact ih _ _ (fun c member => within' c (List.mem_append_left _ member)) inside first
      · exact ih' _ _ (fun c member => within' c (List.mem_append_right _ member)) inside second

theorem Heap.SpellsAll.keep (closed : h.Closed kept) (spares : h.Spares (reads.within kept) h')
    {es : List Expression} {cells : List Cell} (within : ∀ c ∈ cells, c.Within kept)
    (inside : ∀ id ∈ specifier, kept id) (spells : h.SpellsAll reads specifier es cells) :
    h'.SpellsAll reads specifier es cells := by
  induction es generalizing cells with
  | nil => exact spells
  | cons e es ih =>
      obtain ⟨before, behind, rfl, first, rest⟩ := spells
      refine ⟨before, behind, rfl, ?_, ?_⟩
      · exact Heap.Spells.keep closed spares e.code specifier before
          (fun c member => within c (List.mem_append_left _ member)) inside first
      · exact ih (fun c member => within c (List.mem_append_right _ member)) rest

/-! ## Where a formula begins and ends -/

/-- A cell that a formula begins with. -/
inductive Heap.Begins (h : Heap) (reads : Places) (specifier : Specifier) (c : Cell) : Prop where
  | integer : c.IsInteger → Begins h reads specifier c
  | group : c.is .group = true → Begins h reads specifier c
  | word {op : FormulaOp} : h.Names reads specifier op false c → Begins h reads specifier c

/-- What may stand behind a formula: nothing, the beginning of another one, or an operator. -/
def Heap.Follows (h : Heap) (reads : Places) (specifier : Specifier) (operator : Prop)
    (rest : List Cell) : Prop :=
  ∀ c ∈ rest.head?, h.Begins reads specifier c ∨ operator ∧ ∃ op, h.Names reads specifier op true c

theorem Heap.Follows.weaken {operator operator' : Prop} {rest : List Cell}
    (follows : h.Follows reads specifier operator rest) (entails : operator → operator') :
    h.Follows reads specifier operator' rest :=
  fun c member => (follows c member).imp_right (And.imp_left entails)

theorem Heap.Spells.begins {chain isOpen : Bool} {e : Formula chain isOpen} {cells : List Cell}
    (spells : h.Spells reads e specifier cells) :
    ∃ c rest, cells = c :: rest ∧ h.Begins reads specifier c := by
  induction e generalizing cells with
  | integer i =>
      obtain ⟨newline, rfl⟩ := spells
      exact ⟨_, _, rfl, .integer ⟨i, newline, rfl⟩⟩
  | group inner =>
      obtain ⟨c, -, -, rfl, group, -⟩ := spells
      exact ⟨_, _, rfl, .group group⟩
  | infix_ left op right ih =>
      obtain ⟨before, w, behind, rfl, left, -⟩ := spells
      obtain ⟨c, rest, rfl, begins⟩ := ih left
      exact ⟨_, _, rfl, begins⟩
  | call op first second =>
      obtain ⟨w, before, behind, rfl, names, -⟩ := spells
      exact ⟨_, _, rfl, .word names⟩

theorem Heap.Spells.follows {chain isOpen : Bool} {e : Formula chain isOpen} {cells : List Cell}
    (spells : h.Spells reads e specifier cells) (operator : Prop) (rest : List Cell) :
    h.Follows reads specifier operator (cells ++ rest) := by
  obtain ⟨c, behind, rfl, begins⟩ := spells.begins
  rintro d ⟨⟩
  exact .inl begins

theorem Heap.SpellsAll.follows {es : List Expression} {cells : List Cell}
    (spells : h.SpellsAll reads specifier es cells) (operator : Prop) :
    h.Follows reads specifier operator cells := by
  cases es with
  | nil =>
      obtain rfl : cells = [] := spells
      simp [Heap.Follows]
  | cons e es =>
      obtain ⟨before, behind, rfl, first, -⟩ := spells
      exact Heap.Spells.follows first operator behind

theorem Heap.Spells.length {chain isOpen : Bool} {e : Formula chain isOpen} {cells : List Cell}
    (spells : h.Spells reads e specifier cells) : cells.length = e.width := by
  induction e generalizing cells specifier with
  | integer i =>
      obtain ⟨newline, rfl⟩ := spells
      rfl
  | group inner =>
      obtain ⟨c, -, -, rfl, -⟩ := spells
      rfl
  | infix_ left op right first second =>
      obtain ⟨before, w, behind, rfl, left, -, right⟩ := spells
      rw [List.length_append, List.length_cons, first left, second right, Formula.width]
  | call op first second ih ih' =>
      obtain ⟨w, before, behind, rfl, -, first, second⟩ := spells
      rw [List.length_cons, List.length_append, ih first, ih' second, Formula.width]

/-! ## Looking words up -/

variable {m : Machine} {r : VarRef} {value : Cell}

theorem Heap.Refers.resolveWord (refers : m.heap.Refers reads specifier w r value) :
    Query.resolveWord w specifier m = .ok r := by
  obtain ⟨symbol, payload⟩ := refers.named
  obtain ⟨s, held, keylist, found, accessible, link, content, there, bound⟩ := refers.slot
  have inside : r.index < s.content.size := by
    rw [content]
    exact (Array.getElem?_eq_some_iff.mp there).1
  exact (Machine.Serves.of_live found accessible link).resolveWord payload bound refers.positive
    inside

theorem Heap.Refers.varContent (refers : m.heap.Refers reads specifier w r value) :
    Query.varContent r m = .ok value := by
  obtain ⟨s, held, keylist, found, -, -, content, there, -⟩ := refers.slot
  exact Query.cell_eq_ok.mpr ⟨held, Query.cells_eq_ok.mpr ⟨s, found, content⟩, there⟩

theorem Heap.Refers.getVar (refers : m.heap.Refers reads specifier w r value) :
    Query.getVar w specifier m = .ok value := by
  rw [Query.getVar, Query.bind_ok refers.resolveWord, refers.varContent]

theorem Heap.Refers.tryGetVar? (refers : m.heap.Refers reads specifier w r value) :
    Query.tryGetVar? w specifier m = .ok (some value) := by
  simp only [Query.tryGetVar?, refers.resolveWord]
  rw [refers.varContent]
  rfl

/-- Flags among some that are not set are not set. -/
theorem Series.has_of_mask {s : Series} {flags mask : Flags} (part : flags &&& mask = flags)
    (without : s.has mask = false) : s.has flags = false := by
  simp only [Series.has, bne_eq_false_iff_eq] at without ⊢
  rw [← part, UInt32.and_comm flags, ← UInt32.and_assoc, without, UInt32.zero_and]

end

end Homoicon
