import Homoicon.Proofs.Calendar
import Homoicon.Proofs.Paths.Picking

/-!
# What pokes store

A poke that does not fail either replaces one place of a series or a context, or gives a changed
pair, tuple or date.  The same picker then picks the value that was stored, and the other parts are
as they were.
-/

namespace Homoicon

/-- A value as evaluation gives it: its words are not left relative to parameters, and integers,
characters and actions have their own kinds. -/
structure Cell.IsEvaluated (v : Cell) : Prop where
  tied : ∀ paramlist, v.binding ≠ .relative paramlist
  integer : ∀ i, v.payload = .integer i → v.kind = .integer ∧ v.binding = .unbound
  char : ∀ c, v.payload = .char c → v.kind = .char ∧ v.binding = .unbound
  action : ∀ a, v.payload = .action a → v.kind = .action

namespace Cell.IsEvaluated

variable {v c : Cell}

/-- The value of an element that holds a value does not depend on where it is looked up. -/
theorem resolved (is : v.IsEvaluated) (same : c.SameValue v) (specifier : Specifier) :
    (c.resolved specifier).SameValue v := by
  have free : ∀ paramlist, c.binding ≠ .relative paramlist := fun paramlist =>
    same.binding ▸ is.tied paramlist
  unfold Cell.resolved
  split
  · exact absurd ‹_› (free _)
  · exact same

theorem sameChar (is : v.IsEvaluated) {ch : Char} (char : v.asChar? = some ch) :
    v.SameValue (Cell.char ch) := by
  unfold Cell.asChar? at char
  split at char
  · rename_i payload
    split_ifs at char with plain
    obtain rfl := Option.some.inj char
    obtain ⟨kind, unbound⟩ := is.char _ payload
    exact ⟨kind, beq_iff_eq.mp plain, unbound, payload⟩
  · cases char

theorem sameInteger (is : v.IsEvaluated) {i : Int} (integer : v.asInteger? = some i) :
    v.SameValue (Cell.integer i) := by
  unfold Cell.asInteger? at integer
  split at integer
  · rename_i payload
    split_ifs at integer with plain
    obtain rfl := Option.some.inj integer
    obtain ⟨kind, unbound⟩ := is.integer _ payload
    exact ⟨kind, beq_iff_eq.mp plain, unbound, payload⟩
  · cases integer

end Cell.IsEvaluated

/-- A picker points at a place of a series or a context. -/
inductive Machine.PointsAt (m : Machine) (c : Cell) : Picker → SeriesId → Nat → Prop where
  | element {id : SeriesId} {start : Nat} {s : Series} {n : Int} :
      m.SeriesAt c id start s → Path.Counted start n → (s.content.nth? start n).isSome →
      PointsAt m c (.number n) id (start + n - 1).toNat
  | behind {id : SeriesId} {start slot : Nat} {s : Series} {cells : Array Cell}
      {symbol : SymbolId} :
      m.SeriesAt c id start s → s.content = .array cells →
      m.symbols.Selects cells start symbol slot → PointsAt m c (.name symbol) id slot
  | field {context keylist : SeriesId} {symbol : SymbolId} {index : Nat} {old : Cell} :
      m.FieldAt c symbol context keylist index → Query.cell context index m = .ok old →
      PointsAt m c (.name symbol) context index

/-- The place that a value lives at, if it can be written there. -/
def Place.at? : Place → Option (SeriesId × Nat)
  | .variable_ r => some (r.context, r.index)
  | .slot array index => some (array, index)
  | .nowhere => none

namespace Path

variable {m m' : Machine} {c k v : Cell} {id : SeriesId} {start : Nat} {s : Series} {n : Int}
  {did : PathStep}

/-! ## Series -/

theorem mutable_of_run (live : m.heap.get? id = some s)
    (checked : Query.checkMutable id m = .ok ()) : s.has Flags.locked = false := by
  obtain ⟨locked, asked, rest⟩ := Query.bind_eq_ok.mp checked
  obtain ⟨t, found, rfl⟩ := Query.hasFlag_eq_ok.mp asked
  obtain rfl := Option.some.inj (live.symm.trans found)
  by_contra set
  rw [Bool.eq_true_of_not_eq_false set] at rest
  cases rest

/-- What a step into a series that stores a value has done. -/
structure Stored (m m' : Machine) (id : SeriesId) (s : Series) (slot : Nat) (v : Cell)
    (did : PathStep) : Prop where
  poked : did = .poked
  takes : s.content.Takes v
  machine : m' = replaced m id slot v

theorem stores_ok (done : stores m id s start n v = .ok did m') (takes : s.content.Takes v) :
    (s.content.nth? start n).isSome ∧ Stored m m' id s (start + n - 1).toNat v did := by
  unfold stores at done
  split_ifs at done with there
  · cases done
    exact ⟨there, rfl, takes, rfl⟩

theorem arrayStep_number_ok (at_ : m.SeriesAt c id start s) (cells : Array Cell)
    (content : s.content = .array cells) (number : k.asInteger? = some n)
    (done : arrayStep c k (some v) m = .ok did m') : Counted start n ∧
    (s.content.nth? start n).isSome ∧ Stored m m' id s (start + n - 1).toNat v did := by
  have steps := done
  unfold arrayStep at steps
  rw [Interp.lift_bind_ok at_.arrayOf, Interp.lift_bind_ok (Query.size_run at_.live),
    number] at steps
  dsimp only at steps
  rw [at_.index] at steps
  obtain ⟨counted, steps⟩ := place_bind_eq_ok steps
  refine ⟨counted, ?_⟩
  cases found : s.content.nth? start n with
  | none =>
      rw [if_pos (outside_of_none found)] at steps
      cases steps
  | some x =>
      rw [if_neg (inside_of_some found)] at steps
      cases null : v.isNull with
      | true =>
          rw [null, if_pos rfl] at steps
          obtain ⟨_, -, failed⟩ := Interp.lift_bind_eq_ok.mp steps
          cases failed
      | false =>
          rw [null, if_neg Bool.false_ne_true] at steps
          obtain ⟨⟨⟩, checked, -⟩ := Interp.lift_bind_eq_ok.mp steps
          have free := mutable_of_run at_.live checked
          rw [arrayStep_poke at_ cells content number counted null free] at done
          have takes : s.content.Takes v := by
            rw [content]
            exact null
          rw [← found]
          exact stores_ok done takes

theorem arrayStep_name_ok (at_ : m.SeriesAt c id start s) {cells : Array Cell}
    (content : s.content = .array cells) {symbol : SymbolId} (is : k.IsPicker (.name symbol))
    (done : arrayStep c k (some v) m = .ok did m') (handled : did ≠ .unhandled) :
    ∃ slot, m.symbols.Selects cells start symbol slot ∧ Stored m m' id s slot v did := by
  have listed : Query.cells id m = .ok cells := Query.cells_eq_ok.mpr ⟨s, at_.live, content⟩
  have word : (k.kind.isAnyWord && k.quote == 0) = true := by
    cases is with
    | name kind plain payload =>
        rw [kind, plain]
        rfl
  unfold arrayStep at done
  rw [Interp.lift_bind_ok at_.arrayOf, Interp.lift_bind_ok (Query.size_run at_.live),
    is.asInteger?_name] at done
  dsimp only at done
  rw [word, if_pos rfl, at_.index] at done
  obtain ⟨selected, found, done⟩ := Interp.lift_bind_eq_ok.mp done
  cases selected with
  | none =>
      cases done
      exact absurd rfl handled
  | some slot =>
      have selects := (Query.selectSlot?_eq_some is.wordSymbol? listed).mp found
      refine ⟨slot, selects, ?_⟩
      cases null : v.isNull with
      | true =>
          dsimp only at done
          rw [null, if_pos rfl] at done
          obtain ⟨_, -, failed⟩ := Interp.lift_bind_eq_ok.mp done
          cases failed
      | false =>
          dsimp only at done
          rw [null, if_neg Bool.false_ne_true] at done
          obtain ⟨⟨⟩, -, done⟩ := Interp.lift_bind_eq_ok.mp done
          rw [Interp.bind_ok (moveCell_replaced at_.live content selects.inside v)] at done
          cases done
          exact ⟨rfl, by rw [content]; exact null, rfl⟩

theorem stringStep_ok (at_ : m.SeriesAt c id start s) (buffer : Text.Buffer)
    (content : s.content = .text buffer) (number : k.asInteger? = some n) (is : v.IsEvaluated)
    (done : stringStep c k (some v) m = .ok did m') : Counted start n ∧
    (s.content.nth? start n).isSome ∧ Stored m m' id s (start + n - 1).toNat v did := by
  have steps := done
  unfold stringStep at steps
  rw [number] at steps
  dsimp only at steps
  rw [Interp.lift_bind_ok at_.arrayOf, at_.index] at steps
  obtain ⟨counted, steps⟩ := place_bind_eq_ok steps
  refine ⟨counted, ?_⟩
  cases char : v.asChar? with
  | none =>
      rw [char] at steps
      obtain ⟨_, -, failed⟩ := Interp.lift_bind_eq_ok.mp steps
      cases failed
  | some ch =>
      rw [char] at steps
      obtain ⟨⟨⟩, checked, -⟩ := Interp.lift_bind_eq_ok.mp steps
      have free := mutable_of_run at_.live checked
      rw [stringStep_poke at_ buffer content number counted char free] at done
      have takes : s.content.Takes v := by
        rw [content]
        exact ⟨ch, is.sameChar char⟩
      exact stores_ok done takes

theorem exists_byte {b : Int} (narrow : ¬ (b < 0 || 255 < b) = true) :
    ∃ byte : UInt8, b = byte.toNat := by
  simp only [Bool.or_eq_true, decide_eq_true_eq, not_or, Int.not_lt] at narrow
  exact ⟨UInt8.ofNat b.toNat, by rw [UInt8.toNat_ofNat']; omega⟩

theorem binaryStep_ok (at_ : m.SeriesAt c id start s) (bytes : Array UInt8)
    (content : s.content = .binary bytes) (number : k.asInteger? = some n) (is : v.IsEvaluated)
    (done : binaryStep c k (some v) m = .ok did m') : Counted start n ∧
    (s.content.nth? start n).isSome ∧ Stored m m' id s (start + n - 1).toNat v did := by
  have steps := done
  unfold binaryStep at steps
  rw [number] at steps
  dsimp only at steps
  rw [Interp.lift_bind_ok at_.arrayOf, at_.index] at steps
  obtain ⟨counted, steps⟩ := place_bind_eq_ok steps
  refine ⟨counted, ?_⟩
  cases integer : v.asInteger? with
  | none =>
      rw [integer] at steps
      obtain ⟨_, -, failed⟩ := Interp.lift_bind_eq_ok.mp steps
      cases failed
  | some b =>
      rw [integer] at steps
      dsimp only at steps
      by_cases wide : (b < 0 || 255 < b) = true
      · rw [if_pos wide] at steps
        obtain ⟨_, -, failed⟩ := Interp.lift_bind_eq_ok.mp steps
        cases failed
      · rw [if_neg wide] at steps
        obtain ⟨⟨⟩, checked, -⟩ := Interp.lift_bind_eq_ok.mp steps
        have free := mutable_of_run at_.live checked
        obtain ⟨byte, rfl⟩ := exists_byte wide
        rw [binaryStep_poke at_ bytes content number counted integer free] at done
        have takes : s.content.Takes v := by
          rw [content]
          exact ⟨byte, is.sameInteger integer⟩
        exact stores_ok done takes

variable {p : Picker}

/-- A step into a series that stores a value stores it at the place that the picker points at. -/
theorem step_series_ok (at_ : m.SeriesAt c id start s) (is : k.IsPicker p) (value : v.IsEvaluated)
    (done : step c k (some v) m = .ok did m') (handled : did ≠ .unhandled) :
    ∃ slot, m.PointsAt c p id slot ∧ Stored m m' id s slot v did := by
  rw [step_series at_] at done
  cases content : s.content with
  | array cells =>
      rw [content] at done
      cases p with
      | number n =>
          obtain ⟨counted, there, stored⟩ :=
            arrayStep_number_ok at_ cells content is.asInteger? done
          exact ⟨_, .element at_ counted there, stored⟩
      | name symbol =>
          obtain ⟨slot, selects, stored⟩ := arrayStep_name_ok at_ content is done handled
          exact ⟨slot, .behind at_ content selects, stored⟩
  | text buffer =>
      rw [content] at done
      cases p with
      | number n =>
          obtain ⟨counted, there, stored⟩ :=
            stringStep_ok at_ buffer content is.asInteger? value done
          exact ⟨_, .element at_ counted there, stored⟩
      | name symbol =>
          dsimp only at done
          rw [stringStep, is.asInteger?_name] at done
          cases done
          exact absurd rfl handled
  | binary bytes =>
      rw [content] at done
      cases p with
      | number n =>
          obtain ⟨counted, there, stored⟩ :=
            binaryStep_ok at_ bytes content is.asInteger? value done
          exact ⟨_, .element at_ counted there, stored⟩
      | name symbol =>
          dsimp only at done
          rw [binaryStep, is.asInteger?_name] at done
          cases done
          exact absurd rfl handled

/-! ## Contexts -/

theorem moveCell_ok {i : Nat} (done : Interp.moveCell id i v m = .ok () m') :
    ∃ old, Query.cell id i m = .ok old ∧ m' = replaced m id i v := by
  obtain ⟨held, listed, inside, -⟩ := Interp.storeCell_eq_ok.mp done
  obtain ⟨s, live, content⟩ := Query.cells_eq_ok.mp listed
  rw [moveCell_replaced live content inside v] at done
  cases done
  exact ⟨held[i], Query.cell_eq_ok.mpr ⟨held, listed, Array.getElem?_eq_getElem inside⟩, rfl⟩

theorem writeVar_ok {r : VarRef} (done : Interp.writeVar r v m = .ok () m') :
    ∃ old, Query.cell r.context r.index m = .ok old ∧ m' = replaced m r.context r.index v := by
  obtain ⟨old, -, done⟩ := Interp.lift_bind_eq_ok.mp done
  cases guarded : old.guarded with
  | true =>
      rw [guarded, if_pos rfl] at done
      obtain ⟨_, -, done⟩ := Interp.lift_bind_eq_ok.mp done
      obtain ⟨_, -, failed⟩ := Interp.lift_bind_eq_ok.mp done
      cases failed
  | false =>
      rw [guarded, if_neg Bool.false_ne_true] at done
      exact moveCell_ok done

theorem cell_replaced {i : Nat} {old : Cell} (there : Query.cell id i m = .ok old) (v : Cell) :
    Query.cell id i (replaced m id i v) = .ok v.copied := by
  obtain ⟨held, listed, here⟩ := Query.cell_eq_ok.mp there
  obtain ⟨s, live, content⟩ := Query.cells_eq_ok.mp listed
  refine Query.cell_eq_ok.mpr ⟨held.modify i fun _ => v.copied, ?_, ?_⟩
  · refine Query.cells_eq_ok.mpr ⟨replacing i v s, ?_, ?_⟩
    · change (m.heap.modify id _).get? id = _
      rw [Heap.get?_modify, if_pos rfl, live]
      rfl
    · rw [replacing, content]
      rfl
  · rw [Array.getElem?_modify, if_pos rfl, here]
    rfl

theorem accessible_of_run {context : SeriesId}
    (checked : Query.checkAccessible context m = .ok ()) :
    Query.hasFlag context Flags.inaccessible m = .ok false := by
  obtain ⟨live, -, checked⟩ := Query.bind_eq_ok.mp checked
  cases live with
  | false => cases checked
  | true =>
      obtain ⟨b, asked, checked⟩ := Query.bind_eq_ok.mp checked
      cases b with
      | false => exact asked
      | true => cases checked

/-- A step into a context that stores a value stores it as the variable of a name. -/
theorem contextStep_ok {context keylist : SeriesId} (kind : c.kind.isAnyContext = true)
    (plain : c.quote = 0) (own : c.varlist? = some context)
    (linked : Query.keylist context m = .ok keylist) (apart : keylist ≠ context)
    (is : k.IsPicker p) (done : contextStep c k (some v) m = .ok did m')
    (handled : did ≠ .unhandled) :
    ∃ index, m.PointsAt c p context index ∧ did = .poked ∧ m' = replaced m context index v := by
  unfold contextStep at done
  rw [own] at done
  obtain ⟨⟨⟩, checked, done⟩ := Interp.lift_bind_eq_ok.mp done
  cases p with
  | number n =>
      rw [is.wordSymbol?_number] at done
      cases done
      exact absurd rfl handled
  | name symbol =>
      have word : k.kind.isAnyWord = true := by
        cases is with
        | name kind => rw [kind]; rfl
      rw [is.wordSymbol?] at done
      dsimp only at done
      rw [word, Bool.not_true, if_neg Bool.false_ne_true] at done
      obtain ⟨slot, found, done⟩ := Interp.lift_bind_eq_ok.mp done
      cases slot with
      | none =>
          cases done
          exact absurd rfl handled
      | some index =>
          rw [Query.findKey?, Query.bind_ok linked] at found
          obtain ⟨names, listed, found⟩ := Query.bind_eq_ok.mp found
          obtain ⟨⟨⟩, next, written, done⟩ := Interp.bind_eq_ok.mp done
          obtain ⟨old, there, rfl⟩ := writeVar_ok written
          cases done
          have field : m.FieldAt c symbol context keylist index :=
            ⟨kind, plain, own, accessible_of_run checked, apart, linked, names, listed,
              Except.ok.inj found⟩
          exact ⟨index, .field field there, rfl, rfl⟩

/-! ## Picking again -/

/-- A value that was stored where a picker points is picked again. -/
theorem picks_replaced {slot : Nat} (points : m.PointsAt c p id slot)
    (takes : ∀ start s, m.SeriesAt c id start s → s.content.Takes v) (value : v.IsEvaluated) :
    ∃ y place looks, (replaced m id slot v).Picks c p y place looks ∧ y.SameValue v := by
  have agrees := Machine.Agrees.replaced m id slot v
  have after {start : Nat} {s : Series} (at_ : m.SeriesAt c id start s) :
      (replaced m id slot v).SeriesAt c id start (replacing slot v s) := by
    refine ⟨at_.plain, at_.payload, ?_, (Content.Like.replaced s.content slot v).fits at_.kind⟩
    change (m.heap.modify id _).get? id = _
    rw [Heap.get?_modify, if_pos rfl, at_.live]
    rfl
  have free {x : Cell} (same : x.SameValue v) (specifier : Specifier) :
      (replaced m id slot v).Ties x specifier :=
    fun paramlist _ relative => absurd (same.binding ▸ relative) (value.tied paramlist)
  cases points with
  | element at_ counted there =>
      obtain ⟨old, found⟩ := Option.isSome_iff_exists.mp there
      obtain ⟨positive, -, inside⟩ := nth?_eq_some found
      obtain ⟨x, here, same⟩ := Content.element?_replaced_self (takes _ _ at_) inside
      exact ⟨_, _, _, .element (after at_) counted ((if_pos positive).trans here) (free same _),
        value.resolved same _⟩
  | behind at_ content selects =>
      rename_i start s cells symbol
      have size : s.content.size = cells.size := by rw [content]; rfl
      obtain ⟨x, here, same⟩ :=
        Content.element?_replaced_self (takes _ _ at_) (size ▸ selects.inside)
      rw [content] at here
      have held : (replacing slot v s).content = .array (cells.modify slot fun _ => v.copied) := by
        rw [replacing, content]
        rfl
      refine ⟨_, _, _, .behind (after at_) held ?_ here (free same _), value.resolved same _⟩
      refine selects.congr (by simp) fun i low high => ?_
      rw [Array.getElem?_modify, if_neg (by omega)]
  | field field there =>
      exact ⟨_, _, _, .field (agrees.fieldAt field fun _ both => field.apart both.1)
        (cell_replaced there v),
        rfl, rfl, rfl, rfl⟩

end Path

/-! ## Parts -/

/-- A value is a pair, a tuple or a date. -/
inductive Cell.IsImmediate (c : Cell) : Prop where
  | pair {id : SeriesId} : c.kind = .pair → c.quote = 0 → c.binding = .unbound →
      c.payload = .pair id → c.IsImmediate
  | tuple {bytes : List UInt8} : c.kind = .tuple → c.quote = 0 → c.binding = .unbound →
      c.payload = .tuple bytes → c.IsImmediate
  | date {d : Date} : c.kind = .date → c.quote = 0 → c.binding = .unbound →
      c.payload = .date d → c.IsImmediate

namespace Cell.IsImmediate

variable {c : Cell}

theorem isEvaluated (is : c.IsImmediate) : c.IsEvaluated := by
  obtain ⟨-, -, unbound, payload⟩ | ⟨-, -, unbound, payload⟩ | ⟨-, -, unbound, payload⟩ := is <;>
  refine ⟨fun _ relative => ?_, fun _ same => ?_, fun _ same => ?_, fun _ same => ?_⟩ <;>
  first
  | cases unbound.symm.trans relative
  | cases payload.symm.trans same

theorem isNull (is : c.IsImmediate) : c.isNull = false := by
  obtain ⟨kind, -⟩ | ⟨kind, -⟩ | ⟨kind, -⟩ := is <;>
  exact decide_eq_false (by rw [kind]; decide)

end Cell.IsImmediate

/-- A part of a pair, tuple or date by its number, counted from 0. -/
def Query.part? (c : Cell) (i : Nat) : Query (Option Cell) :=
  match c.payload with
  | .pair id => do if i < 2 then pure (← Query.cells id)[i]? else pure none
  | .tuple bytes => pure (bytes[i]?.map fun b => Cell.integer b.toNat)
  | .date d => pure (d.part? i)
  | _ => pure none

/-- The number of the part that a picker points at. -/
def Symbols.pointed? (t : Symbols) (c : Cell) (p : Picker) : Option Nat :=
  match c.payload, p with
  | .pair _, p => t.part? pairParts p
  | .tuple _, .number n => if 1 ≤ n then some (n.toNat - 1) else none
  | .date _, p => t.part? dateParts p
  | _, _ => none

/-- Two values of one kind have the same parts but for the one that a picker points at.  Where a
tuple ended in front of that part, it is filled up with zeros. -/
structure Machine.OtherParts (m m' : Machine) (c c' : Cell) (p : Picker) : Prop where
  kind : c'.kind = c.kind
  parts : ∃ i, m.symbols.pointed? c p = some i ∧ ∀ j part, j ≠ i →
    Query.part? c j m = .ok part → Query.part? c' j m' = .ok part ∨
      part = none ∧ j < i ∧ Query.part? c' j m' = .ok (some (Cell.integer 0))

/-- A changed pair, tuple or date has a value as one part, and the other parts that it had.  The
parts of a pair are in a new series. -/
structure Machine.Updates (m m' : Machine) (c c' : Cell) (p : Picker) (v : Cell) : Prop where
  immediate : c'.IsImmediate
  fresh : ∀ j, c'.payload = .pair j → m.heap.get? j = none
  picks : ∃ y looks, m'.Picks c' p y .nowhere looks ∧ y.SameValue v ∧
    ∀ j t, looks j t → c'.payload = .pair j
  others : m.OtherParts m' c c' p

namespace Path

variable {m m' : Machine} {c k v : Cell} {p : Picker} {did : PathStep}

/-- A pair with other parts. -/
theorem pairCell_updates {id : SeriesId} (parts : Nat → Cell) (kind : c.kind = .pair)
    (plain : c.quote = 0) (unbound : c.binding = .unbound) (payload : c.payload = .pair id) {i : Nat}
    (part : m.symbols.part? pairParts p = some i) (here : (parts i).SameValue v)
    (others : ∀ j, j < 2 → j ≠ i → Query.cell id j m = .ok (parts j))
    {pair : Cell} (made : Interp.pairCell (parts 0) (parts 1) m = .ok pair m') :
    m.Updates m' c { c with payload := pair.payload } p v ∧ ∀ off, m.Agrees m' off := by
  have two := Symbols.part?_lt part
  change i < 2 at two
  let s := (Series.ofCells #[parts 0, parts 1]).withFlags (Flags.pairing ||| Flags.managed)
  obtain ⟨rfl, rfl⟩ : pair = { kind := .pair, payload := .pair (m.heap.alloc s).1 } ∧
      m' = { m with heap := (m.heap.alloc s).2 } := by
    cases made
    exact ⟨rfl, rfl⟩
  have listed : Query.cells (m.heap.alloc s).1 { m with heap := (m.heap.alloc s).2 } =
      .ok #[parts 0, parts 1] := by
    refine Query.cells_eq_ok.mpr ⟨s, ?_, rfl⟩
    change (m.heap.alloc s).2.get? _ = _
    rw [Heap.get?_alloc, if_pos rfl]
  have cell (j : Nat) (less : j < 2) : #[parts 0, parts 1][j]? = some (parts j) := by
    obtain rfl | rfl : j = 0 ∨ j = 1 := by omega
    · rfl
    · rfl
  have picks := Query.cell_eq_ok.mpr ⟨_, listed, cell i two⟩
  refine ⟨⟨.pair kind plain unbound rfl, ?_, ⟨parts i, _, .pair kind plain rfl part picks, here,
    fun _ _ same => same ▸ rfl⟩, rfl, i, ?_, ?_⟩, fun off => .alloc m s off⟩
  · rintro _ ⟨⟩
    exact m.heap.alloc_fresh s
  · unfold Symbols.pointed?
    rw [payload]
    exact part
  · intro j x apart asked
    left
    rw [Query.part?, payload] at asked
    rw [Query.part?]
    dsimp only at asked ⊢
    by_cases less : j < 2
    · rw [if_pos less] at asked ⊢
      obtain ⟨held, old, asked⟩ := Query.bind_eq_ok.mp asked
      obtain ⟨held', old', found⟩ := Query.cell_eq_ok.mp (others j less apart)
      obtain rfl := Except.ok.inj (old.symm.trans old')
      rw [Query.bind_ok listed, cell j less, ← found]
      exact asked
    · rw [if_neg less] at asked ⊢
      exact asked

theorem pairStep_ok {id : SeriesId} (kind : c.kind = .pair) (plain : c.quote = 0)
    (unbound : c.binding = .unbound) (payload : c.payload = .pair id) (is : k.IsPicker p)
    (done : pairStep c k (some v) m = .ok did m') (handled : did ≠ .unhandled) :
    ∃ c', did = .immediate c' ∧ m.Updates m' c c' p v ∧ ∀ off, m.Agrees m' off := by
  unfold pairStep at done
  rw [payload] at done
  dsimp only at done
  rw [Interp.lift_bind_ok (Query.componentIndex?_run is _ m)] at done
  cases part : m.symbols.part? ["x", "y"] p with
  | none =>
      rw [part] at done
      cases done
      exact absurd rfl handled
  | some i =>
      rw [part] at done
      dsimp only at done
      cases number : v.kind.isAnyNumber with
      | false =>
          rw [number, Bool.not_false, if_pos rfl] at done
          obtain ⟨_, -, failed⟩ := Interp.lift_bind_eq_ok.mp done
          cases failed
      | true =>
          rw [number, Bool.not_true, if_neg Bool.false_ne_true] at done
          have same : v.copied.SameValue v := ⟨rfl, rfl, rfl, rfl⟩
          have two := Symbols.part?_lt part
          change i < 2 at two
          obtain rfl | rfl : i = 0 ∨ i = 1 := by omega
          · obtain ⟨y, other, done⟩ := Interp.lift_bind_eq_ok.mp done
            obtain ⟨pair, next, made, done⟩ := Interp.bind_eq_ok.mp done
            cases done
            refine ⟨_, rfl, pairCell_updates (fun j => if j = 0 then v.copied else y) kind plain
              unbound payload part same (fun j _ apart => ?_) made⟩
            obtain rfl : j = 1 := by omega
            exact other
          · obtain ⟨x, other, done⟩ := Interp.lift_bind_eq_ok.mp done
            obtain ⟨_, _, ⟨⟩, done⟩ := Interp.bind_eq_ok.mp done
            obtain ⟨pair, next, made, done⟩ := Interp.bind_eq_ok.mp done
            cases done
            refine ⟨_, rfl, pairCell_updates (fun j => if j = 0 then x else v.copied) kind plain
              unbound payload part same (fun j _ apart => ?_) made⟩
            obtain rfl : j = 0 := by omega
            exact other

/-- Bytes with one of them replaced, and zeros in the gap that this leaves. -/
theorem pokeByte_getElem? (bytes : List UInt8) (i : Nat) (b : UInt8) (j : Nat) :
    (pokeByte bytes i b)[j]? =
      if j = i then some b else if bytes.length ≤ j ∧ j < i then some 0 else bytes[j]? := by
  unfold pokeByte
  rw [List.getElem?_set]
  by_cases same : j = i
  · rw [if_pos same.symm, if_pos same, if_pos]
    rw [List.length_append, List.length_replicate]
    omega
  · rw [if_neg (Ne.symm same), if_neg same]
    split_ifs with filled
    · rw [List.getElem?_append_right filled.1, List.getElem?_replicate, if_pos (by omega)]
    · by_cases inside : j < bytes.length
      · rw [List.getElem?_append_left inside]
      · rw [List.getElem?_append_right (by omega), List.getElem?_replicate, if_neg (by omega),
          List.getElem?_eq_none (by omega)]

/-- A tuple with another byte. -/
theorem pokeByte_updates {bytes : List UInt8} (kind : c.kind = .tuple) (plain : c.quote = 0)
    (unbound : c.binding = .unbound) (payload : c.payload = .tuple bytes) {n : Int}
    (positive : 1 ≤ n) {b : UInt8} (same : v.SameValue (Cell.integer b.toNat)) :
    m.Updates m c { c with payload := .tuple (pokeByte bytes (n.toNat - 1) b) } (.number n) v where
  immediate := .tuple kind plain unbound rfl
  fresh _ same := nomatch same
  picks := by
    refine ⟨_, _, .tuple kind plain rfl positive ?_, same.symm, fun _ _ => False.elim⟩
    rw [pokeByte_getElem?, if_pos rfl]
  others := by
    refine ⟨rfl, n.toNat - 1, ?_, fun j part apart asked => ?_⟩
    · unfold Symbols.pointed?
      rw [payload]
      exact if_pos positive
    · rw [Query.part?, payload] at asked
      obtain rfl := Except.ok.inj asked
      rw [Query.part?]
      dsimp only
      rw [pokeByte_getElem?, if_neg apart]
      split_ifs with filled
      · exact .inr ⟨by rw [List.getElem?_eq_none filled.1]; rfl, filled.2, rfl⟩
      · exact .inl rfl

theorem tupleStep_ok {bytes : List UInt8} (kind : c.kind = .tuple) (plain : c.quote = 0)
    (unbound : c.binding = .unbound) (payload : c.payload = .tuple bytes) (is : k.IsPicker p)
    (value : v.IsEvaluated) (done : tupleStep c k (some v) m = .ok did m')
    (handled : did ≠ .unhandled) :
    ∃ c', did = .immediate c' ∧ m.Updates m' c c' p v ∧ m' = m := by
  unfold tupleStep at done
  rw [payload] at done
  cases p with
  | name symbol =>
      rw [is.asInteger?_name] at done
      cases done
      exact absurd rfl handled
  | number n =>
      rw [is.asInteger?] at done
      dsimp only at done
      cases integer : v.asInteger? with
      | none =>
          rw [integer] at done
          obtain ⟨_, -, failed⟩ := Interp.lift_bind_eq_ok.mp done
          cases failed
      | some b =>
          rw [integer] at done
          dsimp only at done
          by_cases wide : (b < 0 || 255 < b) = true
          · rw [if_pos wide] at done
            obtain ⟨_, -, failed⟩ := Interp.lift_bind_eq_ok.mp done
            cases failed
          · rw [if_neg wide] at done
            obtain ⟨byte, rfl⟩ := exists_byte wide
            by_cases outside : (n < 1 || 8 < n) = true
            · rw [if_pos outside] at done
              cases done
            · rw [if_neg outside] at done
              cases done
              simp only [Bool.or_eq_true, decide_eq_true_eq, not_or, Int.not_lt] at outside
              rw [Int.toNat_natCast, UInt8.ofNat_toNat]
              exact ⟨_, rfl, pokeByte_updates kind plain unbound payload outside.1
                (value.sameInteger integer), rfl⟩

/-- A date with another part. -/
theorem date_updates {d d' : Date} (kind : c.kind = .date) (plain : c.quote = 0)
    (unbound : c.binding = .unbound) (payload : c.payload = .date d) {i : Nat}
    (part : m.symbols.part? dateParts p = some i) {x : Cell} (here : d'.part? i = some x)
    (same : x.SameValue v) (others : ∀ j, j ≠ i → d'.part? j = d.part? j) :
    m.Updates m c { c with payload := .date d' } p v where
  immediate := .date kind plain unbound rfl
  fresh _ same := nomatch same
  picks := ⟨_, _, .date kind plain rfl part here, same, fun _ _ => False.elim⟩
  others := by
    refine ⟨rfl, i, ?_, fun j part apart asked => ?_⟩
    · unfold Symbols.pointed?
      rw [payload]
      exact part
    · rw [Query.part?, payload] at asked
      rw [Query.part?]
      dsimp only at asked ⊢
      rw [others j apart]
      exact .inl asked

theorem dateStep_ok {d : Date} (kind : c.kind = .date) (plain : c.quote = 0)
    (unbound : c.binding = .unbound) (payload : c.payload = .date d) (is : k.IsPicker p)
    (value : v.IsEvaluated)
    (narrow : m.symbols.part? dateParts p = some 0 → ∀ year, v.asInteger? = some year →
      Calendar.InRange year)
    (done : dateStep c k (some v) m = .ok did m') (handled : did ≠ .unhandled) :
    ∃ c', did = .immediate c' ∧ m.Updates m' c c' p v ∧ m' = m := by
  unfold dateStep at done
  rw [payload] at done
  dsimp only at done
  rw [Interp.lift_bind_ok (Query.componentIndex?_run is _ m)] at done
  cases part : m.symbols.part? ["year", "month", "day", "time"] p with
  | none =>
      rw [part] at done
      cases done
      exact absurd rfl handled
  | some i =>
      have inside := Symbols.part?_lt part
      change i < 4 at inside
      rw [part] at done
      dsimp only at done
      by_cases time : (i == 3) = true
      · rw [if_pos time] at done
        cases done
        exact absurd rfl handled
      · rw [if_neg time] at done
        cases integer : v.asInteger? with
        | none =>
            rw [integer] at done
            obtain ⟨_, -, failed⟩ := Interp.lift_bind_eq_ok.mp done
            cases failed
        | some n =>
            have same := (value.sameInteger integer).symm
            rw [integer] at done
            dsimp only at done
            split_ifs at done with year month day
            · obtain rfl : i = 0 := beq_iff_eq.mp year
              have range := narrow part n integer
              cases done
              rw [Bits.wrap32_of_le range.1 range.2]
              refine ⟨_, rfl, date_updates kind plain unbound payload part rfl same ?_, rfl⟩
              rintro (_ | _ | _ | _ | j) apart <;> first | rfl | exact absurd rfl apart
            · obtain ⟨⟨rfl, low⟩, -⟩ : (i = 1 ∧ 1 ≤ n) ∧ n ≤ 12 := by simpa using month
              cases done
              rw [← Int.toNat_of_nonneg (Int.le_trans (by decide) low)] at same
              refine ⟨_, rfl, date_updates kind plain unbound payload part rfl same ?_, rfl⟩
              rintro (_ | _ | _ | _ | j) apart <;> first | rfl | exact absurd rfl apart
            · obtain ⟨⟨rfl, low⟩, -⟩ : (i = 2 ∧ 1 ≤ n) ∧ n ≤ 31 := by simpa using day
              cases done
              rw [← Int.toNat_of_nonneg (Int.le_trans (by decide) low)] at same
              refine ⟨_, rfl, date_updates kind plain unbound payload part rfl same ?_, rfl⟩
              rintro (_ | _ | _ | _ | j) apart <;> first | rfl | exact absurd rfl apart
            · cases done

end Path

/-! ## Poking -/

/-- A value that has parts.  The names of a context are not among its own variables. -/
inductive Machine.Composite (m : Machine) (c : Cell) : Prop where
  | series {id : SeriesId} {start : Nat} {s : Series} : m.SeriesAt c id start s → Composite m c
  | context {context keylist : SeriesId} : c.kind.isAnyContext = true → c.quote = 0 →
      c.varlist? = some context → Query.keylist context m = .ok keylist → keylist ≠ context →
      Composite m c
  | immediate : c.IsImmediate → Composite m c

/-- The year of a date is stored as a number of 32 bits only.  Nothing looks whether it is one, so
of a date with another year nothing is said. -/
def Machine.Fitting (m : Machine) (c : Cell) (p : Picker) (v : Cell) : Prop :=
  ∀ d, c.payload = .date d → m.symbols.part? dateParts p = some 0 →
    ∀ year, v.asInteger? = some year → Calendar.InRange year

/-- What a poke that does not fail has done, and the changed value that it gives. -/
inductive Machine.Pokes (m : Machine) (c : Cell) (p : Picker) (v : Cell) :
    Option Cell → Machine → Prop where
  | inside {id : SeriesId} {i : Nat} : m.PointsAt c p id i →
      (∀ start s, m.SeriesAt c id start s → s.content.Takes v) →
      Pokes m c p v none (Path.replaced m id i v)
  | back {c' : Cell} {m' : Machine} : c.IsImmediate → m.Updates m' c c' p v →
      (∀ off, m.Agrees m' off) → Pokes m c p v (some c') m'

namespace Path

variable {m m' : Machine} {c k v : Cell} {p : Picker} {did : PathStep} {changed : Option Cell}

theorem step_immediate_ok (is : c.IsImmediate) (fitting : m.Fitting c p v) (literal : k.IsPicker p)
    (value : v.IsEvaluated) (done : step c k (some v) m = .ok did m')
    (handled : did ≠ .unhandled) :
    ∃ c', did = .immediate c' ∧ m.Updates m' c c' p v ∧ ∀ off, m.Agrees m' off := by
  cases is with
  | pair kind plain unbound payload =>
      rw [step_pair kind plain] at done
      exact pairStep_ok kind plain unbound payload literal done handled
  | tuple kind plain unbound payload =>
      rw [step_tuple kind plain] at done
      obtain ⟨c', same, updates, rfl⟩ :=
        tupleStep_ok kind plain unbound payload literal value done handled
      exact ⟨c', same, updates, fun off => .refl m' off⟩
  | date kind plain unbound payload =>
      rw [step_date kind plain] at done
      obtain ⟨c', same, updates, rfl⟩ :=
        dateStep_ok kind plain unbound payload literal value (fitting _ payload) done handled
      exact ⟨c', same, updates, fun off => .refl m' off⟩

/-- A poke that does not fail stores the value at the place that the picker points at, or gives a
changed pair, tuple or date. -/
theorem poke_ok (composite : m.Composite c) (fitting : m.Fitting c p v) (is : k.IsPicker p)
    (value : v.IsEvaluated) (done : poke c k v m = .ok changed m') :
    m.Pokes c p v changed m' := by
  obtain ⟨did, next, stepped, done⟩ := Interp.bind_eq_ok.mp done
  have handled : did ≠ .unhandled := by
    rintro rfl
    obtain ⟨_, -, failed⟩ := Interp.lift_bind_eq_ok.mp done
    cases failed
  cases composite with
  | series at_ =>
      obtain ⟨slot, points, rfl, takes, rfl⟩ := step_series_ok at_ is value stepped handled
      cases done
      refine .inside points fun start' s' other => ?_
      obtain ⟨-, -, rfl⟩ := at_.eq other
      exact takes
  | context kind plain own linked apart =>
      rw [step_context kind plain] at stepped
      obtain ⟨index, points, rfl, rfl⟩ :=
        contextStep_ok kind plain own linked apart is stepped handled
      cases done
      refine .inside points fun start s at_ => ?_
      rw [Cell.varlist?, at_.payload] at own
      cases own
  | immediate immediate =>
      obtain ⟨c', rfl, updates, agrees⟩ :=
        step_immediate_ok immediate fitting is value stepped handled
      cases done
      exact .back immediate updates agrees

end Path

end Homoicon
