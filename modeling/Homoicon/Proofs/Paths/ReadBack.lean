import Homoicon.Proofs.Natives
import Homoicon.Proofs.Paths.Poking

/-!
# Paths that are written and read back

A path leads from a variable over literal pickers to a value, and stores a part of it.  Where no
step looks at the place that is written, the same path then picks what was stored.
-/

namespace Homoicon

/-! ## Picking again -/

namespace Machine

variable {m m' : Machine} {c d x v : Cell} {k : Picker} {place : Place} {looks : Footprint}
  {id : SeriesId} {i : Nat}

theorem Picks.of_adopts (adopts : m.Adopts m') (picks : m.Picks c k x place looks) :
    m'.Picks c k x place looks :=
  (Agrees.of_adopts adopts fun _ _ => False).picks picks fun _ _ _ => id

theorem SeriesAt.of_sameValue (same : d.SameValue c) {start : Nat} {s : Series}
    (at_ : m.SeriesAt c id start s) : m.SeriesAt d id start s :=
  ⟨same.quote.trans at_.plain, same.payload.trans at_.payload, at_.live, same.kind ▸ at_.kind⟩

/-- What is picked depends on the value of a cell only. -/
theorem Picks.of_sameValue (same : d.SameValue c) (picks : m.Picks c k x place looks) :
    m.Picks d k x place looks := by
  have specifier : Query.deriveSpecifier c none = Query.deriveSpecifier d none := by
    rw [Query.deriveSpecifier, Query.deriveSpecifier, same.binding]
  cases picks with
  | element at_ counted found ties =>
      rw [specifier] at ties ⊢
      exact .element (at_.of_sameValue same) counted found ties
  | behind at_ content selects here ties =>
      rw [specifier] at ties ⊢
      exact .behind (at_.of_sameValue same) content selects here ties
  | field field here =>
      have own := field.own
      rw [Cell.varlist?, ← same.payload, ← Cell.varlist?] at own
      exact .field { field with
        kind := same.kind ▸ field.kind
        plain := same.quote.trans field.plain
        own } here
  | pair kind plain payload part here =>
      exact .pair (same.kind.trans kind) (same.quote.trans plain) (same.payload.trans payload) part
        here
  | tuple kind plain payload positive here =>
      exact .tuple (same.kind.trans kind) (same.quote.trans plain) (same.payload.trans payload)
        positive here
  | date kind plain payload part here =>
      exact .date (same.kind.trans kind) (same.quote.trans plain) (same.payload.trans payload) part
        here

/-- A place that something was picked from is pointed at. -/
theorem Picks.pointsAt (picks : m.Picks c k x place looks) (lives : place.at? = some (id, i)) :
    m.PointsAt c k id i := by
  cases picks with
  | element at_ counted found ties =>
      rename_i s _ _
      cases content : s.content <;> rw [content] at lives <;> cases lives
      exact .element at_ counted (by rw [found]; rfl)
  | behind at_ content selects here ties =>
      cases lives
      exact .behind at_ content selects
  | field field here =>
      cases lives
      exact .field field here
  | pair | tuple | date => cases lives

theorem Picks.isAnyArray (picks : m.Picks c k x place looks) (lives : place.at? = some (id, i))
    {start : Nat} (payload : c.payload = .series id start) : c.kind.isAnyArray = true := by
  cases picks with
  | element at_ counted found ties =>
      rename_i s _ _
      have kind := at_.kind
      cases content : s.content <;> rw [content] at lives kind <;> cases lives
      exact kind
  | behind at_ content selects here ties =>
      have kind := at_.kind
      rw [content] at kind
      exact kind
  | field field here =>
      have own := field.own
      rw [Cell.varlist?, payload] at own
      cases own
  | pair | tuple | date => cases lives

theorem SeriesAt.isNull {start : Nat} {s : Series} (at_ : m.SeriesAt c id start s) :
    c.isNull = false := by
  refine decide_eq_false fun null => ?_
  have kind := at_.kind
  rw [null] at kind
  cases content : s.content with
  | array | text =>
      rw [content] at kind
      exact Bool.false_ne_true kind
  | binary =>
      rw [content] at kind
      cases (kind : Kind.null = .binary)

/-- An array takes every value but null. -/
theorem SeriesAt.takes {start : Nat} {s : Series} (at_ : m.SeriesAt c id start s)
    (array : c.kind.isAnyArray = true) (present : v.isNull = false) : s.content.Takes v := by
  have kind := at_.kind
  cases content : s.content with
  | array cells => exact present
  | text buffer =>
      rw [content] at kind
      have text : c.kind.isAnyString = true := kind
      revert array text
      cases c.kind <;> simp [Kind.isAnyString, Kind.isAnyArray, Kind.isAnyPath, Kind.isAnyBlock,
        Kind.isAnyGroup]
  | binary bytes =>
      rw [content] at kind
      rw [show c.kind = .binary from kind] at array
      cases array

theorem Agrees.pointsAt (agrees : m.Agrees m' (.only id i)) (points : m.PointsAt c k id i) :
    m'.PointsAt c k id i := by
  cases points with
  | element at_ counted there =>
      obtain ⟨s', at_', like⟩ := agrees.seriesAt at_
      obtain ⟨x, found⟩ := Option.isSome_iff_exists.mp there
      obtain ⟨positive, -, inside⟩ := Path.nth?_eq_some found
      refine .element at_' counted ?_
      rw [Content.nth?, if_pos positive]
      exact Content.element?_isSome.mpr (like.content.size_eq ▸ inside)
  | behind at_ content selects =>
      obtain ⟨s', at_', like⟩ := agrees.seriesAt at_
      obtain ⟨cells', content', selects', -⟩ := agrees.selects like content selects
        fun t _ high both => Nat.ne_of_lt high both.2
      exact .behind at_' content' selects'
  | field field there =>
      obtain ⟨old, there'⟩ := agrees.exists_cell there
      exact .field (agrees.fieldAt field fun _ both => field.apart both.1) there'

/-- Where something was picked, a value that is stored there is picked again. -/
theorem Picks.again (picks : m.Picks c k x place looks) (lives : place.at? = some (id, i))
    (agrees : m.Agrees m' (.only id i)) (value : v.IsEvaluated) (present : v.isNull = false) :
    ∃ y place' looks', (Path.replaced m' id i v).Picks c k y place' looks' ∧ y.SameValue v :=
  Path.picks_replaced (agrees.pointsAt (picks.pointsAt lives))
    (fun _ _ at_ => at_.takes (picks.isAnyArray lives at_.payload) present) value

end Machine

/-! ## Walking -/

/-- Literal pickers lead from a variable to a value, which lives at a place.  The steps have looked
at some places, the last step at some other ones. -/
inductive Machine.Walks (m : Machine) (r : VarRef) :
    List Picker → Cell → Place → Footprint → Footprint → Prop where
  | start {c : Cell} : Query.varContent r m = .ok c →
      Walks m r [] c (.variable_ r) (fun _ _ => False) (.only r.context r.index)
  | step {ks : List Picker} {c : Cell} {place : Place} {before last : Footprint} {k : Picker}
      {x : Cell} {place' : Place} {looks : Footprint} :
      Walks m r ks c place before last → m.Picks c k x place' looks →
      Walks m r (ks ++ [k]) x place' (fun j t => before j t ∨ last j t) looks

/-- A part of a path is a literal picker, which is looked up in a call. -/
structure Machine.Literal (m : Machine) (specifier : Specifier) (item : Cell) (k : Picker) :
    Prop where
  picker : item.IsPicker k
  ties : m.Ties item specifier

/-- A path names a variable, and then some literal pickers. -/
def Machine.Spells (m : Machine) (path : Cell) (specifier : Specifier) (r : VarRef)
    (ks : List Picker) : Prop :=
  ∃ id head items, Query.arrayOf path m = .ok id ∧
    Query.cellsFrom id path.index m = .ok (head :: items) ∧ head.kind = .word ∧ head.quote = 0 ∧
    Query.resolveWord head (Query.deriveSpecifier path specifier) m = .ok r ∧
    List.Forall₂ (m.Literal (Query.deriveSpecifier path specifier)) items ks

namespace Machine

variable {m m' : Machine} {r : VarRef} {ks : List Picker} {c x v : Cell} {k : Picker}
  {place place' : Place} {before last looks off : Footprint} {inner : Specifier} {item : Cell}

theorem Agrees.walks (agrees : m.Agrees m' off) (walks : m.Walks r ks c place before last)
    (free : ∀ j t, before j t ∨ last j t → ¬ off j t) : m'.Walks r ks c place before last := by
  induction walks with
  | start found => exact .start (agrees.cell found (free _ _ (.inr ⟨rfl, rfl⟩)))
  | step walks picks ih =>
      exact .step (ih fun j t seen => free j t (.inl seen))
        (agrees.picks picks fun j t seen => free j t (.inr seen))

theorem Literal.of_adopts (adopts : m.Adopts m') (literal : m.Literal inner item k) :
    m'.Literal inner item k :=
  ⟨literal.picker, (Agrees.of_adopts adopts fun _ _ => False).ties literal.ties⟩

/-- Something is picked from values that have parts only. -/
theorem Picks.hasParts (picks : m.Picks c k x place looks) :
    c.isNull = false ∧ c.asAction? = none := by
  cases picks with
  | element at_ | behind at_ => exact ⟨at_.isNull, by rw [Cell.asAction?, at_.payload]⟩
  | field field here =>
      have kind := field.kind
      have own := field.own
      constructor
      · refine decide_eq_false fun null => ?_
        rw [null] at kind
        cases kind
      · unfold Cell.varlist? at own
        unfold Cell.asAction?
        split at own
        · rw [‹c.payload = _›]
        · cases own
  | pair kind plain payload | tuple kind plain payload | date kind plain payload =>
      refine ⟨?_, by rw [Cell.asAction?, payload]⟩
      exact decide_eq_false (by rw [kind]; decide)

end Machine

namespace Path

variable {m m' : Machine} {e : Engine} {r : VarRef} {ks : List Picker} {c x v : Cell}
  {k : Picker} {place place' : Place} {before last looks : Footprint} {inner : Specifier}
  {noGroups : Bool} {item : Cell}

theorem picker_run (e : Engine) (noGroups : Bool) (literal : m.Literal inner item k) :
    ∃ m', picker e item inner noGroups m = .ok (some (item.resolved inner)) m' ∧
      m.Adopts m' := by
  obtain ⟨m', tied, adopts⟩ := Interp.derelativize_adopts literal.ties
  refine ⟨m', ?_, adopts⟩
  unfold picker
  rw [literal.picker.plain]
  cases literal.picker with
  | number kind | name kind =>
      rw [kind]
      exact Interp.bind_ok tied _

/-- A literal picker is evaluated and picks. -/
theorem advance (e : Engine) (noGroups : Bool) (picks : m.Picks c k x place looks)
    (literal : m.Literal inner item k) :
    ∃ m₁ m₂, picker e item inner noGroups m = .ok (some (item.resolved inner)) m₁ ∧
      pick c (item.resolved inner) m₁ = .ok (x, place) m₂ ∧ m.Adopts m₂ := by
  obtain ⟨m₁, named, adopts⟩ := picker_run e noGroups literal
  obtain ⟨m₂, picked, adopts'⟩ := pick_run (picks.of_adopts adopts) (literal.picker.resolved inner)
  exact ⟨m₁, m₂, named, picked, adopts.trans adopts'⟩

theorem walk_step (e : Engine) (noGroups : Bool) (picks : m.Picks c k x place looks)
    (literal : m.Literal inner item k) (previous : Cell) (label : Option SymbolId) :
    ∃ m' label', m.Adopts m' ∧ ∀ rest, walk e inner noGroups c previous label (item :: rest) m =
      walk e inner noGroups x item label' rest m' := by
  obtain ⟨m₁, m₂, named, picked, adopts⟩ := advance e noGroups picks literal
  obtain ⟨present, passive⟩ := picks.hasParts
  let named? := item.resolved inner
  refine ⟨m₂, if named?.is .word then named?.wordSymbol? else label, adopts, fun rest => ?_⟩
  rw [walk, passive]
  dsimp only
  rw [present, if_neg Bool.false_ne_true, Interp.bind_ok named]
  dsimp only
  exact Interp.bind_ok picked _

theorem store_step (e : Engine) (noGroups : Bool) (v : Cell) (picks : m.Picks c k x place' looks)
    (literal : m.Literal inner item k) (previous : Cell) (place : Place) :
    ∃ m', m.Adopts m' ∧ ∀ next rest,
      store e inner noGroups v c previous place (item :: next :: rest) m =
        store e inner noGroups v x item place' (next :: rest) m' := by
  obtain ⟨m₁, m₂, named, picked, adopts⟩ := advance e noGroups picks literal
  refine ⟨m₂, adopts, fun next rest => ?_⟩
  rw [store, picks.hasParts.1, if_neg Bool.false_ne_true]
  dsimp only
  rw [Interp.bind_ok named]
  exact Interp.bind_ok picked _

theorem forall₂_concat {α β : Type} {R : α → β → Prop} {items : List α} {bs : List β} {b : β}
    (all : List.Forall₂ R items (bs ++ [b])) :
    ∃ front item, items = front ++ [item] ∧ List.Forall₂ R front bs ∧ R item b := by
  have rest := List.forall₂_drop_append _ bs [b] all
  obtain ⟨item, items', here, none_, split⟩ := List.forall₂_cons_right_iff.mp rest
  obtain rfl := List.forall₂_nil_right_iff.mp none_
  refine ⟨items.take bs.length, item, ?_, List.forall₂_take_append _ bs [b] all, here⟩
  rw [← split, List.take_append_drop]

theorem walk_along (e : Engine) (noGroups : Bool) (walks : m.Walks r ks c place before last)
    {c₀ : Cell} (start : Query.varContent r m = .ok c₀) {items : List Cell}
    (literal : List.Forall₂ (m.Literal inner) items ks) (head : Cell) (label : Option SymbolId) :
    ∃ m' previous label', m.Adopts m' ∧ ∀ rest,
      walk e inner noGroups c₀ head label (items ++ rest) m =
        walk e inner noGroups c previous label' rest m' := by
  induction walks generalizing items with
  | start found =>
      obtain rfl := List.forall₂_nil_right_iff.mp literal
      obtain rfl := Except.ok.inj (start.symm.trans found)
      exact ⟨m, head, label, .refl m, fun _ => rfl⟩
  | step walks picks ih =>
      obtain ⟨front, item, rfl, literal, here⟩ := forall₂_concat literal
      obtain ⟨m₁, previous, label₁, adopts, runs⟩ := ih literal
      obtain ⟨m₂, label₂, adopts', steps⟩ := walk_step e noGroups (picks.of_adopts adopts)
        (here.of_adopts adopts) previous label₁
      refine ⟨m₂, item, label₂, adopts.trans adopts', fun rest => ?_⟩
      rw [List.append_assoc, List.singleton_append, runs, steps]

theorem store_along (e : Engine) (noGroups : Bool) (v : Cell)
    (walks : m.Walks r ks c place before last) {c₀ : Cell}
    (start : Query.varContent r m = .ok c₀) {items : List Cell}
    (literal : List.Forall₂ (m.Literal inner) items ks) (head : Cell) :
    ∃ m' previous, m.Adopts m' ∧ ∀ next rest,
      store e inner noGroups v c₀ head (.variable_ r) (items ++ next :: rest) m =
        store e inner noGroups v c previous place (next :: rest) m' := by
  induction walks generalizing items with
  | start found =>
      obtain rfl := List.forall₂_nil_right_iff.mp literal
      obtain rfl := Except.ok.inj (start.symm.trans found)
      exact ⟨m, head, .refl m, fun _ _ => rfl⟩
  | step walks picks ih =>
      obtain ⟨front, item, rfl, literal, here⟩ := forall₂_concat literal
      obtain ⟨m₁, previous, adopts, runs⟩ := ih literal
      obtain ⟨m₂, adopts', steps⟩ := store_step e noGroups v (picks.of_adopts adopts)
        (here.of_adopts adopts) previous _
      refine ⟨m₂, item, adopts.trans adopts', fun next rest => ?_⟩
      rw [List.append_assoc, List.singleton_append, runs, steps]

theorem exists_start (walks : m.Walks r ks c place before last) :
    ∃ c₀, Query.varContent r m = .ok c₀ := by
  induction walks with
  | start found => exact ⟨_, found⟩
  | step walks picks ih => exact ih

/-! ## Reading -/

theorem isDividePath_run {path head : Cell} {id : SeriesId} {items : List Cell}
    (array : Query.arrayOf path m = .ok id)
    (listed : Query.cellsFrom id path.index m = .ok (head :: items)) (kind : head.kind = .word) :
    Query.isDividePath path m = .ok false := by
  obtain ⟨cells, found, parts⟩ := Query.bind_eq_ok.mp listed
  have parts : cells.toList.drop path.index = head :: items := Except.ok.inj parts
  have solid : head.isBlank = false := by
    rw [Cell.isBlank, Cell.is, kind]
    exact Bool.and_false _
  unfold Query.isDividePath
  split_ifs
  · rfl
  · rw [Query.arrayOf_eq_ok.mp array]
    dsimp only
    rw [Query.bind_ok found, parts]
    rcases items with _ | ⟨item, _ | ⟨next, more⟩⟩
    · rfl
    · dsimp only
      rw [solid]
      rfl
    · rfl

/-- A path that leads to a value gives it. -/
theorem get_run {path : Cell} {specifier : Specifier} (e : Engine) (noGroups : Bool)
    (walks : m.Walks r ks c place before last) (spells : m.Spells path specifier r ks)
    (action : ∀ a, c.payload = .action a → c.kind = .action) :
    ∃ d m', get e path specifier noGroups m = .ok (some d) m' ∧ d.SameValue c ∧ m.Adopts m' := by
  obtain ⟨id, head, items, array, listed, kind, plain, resolved, literal⟩ := spells
  obtain ⟨c₀, start⟩ := exists_start walks
  obtain ⟨m', previous, label, adopts, runs⟩ :=
    walk_along e noGroups walks start literal head head.wordSymbol?
  have word : head.is .word = true := by rw [Cell.is, kind, plain]; rfl
  have gotten : Query.getVar head (Query.deriveSpecifier path specifier) m = .ok c₀ :=
    (Query.bind_ok resolved _).trans start
  have evaluated : eval e { path with kind := .path } specifier noGroups m =
      walk e (Query.deriveSpecifier path specifier) noGroups c previous label [] m' := by
    have array' : Query.arrayOf { path with kind := .path } m = .ok id := array
    have listed' : Query.cellsFrom id ({ path with kind := .path } : Cell).index m =
      .ok (head :: items) := listed
    unfold eval
    rw [Interp.lift_bind_ok (isDividePath_run array' listed' kind), if_neg Bool.false_ne_true,
      Interp.lift_bind_ok array', Interp.lift_bind_ok listed']
    dsimp only
    rw [word, if_pos rfl]
    refine (Interp.lift_bind_ok gotten _).trans ?_
    rw [← runs, List.append_nil]
    rfl
  have height : Interp.stackHeight m = .ok m.stack.size m := rfl
  rw [get, Interp.bind_ok height]
  rw [walk] at evaluated
  cases acts : c.asAction? with
  | none =>
      rw [acts] at evaluated
      exact ⟨c, m', Interp.bind_ok evaluated _, .refl c, adopts⟩
  | some a =>
      rw [acts] at evaluated
      have stack : m'.stack = m.stack := (Machine.Agrees.of_adopts adopts fun _ _ => False).stack
      have pushed : m'.stack.toList.drop m.stack.size = [] := by simp [stack]
      have kept : Interp.truncateStack m.stack.size m' = .ok () m' := by
        rw [← stack]
        simp [Interp.truncateStack]
      have payload : c.quote = 0 ∧ c.payload = .action a := by
        unfold Cell.asAction? at acts
        split at acts
        · split_ifs at acts with unquoted
          obtain rfl := Option.some.inj acts
          exact ⟨beq_iff_eq.mp unquoted, ‹_›⟩
        · cases acts
      refine ⟨Cell.action a c.binding, m', ?_, ?_, adopts⟩
      · rw [Interp.bind_ok evaluated]
        dsimp only
        rw [Interp.bind_ok (show (getThe Machine : Interp Machine) m' = .ok m' m' from rfl),
          Interp.bind_ok kept, pushed]
        rfl
      · exact ⟨(action a payload.2).symm, payload.1.symm, rfl, payload.2.symm⟩

/-! ## Writing -/

/-- A changed value is written where it was found; if there is none, everything is done. -/
inductive Written (m : Machine) (place : Place) : Option Cell → Machine → Prop where
  | inside : Written m place none m
  | back {d : Cell} {id : SeriesId} {i : Nat} {old : Cell} : place.at? = some (id, i) →
      Query.cell id i m = .ok old → Written m place (some d) (replaced m id i d)

theorem store_last (literal : m.Literal inner item k) {previous : Cell}
    (done : store e inner noGroups v c previous place [item] m = .ok false m') :
    ∃ m₁ changed m₂, m.Adopts m₁ ∧ poke c (item.resolved inner) v m₁ = .ok changed m₂ ∧
      Written m₂ place changed m' := by
  obtain ⟨m₁, named, adopts⟩ := picker_run e noGroups literal
  rw [store] at done
  cases present : c.isNull with
  | true =>
      rw [present, if_pos rfl] at done
      obtain ⟨_, -, done⟩ := Interp.lift_bind_eq_ok.mp done
      cases done
  | false =>
      rw [present, if_neg Bool.false_ne_true] at done
      dsimp only at done
      rw [Interp.bind_ok named] at done
      obtain ⟨changed, m₂, poked, done⟩ := Interp.bind_eq_ok.mp done
      refine ⟨m₁, changed, m₂, adopts, poked, ?_⟩
      cases changed with
      | none =>
          cases done
          exact .inside
      | some d =>
          cases place with
          | variable_ r =>
              obtain ⟨⟨⟩, _, written, done⟩ := Interp.bind_eq_ok.mp done
              obtain ⟨old, there, rfl⟩ := writeVar_ok written
              cases done
              exact .back rfl there
          | slot array index =>
              obtain ⟨⟨⟩, -, done⟩ := Interp.lift_bind_eq_ok.mp done
              obtain ⟨⟨⟩, _, written, done⟩ := Interp.bind_eq_ok.mp done
              obtain ⟨old, there, rfl⟩ := moveCell_ok written
              cases done
              exact .back rfl there
          | nowhere =>
              obtain ⟨_, -, done⟩ := Interp.lift_bind_eq_ok.mp done
              cases done

/-- A path that stores a value pokes into what its pickers but the last one lead to. -/
theorem set_ok {path : Cell} {specifier : Specifier} (walks : m.Walks r ks c place before last)
    (spells : m.Spells path specifier r (ks ++ [k]))
    (done : set e path specifier v noGroups m = .ok false m') :
    ∃ key m₁ changed m₂, key.IsPicker k ∧ m.Adopts m₁ ∧ poke c key v m₁ = .ok changed m₂ ∧
      Written m₂ place changed m' := by
  obtain ⟨id, head, items, array, listed, kind, plain, resolved, literal⟩ := spells
  obtain ⟨front, item, rfl, literal, here⟩ := forall₂_concat literal
  obtain ⟨c₀, start⟩ := exists_start walks
  obtain ⟨m₁, previous, adopts, runs⟩ := store_along e noGroups v walks start literal head
  have word : (head.kind.isAnyWord && head.quote == 0) = true := by rw [kind, plain]; rfl
  obtain ⟨next, rest, split⟩ := List.exists_cons_of_ne_nil (List.concat_ne_nil item front)
  unfold set at done
  rw [Interp.lift_bind_ok array, Interp.lift_bind_ok listed, split] at done
  dsimp only at done
  rw [word, if_pos rfl, Interp.lift_bind_ok resolved, Interp.lift_bind_ok start, ← split,
    runs] at done
  obtain ⟨m₂, changed, m₃, adopts', poked, written⟩ := store_last (here.of_adopts adopts) done
  exact ⟨_, m₂, changed, m₃, here.picker.resolved _, adopts.trans adopts', poked, written⟩

end Path

/-! ## Reading what was written -/

/-- What has become of a value when a part of it was stored: one place was written, in the value or,
for a pair, tuple or date, where the changed value belongs. -/
inductive Machine.Stores (m m' : Machine) (c : Cell) (k : Picker) (place : Place) :
    Cell → SeriesId → Nat → Prop where
  | inside {id : SeriesId} {i : Nat} : m.PointsAt c k id i → Stores m m' c k place c id i
  | back {d : Cell} {id : SeriesId} {i : Nat} : c.IsImmediate → place.at? = some (id, i) →
      m.OtherParts m' c d k → Stores m m' c k place d id i

/-- No step looks at the place that is written. -/
structure Machine.Unseen (m : Machine) (c : Cell) (k : Picker) (place : Place)
    (before last : Footprint) : Prop where
  inside : ∀ id i, m.PointsAt c k id i → ¬ before id i ∧ ¬ last id i
  back : ∀ id i, c.IsImmediate → place.at? = some (id, i) → ¬ before id i

namespace Machine

variable {m m' : Machine} {r : VarRef} {ks : List Picker} {c d x v : Cell} {k : Picker}
  {place : Place} {before last looks off : Footprint} {id : SeriesId} {i : Nat}

theorem PointsAt.live (points : m.PointsAt c k id i) : ∃ s, m.heap.get? id = some s := by
  cases points with
  | element at_ | behind at_ => exact ⟨_, at_.live⟩
  | field field there =>
      obtain ⟨held, listed, -⟩ := Query.cell_eq_ok.mp there
      obtain ⟨s, live, -⟩ := Query.cells_eq_ok.mp listed
      exact ⟨s, live⟩

theorem Walks.live (walks : m.Walks r ks c place before last) (lives : place.at? = some (id, i)) :
    ∃ s, m.heap.get? id = some s := by
  cases walks with
  | start found =>
      cases lives
      obtain ⟨held, listed, -⟩ := Query.cell_eq_ok.mp found
      obtain ⟨s, live, -⟩ := Query.cells_eq_ok.mp listed
      exact ⟨s, live⟩
  | step walks picks => exact (picks.pointsAt lives).live

theorem Composite.of_adopts (adopts : m.Adopts m') (composite : m.Composite c) :
    m'.Composite c := by
  have agrees := Agrees.of_adopts adopts fun _ _ => False
  cases composite with
  | series at_ =>
      obtain ⟨s', at_', -⟩ := agrees.seriesAt at_
      exact .series at_'
  | context kind plain own linked apart =>
      exact .context kind plain own (agrees.keylist linked) apart
  | immediate is => exact .immediate is

theorem Fitting.of_agrees (agrees : m.Agrees m' off) (fitting : m.Fitting c k v) :
    m'.Fitting c k v := by
  unfold Fitting
  rw [agrees.symbols]
  exact fitting

/-- The parts of a value do not change with other series. -/
theorem Agrees.part? (agrees : m.Agrees m' off)
    (free : ∀ j, c.payload = .pair j → ∀ t, ¬ off j t) {t : Nat} {part : Option Cell}
    (asked : Query.part? c t m = .ok part) : Query.part? c t m' = .ok part := by
  unfold Query.part? at asked ⊢
  cases payload : c.payload with
  | pair j =>
      rw [payload] at asked
      dsimp only at asked ⊢
      split_ifs at asked ⊢
      · obtain ⟨held, listed, here⟩ := Query.bind_eq_ok.mp asked
        rw [Query.bind_ok (agrees.cells_eq (free j payload) listed)]
        exact here
      · exact asked
  | _ =>
      rw [payload] at asked
      exact asked

theorem OtherParts.widen {m₁ m₂ : Machine} {c' : Cell} (others : m₁.OtherParts m₂ c c' k)
    (before : m.Agrees m₁ fun _ _ => False) (after : m₂.Agrees m' off)
    (free : ∀ j, c'.payload = .pair j → ∀ t, ¬ off j t) (same : d.SameValue c') :
    m.OtherParts m' c d k := by
  obtain ⟨kind, i, pointed, parts⟩ := others
  have part (j : Nat) : Query.part? d j = Query.part? c' j := by
    unfold Query.part?
    rw [same.payload]
  refine ⟨same.kind.trans kind, i, before.symbols ▸ pointed, fun j x apart asked => ?_⟩
  rw [part]
  obtain kept | ⟨gone, less, filled⟩ := parts j x apart (before.part? (fun _ _ _ => id) asked)
  · exact .inl (after.part? free kept)
  · exact .inr ⟨gone, less, after.part? free filled⟩

/-- A changed value that was written where the path found the old one is found there. -/
theorem Walks.again (walks : m.Walks r ks c place before last)
    (lives : place.at? = some (id, i)) (free : ¬ before id i) (agrees : m.Agrees m' (.only id i))
    (immediate : d.IsImmediate) {old : Cell} (there : Query.cell id i m' = .ok old) :
    ∃ y place' before' last', (Path.replaced m' id i d).Walks r ks y place' before' last' ∧
      y.SameValue d := by
  cases walks with
  | start found =>
      cases lives
      exact ⟨_, _, _, _, .start (Path.cell_replaced there d), rfl, rfl, rfl, rfl⟩
  | step walks picks =>
      obtain ⟨y, place', looks, picks', same⟩ :=
        picks.again lives agrees immediate.isEvaluated immediate.isNull
      have walks' := (agrees.trans (.replaced m' id i d)).walks walks fun j t seen both =>
        free (both.1 ▸ both.2 ▸ seen)
      exact ⟨y, _, _, _, .step walks' picks', same⟩

end Machine

variable {e : Engine} {m m' : Machine} {r : VarRef} {ks : List Picker} {c v path : Cell}
  {k : Picker} {place : Place} {before last : Footprint} {specifier : Specifier} {noGroups : Bool}

/-- A path that stores a value writes one place.  Where no step on the way looks at that place, the
same path then gives the value. -/
theorem set_get (walks : m.Walks r ks c place before last)
    (spells : m.Spells path specifier r (ks ++ [k])) (composite : m.Composite c)
    (fitting : m.Fitting c k v) (value : v.IsEvaluated) (unseen : m.Unseen c k place before last)
    (done : Path.set e path specifier v noGroups m = .ok false m') :
    ∃ d id i, m.Stores m' c k place d id i ∧ m.Agrees m' (.only id i) ∧
      (∃ place' before' last', m'.Walks r ks d place' before' last') ∧
      ∀ e path specifier noGroups, m'.Spells path specifier r (ks ++ [k]) →
        ∃ y m'', Path.get e path specifier noGroups m' = .ok (some y) m'' ∧ y.SameValue v ∧
          m'.Adopts m'' := by
  obtain ⟨key, m₁, changed, m₂, is, adopts, poked, written⟩ := Path.set_ok walks spells done
  have first (off : Footprint) := Machine.Agrees.of_adopts adopts off
  have pokes := Path.poke_ok (composite.of_adopts adopts)
    (fitting.of_agrees (first fun _ _ => False)) is value poked
  -- Once the value is picked again behind the same steps, the path gives it.
  have reads {d y : Cell} {place' : Place} {before' last' looks : Footprint} {place'' : Place}
      (walks' : m'.Walks r ks d place' before' last') (picks : m'.Picks d k y place'' looks)
      (same : y.SameValue v) (e : Engine) (path : Cell) (specifier : Specifier) (noGroups : Bool)
      (spells' : m'.Spells path specifier r (ks ++ [k])) :
      ∃ y m'', Path.get e path specifier noGroups m' = .ok (some y) m'' ∧ y.SameValue v ∧
        m'.Adopts m'' := by
    obtain ⟨z, m'', gotten, equal, adopts'⟩ := Path.get_run e noGroups (walks'.step picks) spells'
      fun a payload => same.kind.trans (value.action a (same.payload.symm.trans payload))
    exact ⟨z, m'', gotten, equal.trans same, adopts'⟩
  cases pokes with
  | inside points takes =>
      cases written
      rename_i id i
      have points₀ : m.PointsAt c k id i :=
        (Machine.Agrees.of_adopted adopts (.only id i)).pointsAt points
      have agrees := (first (.only id i)).trans (.replaced m₁ id i v)
      obtain ⟨free, free'⟩ := unseen.inside id i points₀
      have walks' := agrees.walks walks fun j t seen both =>
        seen.elim (fun seen => free (both.1 ▸ both.2 ▸ seen))
          fun seen => free' (both.1 ▸ both.2 ▸ seen)
      obtain ⟨y, place', looks, picks, same⟩ := Path.picks_replaced points takes value
      exact ⟨c, id, i, .inside points₀, agrees, ⟨_, _, _, walks'⟩, reads walks' picks same⟩
  | back immediate updates agrees₂ =>
      cases written with
      | back lives there =>
          rename_i c' id i old
          obtain ⟨s₀, live₀⟩ := walks.live lives
          obtain ⟨s, live, -⟩ := (first (.only id i)).series id s₀ live₀
          -- The parts of a changed pair are in a new series, which is not the one that is written.
          have apart (j : SeriesId) (payload : c'.payload = .pair j) (t : Nat) :
              ¬ Footprint.only id i j t := by
            rintro ⟨rfl, -⟩
            rw [updates.fresh j payload] at live
            cases live
          have replaces := Machine.Agrees.replaced m₂ id i c'
          have before₂ := (first (.only id i)).trans (agrees₂ _)
          obtain ⟨d, place', before', last', walks', same'⟩ :=
            walks.again lives (unseen.back id i immediate lives) before₂ updates.immediate there
          obtain ⟨y, looks, picks, same, seen⟩ := updates.picks
          have picks' := (replaces.picks picks fun j t looked => apart j (seen j t looked) t)
          refine ⟨d, id, i, .back immediate lives ?_, before₂.trans replaces, ⟨_, _, _, walks'⟩,
            reads walks' (picks'.of_sameValue same') same⟩
          exact updates.others.widen (first _) replaces apart same'

/-- A path that names a variable, and two literal pickers. -/
def sampleWay (first second : Int) : Series :=
  .ofCells #[.boundWord .word ⟨0⟩ (.specific ⟨0⟩) 1, Cell.integer first, Cell.integer second]

/-- A tuple of three bytes. -/
def sampleTuple : Cell := { kind := .tuple, payload := .tuple [1, 2, 3] }

/-- A block of an integer and a tuple. -/
def sampleItems : Series := .ofCells #[Cell.integer 7, sampleTuple]

/-- A machine with the block in a variable, and a path to the fifth byte of the tuple. -/
def sampleNested : Machine := .ofArgs [.series .block ⟨1⟩ 0] [sampleItems, sampleWay 2 5]

theorem walks_sampleNested :
    sampleNested.Walks ⟨⟨0⟩, 1⟩ [.number 2] sampleTuple (.slot ⟨1⟩ 1)
      (fun j t => False ∨ Footprint.only ⟨0⟩ 1 j t) (.only ⟨1⟩ 1) := by
  have at_ : sampleNested.SeriesAt (.series .block ⟨1⟩ 0) ⟨1⟩ 0 sampleItems :=
    ⟨rfl, rfl, rfl, rfl⟩
  have found : sampleItems.content.nth? 0 2 = some sampleTuple := rfl
  exact .step (.start rfl)
    (.element at_ ⟨by decide, by decide⟩ found fun _ _ relative => nomatch relative)

theorem spells_sampleWay {m : Machine} {first second : Int} (kind : Kind) (specifier : Specifier)
    (way : m.heap.get? ⟨2⟩ = some (sampleWay first second))
    (resolved : Query.resolveWord (.boundWord .word ⟨0⟩ (.specific ⟨0⟩) 1) none m = .ok ⟨⟨0⟩, 1⟩) :
    m.Spells (.series kind ⟨2⟩ 0) specifier ⟨⟨0⟩, 1⟩ [.number first, .number second] := by
  have listed : Query.cells ⟨2⟩ m = .ok _ := Query.cells_eq_ok.mpr ⟨_, way, rfl⟩
  have literal (n : Int) : m.Literal none (Cell.integer n) (.number n) :=
    ⟨.number rfl rfl rfl rfl, fun _ _ relative => nomatch relative⟩
  exact ⟨⟨2⟩, _, _, rfl, Query.bind_ok listed _, rfl, rfl, resolved,
    .cons (literal first) (.cons (literal second) .nil)⟩

/-- The byte is stored behind the end of the tuple, which is written back into the block. -/
theorem set_get_sampleNested :
    ∃ m', Path.set .idle (.series .setPath ⟨2⟩ 0) none (Cell.integer 9) false sampleNested =
        .ok false m' ∧
      Query.cell ⟨1⟩ 1 m' = .ok { sampleTuple with payload := .tuple [1, 2, 3, 0, 9] } ∧
      ∃ y m'', Path.get .idle (.series .getPath ⟨2⟩ 0) none false m' = .ok (some y) m'' ∧
        y.SameValue (Cell.integer 9) := by
  have done : Path.set .idle (.series .setPath ⟨2⟩ 0) none (Cell.integer 9) false sampleNested =
    .ok false _ := rfl
  refine ⟨_, done, rfl, ?_⟩
  have immediate : sampleTuple.IsImmediate := .tuple rfl rfl rfl rfl
  have value : (Cell.integer 9).IsEvaluated :=
    ⟨nofun, fun _ _ => ⟨rfl, rfl⟩, nofun, nofun⟩
  have unseen : sampleNested.Unseen sampleTuple (.number 5) (.slot ⟨1⟩ 1)
      (fun j t => False ∨ Footprint.only ⟨0⟩ 1 j t) (.only ⟨1⟩ 1) := by
    refine ⟨fun id i points => ?_, fun id i _ lives => ?_⟩
    · cases points with
      | element at_ => cases at_.payload
    · cases lives
      rintro (none_ | ⟨⟨⟩, -⟩)
      exact none_
  obtain ⟨d, id, i, -, -, -, reads⟩ := set_get walks_sampleNested
    (spells_sampleWay .setPath none rfl rfl) (.immediate immediate)
    nofun value unseen done
  obtain ⟨y, m'', gotten, same, -⟩ := reads .idle (.series .getPath ⟨2⟩ 0) none false
    (spells_sampleWay .getPath none rfl rfl)
  exact ⟨y, m'', gotten, same⟩

/-- A machine with a block in a variable that contains itself, and a path to the first item of its
first item. -/
def sampleCyclic : Machine :=
  .ofArgs [.series .block ⟨1⟩ 0] [.ofCells #[.series .block ⟨1⟩ 0], sampleWay 1 1]

/-- What is stored through the block itself is in the way of the same path. -/
theorem set_get_sampleCyclic :
    ∃ m', Path.set .idle (.series .setPath ⟨2⟩ 0) none (Cell.integer 5) false sampleCyclic =
        .ok false m' ∧
      ∀ y m'', Path.get .idle (.series .getPath ⟨2⟩ 0) none false m' ≠ .ok (some y) m'' := by
  refine ⟨_, rfl, fun y m'' got => ?_⟩
  cases got

end Homoicon
