import Homoicon.Action.Making
import Homoicon.Proofs.Storing

/-!
# No name stands twice

Names are compared by their canon, so that case does not count.
-/

namespace Homoicon

/-- The names of some parameters or keys. -/
def Typeset.names (params : List Typeset) : List SymbolId := params.filterMap (·.symbol)

/-- The name that a cell of a keylist or paramlist gives. -/
def Cell.keyName? (c : Cell) : Option SymbolId := c.key?.bind (·.symbol)

/-- No two of some names differ only by case. -/
def Symbols.Distinct (t : Symbols) (names : List SymbolId) : Prop := (names.map t.canon).Nodup

/-! ## Answers of questions -/

namespace Query

variable {α β : Type} {m : Machine} {P : α → Prop} {Q : β → Prop}

/-- Whatever a question answers has a property. -/
def Gives (q : Query α) (m : Machine) (P : α → Prop) : Prop := ∀ a, q m = .ok a → P a

theorem Gives.pure {a : α} (holds : P a) : Gives (Pure.pure a) m P := by
  rintro _ ⟨⟩
  exact holds

theorem Gives.fail {cause : Cause} : Gives (Homoicon.fail cause) m P := by
  rintro _ ⟨⟩

theorem Gives.read {P : Machine → Prop} (holds : P m) : Gives MonadReader.read m P := by
  rintro _ ⟨⟩
  exact holds

theorem Gives.bind {q : Query α} {f : α → Query β} (first : Gives q m P)
    (rest : ∀ a, P a → Gives (f a) m Q) : Gives (q >>= f) m Q := by
  intro b done
  obtain ⟨a, answer, last⟩ := bind_eq_ok.mp done
  exact rest a (first a answer) b last

/-- A property that rests on the last step alone. -/
theorem Gives.after {q : Query α} {f : α → Query β} (rest : ∀ a, Gives (f a) m Q) :
    Gives (q >>= f) m Q :=
  .bind (fun _ _ => trivial) fun a (_ : True) => rest a

theorem Gives.fail_bind {cause : Cause} {f : α → Query β} :
    Gives (Homoicon.fail cause >>= f) m Q :=
  .bind (P := fun _ => False) .fail fun _ => False.elim

/-- What each step keeps, a fold keeps. -/
theorem Gives.foldlM {σ : Type} {f : σ → α → Query σ} {kept : σ → Prop}
    (step : ∀ s a, kept s → Gives (f s a) m kept) {items : List α} {s : σ} (start : kept s) :
    Gives (items.foldlM f s) m kept := by
  induction items generalizing s with
  | nil => exact .pure start
  | cons item items ih =>
      rw [List.foldlM_cons]
      exact .bind (step s item start) fun next => ih

/-! ## Reading a spec -/

variable {r : SpecReader} {item : Cell}

/-- A type block names nothing. -/
theorem specTypes_names : Gives (specTypes r item) m fun s =>
    Typeset.names s.reversed = Typeset.names r.reversed := by
  obtain ⟨reversed, locals, flags⟩ := r
  unfold specTypes
  cases reversed with
  | nil => exact .after fun _ => .fail
  | cons last before =>
      simp only
      split
      · exact .after fun _ => .fail_bind
      · refine .after fun _ => .after fun _ => .after fun typed => ?_
        split
        · exact .fail_bind
        · exact .pure rfl

/-- What a further item names, if anything, is new. -/
def Fresh (m : Machine) (r s : SpecReader) : Prop :=
  Typeset.names s.reversed = Typeset.names r.reversed ∨
    ∃ symbol, Typeset.names s.reversed = symbol :: Typeset.names r.reversed ∧
      m.symbols.canon symbol ∉ (Typeset.names r.reversed).map m.symbols.canon

theorem specParam_fresh : Gives (specParam r item) m (Fresh m r) := by
  unfold specParam
  refine .after fun symbol => .after fun ⟨paramClass, locals⟩ => .bind (P := (· = m)) (.read rfl) ?_
  rintro _ rfl
  simp only
  split
  · exact .fail_bind
  · rename_i new
    refine .pure (.inr ⟨symbol, rfl, ?_⟩)
    rw [List.mem_map]
    rintro ⟨known, listed, same⟩
    obtain ⟨p, member, named⟩ := List.mem_filterMap.mp listed
    refine new (List.any_eq_true.mpr ⟨p, member, ?_⟩)
    rw [named, Option.any_some, same, beq_self_eq_true]

theorem specItem_fresh : Gives (specItem r item) m (Fresh m r) := by
  unfold specItem
  split
  · exact .pure (.inl rfl)
  · split
    · refine .after fun text => ?_
      split
      · exact .pure (.inl rfl)
      · exact .pure (.inl rfl)
      · exact .pure (.inl rfl)
      · exact .fail
    · split
      · exact fun s done => .inl (specTypes_names s done)
      · exact specParam_fresh

/-- The parameters that a spec names differ in their names. -/
theorem spec_distinct {items : List Cell} :
    Gives (items.foldlM specItem ({} : SpecReader)) m fun s =>
    m.symbols.Distinct (Typeset.names s.reversed) := by
  refine .foldlM (fun r item distinct s done => ?_) List.nodup_nil
  obtain same | ⟨symbol, names, new⟩ := specItem_fresh s done
  · rw [same]
    exact distinct
  · rw [names]
    exact List.nodup_cons.mpr ⟨new, distinct⟩

end Query

namespace Interp

variable {m next : Machine} {spec id : SeriesId} {index : Nat} {ownReturn : Bool}

theorem get?_of_alloc {s : Series} (made : alloc s m = .ok id next) :
    next.heap.get? id = some s := by
  unfold alloc at made
  obtain ⟨rfl, rfl⟩ := EStateM.Result.ok.inj made
  exact (Heap.get?_alloc m.heap s _).trans (if_pos rfl)

theorem symbols_of_alloc {s : Series} (made : alloc s m = .ok id next) :
    next.symbols = m.symbols := by
  unfold alloc at made
  obtain ⟨rfl, rfl⟩ := EStateM.Result.ok.inj made
  rfl

/-- What a paramlist holds: the parameters that the spec names, which differ in their names, and
the one for RETURN if it has to be added, which is not compared with them. -/
theorem makeParamlist_distinct (made : makeParamlist spec index ownReturn m = .ok id next) :
    ∃ params added : List Typeset,
      Query.cells id next = .ok (Cell.blank :: (params ++ added).map Cell.typeset).toArray ∧
      m.symbols.Distinct (Typeset.names params) ∧
      (added = [] ∧ next.symbols = m.symbols ∨
        ownReturn = true ∧ (params.any fun p => p.paramClass = .return) = false ∧
          added = [Typeset.param (m.symbols.intern "return").1 .return KindSet.anyValue] ∧
          next.symbols = (m.symbols.intern "return").2) := by
  unfold makeParamlist at made
  obtain ⟨items, -, made⟩ := lift_bind_eq_ok.mp made
  obtain ⟨r, read, made⟩ := lift_bind_eq_ok.mp made
  have distinct : m.symbols.Distinct (Typeset.names r.reversed.reverse) := by
    have reversed := Query.spec_distinct r read
    rw [Symbols.Distinct, Typeset.names, List.filterMap_reverse, List.map_reverse]
    exact (List.reverse_perm _).nodup_iff.mpr reversed
  simp only at made
  split at made
  · rename_i lacking
    obtain ⟨symbol, later, interned, made⟩ := bind_eq_ok.mp made
    cases interned
    obtain ⟨own, lacking⟩ := Bool.and_eq_true_iff.mp lacking
    exact ⟨r.reversed.reverse, _, Query.cells_eq_ok.mpr ⟨_, get?_of_alloc made, rfl⟩, distinct,
      .inr ⟨own, by simpa using lacking, rfl, symbols_of_alloc made⟩⟩
  · refine ⟨r.reversed.reverse, [], Query.cells_eq_ok.mpr ⟨_, get?_of_alloc made, ?_⟩, distinct,
      .inl ⟨rfl, symbols_of_alloc made⟩⟩
    rw [List.append_nil]
    rfl

end Interp

/-! ## Finding names -/

namespace Symbols

variable {t : Symbols}

theorem findName?_eq (names : Array Cell) (canon : SymbolId) :
    t.findName? names canon = names.findIdx? fun c => c.keyName?.any (t.canon · == canon) := by
  unfold findName?
  congr 1
  funext c
  obtain ⟨kind, payload, binding⟩ := c
  cases payload with
  | typeset key =>
      obtain ⟨kinds, flags, paramClass, symbol⟩ := key
      cases symbol <;> rfl
  | _ => rfl

theorem findName?_eq_none {names : Array Cell} {canon : SymbolId} :
    t.findName? names canon = none ↔
      ∀ c ∈ names, ∀ known, c.keyName? = some known → t.canon known ≠ canon := by
  rw [findName?_eq, Array.findIdx?_eq_none_iff]
  refine forall₂_congr fun c _ => ?_
  cases c.keyName? <;> simp

variable {params added : List Typeset} {i : Nat} {p : Typeset} {symbol : SymbolId}

/-- Among distinct names, one is found where it stands, whatever follows them. -/
theorem findIdx?_of_distinct (distinct : t.Distinct (Typeset.names params))
    (at_ : params[i]? = some p) (named : p.symbol = some symbol) :
    ((params ++ added).map Cell.typeset).findIdx?
      (fun c => c.keyName?.any (t.canon · == t.canon symbol)) = some i := by
  induction params generalizing i with
  | nil => cases at_
  | cons first params ih =>
      rw [List.cons_append, List.map_cons, List.findIdx?_cons]
      change (if first.symbol.any (t.canon · == t.canon symbol) then some 0 else _) = _
      cases i with
      | zero =>
          obtain rfl := Option.some.inj at_
          rw [named, Option.any_some, beq_self_eq_true, if_pos rfl]
      | succ i =>
          have later : t.canon symbol ∈ (Typeset.names params).map t.canon :=
            List.mem_map_of_mem (List.mem_filterMap.mpr ⟨p, List.mem_of_getElem? at_, named⟩)
          have rest : t.Distinct (Typeset.names params) :=
            distinct.sublist ((List.sublist_cons_self first params).filterMap _ |>.map _)
          have other : (first.symbol.any (t.canon · == t.canon symbol)) = false := by
            cases name : first.symbol with
            | none => rfl
            | some known =>
                rw [Symbols.Distinct, Typeset.names, List.filterMap_cons_some name] at distinct
                refine beq_false_of_ne fun same => ?_
                exact (List.nodup_cons.mp distinct).1 (same ▸ later)
          rw [other, if_neg Bool.false_ne_true, ih rest at_]
          rfl

theorem findName?_of_distinct (distinct : t.Distinct (Typeset.names params))
    (at_ : params[i]? = some p) (named : p.symbol = some symbol) :
    t.findName? (Cell.blank :: (params ++ added).map Cell.typeset).toArray (t.canon symbol) =
      some (i + 1) := by
  rw [findName?_eq, List.findIdx?_toArray, List.findIdx?_cons,
    findIdx?_of_distinct distinct at_ named]
  rfl

end Symbols

namespace Query

variable {m next : Machine} {spec id : SeriesId} {index i : Nat} {ownReturn : Bool} {p : Typeset}
  {symbol : SymbolId}

/-- Every parameter that a spec names is found under its name, also if one of them is called like
the one for RETURN that is added. -/
theorem findParam?_of_listed
    (made : Interp.makeParamlist spec index ownReturn m = .ok id next)
    (interned : ownReturn = true → (m.symbols.intern "return").2 = m.symbols)
    (at_ : param id i next = .ok p) (named : p.symbol = some symbol)
    (listed : ownReturn = true → p.paramClass ≠ .return) :
    findParam? id symbol next = .ok (some i) := by
  obtain ⟨params, added, cells, distinct, outcome⟩ := Interp.makeParamlist_distinct made
  have symbols : next.symbols = m.symbols := by
    obtain ⟨-, same⟩ | ⟨own, -, -, same⟩ := outcome
    · exact same
    · exact same.trans (interned own)
  obtain ⟨c, found, key⟩ := bind_eq_ok.mp at_
  obtain ⟨_, same, there⟩ := cell_eq_ok.mp found
  obtain rfl := Except.ok.inj (cells.symm.trans same)
  have here : ∃ k, i = k + 1 ∧ params[k]? = some p := by
    cases i with
    | zero =>
        cases there
        cases key
    | succ k =>
        refine ⟨k, rfl, ?_⟩
        rw [List.getElem?_toArray, List.getElem?_cons_succ, List.getElem?_map] at there
        obtain ⟨q, at_, rfl⟩ := Option.map_eq_some_iff.mp there
        cases key
        by_cases inside : k < params.length
        · rwa [List.getElem?_append_left inside] at at_
        · rw [List.getElem?_append_right (Nat.not_lt.mp inside)] at at_
          obtain ⟨rfl, -⟩ | ⟨own, -, rfl, -⟩ := outcome
          · cases at_
          · obtain rfl := List.mem_singleton.mp (List.mem_of_getElem? at_)
            exact absurd rfl (listed own)
  obtain ⟨k, rfl, place⟩ := here
  rw [findParam?, bind_ok cells, bind_ok (read_run next), symbols]
  exact congrArg Except.ok (Symbols.findName?_of_distinct distinct place named)

end Query

end Homoicon
