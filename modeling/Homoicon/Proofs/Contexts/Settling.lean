import Homoicon.Proofs.Contexts.Extending
import Homoicon.Proofs.Copying.Walks

/-!
# Words after a walk

Binding the words of code goes over its arrays and changes only what words refer to.  A word that
has once been made to refer to its variable stays so while the walk goes on, also where several
places of the code lead to the same array; so at its end every word in reach refers to the variable
of its name.
-/

namespace Homoicon

/-- What the words of some code are to refer to. -/
structure Aim where
  /-- The place of the variable with a name. -/
  slot? : SymbolId → Option Nat
  binding : Binding
  /-- Arrays too are to be looked up there. -/
  arrays : Bool

namespace Aim

/-- A cell that refers to where it is to. -/
def settle (a : Aim) (c : Cell) : Cell :=
  if c.kind.isAnyWord then
    match c.wordSymbol? with
    | some symbol =>
      match a.slot? symbol with
      | some slot => { c with binding := a.binding, payload := .word symbol slot }
      | none => c
    | none => c
  else if a.arrays && c.array?.isSome then c.withBinding a.binding
  else c

theorem noArray_of_word {kind : Kind} (word : kind.isAnyWord = true) :
    kind.isAnyArray = false := by
  cases kind <;> first | rfl | cases word

variable (a : Aim) {c : Cell} {symbol : SymbolId} {slot : Nat}

theorem settle_word (kind : c.kind.isAnyWord = true) (name : c.wordSymbol? = some symbol)
    (found : a.slot? symbol = some slot) :
    a.settle c = { c with binding := a.binding, payload := .word symbol slot } := by
  rw [settle, if_pos kind, name]
  simp only [found]

theorem settle_unnamed (kind : c.kind.isAnyWord = true) (name : c.wordSymbol? = none) :
    a.settle c = c := by
  rw [settle, if_pos kind, name]

theorem settle_unknown (kind : c.kind.isAnyWord = true) (name : c.wordSymbol? = some symbol)
    (missing : a.slot? symbol = none) : a.settle c = c := by
  rw [settle, if_pos kind, name]
  simp only [missing]

theorem settle_other (kind : c.kind.isAnyWord = false) (leads : c.array? = none) :
    a.settle c = c := by
  simp [settle, kind, leads]

theorem settle_array {id : SeriesId} (leads : c.array? = some id) :
    a.settle c = if a.arrays then c.withBinding a.binding else c := by
  have noWord : c.kind.isAnyWord = false := by
    refine Bool.eq_false_iff.mpr fun word => ?_
    have array := (Cell.array?_eq_some.mp leads).1
    rw [noArray_of_word word] at array
    cases array
  rw [settle, noWord, leads]
  simp

/-- A cell is made to refer elsewhere only if it is a word with a known name or leads to an
array. -/
theorem settle_cases (c : Cell) :
    a.settle c = c ∨
      (∃ symbol slot, c.kind.isAnyWord = true ∧ c.wordSymbol? = some symbol ∧
        a.slot? symbol = some slot ∧
        a.settle c = { c with binding := a.binding, payload := .word symbol slot }) ∨
      ∃ id, c.array? = some id ∧ a.settle c = c.withBinding a.binding := by
  cases kind : c.kind.isAnyWord with
  | true =>
      cases name : c.wordSymbol? with
      | none => exact .inl (a.settle_unnamed kind name)
      | some symbol =>
          cases found : a.slot? symbol with
          | none => exact .inl (a.settle_unknown kind name found)
          | some slot => exact .inr (.inl ⟨symbol, slot, rfl, rfl, found, a.settle_word kind name found⟩)
  | false =>
      cases leads : c.array? with
      | none => exact .inl (a.settle_other kind leads)
      | some id =>
          rw [a.settle_array leads]
          cases a.arrays
          · exact .inl rfl
          · exact .inr (.inr ⟨id, rfl, rfl⟩)

@[simp] theorem kind_settle (c : Cell) : (a.settle c).kind = c.kind := by
  obtain same | ⟨_, _, -, -, -, same⟩ | ⟨_, -, same⟩ := a.settle_cases c
  · rw [same]
  · rw [same]
  · rw [same, Cell.withBinding]

@[simp] theorem quote_settle (c : Cell) : (a.settle c).quote = c.quote := by
  obtain same | ⟨_, _, -, -, -, same⟩ | ⟨_, -, same⟩ := a.settle_cases c
  · rw [same]
  · rw [same]
  · rw [same, Cell.withBinding]

@[simp] theorem wordSymbol?_settle (c : Cell) : (a.settle c).wordSymbol? = c.wordSymbol? := by
  obtain same | ⟨_, _, -, name, -, same⟩ | ⟨_, -, same⟩ := a.settle_cases c
  · rw [same]
  · rw [same, name]
    rfl
  · rw [same]
    rfl

@[simp] theorem array?_settle (c : Cell) : (a.settle c).array? = c.array? := by
  obtain same | ⟨_, _, kind, -, -, same⟩ | ⟨_, -, same⟩ := a.settle_cases c
  · rw [same]
  · rw [same, Cell.array?, Cell.array?, noArray_of_word kind]
    rfl
  · rw [same]
    rfl

@[simp] theorem settle_settle (c : Cell) : a.settle (a.settle c) = a.settle c := by
  obtain same | ⟨symbol, slot, kind, name, found, same⟩ | ⟨id, leads, same⟩ := a.settle_cases c
  · rw [same, same]
  · rw [a.settle_word ((a.kind_settle c).symm ▸ kind) ((a.wordSymbol?_settle c).trans name) found,
      same]
  · rw [a.settle_array ((a.array?_settle c).trans leads)]
    rw [a.settle_array leads] at same ⊢
    cases a.arrays
    · rfl
    · rfl

end Aim

/-! ## Machines that differ in what words refer to -/

/-- A machine in which some cells have been made to refer to where they are to. -/
structure Machine.Settles (a : Aim) (m m' : Machine) : Prop where
  symbols : m'.symbols = m.symbols
  linked : ∀ context keylist, Query.keylist context m = .ok keylist →
    Query.keylist context m' = .ok keylist
  cells : ∀ id held, Query.cells id m = .ok held → ∃ held', Query.cells id m' = .ok held' ∧
    held'.size = held.size ∧ ∀ (i : Nat) (c c' : Cell), held[i]? = some c → held'[i]? = some c' →
      c' = c ∨ c' = a.settle c

/-- The cells of an array, and of those it leads to up to a depth, refer to where they are to. -/
def Machine.SettledTo (a : Aim) (m : Machine) : Nat → SeriesId → Prop
  | 0, _ => False
  | depth + 1, array => ∃ held, Query.cells array m = .ok held ∧ ∀ c ∈ held, a.settle c = c ∧
      ∀ inner, c.array? = some inner → m.SettledTo a depth inner

namespace Machine

variable {a : Aim} {m m' m'' : Machine} {array id : SeriesId} {i depth : Nat} {c : Cell}

namespace Settles

theorem refl (m : Machine) : m.Settles a m :=
  ⟨rfl, fun _ _ linked => linked, fun _ held found => ⟨held, found, rfl, fun _ _ _ here there =>
    .inl (Option.some.inj (there.symm.trans here))⟩⟩

theorem trans (first : m.Settles a m') (second : m'.Settles a m'') : m.Settles a m'' where
  symbols := second.symbols.trans first.symbols
  linked context keylist linked := second.linked _ _ (first.linked _ _ linked)
  cells id held found := by
    obtain ⟨held', found', size, settled⟩ := first.cells id held found
    obtain ⟨held'', found'', size', settled'⟩ := second.cells id held' found'
    refine ⟨held'', found'', size'.trans size, fun i c c'' here there => ?_⟩
    have inside : i < held'.size := size ▸ (Array.getElem?_eq_some_iff.mp here).1
    have between := Array.getElem?_eq_getElem inside
    have one := settled i c _ here between
    have two := settled' i _ c'' between there
    grind [Aim.settle_settle]

theorem cell (settles : m.Settles a m') (found : Query.cell id i m = .ok c) :
    ∃ c', Query.cell id i m' = .ok c' ∧ (c' = c ∨ c' = a.settle c) := by
  obtain ⟨held, cells, here⟩ := Query.cell_eq_ok.mp found
  obtain ⟨held', cells', size, settled⟩ := settles.cells id held cells
  have inside : i < held'.size := size ▸ (Array.getElem?_eq_some_iff.mp here).1
  have there := Array.getElem?_eq_getElem inside
  exact ⟨held'[i], Query.cell_eq_ok.mpr ⟨held', cells', there⟩, settled i c _ here there⟩

/-- A cell that refers to where it is to stays as it is. -/
theorem cell_settled (settles : m.Settles a m') (found : Query.cell id i m = .ok c)
    (settled : a.settle c = c) : Query.cell id i m' = .ok c := by
  obtain ⟨c', found', rfl | rfl⟩ := settles.cell found
  · exact found'
  · rwa [settled] at found'

/-- An array all cells of which refer to where they are to stays as it is. -/
theorem cells_settled (settles : m.Settles a m') {held : Array Cell}
    (found : Query.cells id m = .ok held) (settled : ∀ c ∈ held, a.settle c = c) :
    Query.cells id m' = .ok held := by
  obtain ⟨held', found', size, each⟩ := settles.cells id held found
  have same : held' = held := by
    refine Array.ext size fun i inside inside' => ?_
    have done := settled _ (Array.getElem_mem inside')
    have either := each i _ _ (Array.getElem?_eq_getElem inside') (Array.getElem?_eq_getElem inside)
    rwa [done, or_self] at either
  rwa [← same]

theorem settled (settles : m.Settles a m') (done : m.SettledTo a depth array) :
    m'.SettledTo a depth array := by
  induction depth generalizing array with
  | zero => exact done
  | succ depth ih =>
      obtain ⟨held, found, each⟩ := done
      exact ⟨held, settles.cells_settled found fun c member => (each c member).1,
        fun c member => ⟨(each c member).1, fun inner leads => ih ((each c member).2 inner leads)⟩⟩

/-- Storing a cell that refers to where it is to in the place of one that does not. -/
theorem stored (found : Query.cell id i m = .ok c) : m.Settles a (m.stored id i (a.settle c)) where
  symbols := rfl
  linked context keylist linked := by
    obtain ⟨s, live, link⟩ := Law.keylist_eq_ok.mp linked
    refine Law.keylist_eq_ok.mpr ?_
    obtain ⟨held, cells, here⟩ := Query.cell_eq_ok.mp found
    obtain ⟨t, live', content⟩ := Query.cells_eq_ok.mp cells
    by_cases same : context = id
    · subst same
      obtain rfl := Option.some.inj (live.symm.trans live')
      exact ⟨_, get?_stored_self live content, link⟩
    · exact ⟨s, (get?_stored_of_ne same).trans live, link⟩
  cells other held cells := by
    obtain ⟨s, live, content⟩ := Query.cells_eq_ok.mp cells
    by_cases same : other = id
    · subst same
      refine ⟨_, Query.cells_eq_ok.mpr ⟨_, get?_stored_self live content, rfl⟩,
        Array.size_modify, fun j d d' here there => ?_⟩
      obtain ⟨_, cells', first⟩ := Query.cell_eq_ok.mp found
      obtain rfl := Except.ok.inj (cells.symm.trans cells')
      rw [Array.getElem?_modify, here] at there
      split at there
      · rename_i at_
        subst at_
        obtain rfl := Option.some.inj (here.symm.trans first)
        exact .inr (Option.some.inj there).symm
      · exact .inl (Option.some.inj there).symm
    · exact ⟨held, Query.cells_eq_ok.mpr ⟨s, (get?_stored_of_ne same).trans live, content⟩, rfl,
        fun _ _ _ here there => .inl (Option.some.inj (there.symm.trans here))⟩

end Settles

/-- A place of an array has been gone to: its cell refers to where it is to, and so do those it
leads to. -/
def Visited (a : Aim) (m : Machine) (depth : Nat) (array : SeriesId) (i : Nat) : Prop :=
  ∃ c, Query.cell array i m = .ok c ∧ a.settle c = c ∧
    ∀ inner, c.array? = some inner → m.SettledTo a depth inner

theorem Visited.settles (settles : m.Settles a m') (visited : m.Visited a depth array i) :
    m'.Visited a depth array i := by
  obtain ⟨c, found, settled, within⟩ := visited
  exact ⟨c, settles.cell_settled found settled, settled, fun inner leads =>
    settles.settled (within inner leads)⟩

end Machine

namespace Interp

open Machine

variable {a : Aim} {m m' : Machine} {array : SeriesId} {i depth : Nat} {c : Cell}

theorem modifyCell_settles {f : Cell → Cell} (found : Query.cell array i m = .ok c)
    (same : f c = a.settle c) (done : modifyCell array i f m = .ok () m') :
    m.Settles a m' ∧ Query.cell array i m' = .ok (a.settle c) := by
  obtain ⟨held, cells, here⟩ := Query.cell_eq_ok.mp found
  rw [modifyCell_eq_storeCell cells here, same] at done
  obtain ⟨_, _, _, rfl⟩ := storeCell_eq_ok.mp done
  refine ⟨.stored found, ?_⟩
  obtain ⟨s, live, content⟩ := Query.cells_eq_ok.mp cells
  refine Query.cell_eq_ok.mpr ⟨_, Query.cells_eq_ok.mpr ⟨_, get?_stored_self live content, rfl⟩, ?_⟩
  rw [Array.getElem?_modify, if_pos rfl, here]
  rfl

/-- What a walk does at a place of an array, where the cell may have been changed since the walk
came to the array. -/
def Binder (a : Aim) (ready : Machine → Prop) (depth : Nat) (array : SeriesId)
    (body : Nat → Cell → Interp Unit) : Prop :=
  ∀ ⦃m m' i c c₀⦄, ready m → Query.cell array i m = .ok c₀ → c₀ = c ∨ c₀ = a.settle c →
    body i c m = .ok () m' → m.Settles a m' ∧ m'.Visited a depth array i

theorem forM_settles {ready : Machine → Prop} {body : Nat → Cell → Interp Unit} {base : Machine}
    (persists : ∀ ⦃m m'⦄, m.Settles a m' → ready m → ready m')
    (binder : Binder a ready depth array body) (places : List (Cell × Nat))
    (snapshot : ∀ place ∈ places, Query.cell array place.2 base = .ok place.1)
    (since : base.Settles a m) (begun : ready m)
    (done : (places.forM fun (c, i) => body i c) m = .ok ⟨⟩ m') :
    m.Settles a m' ∧ ∀ place ∈ places, m'.Visited a depth array place.2 := by
  induction places generalizing m with
  | nil =>
      cases done
      exact ⟨.refl _, fun _ member => nomatch member⟩
  | cons place places ih =>
      obtain ⟨_, between, first, rest⟩ := bind_eq_ok.mp done
      obtain ⟨c₀, found, either⟩ := since.cell (snapshot place List.mem_cons_self)
      obtain ⟨settles, visited⟩ := binder begun found either first
      obtain ⟨settles', others⟩ := ih
        (fun other member => snapshot other (List.mem_cons_of_mem _ member))
        (since.trans settles) (persists settles begun) rest
      refine ⟨settles.trans settles', fun other member => ?_⟩
      rcases List.mem_cons.mp member with rfl | member
      · exact visited.settles settles'
      · exact others other member

/-- A walk over an array leaves it with all cells referring to where they are to. -/
theorem forCells_settles (ready : Machine → Prop) {body : Nat → Cell → Interp Unit}
    (persists : ∀ ⦃m m'⦄, m.Settles a m' → ready m → ready m')
    (binder : Binder a ready depth array body) (begun : ready m)
    (done : forCells array body m = .ok () m') :
    m.Settles a m' ∧ m'.SettledTo a (depth + 1) array := by
  obtain ⟨held, found, done⟩ := lift_bind_eq_ok.mp done
  have snapshot : ∀ place ∈ held.toList.zipIdx, Query.cell array place.2 m = .ok place.1 := by
    intro place member
    refine Query.cell_eq_ok.mpr ⟨held, found, ?_⟩
    rw [← Array.getElem?_toList]
    exact List.mem_zipIdx_iff_getElem?.mp member
  obtain ⟨settles, visited⟩ := forM_settles persists binder _ snapshot (.refl m) begun done
  obtain ⟨held', found', size, -⟩ := settles.cells array held found
  refine ⟨settles, held', found', fun c member => ?_⟩
  obtain ⟨i, inside, rfl⟩ := Array.mem_iff_getElem.mp member
  have inside' : i < held.size := size ▸ inside
  have place : (held[i], i) ∈ held.toList.zipIdx := by
    refine List.mem_zipIdx_iff_getElem?.mpr ?_
    rw [Array.getElem?_toList, Array.getElem?_eq_getElem]
  obtain ⟨c, here, settled, within⟩ := visited _ place
  obtain ⟨_, same, at_⟩ := Query.cell_eq_ok.mp here
  obtain rfl := Except.ok.inj (found'.symm.trans same)
  rw [Array.getElem?_eq_getElem inside] at at_
  obtain rfl := Option.some.inj at_
  exact ⟨settled, within⟩

end Interp

/-! ## The two walks -/

/-- Words of a function's code refer to its parameters, and its arrays are looked up in the call. -/
def Aim.params (t : Symbols) (paramlist : SeriesId) (params : Array Cell) : Aim where
  slot? symbol := t.findName? params (t.canon symbol)
  binding := .relative paramlist
  arrays := true

/-- Words refer to the variables of a context. -/
def Aim.context (t : Symbols) (context : SeriesId) (names : Array Cell) : Aim where
  slot? symbol := t.findName? names (t.canon symbol)
  binding := .specific context
  arrays := false

namespace Machine

variable {a : Aim} {m : Machine} {array : SeriesId} {i depth : Nat} {c c₀ : Cell}

/-- A cell that was there when a walk came to an array, as the walk finds it later. -/
theorem sameSign (either : c₀ = c ∨ c₀ = a.settle c) :
    c₀.kind = c.kind ∧ c₀.wordSymbol? = c.wordSymbol? ∧ c₀.array? = c.array? := by
  rcases either with rfl | rfl
  · exact ⟨rfl, rfl, rfl⟩
  · exact ⟨a.kind_settle c, a.wordSymbol?_settle c, a.array?_settle c⟩

theorem array?_of_word (kind : c.kind.isAnyWord = true) : c.array? = none := by
  rw [Cell.array?, Aim.noArray_of_word kind]
  rfl

theorem Visited.of_leaf (found : Query.cell array i m = .ok c) (settled : a.settle c = c)
    (leads : c.array? = none) : m.Visited a depth array i :=
  ⟨c, found, settled, fun inner led => by
    rw [leads] at led
    cases led⟩

end Machine

namespace Interp

open Machine

variable {t : Symbols} {paramlist context keylist array : SeriesId} {params names : Array Cell}
  {m m' : Machine} {depth : Nat}

/-- Binding a word, at a place of the walk. -/
theorem bindWord_settles {a : Aim} {i slot : Nat} {c c₀ : Cell} {symbol : SymbolId}
    (found : Query.cell array i m = .ok c₀) (either : c₀ = c ∨ c₀ = a.settle c)
    (kind : c.kind.isAnyWord = true) (name : c.wordSymbol? = some symbol)
    (placed : a.slot? symbol = some slot)
    (done : modifyCell array i (fun c =>
      { c with binding := a.binding, payload := .word symbol slot }) m = .ok () m') :
    m.Settles a m' ∧ m'.Visited a depth array i := by
  obtain ⟨sameKind, sameName, -⟩ := sameSign either
  have kind₀ := sameKind ▸ kind
  obtain ⟨settles, here⟩ := modifyCell_settles found
    (a.settle_word kind₀ (sameName.trans name) placed).symm done
  refine ⟨settles, .of_leaf here (a.settle_settle c₀) (array?_of_word ?_)⟩
  rwa [a.kind_settle]

/-- A cell that needs no binding, at a place of the walk. -/
theorem skip_settles {a : Aim} {i : Nat} {c c₀ : Cell} (found : Query.cell array i m = .ok c₀)
    (either : c₀ = c ∨ c₀ = a.settle c) (settled : a.settle c = c) (leads : c.array? = none) :
    m.Settles a m ∧ m.Visited a depth array i := by
  obtain rfl : c₀ = c := by
    rcases either with same | same
    · exact same
    · exact same.trans settled
  exact ⟨.refl m, .of_leaf found settled leads⟩

/-- An array is looked up where it is to be, after the walk has been in it. -/
theorem bindArray_settles {a : Aim} {i : Nat} {c : Cell} {inner : SeriesId} {f : Cell → Cell}
    (found : Query.cell array i m = .ok c) (leads : c.array? = some inner) (same : f c = a.settle c)
    (settled : m.SettledTo a depth inner) (done : modifyCell array i f m = .ok () m') :
    m.Settles a m' ∧ m'.Visited a depth array i := by
  obtain ⟨settles, here⟩ := modifyCell_settles found same done
  refine ⟨settles, a.settle c, here, a.settle_settle c, fun other led => ?_⟩
  rw [a.array?_settle, leads] at led
  cases led
  exact settles.settled settled

theorem notArray {c : Cell} (leads : c.array? = none) :
    c.kind.isAnyArray = false ∨ c.seriesId? = none := by
  unfold Cell.array? at leads
  split at leads
  · exact .inr leads
  · rename_i other
    exact .inl (Bool.eq_false_iff.mpr other)

/-- The code of a function after its words were bound to the parameters. -/
theorem relativizeIn_settles (plain : ∀ c ∈ params, (Aim.params t paramlist params).settle c = c)
    (ready : m.symbols = t ∧ Query.cells paramlist m = .ok params)
    (done : relativizeIn paramlist depth array m = .ok () m') :
    m.Settles (.params t paramlist params) m' ∧
      m'.SettledTo (.params t paramlist params) depth array := by
  induction depth generalizing array m m' with
  | zero => cases done
  | succ depth ih =>
      refine forCells_settles (fun m => m.symbols = t ∧
        Query.cells paramlist m = .ok params) ?_ ?_ ready done
      · exact fun m m' settles ready => ⟨settles.symbols.trans ready.1,
          settles.cells_settled ready.2 plain⟩
      · intro m m' i c c₀ ready found either done
        dsimp only at done
        cases kind : c.kind.isAnyWord with
        | true =>
            rw [if_pos kind] at done
            cases name : c.wordSymbol? with
            | none =>
                rw [name] at done
                cases done
                exact skip_settles found either (Aim.settle_unnamed _ kind name)
                  (array?_of_word kind)
            | some symbol =>
                rw [name] at done
                dsimp only at done
                rw [lift_bind_ok ready.2, bind_ok (get_run m), ready.1] at done
                cases placed : t.findName? params (t.canon symbol) with
                | none =>
                    rw [placed] at done
                    cases done
                    exact skip_settles found either (Aim.settle_unknown _ kind name placed)
                      (array?_of_word kind)
                | some slot =>
                    rw [placed] at done
                    exact bindWord_settles found either kind name placed done
        | false =>
            rw [kind, if_neg Bool.false_ne_true] at done
            cases leads : c.array? with
            | none =>
                have same : m' = m := by
                  rcases notArray leads with other | other
                  · rw [other, if_neg Bool.false_ne_true] at done
                    cases done
                    rfl
                  · rw [other] at done
                    dsimp only at done
                    rw [ite_self] at done
                    cases done
                    rfl
                rw [same]
                exact skip_settles found either (Aim.settle_other _ kind leads) leads
            | some inner =>
                obtain ⟨isArray, series⟩ := Cell.array?_eq_some.mp leads
                rw [if_pos isArray, series] at done
                obtain ⟨_, between, walked, done⟩ := bind_eq_ok.mp done
                obtain ⟨settles, settled⟩ := ih ready walked
                obtain ⟨c₁, there, either₁⟩ := settles.cell found
                have leads₁ : c₁.array? = some inner :=
                  (sameSign either₁).2.2.trans ((sameSign either).2.2.trans leads)
                have same : c₁.withBinding (.relative paramlist) =
                    (Aim.params t paramlist params).settle c₁ :=
                  ((Aim.params t paramlist params).settle_array leads₁).symm
                obtain ⟨marks, visited⟩ := bindArray_settles there leads₁ same settled done
                exact ⟨settles.trans marks, visited⟩

/-- All of the code is walked. -/
theorem relativizeDeep_settles
    (plain : ∀ c ∈ params, (Aim.params m.symbols paramlist params).settle c = c)
    (listed : Query.cells paramlist m = .ok params)
    (done : relativizeDeep array paramlist m = .ok () m') :
    m.Settles (.params m.symbols paramlist params) m' ∧
      ∃ depth, m'.SettledTo (.params m.symbols paramlist params) depth array := by
  have walked : relativizeIn paramlist (m.heap.slots.size + 1) array m = .ok () m' := done
  obtain ⟨settles, settled⟩ := relativizeIn_settles plain ⟨rfl, listed⟩ walked
  exact ⟨settles, _, settled⟩

/-- The code of a loop after its words were bound to the variables of a context. -/
theorem bindDeepIn_settles (plain : ∀ c ∈ names, (Aim.context t context names).settle c = c)
    (ready : m.symbols = t ∧ Query.keylist context m = .ok keylist ∧
      Query.cells keylist m = .ok names)
    (done : bindDeepIn context false depth array m = .ok () m') :
    m.Settles (.context t context names) m' ∧
      m'.SettledTo (.context t context names) depth array := by
  induction depth generalizing array m m' with
  | zero => cases done
  | succ depth ih =>
      refine forCells_settles (fun m => m.symbols = t ∧
        Query.keylist context m = .ok keylist ∧ Query.cells keylist m = .ok names) ?_ ?_ ready done
      · exact fun m m' settles ready => ⟨settles.symbols.trans ready.1,
          settles.linked _ _ ready.2.1, settles.cells_settled ready.2.2 plain⟩
      · intro m m' i c c₀ ready found either done
        have key (symbol : SymbolId) : Query.findKey? context symbol m =
            .ok (t.findName? names (t.canon symbol)) := by
          rw [Query.findKey?, Query.bind_ok ready.2.1, Query.bind_ok ready.2.2,
            Query.bind_ok (Query.read_run m), ready.1]
          rfl
        dsimp only at done
        cases kind : c.kind.isAnyWord with
        | true =>
            rw [if_pos kind] at done
            cases name : c.wordSymbol? with
            | none =>
                rw [name] at done
                cases done
                exact skip_settles found either (Aim.settle_unnamed _ kind name)
                  (array?_of_word kind)
            | some symbol =>
                rw [name] at done
                dsimp only at done
                rw [lift_bind_ok (key symbol)] at done
                cases placed : t.findName? names (t.canon symbol) with
                | none =>
                    rw [placed] at done
                    cases done
                    exact skip_settles found either (Aim.settle_unknown _ kind name placed)
                      (array?_of_word kind)
                | some slot =>
                    rw [placed] at done
                    exact bindWord_settles found either kind name placed done
        | false =>
            rw [kind, if_neg Bool.false_ne_true] at done
            cases leads : c.array? with
            | none =>
                have same : m' = m := by
                  rcases notArray leads with other | other
                  · rw [other, if_neg Bool.false_ne_true] at done
                    cases done
                    rfl
                  · rw [other] at done
                    dsimp only at done
                    rw [ite_self] at done
                    cases done
                    rfl
                rw [same]
                exact skip_settles found either (Aim.settle_other _ kind leads) leads
            | some inner =>
                obtain ⟨isArray, series⟩ := Cell.array?_eq_some.mp leads
                rw [if_pos isArray, series] at done
                obtain ⟨settles, settled⟩ := ih ready done
                obtain ⟨c₁, there, either₁⟩ := settles.cell found
                have leads₀ := (sameSign either).2.2.trans leads
                have still : (Aim.context t context names).settle c₀ = c₀ :=
                  (Aim.context t context names).settle_array leads₀
                obtain rfl : c₁ = c₀ := either₁.elim id (·.trans still)
                refine ⟨settles, _, there, still, fun other led => ?_⟩
                rw [leads₀] at led
                cases led
                exact settled

/-- All of a body is walked. -/
theorem bindDeep_settles
    (plain : ∀ c ∈ names, (Aim.context m.symbols context names).settle c = c)
    (linked : Query.keylist context m = .ok keylist) (listed : Query.cells keylist m = .ok names)
    (done : bindDeep array context false m = .ok () m') :
    m.Settles (.context m.symbols context names) m' ∧
      ∃ depth, m'.SettledTo (.context m.symbols context names) depth array := by
  have walked : bindDeepIn context false (m.heap.slots.size + 1) array m = .ok () m' := done
  obtain ⟨settles, settled⟩ := bindDeepIn_settles plain ⟨rfl, linked, listed⟩ walked
  exact ⟨settles, _, settled⟩

end Interp

end Homoicon
