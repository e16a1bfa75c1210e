import Homoicon.Proofs.Contexts.Extending
import Homoicon.Proofs.Source.RoundTrip
import Homoicon.Proofs.Source.Words

/-!
# Words of the user

Loading a source text makes each of its words refer to the user's variable of that name.  Names
that the user does not have yet are added behind those that are there, once each and in the order
of the text, with the library's values; nothing else that was there changes.
-/

namespace Homoicon

/-! ## Contexts as they stand -/

namespace Symbols

/-- The names of a list that differ from the known ones and from those before them by more than
case. -/
def newNames (t : Symbols) : List SymbolId → List SymbolId → List SymbolId
  | _, [] => []
  | known, s :: rest =>
    if known.any fun k => t.canon k == t.canon s then t.newNames known rest
    else s :: t.newNames (known ++ [s]) rest

theorem newNames_append (t : Symbols) (known first rest : List SymbolId) :
    t.newNames known (first ++ rest) =
      t.newNames known first ++ t.newNames (known ++ t.newNames known first) rest := by
  induction first generalizing known with
  | nil => simp [newNames]
  | cons s first ih =>
      rw [List.cons_append, newNames, newNames]
      split
      · exact ih known
      · rw [ih, List.cons_append, List.append_assoc, List.singleton_append]

end Symbols

/-- A context with its names and variables. -/
structure ContextView where
  context : SeriesId
  keylist : SeriesId
  names : Array Cell
  vars : Array Cell

namespace ContextView

/-- A machine holds a context as it is viewed. -/
structure In (v : ContextView) (m : Machine) : Prop where
  linked : Query.keylist v.context m = .ok v.keylist
  names : Query.cells v.keylist m = .ok v.names
  vars : Query.cells v.context m = .ok v.vars
  size : v.vars.size = v.names.size

/-- The series of a context. -/
def series (v : ContextView) : List SeriesId := [v.context, v.keylist]

/-- The names of the variables in order. -/
def symbols (v : ContextView) : List SymbolId := v.names.toList.filterMap Cell.keyName?

/-- The value of the variable with a name. -/
def value? (v : ContextView) (t : Symbols) (symbol : SymbolId) : Option Cell :=
  (t.findName? v.names (t.canon symbol)).bind (v.vars[·]?)

/-- A context with more variables. -/
def extend (v : ContextView) (added : List SymbolId) (value : SymbolId → Cell) : ContextView :=
  { v with
    names := v.names ++ (added.map fun s =>
      Cell.typeset (Typeset.param s .normal KindSet.anyValue)).toArray
    vars := v.vars ++ (added.map value).toArray }

/-- A context after it got the names of some words that it did not have, with the values that
another context has for them. -/
def importing (v lib : ContextView) (t : Symbols) (words : List SymbolId) : ContextView :=
  v.extend (t.newNames v.symbols words) fun s => ((lib.value? t s).map Cell.copied).getD Cell.null

variable {v lib : ContextView} {m m' : Machine}

theorem extend_nil (v : ContextView) (value : SymbolId → Cell) : v.extend [] value = v := by
  simp [extend]

theorem extend_append (v : ContextView) (first rest : List SymbolId) (value : SymbolId → Cell) :
    v.extend (first ++ rest) value = (v.extend first value).extend rest value := by
  simp [extend, Array.append_assoc]

@[simp] theorem symbols_extend (v : ContextView) (added : List SymbolId)
    (value : SymbolId → Cell) : (v.extend added value).symbols = v.symbols ++ added := by
  unfold symbols extend
  rw [Array.toList_append, List.filterMap_append, List.toList_toArray, List.filterMap_map]
  exact congrArg _ List.filterMap_some

theorem symbols_any (v : ContextView) (t : Symbols) (symbol : SymbolId) :
    (v.symbols.any fun k => t.canon k == t.canon symbol) =
      (t.findName? v.names (t.canon symbol)).isSome := by
  rw [Symbols.findName?_eq, Array.findIdx?_isSome, symbols, List.any_filterMap, ← Array.any_toList]
  rfl

theorem importing_nil (v lib : ContextView) (t : Symbols) : v.importing lib t [] = v :=
  v.extend_nil _

theorem importing_append (v lib : ContextView) (t : Symbols) (first rest : List SymbolId) :
    v.importing lib t (first ++ rest) = (v.importing lib t first).importing lib t rest := by
  unfold importing
  rw [Symbols.newNames_append, extend_append, symbols_extend]

/-- A context stays as it is viewed where its series do. -/
theorem In.transfer (held : v.In m) (same : ∀ id ∈ v.series, m'.heap.get? id = m.heap.get? id) :
    v.In m' := by
  have context := same v.context (by simp [series])
  have keylist := same v.keylist (by simp [series])
  refine ⟨?_, ?_, ?_, held.size⟩
  · obtain ⟨s, live, link⟩ := Law.keylist_eq_ok.mp held.linked
    exact Law.keylist_eq_ok.mpr ⟨s, context.trans live, link⟩
  · obtain ⟨s, live, content⟩ := Query.cells_eq_ok.mp held.names
    exact Query.cells_eq_ok.mpr ⟨s, keylist.trans live, content⟩
  · obtain ⟨s, live, content⟩ := Query.cells_eq_ok.mp held.vars
    exact Query.cells_eq_ok.mpr ⟨s, context.trans live, content⟩

theorem In.live (held : v.In m) {id : SeriesId} (member : id ∈ v.series) :
    m.heap.get? id ≠ none := by
  obtain ⟨s, context, -⟩ := Query.cells_eq_ok.mp held.vars
  obtain ⟨s', keylist, -⟩ := Query.cells_eq_ok.mp held.names
  rcases List.mem_pair.mp member with rfl | rfl
  · rw [context]
    exact Option.some_ne_none s
  · rw [keylist]
    exact Option.some_ne_none s'

theorem In.grow (held : v.In m) (grown : m.Extends m') : v.In m' where
  linked := by
    obtain ⟨s, live, link⟩ := Law.keylist_eq_ok.mp held.linked
    exact Law.keylist_eq_ok.mpr ⟨s, grown.get? _ s live, link⟩
  names := grown.cells held.names
  vars := grown.cells held.vars
  size := held.size

theorem In.findKey? (held : v.In m) (symbol : SymbolId) : Query.findKey? v.context symbol m =
    .ok (m.symbols.findName? v.names (m.symbols.canon symbol)) := by
  unfold Query.findKey?
  rw [Query.bind_ok held.linked, Query.bind_ok held.names, Query.bind_ok (Query.read_run m)]
  rfl

theorem In.contextVar? (held : v.In m) (symbol : SymbolId) :
    Query.contextVar? v.context symbol m = .ok (v.value? m.symbols symbol) := by
  unfold Query.contextVar? value?
  rw [Query.bind_ok (held.findKey? symbol)]
  cases found : m.symbols.findName? v.names (m.symbols.canon symbol) with
  | none => rfl
  | some slot =>
      have inside : slot < v.vars.size := by
        rw [held.size]
        exact (Array.findIdx?_eq_some_iff_getElem.mp found).1
      have cell : Query.cell v.context slot m = .ok v.vars[slot] :=
        Query.cell_eq_ok.mpr ⟨v.vars, held.vars, Array.getElem?_eq_getElem inside⟩
      change (Query.cell v.context slot >>= fun c => pure (some c)) m = _
      rw [Query.bind_ok cell, Option.bind_some, Array.getElem?_eq_getElem inside]
      rfl

end ContextView

/-! ## Changes to some series only -/

theorem Series.flags_mapCells (f : Array Cell → Array Cell) (s : Series) :
    (s.mapCells f).flags = s.flags := by
  obtain ⟨flags, content, link, role⟩ := s
  cases content <;> rfl

theorem Series.flags_storing (index : Nat) (c : Cell) (s : Series) :
    (s.storing index c).flags = s.flags := by
  obtain ⟨flags, content, link, role⟩ := s
  cases content <;> rfl

/-- A machine of which at most some series have changed, and these but for their flags. -/
structure Machine.Touches (changed : List SeriesId) (m m' : Machine) : Prop where
  rest : m' = { m with heap := m'.heap }
  get? : ∀ id, id ∉ changed → m'.heap.get? id = m.heap.get? id
  flags : ∀ id, (m'.heap.get? id).map Series.flags = (m.heap.get? id).map Series.flags

namespace Machine.Touches

variable {m m' m'' : Machine} {changed changed' : List SeriesId}

theorem refl (m : Machine) : Touches changed m m := ⟨rfl, fun _ _ => rfl, fun _ => rfl⟩

theorem trans (first : Touches changed m m') (second : Touches changed m' m'') :
    Touches changed m m'' where
  rest := by rw [second.rest, first.rest]
  get? id apart := (second.get? id apart).trans (first.get? id apart)
  flags id := (second.flags id).trans (first.flags id)

theorem mono (touches : Touches changed m m') (more : changed ⊆ changed') :
    Touches changed' m m' :=
  ⟨touches.rest, fun id apart => touches.get? id fun member => apart (more member), touches.flags⟩

theorem modify (m : Machine) (id : SeriesId) {f : Series → Series}
    (kept : ∀ s, (f s).flags = s.flags) : Touches [id] m (m.onHeap (·.modify id f)) where
  rest := rfl
  get? other apart := by
    refine (Heap.get?_modify m.heap id other f).trans (if_neg ?_)
    rintro rfl
    exact apart List.mem_cons_self
  flags other := by
    change ((m.heap.modify id f).get? other).map _ = _
    rw [Heap.get?_modify]
    split
    · rw [Option.map_map]
      exact congrArg (Option.map · _) (funext kept)
    · rfl

theorem symbols (touches : Touches changed m m') : m'.symbols = m.symbols := by
  rw [touches.rest]

theorem user (touches : Touches changed m m') : m'.user = m.user := by
  rw [touches.rest]

theorem lib (touches : Touches changed m m') : m'.lib = m.lib := by
  rw [touches.rest]

theorem cells (touches : Touches changed m m') {id : SeriesId} {held : Array Cell}
    (found : Query.cells id m = .ok held) (apart : id ∉ changed) :
    Query.cells id m' = .ok held := by
  obtain ⟨s, live, content⟩ := Query.cells_eq_ok.mp found
  exact Query.cells_eq_ok.mpr ⟨s, (touches.get? id apart).trans live, content⟩

theorem words (touches : Touches changed m m') {cells words : List Cell} {ids : List SeriesId}
    (known : m.Words cells words ids) (apart : ids.Disjoint changed) :
    m'.Words cells words ids :=
  known.transfer fun id member => touches.get? id (apart member)

end Machine.Touches

/-! ## The user's variables -/

/-- The user's variables and the library's, in series of their own. -/
structure Machine.Furnished (m : Machine) (user lib : ContextView) : Prop where
  userContext : user.context = m.user
  libContext : lib.context = m.lib
  userIn : user.In m
  libIn : lib.In m
  own : user.context ≠ user.keylist
  apart : lib.series.Disjoint user.series

theorem Machine.Furnished.transfer {m m' : Machine} {user lib : ContextView}
    {changed : List SeriesId} (furnished : m.Furnished user lib) (touches : m.Touches changed m')
    (apart : (user.series ++ lib.series).Disjoint changed) : m'.Furnished user lib where
  userContext := furnished.userContext.trans touches.user.symm
  libContext := furnished.libContext.trans touches.lib.symm
  userIn := furnished.userIn.transfer fun id member =>
    touches.get? id (apart (List.mem_append_left _ member))
  libIn := furnished.libIn.transfer fun id member =>
    touches.get? id (apart (List.mem_append_right _ member))
  own := furnished.own
  apart := furnished.apart

theorem Machine.Furnished.grow {m m' : Machine} {user lib : ContextView}
    (furnished : m.Furnished user lib) (grown : m.Extends m') : m'.Furnished user lib where
  userContext := by rw [grown.rest, ← furnished.userContext]
  libContext := by rw [grown.rest, ← furnished.libContext]
  userIn := furnished.userIn.grow grown
  libIn := furnished.libIn.grow grown
  own := furnished.own
  apart := furnished.apart

namespace ContextView

variable {v : ContextView} {t : Symbols} {c c' : Cell}

/-- A word is made to refer to the variable of a context that has its name. -/
def Binds (v : ContextView) (t : Symbols) (c c' : Cell) : Prop :=
  ∃ symbol before slot, c.payload = .word symbol before ∧
    t.findName? v.names (t.canon symbol) = some slot ∧
    c' = { c with binding := .specific v.context, payload := .word symbol slot }

theorem findName?_extend (v : ContextView) (t : Symbols) (added : List SymbolId)
    (value : SymbolId → Cell) {canon : SymbolId} {slot : Nat}
    (found : t.findName? v.names canon = some slot) :
    t.findName? (v.extend added value).names canon = some slot := by
  rw [Symbols.findName?_eq] at found ⊢
  rw [extend, Array.findIdx?_append, found]
  rfl

/-- A name that a context did not have gets the value that the other context has for it. -/
theorem value_importing {user lib : ContextView} {words : List SymbolId}
    {symbol : SymbolId} {slot : Nat} (sized : user.vars.size = user.names.size)
    (missing : t.findName? user.names (t.canon symbol) = none)
    (found : t.findName? (user.importing lib t words).names (t.canon symbol) = some slot) :
    user.names.size ≤ slot ∧ (user.importing lib t words).vars[slot]? =
      some (((lib.value? t symbol).map Cell.copied).getD Cell.null) := by
  rw [Symbols.findName?_eq] at missing found
  rw [importing, extend, Array.findIdx?_append, missing, Option.none_or, Option.map_eq_some_iff]
    at found
  obtain ⟨i, found, rfl⟩ := found
  obtain ⟨inside, here, -⟩ := Array.findIdx?_eq_some_iff_getElem.mp found
  refine ⟨Nat.le_add_left _ _, ?_⟩
  have among : i < (t.newNames user.symbols words).length := by simpa using inside
  have same : t.canon (t.newNames user.symbols words)[i] = t.canon symbol := by
    simpa [Cell.keyName?, Cell.key?, Cell.typeset, Typeset.param] using here
  rw [importing, extend, Array.getElem?_append_right (by omega), sized, Nat.add_sub_cancel,
    List.getElem?_toArray, List.getElem?_map, List.getElem?_eq_getElem among, Option.map_some,
    value?, value?, same]

theorem Binds.extend (binds : v.Binds t c c') (added : List SymbolId) (value : SymbolId → Cell) :
    (v.extend added value).Binds t c c' := by
  obtain ⟨symbol, before, slot, payload, found, rfl⟩ := binds
  exact ⟨symbol, before, slot, payload, v.findName?_extend t added value found, rfl⟩

/-- Binding leaves the names of words as they are. -/
theorem Binds.wordSymbol? (binds : v.Binds t c c') : c'.wordSymbol? = c.wordSymbol? := by
  obtain ⟨symbol, before, slot, payload, -, rfl⟩ := binds
  unfold Cell.wordSymbol?
  rw [payload]

/-- Some cells are those of another machine but for their words, within arrays and below quotes too,
which are made to refer to the variables of a context. -/
inductive Rebinds (v : ContextView) (t : Symbols) (base m : Machine) :
    List Cell → List Cell → List SeriesId → Prop where
  | nil : Rebinds v t base m [] [] []
  | word {c c' : Cell} {cells cells' : List Cell} {ids : List SeriesId} :
      c.kind.isAnyWord = true → v.Binds t c c' → Rebinds v t base m cells cells' ids →
      Rebinds v t base m (c :: cells) (c' :: cells') ids
  | within {c : Cell} {cells cells' : List Cell} {inner : SeriesId} {held held' : Array Cell}
      {ids ids' : List SeriesId} : c.inner? = some inner → Query.cells inner base = .ok held →
      Query.cells inner m = .ok held' → Rebinds v t base m held.toList held'.toList ids →
      Rebinds v t base m cells cells' ids' →
      Rebinds v t base m (c :: cells) (c :: cells') (inner :: (ids ++ ids'))
  | other {c : Cell} {cells cells' : List Cell} {ids : List SeriesId} :
      c.kind.isAnyWord = false → c.inner? = none → Rebinds v t base m cells cells' ids →
      Rebinds v t base m (c :: cells) (c :: cells') ids

namespace Rebinds

variable {base m m' : Machine} {cells cells' words : List Cell} {ids : List SeriesId}

theorem extend (rebinds : v.Rebinds t base m cells cells' ids) (added : List SymbolId)
    (value : SymbolId → Cell) : (v.extend added value).Rebinds t base m cells cells' ids := by
  induction rebinds with
  | nil => exact .nil
  | word kind binds _ ih => exact .word kind (binds.extend added value) ih
  | within leads found after _ _ ihHere ihThere => exact .within leads found after ihHere ihThere
  | other kind leads _ ih => exact .other kind leads ih

/-- The cells depend on the arrays and pairings gone through only. -/
theorem transfer (rebinds : v.Rebinds t base m cells cells' ids)
    (same : ∀ id ∈ ids, m'.heap.get? id = m.heap.get? id) :
    v.Rebinds t base m' cells cells' ids := by
  induction rebinds with
  | nil => exact .nil
  | word kind binds _ ih => exact .word kind binds (ih same)
  | other kind leads _ ih => exact .other kind leads (ih same)
  | within leads found after _ _ ihHere ihThere =>
      obtain ⟨s, live, content⟩ := Query.cells_eq_ok.mp after
      have first := same _ List.mem_cons_self
      refine .within leads found (Query.cells_eq_ok.mpr ⟨s, first.trans live, content⟩)
        (ihHere fun id member => same id ?_) (ihThere fun id member => same id ?_)
      · exact List.mem_cons_of_mem _ (List.mem_append_left _ member)
      · exact List.mem_cons_of_mem _ (List.mem_append_right _ member)

/-- The words of the cells are those from before, bound. -/
theorem bound {ids' : List SeriesId} (rebinds : v.Rebinds t base m cells cells' ids')
    (known : base.Words cells words ids) :
    ∃ words', m.Words cells' words' ids ∧ List.Forall₂ (v.Binds t) words words' := by
  induction known generalizing cells' ids' with
  | nil =>
      cases rebinds
      exact ⟨[], .nil, .nil⟩
  | word kind payload _ ih =>
      cases rebinds with
      | word _ binds rest =>
          obtain ⟨words', known', bound⟩ := ih rest
          obtain ⟨_, _, _, -, -, rfl⟩ := id binds
          exact ⟨_, .word kind rfl known', .cons binds bound⟩
      | within leads => exact nomatch leads.symm.trans (Cell.inner?_of_isAnyWord kind)
      | other kind' => exact absurd kind (ne_true_of_eq_false kind')
  | within leads found _ _ ihHere ihThere =>
      cases rebinds with
      | word kind => exact nomatch leads.symm.trans (Cell.inner?_of_isAnyWord kind)
      | within leads' found' after here there =>
          obtain rfl := Option.some.inj (leads.symm.trans leads')
          obtain rfl := Except.ok.inj (found.symm.trans found')
          obtain ⟨inside, knownHere, bound⟩ := ihHere here
          obtain ⟨outside, knownThere, bound'⟩ := ihThere there
          exact ⟨_, .within leads after knownHere knownThere, List.rel_append bound bound'⟩
      | other _ none_ => exact nomatch leads.symm.trans none_
  | other kind leads _ ih =>
      cases rebinds with
      | word kind' => exact absurd kind' (ne_true_of_eq_false kind)
      | within leads' => exact nomatch leads'.symm.trans leads
      | other _ _ rest =>
          obtain ⟨words', known', bound⟩ := ih rest
          exact ⟨_, .other kind leads known', bound⟩

theorem split {first rest : List Cell} (rebinds : v.Rebinds t base m (first ++ rest) cells' ids) :
    ∃ first' rest' ids₁ ids₂, cells' = first' ++ rest' ∧ v.Rebinds t base m first first' ids₁ ∧
      v.Rebinds t base m rest rest' ids₂ := by
  induction first generalizing cells' ids with
  | nil => exact ⟨[], cells', [], ids, rfl, .nil, rebinds⟩
  | cons c first ih =>
      cases rebinds with
      | word kind binds behind =>
          obtain ⟨first', rest', ids₁, ids₂, rfl, here, there⟩ := ih behind
          exact ⟨_ :: first', rest', _, ids₂, rfl, .word kind binds here, there⟩
      | within leads found after inside behind =>
          obtain ⟨first', rest', ids₁, ids₂, rfl, here, there⟩ := ih behind
          exact ⟨c :: first', rest', _, ids₂, rfl, .within leads found after inside here, there⟩
      | other kind leads behind =>
          obtain ⟨first', rest', ids₁, ids₂, rfl, here, there⟩ := ih behind
          exact ⟨c :: first', rest', _, ids₂, rfl, .other kind leads here, there⟩

theorem behind_word (rebinds : v.Rebinds t base m (c :: cells) cells' ids)
    (kind : c.kind.isAnyWord = true) : ∃ c' rest ids', cells' = c' :: rest ∧ v.Binds t c c' ∧
      v.Rebinds t base m cells rest ids' := by
  cases rebinds with
  | word _ binds rest => exact ⟨_, _, _, rfl, binds, rest⟩
  | within leads => exact nomatch leads.symm.trans (Cell.inner?_of_isAnyWord kind)
  | other kind' => exact absurd kind (ne_true_of_eq_false kind')

end Rebinds

end ContextView

namespace Interp

variable {m : Machine} {user lib : ContextView}

/-- The cells of an array are changed and all else stays. -/
theorem modifyCells_touches {id : SeriesId} {held : Array Cell} (f : Array Cell → Array Cell)
    (found : Query.cells id m = .ok held) : ∃ m', modifyCells id f m = .ok () m' ∧
      m.Touches [id] m' ∧ Query.cells id m' = .ok (f held) ∧
      ∀ keylist, Query.keylist id m = .ok keylist → Query.keylist id m' = .ok keylist := by
  obtain ⟨s, live, content⟩ := Query.cells_eq_ok.mp found
  have there : ∃ m', modifyCells id f m = .ok () m' ∧ m.Touches [id] m' := by
    obtain ⟨_, _, ran⟩ | failed := modifyCells_run id f m
    · exact ⟨_, ran, .modify m id (Series.flags_mapCells f)⟩
    · rw [modifyCells, bind_run, lift_run] at failed
      have array : isArray id m = .ok true := by
        rw [isArray, Query.bind_ok (Query.series_eq_ok.mpr live), content]
        rfl
      have alive : m.heap.isLive id = true := Heap.isLive_iff.mpr ⟨s, live⟩
      rw [array] at failed
      simp only [if_true, modifySeries, alive] at failed
      cases failed
  obtain ⟨m', ran, touches⟩ := there
  obtain ⟨s', held', live', content', after⟩ := modifyCells_eq_ok ran
  obtain rfl := Option.some.inj (live.symm.trans live')
  obtain rfl := Content.array.inj (content.symm.trans content')
  refine ⟨m', ran, touches, Query.cells_eq_ok.mpr ⟨_, after, rfl⟩, fun keylist linked => ?_⟩
  obtain ⟨_, same, link⟩ := Law.keylist_eq_ok.mp linked
  obtain rfl := Option.some.inj (live.symm.trans same)
  exact Law.keylist_eq_ok.mpr ⟨_, after, link⟩

/-- Adding a variable to a context. -/
theorem appendKey_run (held : user.In m) (own : user.context ≠ user.keylist)
    (symbol : SymbolId) (value : SymbolId → Cell) : ∃ m',
      appendKey user.context symbol (value symbol) m = .ok user.names.size m' ∧
        (user.extend [symbol] value).In m' ∧ m.Touches user.series m' := by
  obtain ⟨m₁, named, first, names, -⟩ := modifyCells_touches
    (·.push (Cell.typeset (Typeset.param symbol .normal KindSet.anyValue))) held.names
  have vars₁ := first.cells held.vars (by simpa using own)
  have linked₁ : Query.keylist user.context m₁ = .ok user.keylist := by
    obtain ⟨s, live, link⟩ := Law.keylist_eq_ok.mp held.linked
    exact Law.keylist_eq_ok.mpr ⟨s, (first.get? _ (by simpa using own)).trans live, link⟩
  obtain ⟨m₂, filled, second, vars, linked⟩ := modifyCells_touches (·.push (value symbol)) vars₁
  have names₂ := second.cells names (by simpa using own.symm)
  have size : Query.size user.context m₂ = .ok (user.vars.size + 1) := by
    obtain ⟨s, live, content⟩ := Query.cells_eq_ok.mp vars
    rw [Query.size, Query.bind_ok (Query.series_eq_ok.mpr live), content]
    exact congrArg Except.ok (Array.size_push _)
  refine ⟨m₂, ?_, ⟨linked _ linked₁, ?_, ?_, ?_⟩, (first.mono ?_).trans (second.mono ?_)⟩
  · rw [appendKey, lift_bind_ok held.linked, bind_ok named, bind_ok filled, lift_bind_ok size,
      ← held.size]
    rfl
  · simpa [ContextView.extend] using names₂
  · simpa [ContextView.extend] using vars
  · simp [ContextView.extend, held.size]
  · simp [ContextView.series]
  · simp [ContextView.series]

/-- The slot of a name among the user's variables, which it may first have to be added to. -/
theorem userSlot_run (furnished : m.Furnished user lib) (symbol : SymbolId) : ∃ slot m',
    userSlot symbol m = .ok slot m' ∧ m'.Furnished (user.importing lib m.symbols [symbol]) lib ∧
      m.Touches user.series m' ∧
      m.symbols.findName? (user.importing lib m.symbols [symbol]).names (m.symbols.canon symbol) =
        some slot := by
  have found := furnished.userIn.findKey? symbol
  have value := furnished.libIn.contextVar? symbol
  have listed := user.symbols_any m.symbols symbol
  rw [userSlot, bind_run, get_run]
  simp only [← furnished.userContext, ← furnished.libContext]
  rw [lift_bind_ok found]
  cases known : m.symbols.findName? user.names (m.symbols.canon symbol) with
  | some slot =>
      rw [known] at listed
      have nothing : m.symbols.newNames user.symbols [symbol] = [] := by
        rw [Symbols.newNames, listed, Option.isSome_some, if_pos rfl, Symbols.newNames]
      rw [ContextView.importing, nothing, ContextView.extend_nil]
      exact ⟨slot, m, rfl, furnished, .refl m, known⟩
  | none =>
      rw [known] at listed
      have single : m.symbols.newNames user.symbols [symbol] = [symbol] := by
        rw [Symbols.newNames, listed, Option.isSome_none, if_neg Bool.false_ne_true,
          Symbols.newNames]
      rw [ContextView.importing, single]
      obtain ⟨m', added, userIn, touches⟩ := appendKey_run furnished.userIn furnished.own symbol
        fun s => ((lib.value? m.symbols s).map Cell.copied).getD Cell.null
      refine ⟨user.names.size, m', ?_, ?_, touches, ?_⟩
      · simp only
        rw [lift_bind_ok value]
        exact added
      · exact ⟨furnished.userContext.trans touches.user.symm,
          furnished.libContext.trans touches.lib.symm, userIn,
          furnished.libIn.transfer fun id member => touches.get? id (furnished.apart member),
          furnished.own, furnished.apart⟩
      · rw [Symbols.findName?_eq] at known ⊢
        rw [ContextView.extend, Array.findIdx?_append, known]
        simp [Cell.keyName?, Cell.key?, Cell.typeset, Typeset.param]

/-! ## The walk -/

/-- What binding to the user's variables does at one cell of an array. -/
def bindUserCell (depth : Nat) (array : SeriesId) (i : Nat) (c : Cell) : Interp Unit :=
  match c.kind, c.payload with
  | .quoted, .quoted pairing _ => bindUserIn depth pairing
  | _, _ =>
    if c.kind.isAnyWord then
      match c.wordSymbol? with
      | some symbol => do
        let slot ← userSlot symbol
        let user := (← get).user
        modifyCell array i fun c =>
          { c with binding := .specific user, payload := .word symbol slot }
      | none => pure ()
    else if c.kind.isAnyArray then
      match c.seriesId? with
      | some inner => bindUserIn depth inner
      | none => pure ()
    else pure ()

theorem bindUserIn_succ (depth : Nat) (array : SeriesId) :
    bindUserIn (depth + 1) array = forCells array (bindUserCell depth array) := rfl

/-- What binding does at some cells of an array from a place on. -/
def bindUserCells (depth : Nat) (array : SeriesId) (cells : List Cell) (start : Nat) :
    Interp Unit :=
  (cells.zipIdx start).forM fun (c, i) => bindUserCell depth array i c

theorem bindUserCells_cons (depth : Nat) (array : SeriesId) (c : Cell) (cells : List Cell)
    (start : Nat) : bindUserCells depth array (c :: cells) start = (do
      bindUserCell depth array start c
      bindUserCells depth array cells (start + 1)) := rfl

theorem bindUserIn_run {m : Machine} {array : SeriesId} {held : Array Cell} (depth : Nat)
    (found : Query.cells array m = .ok held) :
    bindUserIn (depth + 1) array m = bindUserCells depth array held.toList 0 m := by
  rw [bindUserIn_succ, forCells, lift_bind_ok found]
  rfl

theorem bindUserCell_word {depth i slot : Nat} {array : SeriesId} {c : Cell} {symbol : SymbolId}
    (kind : c.kind.isAnyWord = true) (payload : c.payload = .word symbol slot) :
    bindUserCell depth array i c = (do
      let slot ← userSlot symbol
      let user := (← get).user
      modifyCell array i fun c =>
        { c with binding := .specific user, payload := .word symbol slot }) := by
  obtain ⟨kind', payload'⟩ := c
  obtain rfl : payload' = .word symbol slot := payload
  cases kind' <;> first | rfl | cases kind

theorem bindUserCell_within {depth i : Nat} {array inner : SeriesId} {c : Cell}
    (leads : c.inner? = some inner) :
    bindUserCell depth array i c = bindUserIn depth inner := by
  obtain ⟨kind, payload⟩ := c
  unfold Cell.inner? at leads
  unfold bindUserCell Cell.seriesId?
  cases payload with
  | quoted pairing depth => cases kind <;> first | (cases leads; rfl) | cases leads
  | series id index => cases kind <;> first | (cases leads; rfl) | cases leads
  | _ => cases kind <;> cases leads

theorem bindUserCell_other {depth i : Nat} {array : SeriesId} {c : Cell}
    (kind : c.kind.isAnyWord = false) (leads : c.inner? = none) :
    bindUserCell depth array i c = pure () := by
  obtain ⟨kind', payload⟩ := c
  unfold Cell.inner? at leads
  unfold bindUserCell Cell.seriesId?
  cases payload with
  | quoted pairing depth =>
      cases kind' <;> first | rfl | (cases kind; done) | exact absurd leads (Option.some_ne_none _)
  | series id index =>
      cases kind' <;> first | rfl | (cases kind; done) | exact absurd leads (Option.some_ne_none _)
  | _ => cases kind' <;> first | rfl | cases kind

/-- What is known of a machine after the cells of an array from a place on were gone through: the
words are bound, the names of the user's variables are extended by theirs, and only the array, those
within it and the user's variables have changed. -/
structure Walked (base m m' : Machine) (user lib : ContextView) (array : SeriesId)
    (before cells words : List Cell) (ids : List SeriesId) : Prop where
  touches : m.Touches (array :: (user.series ++ ids)) m'
  furnished : m'.Furnished
    (user.importing lib m.symbols (words.filterMap Cell.wordSymbol?)) lib
  bound : ∃ cells', Query.cells array m' = .ok (before ++ cells').toArray ∧
    (user.importing lib m.symbols (words.filterMap Cell.wordSymbol?)).Rebinds m.symbols base m'
      cells cells' ids

theorem modify_at (before rest : List Cell) (c c' : Cell) :
    ((before ++ c :: rest).toArray.modify before.length fun _ => c') =
      (before ++ c' :: rest).toArray := by
  refine Array.ext_getElem? fun place => ?_
  rw [Array.getElem?_modify]
  split
  · rename_i same
    simp [← same]
  · rename_i other
    simp only [List.getElem?_toArray]
    rcases Nat.lt_or_ge place before.length with inside | outside
    · rw [List.getElem?_append_left inside, List.getElem?_append_left inside]
    · obtain ⟨more, rfl⟩ := Nat.exists_eq_add_of_lt (Nat.lt_of_le_of_ne outside other)
      simp [List.getElem?_append_right, Nat.add_assoc]

/-- Binding one word of an array. -/
theorem bindWord_run {array : SeriesId} {before rest : List Cell} {c : Cell} {symbol : SymbolId}
    {slot : Nat} (payload : c.payload = .word symbol slot)
    (held : Query.cells array m = .ok (before ++ c :: rest).toArray)
    (furnished : m.Furnished user lib) (apart : (user.series ++ lib.series).Disjoint [array]) :
    ∃ c' m', (do
      let slot ← userSlot symbol
      let user := (← get).user
      modifyCell array before.length fun c =>
        { c with binding := .specific user, payload := .word symbol slot }) m = .ok () m' ∧
      m.Touches (array :: user.series) m' ∧
      m'.Furnished (user.importing lib m.symbols [symbol]) lib ∧
      Query.cells array m' = .ok (before ++ c' :: rest).toArray ∧
      (user.importing lib m.symbols [symbol]).Binds m.symbols c c' := by
  obtain ⟨slot', m₁, found, furnished₁, touches, placed⟩ := userSlot_run furnished symbol
  have held₁ := touches.cells held fun member =>
    apart (List.mem_append_left _ member) List.mem_cons_self
  have there : (before ++ c :: rest).toArray[before.length]? = some c := by simp
  let c' : Cell := { c with binding := .specific m₁.user, payload := .word symbol slot' }
  have inside : before.length < (before ++ c :: rest).toArray.size := by simp
  refine ⟨c', m₁.stored array before.length c', ?_, ?_, ?_, ?_, ?_⟩
  · rw [bind_ok found, bind_ok (get_run m₁),
      modifyCell_eq_storeCell held₁ there fun c =>
        { c with binding := .specific m₁.user, payload := .word symbol slot' },
      storeCell_run _ held₁ inside]
  · exact (touches.mono (List.subset_cons_self _ _)).trans
      ((Machine.Touches.modify m₁ array (Series.flags_storing _ c')).mono (by simp))
  · exact furnished₁.transfer (.modify m₁ array (Series.flags_storing _ c')) apart
  · obtain ⟨s, live, content⟩ := Query.cells_eq_ok.mp held₁
    refine Query.cells_eq_ok.mpr ⟨_, Machine.get?_stored_self live content, ?_⟩
    exact congrArg Content.array (modify_at before rest c c')
  · have context : m₁.user = (user.importing lib m.symbols [symbol]).context :=
      furnished₁.userContext.symm
    exact ⟨symbol, slot, slot', payload, placed, by rw [← context]⟩

theorem nodup_within {array inner : SeriesId} {ids ids' : List SeriesId}
    (fresh : (array :: inner :: (ids ++ ids')).Nodup) :
    (inner :: ids).Nodup ∧ (array :: ids').Nodup ∧ (inner :: ids).Disjoint (array :: ids') := by
  simp only [List.nodup_cons, List.nodup_append', List.mem_cons, List.mem_append] at fresh ⊢
  grind [List.Disjoint]

namespace Walked

variable {base m₁ : Machine} {array inner : SeriesId} {before cells words words' : List Cell}
  {ids ids' : List SeriesId} {c c' : Cell} {symbol : SymbolId} {slot : Nat}

/-- A word comes before the cells that were gone through. -/
theorem word (kind : c.kind.isAnyWord = true) (payload : c.payload = .word symbol slot)
    (touches : m.Touches (array :: user.series) m₁)
    (binds : (user.importing lib m.symbols [symbol]).Binds m.symbols c c')
    (walked : Walked base m₁ m' (user.importing lib m.symbols [symbol]) lib array (before ++ [c'])
      cells words ids) :
    Walked base m m' user lib array before (c :: cells) (c :: words) ids := by
  have symbols := touches.symbols
  have word : c.wordSymbol? = some symbol := by
    unfold Cell.wordSymbol?
    rw [payload]
  have all : (c :: words).filterMap Cell.wordSymbol? =
      [symbol] ++ words.filterMap Cell.wordSymbol? := by
    rw [List.filterMap_cons_some word, List.singleton_append]
  obtain ⟨cells', after, rebinds⟩ := walked.bound
  have furnished := walked.furnished
  rw [symbols, ← ContextView.importing_append, ← all] at furnished rebinds
  have within := List.cons_subset_cons array (List.subset_append_left user.series ids)
  refine ⟨(touches.mono within).trans walked.touches, furnished, c' :: cells', ?_,
    .word kind ?_ rebinds⟩
  · rw [after, List.append_assoc, List.singleton_append]
  · rw [all, ContextView.importing_append]
    exact binds.extend _ _

/-- A cell with cells within it comes before the cells that were gone through. -/
theorem within {inside : Array Cell} (leads : c.inner? = some inner)
    (found : Query.cells inner base = .ok inside)
    (separate : (inner :: ids).Disjoint (array :: (user.series ++ ids')))
    (first : Walked base m m₁ user lib inner [] inside.toList words ids)
    (second : Walked base m₁ m'
      (user.importing lib m.symbols (words.filterMap Cell.wordSymbol?)) lib array (before ++ [c])
      cells words' ids') :
    Walked base m m' user lib array before (c :: cells) (words ++ words')
      (inner :: (ids ++ ids')) := by
  have symbols := first.touches.symbols
  obtain ⟨insideCells, afterInside, rebindsInside⟩ := first.bound
  obtain ⟨cells', after, rebinds⟩ := second.bound
  have furnished := second.furnished
  rw [symbols, ← ContextView.importing_append, ← List.filterMap_append] at furnished rebinds
  have insideLast := second.touches.cells afterInside (separate List.mem_cons_self)
  refine ⟨(first.touches.mono ?_).trans (second.touches.mono ?_), furnished, c :: cells', ?_,
    .within leads found insideLast ?_ rebinds⟩
  · grind
  · change array :: (user.series ++ ids') ⊆ _
    grind
  · rw [after, List.append_assoc, List.singleton_append]
  · rw [List.filterMap_append, ContextView.importing_append]
    refine (rebindsInside.extend _ _).transfer fun id member => second.touches.get? id ?_
    exact separate (List.mem_cons_of_mem _ member)

/-- Another cell comes before the cells that were gone through. -/
theorem other (kind : c.kind.isAnyWord = false) (leads : c.inner? = none)
    (walked : Walked base m m' user lib array (before ++ [c]) cells words ids) :
    Walked base m m' user lib array before (c :: cells) words ids := by
  obtain ⟨cells', after, rebinds⟩ := walked.bound
  refine ⟨walked.touches, walked.furnished, c :: cells', ?_, .other kind leads rebinds⟩
  rw [after, List.append_assoc, List.singleton_append]

end Walked

/-- Going through the cells of an array from a place on. -/
theorem bindUserIn_walk {base : Machine} (depth : Nat) {array : SeriesId} (before : List Cell)
    {cells words : List Cell} {ids : List SeriesId} (known : base.Words cells words ids)
    (same : ∀ id ∈ ids, m.heap.get? id = base.heap.get? id) (enough : ids.length ≤ depth)
    (held : Query.cells array m = .ok (before ++ cells).toArray)
    (furnished : m.Furnished user lib) (fresh : (array :: ids).Nodup)
    (apart : (user.series ++ lib.series).Disjoint (array :: ids)) : ∃ m',
      bindUserCells depth array cells before.length m = .ok () m' ∧
        Walked base m m' user lib array before cells words ids := by
  induction known generalizing m depth array before user with
  | nil =>
      refine ⟨m, rfl, .refl m, ?_, [], held, .nil⟩
      rw [List.filterMap_nil, ContextView.importing_nil]
      exact furnished
  | @word c cells words ids symbol slot kind payload rest ih =>
      obtain ⟨c', m₁, bound, touches, furnished₁, held₁, binds⟩ := bindWord_run payload held
        furnished (List.disjoint_of_subset_right (by simp) apart)
      have same₁ : ∀ id ∈ ids, m₁.heap.get? id = base.heap.get? id := by
        intro id member
        refine (touches.get? id ?_).trans (same id member)
        rintro (_ | ⟨_, member'⟩)
        · exact (List.nodup_cons.mp fresh).1 member
        · exact apart (List.mem_append_left _ member') (List.mem_cons_of_mem _ member)
      have held₂ : Query.cells array m₁ = .ok ((before ++ [c']) ++ cells).toArray := by
        rw [held₁, List.append_assoc, List.singleton_append]
      obtain ⟨m', ran, walked⟩ :=
        ih depth (before ++ [c']) same₁ enough held₂ furnished₁ fresh apart
      refine ⟨m', ?_, walked.word kind payload touches binds⟩
      rw [List.length_append] at ran
      rw [bindUserCells_cons, bindUserCell_word kind payload, bind_ok bound]
      exact ran
  | @within c cells here there inner inside ids ids' leads found _ _ ihHere ihThere =>
      obtain ⟨depth, rfl⟩ : ∃ less, depth = less + 1 := ⟨depth - 1, by simp at enough; omega⟩
      simp only [List.length_cons, List.length_append] at enough
      have foundNow : Query.cells inner m = .ok inside := by
        obtain ⟨s, live, content⟩ := Query.cells_eq_ok.mp found
        exact Query.cells_eq_ok.mpr ⟨s, (same inner List.mem_cons_self).trans live, content⟩
      -- the array, those within the cell, those behind it and the contexts have no series in common
      obtain ⟨freshHere, freshThere, separate⟩ := nodup_within fresh
      have subHere : inner :: ids ⊆ array :: inner :: (ids ++ ids') := by grind
      have subThere : array :: ids' ⊆ array :: inner :: (ids ++ ids') := by grind
      have apartHere := List.disjoint_of_subset_right subHere apart
      have apartThere := List.disjoint_of_subset_right subThere apart
      have untouched : (array :: ids').Disjoint (inner :: (user.series ++ ids)) := by
        have contexts := List.disjoint_of_subset_left (List.subset_append_left _ _) apartThere
        grind [List.Disjoint]
      have kept : (inner :: ids).Disjoint (array :: (user.series ++ ids')) := by
        have contexts := List.disjoint_of_subset_left (List.subset_append_left _ _) apartHere
        grind [List.Disjoint]
      obtain ⟨m₁, ranHere, first⟩ := ihHere depth []
        (fun id member => same id (List.mem_cons_of_mem _ (List.mem_append_left _ member)))
        (by omega) foundNow furnished freshHere apartHere
      have held₁ : Query.cells array m₁ = .ok ((before ++ [c]) ++ cells).toArray := by
        rw [first.touches.cells held (untouched List.mem_cons_self), List.append_assoc,
          List.singleton_append]
      obtain ⟨m', ranThere, second⟩ := ihThere (depth + 1) (before ++ [c])
        (fun id member => (first.touches.get? id (untouched (List.mem_cons_of_mem _ member))).trans
          (same id (by simp [member])))
        (by omega) held₁ first.furnished freshThere apartThere
      refine ⟨m', ?_, first.within leads found kept second⟩
      rw [List.length_append] at ranThere
      rw [bindUserCells_cons, bindUserCell_within leads,
        bind_ok ((bindUserIn_run depth foundNow).trans ranHere)]
      exact ranThere
  | @other c cells words ids kind leads rest ih =>
      have held' : Query.cells array m = .ok ((before ++ [c]) ++ cells).toArray := by
        rw [held, List.append_assoc, List.singleton_append]
      obtain ⟨m', ran, walked⟩ := ih depth (before ++ [c]) same enough held' furnished fresh apart
      refine ⟨m', ?_, walked.other kind leads⟩
      rw [List.length_append] at ran
      rw [bindUserCells_cons, bindUserCell_other kind leads, bind_ok (pure_run () m)]
      exact ran

end Interp

/-- A word that is bound to a context refers to the variable whose name is its own but for case. -/
theorem ContextView.Binds.refers {v : ContextView} {m : Machine} {c c' : Cell} (held : v.In m)
    (binds : v.Binds m.symbols c c') : ∃ symbol slot name, c'.binding = .specific v.context ∧
      c'.payload = .word symbol slot ∧ Query.findKey? v.context symbol m = .ok (some slot) ∧
      Query.keySymbol v.context slot m = .ok name ∧
      m.symbols.canon name = m.symbols.canon symbol := by
  obtain ⟨symbol, before, slot, payload, found, rfl⟩ := binds
  have key := held.findKey? symbol
  rw [found] at key
  obtain ⟨inside, here, -⟩ := Array.findIdx?_eq_some_iff_getElem.mp
    ((Symbols.findName?_eq _ _).symm.trans found)
  obtain ⟨name, named, same⟩ := (Option.any_eq_true _ _).mp here
  have cell : Query.cell v.keylist slot m = .ok v.names[slot] :=
    Query.cell_eq_ok.mpr ⟨v.names, held.names, Array.getElem?_eq_getElem inside⟩
  refine ⟨symbol, slot, name, rfl, rfl, key, ?_, beq_iff_eq.mp same⟩
  obtain ⟨typeset, isKey, isNamed⟩ := Option.bind_eq_some_iff.mp named
  have asked : Query.key v.context slot m = .ok typeset := by
    rw [Query.key, Query.bind_ok held.linked, Query.bind_ok cell, isKey]
    rfl
  rw [Query.keySymbol, Query.bind_ok asked, isNamed]
  rfl

namespace ContextView

variable {v : ContextView} {t t' : Symbols} {words words' : List Cell}

theorem Binds.exists_of_mem (binds : List.Forall₂ (v.Binds t) words words') {c : Cell}
    (member : c ∈ words') : ∃ before, v.Binds t before c := by
  induction binds with
  | nil => cases member
  | cons first _ ih =>
      rcases List.mem_cons.mp member with rfl | member
      · exact ⟨_, first⟩
      · exact ih member

theorem Binds.symbols (binds : List.Forall₂ (v.Binds t) words words') :
    words'.filterMap Cell.wordSymbol? = words.filterMap Cell.wordSymbol? := by
  induction binds with
  | nil => rfl
  | cons first _ ih => rw [List.filterMap_cons, List.filterMap_cons, first.wordSymbol?, ih]

theorem Binds.spelled (binds : List.Forall₂ (v.Binds t) words words') {names : List String}
    (spelled : Machine.Spelled t' words names) : Machine.Spelled t' words' names := by
  induction binds generalizing names with
  | nil => exact spelled
  | cons first _ ih =>
      obtain _ | ⟨⟨symbol, word, known⟩, rest⟩ := spelled
      exact .cons ⟨symbol, first.wordSymbol?.trans word, known⟩ (ih rest)

end ContextView

/-- Loading a text that can be scanned is a walk through the scanned block.  No series that was
there changes, but for the user's variables. -/
theorem Interp.load_run {source : String} {m m₁ : Machine} {block : SeriesId}
    {user lib : ContextView} (scanned : Interp.scan source m = .ok block m₁)
    (furnished : m.Furnished user lib) :
    ∃ items m' cells words ids, Node.scan source = .ok items ∧
      Interp.load source m = .ok block m' ∧ Query.cells block m₁ = .ok cells ∧
      m₁.Words cells.toList words ids ∧ Machine.Spelled m₁.symbols words (Item.names items) ∧
      Walked m₁ m₁ m' user lib block [] cells.toList words ids ∧
      ∀ id s, id ∉ user.series → m.heap.get? id = some s → m'.heap.get? id = some s := by
  obtain ⟨items, cells, words, ids, read, makes, found, known, spelled⟩ :=
    Machine.builds_scan scanned
  have grown := makes.grown
  have furnished₁ := furnished.grow grown
  have old {id : SeriesId} (member : id ∈ user.series ++ lib.series) :
      m.heap.get? id ≠ none := by
    rcases List.mem_append.mp member with member | member
    · exact furnished.userIn.live member
    · exact furnished.libIn.live member
  have apart : (user.series ++ lib.series).Disjoint (block :: ids) := fun id contexts new =>
    old contexts (makes.fresh id new)
  have room := Machine.length_le_slots makes.distinct fun id member =>
    Heap.isLive_iff.mpr (makes.live id member)
  obtain ⟨m', ran, walked⟩ := bindUserIn_walk m₁.heap.slots.size [] known (fun _ _ => rfl)
    (Nat.le_of_succ_le room) found furnished₁ makes.distinct apart
  refine ⟨items, m', cells, words, ids, read, ?_, found, known, spelled, walked, ?_⟩
  · have bound : bindUser block m₁ = .ok () m' := by
      have nesting : nestingBound m₁ = .ok (m₁.heap.slots.size + 1) m₁ := rfl
      rw [bindUser, bind_ok nesting, bindUserIn_run _ found]
      exact ran
    rw [load, bind_ok scanned, bind_ok bound]
    rfl
  · intro id s outside live
    rw [walked.touches.get? id, grown.get? id s live]
    rintro (_ | ⟨_, member⟩)
    · rw [makes.fresh _ List.mem_cons_self] at live
      cases live
    · rcases List.mem_append.mp member with member | member
      · exact outside member
      · rw [makes.fresh id (List.mem_cons_of_mem _ member)] at live
        cases live

/-- Loading a text that can be scanned gives the scanned block.  Its words, within arrays and below
quotes too, are those of the text, and each refers to the user's variable of its name.  The user has
the variables from before in their places, and behind them one for each new name, in the order of
the text and with the library's value or null.  No other series has changed. -/
theorem load_binds_words {source : String} {m m₁ : Machine} {block : SeriesId}
    {user lib : ContextView} (scanned : Interp.scan source m = .ok block m₁)
    (furnished : m.Furnished user lib) :
    ∃ items m' cells words ids, Node.scan source = .ok items ∧
      Interp.load source m = .ok block m' ∧ Query.cells block m' = .ok cells ∧
      m'.Words cells.toList words ids ∧ Machine.Spelled m'.symbols words (Item.names items) ∧
      (∀ c ∈ words, ∃ symbol slot name, c.binding = .specific m.user ∧
        c.payload = .word symbol slot ∧ Query.findKey? m.user symbol m' = .ok (some slot) ∧
        Query.keySymbol m.user slot m' = .ok name ∧
        m'.symbols.canon name = m'.symbols.canon symbol) ∧
      m'.Furnished (user.importing lib m'.symbols (words.filterMap Cell.wordSymbol?)) lib ∧
      ∀ id s, id ∉ user.series → m.heap.get? id = some s → m'.heap.get? id = some s := by
  obtain ⟨items, m', cells, words, ids, read, loaded, found, known, spelled, walked, kept⟩ :=
    Interp.load_run scanned furnished
  obtain ⟨cells', after, rebinds⟩ := walked.bound
  obtain ⟨words', known', binds⟩ := rebinds.bound known
  have symbols := walked.touches.symbols
  have furnished' := walked.furnished
  rw [← symbols] at furnished' binds
  refine ⟨items, m', cells'.toArray, words', ids, read, loaded, after, known', ?_, ?_, ?_, kept⟩
  · rw [symbols]
    exact ContextView.Binds.spelled binds spelled
  · intro c member
    obtain ⟨before, bound⟩ := ContextView.Binds.exists_of_mem binds member
    have refers := bound.refers furnished'.userIn
    rw [← furnished.userContext]
    exact refers
  · rw [ContextView.Binds.symbols binds]
    exact furnished'

/-- A machine whose user has `b` and whose library has `A` and `b`. -/
def sampleHome : Machine :=
  { config := {}
    heap :=
      { slots := #[
          some { Series.ofCells #[Cell.end_, Cell.integer 1] with link := .keylist ⟨1⟩ },
          some (Series.ofCells #[Cell.blank,
            Cell.typeset (Typeset.param ⟨1⟩ .normal KindSet.anyValue)]),
          some { Series.ofCells #[Cell.end_, Cell.integer 2, Cell.integer 3] with
            link := .keylist ⟨3⟩ },
          some (Series.ofCells #[Cell.blank,
            Cell.typeset (Typeset.param ⟨0⟩ .normal KindSet.anyValue),
            Cell.typeset (Typeset.param ⟨1⟩ .normal KindSet.anyValue)])]
        ballast := 100 }
    symbols := { entries := #[⟨"A", "a", ⟨0⟩, ⟨0⟩⟩, ⟨"b", "b", ⟨1⟩, ⟨1⟩⟩] }
    user := ⟨0⟩
    lib := ⟨2⟩
    countdown := 1 }

/-- The contexts of `sampleHome`. -/
theorem furnished_sampleHome : sampleHome.Furnished
    ⟨⟨0⟩, ⟨1⟩, #[Cell.blank, Cell.typeset (Typeset.param ⟨1⟩ .normal KindSet.anyValue)],
      #[Cell.end_, Cell.integer 1]⟩
    ⟨⟨2⟩, ⟨3⟩, #[Cell.blank, Cell.typeset (Typeset.param ⟨0⟩ .normal KindSet.anyValue),
      Cell.typeset (Typeset.param ⟨1⟩ .normal KindSet.anyValue)],
      #[Cell.end_, Cell.integer 2, Cell.integer 3]⟩ :=
  ⟨rfl, rfl, ⟨rfl, rfl, rfl, rfl⟩, ⟨rfl, rfl, rfl, rfl⟩, by decide, by
    simp [ContextView.series]⟩

/-- The tree of a block with the words `b`, `a` below four quotes, and `c`. -/
def sampleWords : Node :=
  .array .block .plain
    [.mk (.scalar (.word "b" .plain)) false, .mk (.quoted 4 (.scalar (.word "a" .plain))) false,
      .mk (.scalar (.word "c" .plain)) false]

theorem structural_sampleWords : sampleWords.Structural := by
  refine .array .block .plain fun item member => ?_
  simp only [List.mem_cons, List.not_mem_nil, or_false] at member
  rcases member with rfl | rfl | rfl
  · exact .scalar (.word .plain ⟨⟨_, rfl, rfl⟩, by decide⟩)
  · exact .quoted (by decide) (by decide) (fun _ _ same => nomatch same)
      (Machine.structural_word .plain)
  · exact .scalar (.word .plain ⟨⟨_, rfl, rfl⟩, by decide⟩)

theorem load_binds_words_sampleHome : ∃ block m₁ m' words,
    Interp.scan (String.ofList (sampleWords.text 0)) sampleHome = .ok block m₁ ∧
      (∃ user lib, sampleHome.Furnished user lib) ∧
      Interp.load (String.ofList (sampleWords.text 0)) sampleHome = .ok block m' ∧
      Machine.Spelled m'.symbols words ["b", "a", "c"] ∧
      ∀ c ∈ words, c.binding = .specific sampleHome.user := by
  have read : Node.scan (String.ofList (sampleWords.text 0)) = .ok [.mk sampleWords false] := by
    refine Token.scan_itemsText (fun item member => ?_) ?_
    · cases List.mem_singleton.mp member
      exact structural_sampleWords
    · simp [Node.itemsText]
  obtain ⟨block, _, m₁, _, scanned, -⟩ := Machine.scan_text structural_sampleWords sampleHome
  obtain ⟨items, m', _, words, _, same, loaded, -, -, spelled, bound, -⟩ :=
    load_binds_words scanned furnished_sampleHome
  obtain rfl := Except.ok.inj (same.symm.trans read)
  refine ⟨block, m₁, m', words, scanned, ⟨_, _, furnished_sampleHome⟩, loaded, spelled, ?_⟩
  intro c member
  obtain ⟨_, _, _, refers, -⟩ := bound c member
  exact refers

end Homoicon
