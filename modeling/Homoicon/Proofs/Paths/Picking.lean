import Homoicon.Proofs.Contexts.Extending
import Homoicon.Proofs.Paths.Agreeing

/-!
# What pickers pick

A literal picker in a path is a number or a name.  From an unquoted value it picks an element, the
item behind a word, a variable, or a part of a pair, tuple or date.  What it picks depends on the
places that it looks at, and on no other ones.
-/

namespace Homoicon

/-! ## Pickers -/

/-- A picker as it stands in a path. -/
inductive Picker where
  | number (n : Int)
  | name (symbol : SymbolId)

/-- A cell of a path is a literal picker. -/
inductive Cell.IsPicker (c : Cell) : Picker → Prop where
  | number {n : Int} : c.kind = .integer → c.quote = 0 → c.payload = .integer n →
      c.binding = .unbound → c.IsPicker (.number n)
  | name {symbol : SymbolId} {index : Nat} : c.kind = .word → c.quote = 0 →
      c.payload = .word symbol index → c.IsPicker (.name symbol)

namespace Cell.IsPicker

variable {c : Cell} {k : Picker}

theorem plain (is : c.IsPicker k) : c.quote = 0 := by
  cases is <;> assumption

theorem asInteger? {n : Int} (is : c.IsPicker (.number n)) : c.asInteger? = some n := by
  cases is with
  | number kind plain payload =>
      rw [Cell.asInteger?, payload, plain]
      rfl

theorem asInteger?_name {symbol : SymbolId} (is : c.IsPicker (.name symbol)) :
    c.asInteger? = none := by
  cases is with
  | name kind plain payload => rw [Cell.asInteger?, payload]

theorem wordSymbol? {symbol : SymbolId} (is : c.IsPicker (.name symbol)) :
    c.wordSymbol? = some symbol := by
  cases is with
  | name kind plain payload => rw [Cell.wordSymbol?, payload]

theorem wordSymbol?_number {n : Int} (is : c.IsPicker (.number n)) : c.wordSymbol? = none := by
  cases is with
  | number kind plain payload => rw [Cell.wordSymbol?, payload]

/-- A picker stays what it is where its word is tied to a call. -/
theorem resolved (is : c.IsPicker k) (specifier : Specifier) :
    (c.resolved specifier).IsPicker k := by
  have same : (c.resolved specifier).kind = c.kind ∧ (c.resolved specifier).quote = c.quote ∧
      (c.resolved specifier).payload = c.payload := by
    unfold Cell.resolved
    split <;> exact ⟨rfl, rfl, rfl⟩
  obtain ⟨kind, quote, payload⟩ := same
  cases is with
  | number kind' plain payload' unbound =>
      refine .number (kind.trans kind') (quote.trans plain) (payload.trans payload') ?_
      unfold Cell.resolved
      rw [unbound]
      exact unbound
  | name kind' plain payload' =>
      exact .name (kind.trans kind') (quote.trans plain) (payload.trans payload')

end Cell.IsPicker

/-- The part that a picker denotes by its name or its number. -/
def Symbols.part? (t : Symbols) (names : List String) : Picker → Option Nat
  | .number n => if 1 ≤ n && n ≤ names.length then some (n.toNat - 1) else none
  | .name symbol =>
    let i := names.findIdx (· == t.lower symbol)
    if i < names.length then some i else none

theorem Query.componentIndex?_run {c : Cell} {k : Picker} (is : c.IsPicker k)
    (names : List String) (m : Machine) :
    Query.componentIndex? c names m = .ok (m.symbols.part? names k) := by
  unfold Query.componentIndex?
  cases k with
  | number n =>
      rw [is.asInteger?]
      rfl
  | name symbol =>
      rw [is.asInteger?_name, is.wordSymbol?]
      rfl

theorem Symbols.part?_lt {t : Symbols} {names : List String} {k : Picker} {i : Nat}
    (found : t.part? names k = some i) : i < names.length := by
  cases k with
  | number n =>
      simp only [part?, Option.ite_none_right_eq_some, Bool.and_eq_true, decide_eq_true_eq,
        Option.some.injEq] at found
      omega
  | name symbol =>
      simp only [part?, Option.ite_none_right_eq_some, Option.some.injEq] at found
      omega

/-! ## The item behind a word -/

/-- A cell is an unquoted word of a name, whatever its case. -/
def Cell.named (t : Symbols) (symbol : SymbolId) (c : Cell) : Bool :=
  c.quote == 0 && c.kind.isAnyWord && c.wordSymbol?.map t.canon == some (t.canon symbol)

/-- A place is the one behind the first word of a name from a position on. -/
structure Symbols.Selects (t : Symbols) (cells : Array Cell) (start : Nat) (symbol : SymbolId)
    (slot : Nat) : Prop where
  inside : slot < cells.size
  behind : start < slot
  here : ∃ c, cells[slot - 1]? = some c ∧ c.named t symbol = true
  first : ∀ i c, start ≤ i → i < slot - 1 → cells[i]? = some c → c.named t symbol = false

theorem Query.selectSlot?_eq_some {c : Cell} {symbol : SymbolId} {m : Machine} {id : SeriesId}
    {cells : Array Cell} {start slot : Nat} (word : c.wordSymbol? = some symbol)
    (found : Query.cells id m = .ok cells) :
    Query.selectSlot? id start c m = .ok (some slot) ↔
      m.symbols.Selects cells start symbol slot := by
  have asked : Query.selectSlot? id start c m =
      .ok (if start + (cells.toList.drop start).findIdx (·.named m.symbols symbol) + 1 < cells.size
        then some (start + (cells.toList.drop start).findIdx (·.named m.symbols symbol) + 1)
        else none) := by
    unfold Query.selectSlot?
    rw [Query.bind_ok (Query.read_run m), Query.bind_ok found, word]
    rfl
  have dropped (i : Nat) : (cells.toList.drop start)[i]? = cells[start + i]? := by simp
  rw [asked]
  generalize index : (cells.toList.drop start).findIdx (·.named m.symbols symbol) = found
  constructor
  · intro same
    simp only [Except.ok.injEq, Option.ite_none_right_eq_some, Option.some.injEq] at same
    obtain ⟨inside, rfl⟩ := same
    have within : found < (cells.toList.drop start).length := by simp; omega
    refine ⟨inside, by omega, ⟨(cells.toList.drop start)[found], ?_, ?_⟩, ?_⟩
    · rw [Nat.add_sub_cancel, ← dropped, List.getElem?_eq_getElem within]
    · subst index
      exact List.findIdx_getElem
    · intro i c low high here
      have before : i - start < found := by omega
      rw [← Nat.add_sub_of_le low, ← dropped] at here
      subst index
      obtain ⟨short, rfl⟩ := List.getElem?_eq_some_iff.mp here
      exact List.not_of_lt_findIdx before
  · rintro ⟨inside, behind, ⟨c, here, named⟩, first⟩
    have within : slot - 1 - start < (cells.toList.drop start).length := by simp; omega
    have at_ : found = slot - 1 - start := by
      rw [← index]
      refine (List.findIdx_eq within).mpr ⟨?_, fun j less => ?_⟩
      · have same := dropped (slot - 1 - start)
        rw [List.getElem?_eq_getElem within, show start + (slot - 1 - start) = slot - 1 by omega,
          here] at same
        rw [Option.some.inj same]
        exact named
      · have short : j < (cells.toList.drop start).length := by omega
        refine first (start + j) _ (by omega) (by omega) ?_
        rw [← dropped, List.getElem?_eq_getElem short]
    rw [at_, if_pos (by omega), show start + (slot - 1 - start) + 1 = slot by omega]

/-- The places up to the one that is selected tell which one it is. -/
theorem Symbols.Selects.congr {t : Symbols} {cells cells' : Array Cell} {start slot : Nat}
    {symbol : SymbolId} (selects : t.Selects cells start symbol slot)
    (size : cells'.size = cells.size)
    (same : ∀ i, start ≤ i → i < slot → cells'[i]? = cells[i]?) :
    t.Selects cells' start symbol slot := by
  obtain ⟨inside, behind, ⟨c, here, named⟩, first⟩ := selects
  refine ⟨by omega, behind, ⟨c, ?_, named⟩, fun i c low high here => ?_⟩
  · rw [same _ (by omega) (by omega), here]
  · rw [same i low (by omega)] at here
    exact first i c low high here

/-! ## Picking -/

/-- The names of the parts of a pair. -/
def pairParts : List String := ["x", "y"]

/-- The names of the parts of a date. -/
def dateParts : List String := ["year", "month", "day", "time"]

/-- A part of a date. -/
def Date.part? (d : Date) : Nat → Option Cell
  | 0 => some (Cell.integer d.year)
  | 1 => some (Cell.integer d.month)
  | 2 => some (Cell.integer d.day)
  | 3 => d.time.map Cell.time
  | _ => none

/-- A value is a context that has a variable of a name.  The names are not among its own
variables. -/
structure Machine.FieldAt (m : Machine) (c : Cell) (symbol : SymbolId)
    (context keylist : SeriesId) (index : Nat) : Prop where
  kind : c.kind.isAnyContext = true
  plain : c.quote = 0
  own : c.varlist? = some context
  accessible : Query.hasFlag context Flags.inaccessible m = .ok false
  apart : keylist ≠ context
  linked : Query.keylist context m = .ok keylist
  named : ∃ names, Query.cells keylist m = .ok names ∧
    m.symbols.findName? names (m.symbols.canon symbol) = some index

/-- A picker picks a value from an unquoted one, which lives at a place, by looking at some
places. -/
inductive Machine.Picks (m : Machine) (c : Cell) : Picker → Cell → Place → Footprint → Prop where
  | element {id : SeriesId} {start : Nat} {s : Series} {n : Int} {x : Cell} :
      m.SeriesAt c id start s → Path.Counted start n → s.content.nth? start n = some x →
      m.Ties x (Query.deriveSpecifier c none) →
      Picks m c (.number n) (x.resolved (Query.deriveSpecifier c none))
        (Path.elementPlace id (start + n - 1).toNat s.content)
        fun j t => j = id ∧ t = (start + n - 1).toNat
  | behind {id : SeriesId} {start slot : Nat} {s : Series} {cells : Array Cell}
      {symbol : SymbolId} {x : Cell} :
      m.SeriesAt c id start s → s.content = .array cells →
      m.symbols.Selects cells start symbol slot → cells[slot]? = some x →
      m.Ties x (Query.deriveSpecifier c none) →
      Picks m c (.name symbol) (x.resolved (Query.deriveSpecifier c none)) (.slot id slot)
        fun j t => j = id ∧ start ≤ t ∧ t ≤ slot
  | field {context keylist : SeriesId} {symbol : SymbolId} {index : Nat} {x : Cell} :
      m.FieldAt c symbol context keylist index → Query.cell context index m = .ok x →
      Picks m c (.name symbol) x (.variable_ ⟨context, index⟩)
        fun j t => j = context ∧ t = index ∨ j = keylist
  | pair {id : SeriesId} {k : Picker} {i : Nat} {x : Cell} :
      c.kind = .pair → c.quote = 0 → c.payload = .pair id →
      m.symbols.part? pairParts k = some i → Query.cell id i m = .ok x →
      Picks m c k x .nowhere fun j _ => j = id
  | tuple {bytes : List UInt8} {n : Int} {b : UInt8} :
      c.kind = .tuple → c.quote = 0 → c.payload = .tuple bytes → 1 ≤ n →
      bytes[n.toNat - 1]? = some b →
      Picks m c (.number n) (Cell.integer b.toNat) .nowhere fun _ _ => False
  | date {d : Date} {k : Picker} {i : Nat} {x : Cell} :
      c.kind = .date → c.quote = 0 → c.payload = .date d →
      m.symbols.part? dateParts k = some i → d.part? i = some x →
      Picks m c k x .nowhere fun _ _ => False

namespace Path

variable {m : Machine} {c k v : Cell}

theorem unquotify_plain (kind : c.kind ≠ .quoted) (plain : c.quote = 0) :
    Query.unquotify c c.quoteDepth m = .ok c := by
  have depth : c.quoteDepth = 0 := by
    unfold Cell.quoteDepth
    split
    · rw [if_neg kind, plain]
    · exact plain
  rw [depth]
  rfl

theorem step_context (context : c.kind.isAnyContext = true) (plain : c.quote = 0)
    (setval : Option Cell) : step c k setval m = contextStep c k setval m := by
  have bare : Query.unquotify c c.quoteDepth m = .ok c := by
    refine unquotify_plain ?_ plain
    intro quoted
    rw [quoted] at context
    cases context
  unfold step
  rw [Interp.lift_bind_ok bare]
  revert context
  cases c.kind <;> first | exact fun other => absurd other (by decide) | exact fun _ => rfl

theorem step_pair (kind : c.kind = .pair) (plain : c.quote = 0) (setval : Option Cell) :
    step c k setval m = pairStep c k setval m := by
  have bare : Query.unquotify c c.quoteDepth m = .ok c :=
    unquotify_plain (by rw [kind]; decide) plain
  unfold step
  rw [Interp.lift_bind_ok bare, kind]
  rfl

theorem step_tuple (kind : c.kind = .tuple) (plain : c.quote = 0) (setval : Option Cell) :
    step c k setval m = tupleStep c k setval m := by
  have bare : Query.unquotify c c.quoteDepth m = .ok c :=
    unquotify_plain (by rw [kind]; decide) plain
  unfold step
  rw [Interp.lift_bind_ok bare, kind]
  rfl

theorem step_date (kind : c.kind = .date) (plain : c.quote = 0) (setval : Option Cell) :
    step c k setval m = dateStep c k setval m := by
  have bare : Query.unquotify c c.quoteDepth m = .ok c :=
    unquotify_plain (by rw [kind]; decide) plain
  unfold step
  rw [Interp.lift_bind_ok bare, kind]
  rfl

/-- A named slot of an array is picked by name. -/
theorem arrayStep_named {id : SeriesId} {start slot : Nat} {s : Series} {cells : Array Cell}
    {symbol : SymbolId} {x : Cell} (at_ : m.SeriesAt c id start s)
    (content : s.content = .array cells) (selects : m.symbols.Selects cells start symbol slot)
    (here : cells[slot]? = some x) (is : k.IsPicker (.name symbol)) :
    arrayStep c k none m = (do
      let v ← Interp.derelativize x (Query.deriveSpecifier c none)
      pure (PathStep.picked v (.slot id slot))) m := by
  have listed : Query.cells id m = .ok cells := Query.cells_eq_ok.mpr ⟨s, at_.live, content⟩
  have found : Query.selectSlot? id start k m = .ok (some slot) :=
    (Query.selectSlot?_eq_some is.wordSymbol? listed).mpr selects
  have cell : Query.cell id slot m = .ok x := Query.cell_eq_ok.mpr ⟨cells, listed, here⟩
  have word : (k.kind.isAnyWord && k.quote == 0) = true := by
    cases is with
    | name kind plain payload =>
        rw [kind, plain]
        rfl
  unfold arrayStep
  rw [Interp.lift_bind_ok at_.arrayOf, Interp.lift_bind_ok (Query.size_run at_.live),
    is.asInteger?_name]
  dsimp only
  rw [word, if_pos rfl, at_.index, Interp.lift_bind_ok found]
  dsimp only
  rw [Interp.lift_bind_ok cell]

theorem checkAccessible_run {context : SeriesId}
    (accessible : Query.hasFlag context Flags.inaccessible m = .ok false) :
    Query.checkAccessible context m = .ok () := by
  obtain ⟨s, live, -⟩ := Query.hasFlag_eq_ok.mp accessible
  unfold Query.checkAccessible
  rw [Query.bind_ok (Query.isLive_run live)]
  exact Query.bind_ok accessible _

theorem findKey?_run {context keylist : SeriesId} {symbol : SymbolId} {index : Nat}
    (field : m.FieldAt c symbol context keylist index) :
    Query.findKey? context symbol m = .ok (some index) := by
  obtain ⟨names, listed, found⟩ := field.named
  rw [Query.findKey?, Query.bind_ok field.linked, Query.bind_ok listed, ← found]
  rfl

/-- A step picks what its picker picks. -/
theorem pick_run {p : Picker} {x : Cell} {place : Place} {looks : Footprint}
    (picks : m.Picks c p x place looks) (is : k.IsPicker p) :
    ∃ m', pick c k m = .ok (x, place) m' ∧ m.Adopts m' := by
  suffices stepped : ∃ m', step c k none m = .ok (.picked x place) m' ∧ m.Adopts m' by
    obtain ⟨m', stepped, adopts⟩ := stepped
    refine ⟨m', ?_, adopts⟩
    rw [pick, Interp.bind_ok stepped]
    rfl
  cases picks with
  | element at_ counted found ties =>
      obtain ⟨m', stepped, adopts⟩ := step_pick at_ is.asInteger? counted fun y same =>
        Option.some.inj (found.symm.trans same) ▸ ties
      rw [picked, at_.index, found] at stepped
      exact ⟨m', stepped, adopts⟩
  | behind at_ content selects here ties =>
      obtain ⟨m', tied, adopts⟩ := Interp.derelativize_adopts ties
      refine ⟨m', ?_, adopts⟩
      rw [step_series at_, content]
      dsimp only
      rw [arrayStep_named at_ content selects here is]
      exact Interp.bind_ok tied _
  | field field here =>
      refine ⟨m, ?_, .refl m⟩
      have word : k.kind.isAnyWord = true := by
        cases is with
        | name kind => rw [kind]; rfl
      rw [step_context field.kind field.plain, contextStep, field.own]
      dsimp only
      rw [Interp.lift_bind_ok (checkAccessible_run field.accessible), is.wordSymbol?]
      dsimp only
      rw [word, Bool.not_true, if_neg Bool.false_ne_true,
        Interp.lift_bind_ok (findKey?_run field)]
      exact Interp.lift_bind_ok here _
  | pair kind plain payload part here =>
      refine ⟨m, ?_, .refl m⟩
      rw [step_pair kind plain, pairStep, payload]
      dsimp only
      have asked := (Query.componentIndex?_run is pairParts m).trans (congrArg Except.ok part)
      exact (Interp.lift_bind_ok asked _).trans (Interp.lift_bind_ok here _)
  | tuple kind plain payload positive here =>
      refine ⟨m, ?_, .refl m⟩
      rw [step_tuple kind plain, tupleStep, payload, is.asInteger?]
      dsimp only
      rw [if_pos positive, here]
      rfl
  | date kind plain payload part here =>
      rename_i d i
      refine ⟨m, ?_, .refl m⟩
      have inside := Symbols.part?_lt part
      rw [step_date kind plain, dateStep, payload]
      dsimp only
      have asked := (Query.componentIndex?_run is dateParts m).trans (congrArg Except.ok part)
      refine (Interp.lift_bind_ok asked _).trans ?_
      obtain rfl | rfl | rfl | rfl : i = 0 ∨ i = 1 ∨ i = 2 ∨ i = 3 := by
        change i < 4 at inside
        omega
      · cases here
        rfl
      · cases here
        rfl
      · cases here
        rfl
      · obtain ⟨t, time, rfl⟩ := Option.map_eq_some_iff.mp here
        rw [time]
        rfl

end Path

/-! ## What a step does not look at -/

namespace Machine.Agrees

variable {m m' : Machine} {off : Footprint} {c x : Cell} {k : Picker} {place : Place}
  {looks : Footprint}

theorem seriesAt (agrees : m.Agrees m' off) {j : SeriesId} {start : Nat} {s : Series}
    (at_ : m.SeriesAt c j start s) : ∃ s', m'.SeriesAt c j start s' ∧ s.Like (off j) s' := by
  obtain ⟨s', found, like⟩ := agrees.series j s at_.live
  exact ⟨s', ⟨at_.plain, at_.payload, found, like.content.fits at_.kind⟩, like⟩

theorem keylist (agrees : m.Agrees m' off) {context keylist : SeriesId}
    (linked : Query.keylist context m = .ok keylist) :
    Query.keylist context m' = .ok keylist := by
  obtain ⟨s, live, link⟩ := Law.keylist_eq_ok.mp linked
  obtain ⟨s', live', like⟩ := agrees.series context s live
  exact Law.keylist_eq_ok.mpr ⟨s', live', like.link.trans link⟩

theorem fieldAt (agrees : m.Agrees m' off) {context keylist : SeriesId} {symbol : SymbolId}
    {index : Nat} (field : m.FieldAt c symbol context keylist index)
    (free : ∀ t, ¬ off keylist t) : m'.FieldAt c symbol context keylist index where
  kind := field.kind
  plain := field.plain
  own := field.own
  accessible := agrees.hasFlag (by decide) field.accessible
  apart := field.apart
  linked := agrees.keylist field.linked
  named := by
    obtain ⟨names, listed, found⟩ := field.named
    exact ⟨names, agrees.cells_eq free listed, by rwa [agrees.symbols]⟩

/-- The same name selects the same slot if nothing up to it has changed. -/
theorem selects (agrees : m.Agrees m' off) {j : SeriesId} {s s' : Series} {cells : Array Cell}
    {start slot : Nat} {symbol : SymbolId} (like : s.Like (off j) s')
    (content : s.content = .array cells) (selects : m.symbols.Selects cells start symbol slot)
    (free : ∀ t, start ≤ t → t < slot → ¬ off j t) :
    ∃ cells', s'.content = .array cells' ∧ m'.symbols.Selects cells' start symbol slot ∧
      ∀ t, ¬ off j t → cells'[t]? = cells[t]? := by
  have alike := like.content
  rw [content] at alike
  generalize s'.content = content' at alike
  cases alike with
  | array size same =>
      refine ⟨_, rfl, ?_, same⟩
      rw [agrees.symbols]
      exact selects.congr size fun t low high => same t (free t low high)

/-- A picker picks the same value again if no place that it looks at has changed. -/
theorem picks (agrees : m.Agrees m' off) (picks : m.Picks c k x place looks)
    (free : ∀ j t, looks j t → ¬ off j t) : m'.Picks c k x place looks := by
  cases picks with
  | element at_ counted found ties =>
      obtain ⟨s', at_', like⟩ := agrees.seriesAt at_
      rename_i j start s n x
      obtain ⟨positive, here, -⟩ := Path.nth?_eq_some found
      have found' : s'.content.nth? start n = some x := by
        rw [Content.nth?, if_pos positive, like.content.element? (free _ _ ⟨rfl, rfl⟩), here]
      have place : Path.elementPlace j (start + n - 1).toNat s'.content =
          Path.elementPlace j (start + n - 1).toNat s.content := by
        have alike := like.content
        generalize s.content = content, s'.content = content' at alike
        cases alike <;> rfl
      rw [← place]
      exact .element at_' counted found' (agrees.ties ties)
  | behind at_ content selects here ties =>
      obtain ⟨s', at_', like⟩ := agrees.seriesAt at_
      have behind := selects.behind
      obtain ⟨cells', content', selects', same⟩ := agrees.selects like content selects
        fun t low high => free _ t ⟨rfl, low, Nat.le_of_lt high⟩
      refine .behind at_' content' selects' ?_ (agrees.ties ties)
      rw [same _ (free _ _ ⟨rfl, Nat.le_of_lt behind, Nat.le_refl _⟩)]
      exact here
  | field field here =>
      exact .field (agrees.fieldAt field fun t => free _ t (.inr rfl))
        (agrees.cell here (free _ _ (.inl ⟨rfl, rfl⟩)))
  | pair kind plain payload part here =>
      exact .pair kind plain payload (by rwa [agrees.symbols]) (agrees.cell here (free _ _ rfl))
  | tuple kind plain payload positive here => exact .tuple kind plain payload positive here
  | date kind plain payload part here =>
      exact .date kind plain payload (by rwa [agrees.symbols]) here

end Machine.Agrees

end Homoicon
