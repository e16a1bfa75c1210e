import Homoicon.Proofs.Arguments.Site
import Homoicon.Proofs.Booting.Specs
import Homoicon.Proofs.Contexts.Importing
import Homoicon.Proofs.Exchange.Import

/-!
# Actions of the library

Each definition of the library scans a spec, makes an action of what it says and adds a variable to
the context of the library.  It needs nothing but a machine in order, leaves one in order, and
changes no series that was there but those of the library.
-/

namespace Homoicon

/-! ## Machines in order -/

/-- What a series may be only while it is collected or after its call. -/
def Flags.passing : Flags := Flags.marked ||| Flags.inaccessible

/-- No series is marked or closed, and the symbols are a table of names. -/
structure Machine.Tidy (m : Machine) : Prop where
  clear : ∀ id s, m.heap.get? id = some s → s.has Flags.passing = false
  registered : ∃ names, m.symbols.Registers names

/-- A machine has gone on: some series may have changed, others were made and names entered. -/
structure Machine.Alters (changed : List SeriesId) (m m' : Machine) : Prop where
  rest : m' = { m with heap := m'.heap, symbols := m'.symbols }
  keeps : m.Keeps changed m'
  tidy : m.Tidy → m'.Tidy

theorem Series.ofCells_lacks (cells : Array Cell) {flags : Flags}
    (apart : Flags.singular &&& flags = 0) : (ofCells cells).has flags = false := by
  simp only [ofCells, has]
  split
  · simp [apart]
  · simp

namespace Machine.Alters

variable {m m' m'' : Machine} {changed changed' : List SeriesId}

theorem refl (m : Machine) : Alters changed m m := ⟨rfl, .refl m, id⟩

theorem trans (first : Alters changed m m') (second : Alters changed m' m'') :
    Alters changed m m'' where
  rest := by rw [second.rest, first.rest]
  keeps := first.keeps.trans second.keeps
  tidy here := second.tidy (first.tidy here)

theorem widen (alters : Alters [] m m') : Alters changed m m' :=
  ⟨alters.rest, alters.keeps.widen, alters.tidy⟩

theorem narrow (alters : Alters changed m m') (fresh : ∀ id ∈ changed, m.heap.get? id = none) :
    Alters [] m m' :=
  ⟨alters.rest, alters.keeps.narrow fresh, alters.tidy⟩

theorem alloc (m : Machine) {s : Series} (plain : s.has Flags.passing = false) :
    Alters [] m { m with heap := (m.heap.alloc s).2 } where
  rest := rfl
  keeps := .alloc m s
  tidy tidy :=
    { tidy with
      clear := fun id t found => by
        change (m.heap.alloc s).2.get? id = some t at found
        rw [Heap.get?_alloc] at found
        split at found
        · cases found
          exact plain
        · exact tidy.clear id t found }

theorem intern (m : Machine) (text : String) :
    Alters [] m { m with symbols := (m.symbols.intern text).2 } :=
  ⟨rfl, .intern m text, fun tidy => ⟨tidy.clear,
    tidy.registered.elim fun _ registers => (registers.intern text).imp' _ fun _ => id⟩⟩

theorem modify (m : Machine) (id : SeriesId) {f : Series → Series}
    (kept : ∀ s, (f s).has Flags.passing = s.has Flags.passing) :
    Alters [id] m (m.onHeap (·.modify id f)) where
  rest := rfl
  keeps := {
    get? := fun other s apart found => by
      refine (Heap.get?_modify m.heap id other f).trans ?_
      rw [if_neg (Ne.symm (by simpa using apart)), found]
    live := fun other dead => by
      change (m.heap.modify id f).get? other = none at dead
      rw [Heap.get?_modify] at dead
      split at dead
      · simpa using dead
      · exact dead
    symbols := .refl _ }
  tidy tidy :=
    { tidy with
      clear := fun other t found => by
        change (m.heap.modify id f).get? other = some t at found
        rw [Heap.get?_modify] at found
        split at found
        · obtain ⟨before, held, rfl⟩ := Option.map_eq_some_iff.mp found
          exact (kept before).trans (tidy.clear other before held)
        · exact tidy.clear other t found }

theorem registers (alters : Alters changed m m') (tidy : m.Tidy) :
    ∃ names, m'.symbols.Registers names := (alters.tidy tidy).registered

end Machine.Alters

/-- What changes but some series, and not their flags. -/
theorem Machine.Touches.alters {m m' : Machine} {changed : List SeriesId}
    (touches : m.Touches changed m') : m.Alters changed m' where
  rest := by
    rw [touches.rest]
  keeps :=
    { get? := fun id s apart found => (touches.get? id apart).trans found
      live := fun id dead => by
        have same := touches.flags id
        rwa [dead, Option.map_none, eq_comm, Option.map_eq_none_iff] at same
      symbols := by
        rw [touches.symbols]
        exact .refl _ }
  tidy tidy :=
    { clear := fun id s found => by
        have same := touches.flags id
        rw [found, Option.map_some, eq_comm, Option.map_eq_some_iff] at same
        obtain ⟨before, live, flags⟩ := same
        rw [Series.has, ← flags]
        exact tidy.clear id before live
      registered := by
        rw [touches.symbols]
        exact tidy.registered }

/-! ## Specs are put on the heap -/

section

variable {m m' : Machine} {c : Cell} {name : String} {symbol : SymbolId}

theorem Symbols.Calls.grow {t t' : Symbols} (calls : t.Calls symbol name) (grows : t.Grows t') :
    t'.Calls symbol name :=
  ⟨Nat.lt_of_lt_of_le calls.inside grows.size, (grows.spelling _ calls.inside).trans calls.spelled⟩

theorem Symbols.calls_intern (t : Symbols) (name : String) :
    (t.intern name).2.Calls (t.intern name).1 name :=
  ⟨t.index_intern name, (t.spelling_intern name).1⟩

namespace Machine

theorem Keeps.cells (kept : m.Keeps [] m') {id : SeriesId} {held : Array Cell}
    (found : Query.cells id m = .ok held) : Query.cells id m' = .ok held := by
  obtain ⟨s, live, content⟩ := Query.cells_eq_ok.mp found
  exact Query.cells_eq_ok.mpr ⟨s, kept.get? id s List.not_mem_nil live, content⟩

theorem HoldsWord.keep {kind : Kind} {quote : Nat} (kept : m.Keeps [] m')
    (holds : m.HoldsWord c kind quote name symbol) : m'.HoldsWord c kind quote name symbol :=
  ⟨holds.1, holds.2.1, holds.2.2.1, holds.2.2.2.grow kept.symbols⟩

theorem HoldsTag.keep (kept : m.Keeps [] m') (holds : m.HoldsTag c name) : m'.HoldsTag c name := by
  obtain ⟨quote, kind, id, payload, text⟩ := holds
  obtain ⟨s, live, content⟩ := Query.text_eq_ok.mp text
  exact ⟨quote, kind, id, payload,
    Query.text_eq_ok.mpr ⟨s, kept.get? id s List.not_mem_nil live, content⟩⟩

theorem HoldsType.keep {item : TypeItem} (kept : m.Keeps [] m') (holds : m.HoldsType c item) :
    m'.HoldsType c item := by
  cases item with
  | tag name => exact HoldsTag.keep kept holds
  | kinds name => exact holds.imp fun _ => HoldsWord.keep kept

theorem HoldsParam.keep {style : ParamStyle} (kept : m.Keeps [] m')
    (holds : m.HoldsParam c name symbol style) : m'.HoldsParam c name symbol style := by
  cases style with
  | plain | quoted | get | set => exact HoldsWord.keep kept holds
  | refinement =>
      obtain ⟨quote, kind, id, head, part, payload, cells, blank, named⟩ := holds
      exact ⟨quote, kind, id, head, part, payload, kept.cells cells, blank, named.keep kept⟩

theorem HoldsSpec.keep {item : SpecItem} (kept : m.Keeps [] m') (holds : m.HoldsSpec c item) :
    m'.HoldsSpec c item := by
  cases item with
  | tag name => exact HoldsTag.keep kept holds
  | param style name => exact holds.imp fun _ => HoldsParam.keep kept
  | types items =>
      obtain ⟨quote, kind, id, held, payload, cells, each⟩ := holds
      exact ⟨quote, kind, id, held, payload, kept.cells cells,
        each.imp fun _ _ => HoldsType.keep kept⟩

/-- Whether a cell begins a line does not matter. -/
theorem HoldsSpec.newline {item : SpecItem} (holds : m.HoldsSpec c item) (newline : Bool) :
    m.HoldsSpec { c with newline } item := by
  cases item with
  | tag name | types items => exact holds
  | param style name => cases style <;> exact holds

theorem HoldsType.newline {item : TypeItem} (holds : m.HoldsType c item) (newline : Bool) :
    m.HoldsType { c with newline } item := by
  cases item <;> exact holds

end Machine

namespace Interp

open Machine

theorem wordCell_run (kind : Kind) (name : String) (m : Machine) :
    ∃ c m' symbol, wordCell kind name m = .ok c m' ∧ m.Alters [] m' ∧
      m'.HoldsWord c kind 0 name symbol :=
  ⟨_, _, _, rfl, .intern m name, rfl, rfl, ⟨0, rfl⟩, m.symbols.calls_intern name⟩

theorem allocArray_run (cells : List Cell) (m : Machine) :
    ∃ id m', allocArray cells m = .ok id m' ∧ m.Alters [] m' ∧
      Query.cells id m' = .ok cells.toArray ∧ m.heap.get? id = none := by
  have plain : (Series.ofCells cells.toArray).managed.has Flags.passing = false :=
    (Series.has_withFlags_of_apart _ (by decide)).trans (Series.ofCells_lacks _ (by decide))
  exact ⟨_, _, rfl, .alloc m plain, Query.cells_eq_ok.mpr ⟨_, m.get?_alloc_self _, rfl⟩,
    m.heap.alloc_fresh _⟩

theorem tagCell_run (name : String) (m : Machine) :
    ∃ c m', textCell .tag name m = .ok c m' ∧ m.Alters [] m' ∧ m'.HoldsTag c name := by
  have plain : (Series.ofText name).managed.has Flags.passing = false :=
    (Series.has_withFlags_of_apart _ (by decide)).trans (by simp [Series.ofText, Series.has])
  exact ⟨_, _, rfl, .alloc m plain, rfl, rfl, _, rfl,
    Query.text_eq_ok.mpr ⟨_, m.get?_alloc_self _, rfl⟩⟩

/-- Items are put on the heap one after the other, where what each stands for is kept. -/
theorem itemCells_run {β : Type} {ofNode? : Node → Option β} {holds : Machine → Cell → β → Prop}
    (keep : ∀ {m m' c b}, m.Keeps [] m' → holds m c b → holds m' c b)
    (newline : ∀ {m c b}, holds m c b → ∀ newline, holds m { c with newline } b)
    (each : ∀ node b, ofNode? node = some b → ∀ m, ∃ c m', nodeCell node m = .ok c m' ∧
      m.Alters [] m' ∧ holds m' c b)
    {items : List Item} {parts : List β}
    (known : (items.mapM fun item => ofNode? item.node) = some parts) (m : Machine) :
    ∃ cells m', itemCells items m = .ok cells m' ∧ m.Alters [] m' ∧
      List.Forall₂ (holds m') cells parts := by
  induction items generalizing parts m with
  | nil =>
      cases known
      exact ⟨[], m, rfl, .refl m, .nil⟩
  | cons item items ih =>
      obtain ⟨node, begins⟩ := item
      rw [List.mapM_cons] at known
      obtain ⟨b, first, known⟩ := Option.bind_eq_some_iff.mp known
      obtain ⟨parts, others, done⟩ := Option.bind_eq_some_iff.mp known
      cases done
      obtain ⟨c, m₁, made, alters, here⟩ := each node b first m
      obtain ⟨cells, m₂, rest, alters', there⟩ := ih others m₁
      have item : itemCell (.mk node begins) m =
          .ok (if begins then { c with newline := true } else c) m₁ := by
        rw [itemCell, bind_ok made]
        rfl
      have marked : holds m₁ (if begins then { c with newline := true } else c) b := by
        cases begins
        · exact here
        · exact newline here true
      refine ⟨_ :: cells, m₂, ?_, alters.trans alters', .cons (keep alters'.keeps marked) there⟩
      rw [itemCells, bind_ok item, bind_ok rest]
      rfl

theorem typeCell_run (node : Node) (item : TypeItem) (known : TypeItem.ofNode? node = some item)
    (m : Machine) :
    ∃ c m', nodeCell node m = .ok c m' ∧ m.Alters [] m' ∧ m'.HoldsType c item := by
  unfold TypeItem.ofNode? at known
  split at known <;> cases known
  · exact tagCell_run _ m
  · obtain ⟨c, m', symbol, made, alters, holds⟩ := wordCell_run .word _ m
    exact ⟨c, m', made, alters, symbol, holds⟩

theorem specCell_run (node : Node) (item : SpecItem) (known : SpecItem.ofNode? node = some item)
    (m : Machine) :
    ∃ c m', nodeCell node m = .ok c m' ∧ m.Alters [] m' ∧ m'.HoldsSpec c item := by
  unfold SpecItem.ofNode? at known
  split at known
  · cases known
    exact tagCell_run _ m
  · cases known
    obtain ⟨c, m', symbol, made, alters, holds⟩ := wordCell_run .word _ m
    exact ⟨c, m', made, alters, symbol, holds⟩
  · cases known
    obtain ⟨c, m', symbol, made, alters, holds⟩ := wordCell_run .getWord _ m
    exact ⟨c, m', made, alters, symbol, holds⟩
  · cases known
    obtain ⟨c, m', symbol, made, alters, holds⟩ := wordCell_run .setWord _ m
    exact ⟨c, m', made, alters, symbol, holds⟩
  · cases known
    exact ⟨_, _, rfl, .intern m _, _, rfl, rfl, ⟨0, rfl⟩, m.symbols.calls_intern _⟩
  · rename_i first name second
    cases known
    let word := m.symbols.intern name
    let m₁ : Machine := { m with symbols := word.2 }
    let head : Cell := if first then { Cell.blank with newline := true } else Cell.blank
    let part : Cell :=
      if second then { Cell.word .word word.1 with newline := true } else Cell.word .word word.1
    have made : itemCells [.mk (.scalar .blank) first, .mk (.scalar (.word name .plain)) second] m =
        .ok [head, part] m₁ := by
      cases first <;> cases second <;> rfl
    obtain ⟨id, m₂, put, alters, held, -⟩ := allocArray_run [head, part] m₁
    refine ⟨Cell.series .path id 0, m₂, ?_, (Alters.intern m name).trans alters, word.1, rfl, rfl,
      id, head, part, rfl, held, ?_, ?_⟩
    · rw [nodeCell, bind_ok made]
      exact (bind_ok put _).trans rfl
    · cases first <;> rfl
    · have calls := (m.symbols.calls_intern name).grow alters.keeps.symbols
      cases second <;> exact ⟨rfl, rfl, ⟨0, rfl⟩, calls⟩
  · rename_i items
    obtain ⟨parts, listed, same⟩ := Option.map_eq_some_iff.mp known
    cases same
    obtain ⟨cells, m₁, made, alters, each⟩ := @itemCells_run _ _ HoldsType
      (fun kept holds => holds.keep kept) (fun holds newline => holds.newline newline)
      typeCell_run _ _ listed m
    obtain ⟨id, m₂, put, alters', held, -⟩ := allocArray_run cells m₁
    refine ⟨Cell.series .block id 0, m₂, ?_, alters.trans alters', rfl, rfl, id, _, rfl, held, ?_⟩
    · rw [nodeCell, bind_ok made]
      exact (bind_ok put _).trans rfl
    · exact each.imp fun _ _ => HoldsType.keep alters'.keeps
  · cases known

/-- A text that can be read as a spec is put on the heap as one. -/
theorem scanSpec_run {source : String} {items : List SpecItem}
    (known : SpecItem.listed? (Node.scan source) = some items) (m : Machine) :
    ∃ block cells m', scan source m = .ok block m' ∧ m.Alters [] m' ∧
      Query.cells block m' = .ok cells ∧ List.Forall₂ m'.HoldsSpec cells.toList items := by
  unfold SpecItem.listed? at known
  split at known
  · rename_i nodes scanned
    obtain ⟨cells, m₁, made, alters, each⟩ := @itemCells_run _ _ HoldsSpec
      (fun kept holds => holds.keep kept) (fun holds newline => holds.newline newline)
      specCell_run _ _ known m
    obtain ⟨id, m₂, put, alters', held, -⟩ := allocArray_run cells m₁
    refine ⟨id, _, m₂, ?_, alters.trans alters', held, ?_⟩
    · rw [scan, scanned]
      exact (bind_ok (pure_run nodes m) _).trans ((bind_ok made _).trans put)
    · exact each.imp fun _ _ => HoldsSpec.keep alters'.keeps
  · cases known

end Interp

/-! ## Actions -/

/-- A paramlist whose first slot holds some cell. -/
def paramSeries (flags : Flags) (first : Cell) (params : List Typeset) : Series :=
  (Series.ofCells (first :: params.map Cell.typeset).toArray).withFlags
    (Flags.paramlist ||| Flags.managed ||| flags)

/-- What holds the details of an action that is not made from another one. -/
def detailSeries (dispatcher : Dispatcher) (details : List Cell) : Series :=
  { (Series.ofCells details.toArray).withFlags (Flags.details ||| Flags.managed) with
    role := .dispatcher dispatcher
    link := .none }

theorem paramSeries_has {flags mask : Flags} (first : Cell) (params : List Typeset)
    (fixed : (Flags.singular ||| Flags.paramlist ||| Flags.managed) &&& mask = 0)
    (apart : flags &&& mask = 0) : (paramSeries flags first params).has mask = false := by
  simp only [Flags.or_and, UInt32.or_eq_zero_iff] at fixed
  rw [paramSeries, Series.has_withFlags_of_apart _
    (Flags.or_apart (Flags.or_apart fixed.1.2 fixed.2) apart)]
  exact Series.ofCells_lacks _ fixed.1.1

theorem paramSeries_content (flags : Flags) (first : Cell) (params : List Typeset) :
    (paramSeries flags first params).content =
      .array (first :: params.map Cell.typeset).toArray := rfl

theorem paramSeries_storing (flags : Flags) (first next : Cell) (params : List Typeset) :
    (paramSeries flags first params).storing 0 next = paramSeries flags next params := by
  simp [paramSeries, Series.storing, Series.withFlags, Series.ofCells]

theorem detailSeries_has {mask : Flags} (dispatcher : Dispatcher) (details : List Cell)
    (fixed : (Flags.singular ||| Flags.details ||| Flags.managed) &&& mask = 0) :
    (detailSeries dispatcher details).has mask = false := by
  simp only [Flags.or_and, UInt32.or_eq_zero_iff] at fixed
  refine (Series.has_withFlags_of_apart _ (Flags.or_apart fixed.1.2 fixed.2)).trans ?_
  exact Series.ofCells_lacks _ fixed.1.1

/-- An action with parameters of its own, that runs something. -/
structure Machine.HoldsAction (m : Machine) (a : Action) (flags : Flags) (params : List Typeset)
    (dispatcher : Dispatcher) (details : List Cell) : Prop where
  paramlist : m.heap.get? a.paramlist = some ((paramSeries flags (Cell.action a .unbound)
    params).withFlags (Typeset.conventions params))
  details : m.heap.get? a.details = some (detailSeries dispatcher details)

namespace Query

theorem param_run {paramlist : SeriesId} {flags : Flags} {first : Cell} {params : List Typeset}
    (held : m.heap.get? paramlist = some (paramSeries flags first params)) {i : Nat} {p : Typeset}
    (here : params[i]? = some p) : param paramlist (i + 1) m = .ok p := by
  have there : cell paramlist (i + 1) m = .ok (Cell.typeset p) := by
    refine cell_eq_ok.mpr ⟨_, cells_eq_ok.mpr ⟨_, held, rfl⟩, ?_⟩
    simp [here]
  rw [param, bind_ok there]
  rfl

theorem firstParamFlags_run {paramlist : SeriesId} {flags : Flags} {first : Cell}
    {before behind : List Typeset}
    (held : m.heap.get? paramlist = some (paramSeries flags first (before ++ behind))) :
    firstParamFlags paramlist none (List.range' (before.length + 1) behind.length) m =
      .ok (Typeset.firstFlags behind) := by
  induction behind generalizing before with
  | nil => rfl
  | cons p behind ih =>
      have here : param paramlist (before.length + 1) m = .ok p := param_run held (by simp)
      have rest := @ih (before ++ [p]) (by rwa [← List.append_cons])
      rw [List.length_append, List.length_singleton] at rest
      have free : isFixed none (before.length + 1) m = .ok false := rfl
      rw [List.length_cons, List.range'_succ, firstParamFlags, bind_ok here, Typeset.firstFlags]
      split
      · exact rest
      · exact bind_ok free _

theorem params_run {paramlist : SeriesId} {flags : Flags} {first : Cell}
    {before behind : List Typeset}
    (held : m.heap.get? paramlist = some (paramSeries flags first (before ++ behind))) :
    (List.range' (before.length + 1) behind.length).mapM (param paramlist) m = .ok behind := by
  induction behind generalizing before with
  | nil => rfl
  | cons p behind ih =>
      have here : param paramlist (before.length + 1) m = .ok p := param_run held (by simp)
      have rest := @ih (before ++ [p]) (by rwa [← List.append_cons])
      rw [List.length_append, List.length_singleton] at rest
      rw [List.length_cons, List.range'_succ, List.mapM_cons, bind_ok here, bind_ok rest]
      rfl

theorem conventions_run {paramlist : SeriesId} {flags : Flags} {first : Cell}
    {params : List Typeset}
    (held : m.heap.get? paramlist = some (paramSeries flags first params)) :
    conventions paramlist none m = .ok (Typeset.conventions params) := by
  have slots : slotsOf paramlist m = .ok (List.range' 1 params.length) := by
    have count : size paramlist m = .ok (params.length + 1) := by
      rw [size, bind_ok (series_eq_ok.mpr held), paramSeries_content]
      simp [Content.size]
    rw [slotsOf, bind_ok count]
    rfl
  have listed : (List.range' 1 params.length).mapM (param paramlist) m = .ok params :=
    @params_run _ _ _ _ [] _ held
  have first : firstParamFlags paramlist none (List.range' 1 params.length) m =
      .ok (Typeset.firstFlags params) := @firstParamFlags_run _ _ _ _ [] _ held
  rw [conventions, bind_ok slots, bind_ok first, bind_ok listed]
  rfl

end Query

namespace Interp

theorem makeParamlist_run {spec : SeriesId} {cells : Array Cell} {items : List SpecItem}
    {d : SpecDraft} (tidy : m.Tidy) (held : Query.cells spec m = .ok cells)
    (holds : List.Forall₂ m.HoldsSpec cells.toList items)
    (read : items.foldlM SpecDraft.step {} = some d) :
    ∃ id m' params, makeParamlist spec 0 false m = .ok id m' ∧ m.Alters [] m' ∧
      m.heap.get? id = none ∧ List.Forall₂ m'.symbols.Names params d.reversed.reverse ∧
      m'.heap.get? id = some (paramSeries d.flags Cell.blank params) := by
  obtain ⟨names, registers⟩ := tidy.registered
  have start : SpecReader.Tells {} m.symbols {} := ⟨.nil, rfl, rfl⟩
  obtain ⟨r, ran, tells⟩ := Query.spec_run registers holds start read
  have listed : Query.cellsFrom spec 0 m = .ok cells.toList :=
    Query.cellsFrom_eq_ok.mpr ⟨_, held, rfl⟩
  have plain : (paramSeries d.flags Cell.blank r.reversed.reverse).has Flags.passing = false :=
    paramSeries_has _ _ (by decide) (SpecDraft.flags_apart (by decide) read (by decide))
  refine ⟨_, _, r.reversed.reverse, ?_, .alloc m plain, m.heap.alloc_fresh _,
    List.rel_reverse tells.params, m.get?_alloc_self _⟩
  rw [makeParamlist, lift_bind_ok listed]
  refine (lift_bind_ok ran _).trans ?_
  rw [tells.flags]
  rfl

theorem makeAction_run {paramlist : SeriesId} {flags : Flags} {params : List Typeset}
    (held : m.heap.get? paramlist = some (paramSeries flags Cell.blank params))
    (dispatcher : Dispatcher) (details : List Cell) :
    ∃ a m', makeAction paramlist dispatcher details none m = .ok a m' ∧
      m.Alters [paramlist] m' ∧ a.paramlist = paramlist ∧ m.heap.get? a.details = none ∧
      m'.HoldsAction a flags params dispatcher details := by
  let made := m.heap.alloc (detailSeries dispatcher details)
  let a : Action := { paramlist, details := made.1 }
  let m₁ : Machine := { m with heap := made.2 }
  let m₂ := m₁.stored paramlist 0 (Cell.action a .unbound)
  have apart : made.1 ≠ paramlist := by
    rintro same
    have fresh : m.heap.get? made.1 = none := m.heap.alloc_fresh _
    rw [same, held] at fresh
    cases fresh
  have held₁ : m₁.heap.get? paramlist = some (paramSeries flags Cell.blank params) :=
    (Machine.Keeps.alloc m _).get? _ _ List.not_mem_nil held
  have stored : storeCell paramlist 0 (Cell.action a .unbound) m₁ = .ok () m₂ :=
    storeCell_run _ (Query.cells_eq_ok.mpr ⟨_, held₁, rfl⟩) (by simp)
  have held₂ : m₂.heap.get? paramlist =
      some (paramSeries flags (Cell.action a .unbound) params) := by
    rw [← paramSeries_storing flags Cell.blank]
    exact Machine.get?_stored_self held₁ rfl
  have asked := Query.conventions_run held₂
  have flagged := modifySeries_run held₂ (·.withFlags (Typeset.conventions params))
  refine ⟨a, m₂.onHeap (·.modify paramlist (·.withFlags (Typeset.conventions params))), ?_, ?_, rfl,
    m.heap.alloc_fresh _, ?_, ?_⟩
  · change (alloc (detailSeries dispatcher details) >>= _) m = _
    rw [bind_ok (Machine.alloc_run m _), bind_ok stored]
    have conventions : setConventions paramlist none m₂ = .ok ()
        (m₂.onHeap (·.modify paramlist (·.withFlags (Typeset.conventions params)))) := by
      rw [setConventions, lift_bind_ok asked]
      exact flagged
    rw [bind_ok conventions]
    rfl
  · have first : m.Alters [] m₁ := .alloc m (detailSeries_has _ _ (by decide))
    have second : m₁.Alters [paramlist] m₂ := .modify m₁ paramlist fun s => s.has_storing 0 _ _
    have third : m₂.Alters [paramlist] (m₂.onHeap _) :=
      .modify m₂ paramlist fun s => s.has_withFlags_of_apart
        (Typeset.conventions_apart params (by decide))
    exact first.widen.trans (second.trans third)
  · change (m₂.heap.modify paramlist _).get? paramlist = _
    rw [Heap.get?_modify, if_pos rfl, held₂]
    rfl
  · change (m₂.heap.modify paramlist _).get? made.1 = _
    rw [Heap.get?_modify, if_neg apart.symm, Machine.get?_stored_of_ne apart]
    exact m.get?_alloc_self _

end Interp

end

/-! ## The library -/

theorem ContextView.In.keep {v : ContextView} {m m' : Machine} {changed : List SeriesId}
    (held : v.In m) (kept : m.Keeps changed m') (apart : changed.Disjoint v.series) : v.In m' := by
  have cells {id : SeriesId} {cells : Array Cell} (member : id ∈ v.series)
      (found : Query.cells id m = .ok cells) : Query.cells id m' = .ok cells := by
    obtain ⟨s, live, content⟩ := Query.cells_eq_ok.mp found
    exact Query.cells_eq_ok.mpr ⟨s, kept.get? id s (fun here => apart here member) live, content⟩
  have context : v.context ∈ v.series := by simp [series]
  obtain ⟨s, live, link⟩ := Law.keylist_eq_ok.mp held.linked
  exact
    { linked := Law.keylist_eq_ok.mpr
        ⟨s, kept.get? _ s (fun here => apart here context) live, link⟩
      names := cells (by simp [series]) held.names
      vars := cells context held.vars
      size := held.size }

/-- A machine's library has some variables, in order and with their values, of names that differ by
more than case. -/
structure Machine.Stocked (m : Machine) (lib : ContextView) (entries : List (String × Cell)) :
    Prop where
  tidy : m.Tidy
  context : lib.context = m.lib
  held : lib.In m
  own : lib.context ≠ lib.keylist
  distinct : (entries.map fun e => Text.lowercase e.1).Nodup
  names : ∃ symbols, lib.names = (Cell.blank :: symbols.map Interp.keyCell).toArray ∧
    List.Forall₂ (fun symbol e => m.symbols.Calls symbol e.1) symbols entries
  vars : ∃ first, lib.vars = (first :: entries.map Prod.snd).toArray

namespace Machine.Stocked

variable {m m' : Machine} {lib : ContextView} {entries : List (String × Cell)} {name : String}
  {symbol : SymbolId}

/-- What is made meanwhile leaves the library as it is. -/
theorem alter (stocked : m.Stocked lib entries) (alters : m.Alters [] m') :
    m'.Stocked lib entries where
  tidy := alters.tidy stocked.tidy
  context := by
    rw [alters.rest]
    exact stocked.context
  held := stocked.held.keep alters.keeps (List.disjoint_nil_left _)
  own := stocked.own
  distinct := stocked.distinct
  names := by
    obtain ⟨symbols, names, calls⟩ := stocked.names
    exact ⟨symbols, names, calls.imp fun _ _ calls => calls.grow alters.keeps.symbols⟩
  vars := stocked.vars

theorem findIdx?_names {t : Symbols} {registered : List String} {symbols : List SymbolId}
    (registers : t.Registers registered)
    (named : List.Forall₂ (fun symbol (e : String × Cell) => t.Calls symbol e.1) symbols entries)
    (calls : t.Calls symbol name) :
    (symbols.map Interp.keyCell).findIdx? (fun c => c.keyName?.any (t.canon · == t.canon symbol)) =
      entries.findIdx? fun e => Text.lowercase e.1 == Text.lowercase name := by
  induction named with
  | nil => rfl
  | cons first _ ih =>
      have same := first.canon_eq registers calls
      rw [List.map_cons, List.findIdx?_cons, List.findIdx?_cons, ih, ← same]
      rfl

/-- A name is looked up in the library by its entry. -/
theorem findName? (stocked : m.Stocked lib entries) (calls : m.symbols.Calls symbol name) :
    m.symbols.findName? lib.names (m.symbols.canon symbol) =
      (entries.findIdx? fun e => Text.lowercase e.1 == Text.lowercase name).map (· + 1) := by
  obtain ⟨registered, registers⟩ := stocked.tidy.registered
  obtain ⟨symbols, names, named⟩ := stocked.names
  rw [Symbols.findName?_eq, names, List.findIdx?_toArray, List.findIdx?_cons,
    findIdx?_names registers named calls]
  rfl

/-- A word finds the variable of its name, whatever its case. -/
theorem value?_of_mem (stocked : m.Stocked lib entries) {name' : String}
    (calls : m.symbols.Calls symbol name') (cases : Text.lowercase name = Text.lowercase name')
    {c : Cell} (member : (name, c) ∈ entries) : lib.value? m.symbols symbol = some c := by
  obtain ⟨i, inside, here⟩ := List.getElem_of_mem member
  have found : entries.findIdx? (fun e => Text.lowercase e.1 == Text.lowercase name') = some i := by
    rw [← cases]
    refine List.findIdx?_eq_some_iff_getElem.mpr
      ⟨inside, by rw [here]; exact beq_self_eq_true _, ?_⟩
    intro j before same
    have equal : (entries.map fun e => Text.lowercase e.1).get ⟨j, by simp; omega⟩ =
        (entries.map fun e => Text.lowercase e.1).get ⟨i, by simpa using inside⟩ := by
      simpa [here] using same
    have agree := Fin.mk.inj ((stocked.distinct.get_inj_iff).mp equal)
    exact absurd agree (Nat.ne_of_lt before)
  obtain ⟨first, vars⟩ := stocked.vars
  rw [ContextView.value?, stocked.findName? calls, found, vars]
  simp [here, inside]

/-- Nothing but the heap, the names and which context is the library's matters. -/
theorem congr (stocked : m.Stocked lib entries) (heap : m'.heap = m.heap)
    (symbols : m'.symbols = m.symbols) (context : m'.lib = m.lib) : m'.Stocked lib entries where
  tidy := ⟨heap ▸ stocked.tidy.clear, symbols ▸ stocked.tidy.registered⟩
  context := stocked.context.trans context.symm
  held := stocked.held.transfer fun _ _ => by rw [heap]
  own := stocked.own
  distinct := stocked.distinct
  names := symbols ▸ stocked.names
  vars := stocked.vars

theorem exists_symbol (stocked : m.Stocked lib entries) {c : Cell} (member : (name, c) ∈ entries) :
    ∃ symbol, m.symbols.Calls symbol name := by
  obtain ⟨symbols, -, named⟩ := stocked.names
  clear stocked
  induction named with
  | nil => cases member
  | @cons symbol e _ _ first _ ih =>
      rcases List.mem_cons.mp member with rfl | member
      · exact ⟨symbol, first⟩
      · exact ih member

/-- The actions of the library are found by their names. -/
theorem libAction_run (stocked : m.Stocked lib entries) {c : Cell} {a : Action}
    (member : (name, c) ∈ entries) (action : c.asAction? = some a) :
    Interp.libAction name m = .ok a := by
  obtain ⟨registered, registers⟩ := stocked.tidy.registered
  obtain ⟨symbol, calls⟩ := stocked.exists_symbol member
  have lower := calls.lower registers
  have canon : m.symbols.lookup? name = some (m.symbols.canon symbol) := by
    rw [Symbols.lookup?, ← lower]
    exact registers.folded.canon calls.inside
  obtain ⟨others, variants⟩ := registers.variants_canon calls.inside
  obtain ⟨inside, same⟩ := registers.mem_variants_iff.mp
    (variants.symm ▸ List.mem_cons_self : m.symbols.canon symbol ∈ _)
  have calls' : m.symbols.Calls (m.symbols.canon symbol)
      (m.symbols.spelling (m.symbols.canon symbol)) := ⟨inside, rfl⟩
  have value := stocked.held.contextVar? (m.symbols.canon symbol)
  rw [stocked.value?_of_mem calls' (by rw [← calls'.lower registers, same, lower]) member,
    stocked.context] at value
  rw [Interp.libAction, Query.bind_ok (Query.read_run m), canon]
  refine (Query.bind_ok value _).trans ?_
  rw [Option.bind_some, action]
  rfl

end Machine.Stocked

/-! ## Definitions -/

/-- A machine has some variables in a library that is made of some series. -/
def Machine.Stocks (m : Machine) (series : List SeriesId) (entries : List (String × Cell)) : Prop :=
  ∃ lib, lib.series = series ∧ m.Stocked lib entries

/-- A computation adds variables to the library, of which something is known then, and changes no
other series. -/
def Machine.Adds (m : Machine) (series : List SeriesId) (entries : List (String × Cell))
    (x : Interp Unit) (known : List (String × Cell) → Machine → Prop) : Prop :=
  ∃ more m', x m = .ok () m' ∧ m.Alters series m' ∧ m'.Stocks series (entries ++ more) ∧
    known more m'

/-- The names of some variables, whatever their case. -/
def lowerNames (entries : List (String × Cell)) : List String :=
  entries.map fun e => Text.lowercase e.1

section

variable {m m' : Machine} {series : List SeriesId} {entries : List (String × Cell)} {name : String}

theorem Machine.Stocks.alter (stocks : m.Stocks series entries) (alters : m.Alters [] m') :
    m'.Stocks series entries := by
  obtain ⟨lib, same, stocked⟩ := stocks
  exact ⟨lib, same, stocked.alter alters⟩

theorem Machine.Stocks.not_mem (stocks : m.Stocks series entries) {id : SeriesId}
    (fresh : m.heap.get? id = none) : id ∉ series := by
  obtain ⟨lib, rfl, stocked⟩ := stocks
  exact fun member => stocked.held.live member fresh

namespace Machine.Adds

variable {x y : Interp Unit} {known known' : List (String × Cell) → Machine → Prop}

theorem weaken (adds : m.Adds series entries x known)
    (entails : ∀ more m', m.Alters series m' → known more m' → known' more m') :
    m.Adds series entries x known' := by
  obtain ⟨more, m', ran, alters, stocks, here⟩ := adds
  exact ⟨more, m', ran, alters, stocks, entails more m' alters here⟩

theorem after (alters : m.Alters [] m') (adds : m'.Adds series entries y known)
    (ran : x m = y m') : m.Adds series entries x known := by
  obtain ⟨more, m'', ran', alters', stocks, here⟩ := adds
  exact ⟨more, m'', ran.trans ran', alters.widen.trans alters', stocks, here⟩

end Machine.Adds

/-- Variables are added one after the other, where what is known of each does not depend on the
library. -/
theorem Machine.adds_forM {β : Type} {f : β → Interp Unit} (names : β → String)
    (means : Machine → β → Cell → Prop) {items : List β}
    (keep : ∀ m m' b c, m.Alters series m' → means m b c → means m' b c)
    (each : ∀ b ∈ items, ∀ (m : Machine) entries, m.Stocks series entries →
      Text.lowercase (names b) ∉ lowerNames entries →
      m.Adds series entries (f b) fun more m' => ∃ c, more = [(names b, c)] ∧ means m' b c)
    (stocks : m.Stocks series entries)
    (new : (lowerNames entries ++ items.map fun b => Text.lowercase (names b)).Nodup) :
    m.Adds series entries (items.forM f) fun more m' =>
      List.Forall₂ (fun b e => e.1 = names b ∧ means m' b e.2) items more := by
  induction items generalizing m entries with
  | nil => exact ⟨[], m, rfl, .refl m, by rwa [List.append_nil], .nil⟩
  | cons b items ih =>
      have unknown : Text.lowercase (names b) ∉ lowerNames entries := fun member =>
        (List.disjoint_of_nodup_append new) member (List.mem_cons_self ..)
      obtain ⟨_, m₁, ran, alters, stocks₁, c, rfl, here⟩ :=
        each b (List.mem_cons_self ..) m entries stocks unknown
      obtain ⟨more, m₂, ran', alters', stocks₂, others⟩ :=
        ih (fun b member => each b (List.mem_cons_of_mem _ member)) stocks₁
          (by simpa [lowerNames] using new)
      refine ⟨(names b, c) :: more, m₂, ?_, alters.trans alters', by
        rwa [List.append_assoc, List.singleton_append] at stocks₂,
        .cons ⟨rfl, keep _ _ _ _ alters' here⟩ others⟩
      change (f b >>= fun _ => items.forM f) m = _
      rw [Interp.bind_ok ran, ran']

/-- The library gets a variable of a new name. -/
theorem Interp.defineLib_run (stocks : m.Stocks series entries) (value : Cell)
    (new : Text.lowercase name ∉ lowerNames entries) :
    m.Adds series entries (defineLib name value) fun more _ => more = [(name, value)] := by
  obtain ⟨lib, rfl, stocked⟩ := stocks
  let symbol := (m.symbols.intern name).1
  let m₁ : Machine := { m with symbols := (m.symbols.intern name).2 }
  have stocked₁ : m₁.Stocked lib entries := stocked.alter (.intern m name)
  have calls : m₁.symbols.Calls symbol name := m.symbols.calls_intern name
  have missing : entries.findIdx? (fun e => Text.lowercase e.1 == Text.lowercase name) = none := by
    refine List.findIdx?_eq_none_iff.mpr fun e member => beq_eq_false_iff_ne.mpr fun same => new ?_
    exact List.mem_map.mpr ⟨e, member, same⟩
  have asked := stocked₁.held.findKey? symbol
  rw [stocked₁.findName? calls, missing] at asked
  obtain ⟨m₂, added, held, touches⟩ :=
    appendKey_run stocked₁.held stocked.own symbol fun _ => value
  have alters : m.Alters lib.series m₂ :=
    (Machine.Alters.intern m name).widen.trans touches.alters
  refine ⟨[(name, value)], m₂, ?_, alters, ⟨lib.extend [symbol] fun _ => value, rfl, ?_⟩, rfl⟩
  · have interned : intern name m = .ok symbol m₁ := rfl
    have context : m₁.lib = lib.context := stocked.context.symm
    rw [defineLib, bind_ok interned, bind_ok (get_run m₁), context]
    refine (lift_bind_ok asked _).trans ?_
    exact (bind_ok added _).trans rfl
  · obtain ⟨symbols, names, named⟩ := stocked₁.names
    obtain ⟨first, vars⟩ := stocked.vars
    exact
      { tidy := touches.alters.tidy stocked₁.tidy
        context := stocked₁.context.trans touches.lib.symm
        held
        own := stocked.own
        distinct := by
          rw [List.map_append, List.map_singleton]
          exact stocked.distinct.append (List.nodup_singleton _) (List.disjoint_singleton.mpr new)
        names := ⟨symbols ++ [symbol], by simp [ContextView.extend, names, keyCell], by
          rw [touches.symbols]
          exact List.rel_append named (.cons calls .nil)⟩
        vars := ⟨first, by simp [ContextView.extend, vars]⟩ }

/-- A value is an action made from a spec, with series apart from some. -/
def Machine.Realizes (m : Machine) (series : List SeriesId) (spec : String)
    (dispatcher : Dispatcher) (details : List Cell) (enfix : Bool) (c : Cell) : Prop :=
  ∃ a d params, c = { Cell.action a .unbound with enfixed := enfix } ∧
    SpecDraft.read? spec = some d ∧ m.HoldsAction a d.flags params dispatcher details ∧
    List.Forall₂ m.symbols.Names params d.reversed.reverse ∧
    a.paramlist ∉ series ∧ a.details ∉ series

variable {spec : String} {dispatcher : Dispatcher} {details : List Cell} {enfix : Bool} {c : Cell}

theorem Symbols.Names.grow {t t' : Symbols} {p : Typeset} {entry : String × Typeset}
    (names : t.Names p entry) (grows : t.Grows t') : t'.Names p entry := by
  obtain ⟨symbol, calls, same⟩ := names
  exact ⟨symbol, calls.grow grows, same⟩

theorem Machine.Realizes.keep (realizes : m.Realizes series spec dispatcher details enfix c)
    (alters : m.Alters series m') : m'.Realizes series spec dispatcher details enfix c := by
  obtain ⟨a, d, params, same, read, holds, names, paramlist, made⟩ := realizes
  exact ⟨a, d, params, same, read,
    ⟨alters.keeps.get? _ _ paramlist holds.paramlist, alters.keeps.get? _ _ made holds.details⟩,
    names.imp fun _ _ names => names.grow alters.keeps.symbols, paramlist, made⟩

theorem Machine.Realizes.congr (realizes : m.Realizes series spec dispatcher details enfix c)
    (heap : m'.heap = m.heap) (symbols : m'.symbols = m.symbols) :
    m'.Realizes series spec dispatcher details enfix c := by
  obtain ⟨a, d, params, same, read, holds, names, apart⟩ := realizes
  exact ⟨a, d, params, same, read, ⟨heap ▸ holds.paramlist, heap ▸ holds.details⟩,
    symbols ▸ names, apart⟩

/-- The library gets an action of a new name, if its spec can be read. -/
theorem Interp.defineAction_run (stocks : m.Stocks series entries)
    (readable : (SpecDraft.read? spec).isSome = true) (dispatcher : Dispatcher)
    (details : List Cell) (enfix : Bool) (new : Text.lowercase name ∉ lowerNames entries) :
    m.Adds series entries (defineAction name spec dispatcher details enfix) fun more m' =>
      ∃ c, more = [(name, c)] ∧ m'.Realizes series spec dispatcher details enfix c := by
  obtain ⟨d, read⟩ := Option.isSome_iff_exists.mp readable
  obtain ⟨items, listed, reads⟩ := Option.bind_eq_some_iff.mp read
  obtain ⟨block, cells, m₁, scanned, alters₁, held, holds⟩ := scanSpec_run listed m
  have stocks₁ := stocks.alter alters₁
  have tidy : m₁.Tidy := stocks₁.elim fun _ here => here.2.tidy
  obtain ⟨paramlist, m₂, params, made, alters₂, fresh, names, holds⟩ :=
    makeParamlist_run tidy held holds reads
  obtain ⟨a, m₃, formed, alters₃, rfl, free, action⟩ := makeAction_run holds dispatcher details
  have alters : m₁.Alters [] m₃ := (alters₂.widen.trans alters₃).narrow (by simpa using fresh)
  have defined := defineLib_run (stocks₁.alter alters)
    { Cell.action a .unbound with enfixed := enfix } new
  have realizes : m₃.Realizes series spec dispatcher details enfix
      { Cell.action a .unbound with enfixed := enfix } :=
    ⟨a, d, params, rfl, read, action,
      names.imp fun _ _ names => names.grow alters₃.keeps.symbols, stocks₁.not_mem fresh,
      (stocks₁.alter alters₂).not_mem free⟩
  refine .after (alters₁.trans alters) (defined.weaken fun more m' alters => ?_) ?_
  · rintro rfl
    exact ⟨_, rfl, realizes.keep alters⟩
  · rw [defineAction, bind_ok scanned, bind_ok made, bind_ok formed]

end

end Homoicon
