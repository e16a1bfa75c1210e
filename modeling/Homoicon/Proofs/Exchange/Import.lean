import Homoicon.Proofs.Exchange.Literals

/-!
# Reading values

The value of a document is made of new series only.  It stands for the value that was written, on
every machine that goes on to hold these series.
-/

namespace Homoicon

/-! ## Scalars, words and texts -/

/-- A computation makes a cell that stands for a value, of new series only. -/
def Machine.Imports (m : Machine) (made : Interp Cell) (value : Datum) : Prop :=
  ∃ c m', made m = .ok c m' ∧ m.Keeps [] m' ∧
    ∀ (n : Machine) around, n.Harbors m m' around → n.Represents around c value

/-- A computation makes cells that stand for the items of an array, of new series only. -/
def Machine.ImportsItems (m : Machine) (made : Interp (List Cell)) (items : List Datum) : Prop :=
  ∃ cells m', made m = .ok cells m' ∧ m.Keeps [] m' ∧
    ∀ (n : Machine) around, n.Harbors m m' around → n.RepresentsItems around cells items

/-- Fields are stored in the slots of a context, as cells of new series that stand for values. -/
def Machine.ImportsFields (m : Machine) (contents : List (String × Json))
    (fields : List (String × Datum)) : Prop :=
  ∀ context s front old, m.heap.get? context = some s →
    s.content = .array (front ++ old).toArray → old.length = contents.length →
    ∃ cells m', Interp.jsonFields context front.length contents m = .ok () m' ∧
      m.Keeps [context] m' ∧
      m'.heap.get? context = some { s with content := .array (front ++ cells).toArray } ∧
      ∀ (n : Machine) around symbols, n.Harbors m m' around →
        symbols.map n.symbols.spelling = fields.map Prod.fst →
        n.RepresentsFields around symbols cells fields

theorem Machine.Represents.isNull_eq_false {m : Machine} {around : List SeriesId} {c : Cell}
    {value : Datum} (represents : m.Represents around c value) (present : value ≠ .null) :
    c.isNull = false := by
  have other {kind : Kind} {payload : Payload} (holds : c.Holds kind payload)
      (apart : kind ≠ .null) : c.isNull = false := by
    rw [Cell.isNull, holds.kind]
    exact decide_eq_false apart
  cases represents with
  | null => exact absurd rfl present
  | blank holds => exact other holds (by decide)
  | void holds => exact other holds (by decide)
  | logic holds => exact other holds (by decide)
  | integer _ holds => exact other holds (by decide)
  | char holds => exact other holds (by decide)
  | word family holds => exact other holds (by rintro rfl; cases family)
  | text family holds => exact other holds (by rintro rfl; cases family)
  | literal sourced bears =>
      rw [Cell.isNull, bears.kind_eq sourced]
      cases sourced <;> rfl
  | array family holds => exact other holds (by rintro rfl; cases family)
  | object holds => exact other holds (by decide)

namespace Interp

theorem imports_pure {m : Machine} {c : Cell} {value : Datum}
    (represents : ∀ (n : Machine) around, n.Represents around c value) :
    m.Imports (pure c) value :=
  ⟨c, m, rfl, .refl m, fun n around _ => represents n around⟩

theorem imports_word (m : Machine) {kind : Kind} (family : kind.isAnyWord = true) (s : String) :
    m.Imports (wordCell kind s) (.word kind s) := by
  refine ⟨Cell.word kind (m.symbols.intern s).1, { m with symbols := (m.symbols.intern s).2 }, rfl,
    .intern m s, fun n around harbors => ?_⟩
  have kept : n.symbols.spelling (m.symbols.intern s).1 =
      (m.symbols.intern s).2.spelling (m.symbols.intern s).1 :=
    harbors.symbols.spelling _ (m.symbols.index_intern s)
  have represents : n.Represents around (Cell.word kind (m.symbols.intern s).1)
      (.word kind (n.symbols.spelling (m.symbols.intern s).1)) := .word family ⟨rfl, rfl, rfl⟩
  rwa [kept, (m.symbols.spelling_intern s).1] at represents

theorem imports_text (m : Machine) {kind : Kind} (family : kind.isAnyString = true) (s : String) :
    m.Imports (textCell kind s) (.text kind s) := by
  let made := m.heap.alloc (Series.ofText s).managed
  refine ⟨Cell.series kind made.1 0, { m with heap := made.2 }, rfl, .alloc m _,
    fun n around harbors => ?_⟩
  have live := harbors.get? made.1 _ (m.heap.alloc_fresh _) (m.get?_alloc_self _)
  have represents : n.Represents around (Cell.series kind made.1 0) (.text kind _) :=
    .text family ⟨rfl, rfl, rfl⟩ (Query.text_eq_ok.mpr ⟨_, live, rfl⟩)
  rwa [Text.Buffer.slice_ofString] at represents

/-! ## Arrays -/

theorem imports_array {m : Machine} {made : Interp (List Cell)} {items : List Datum}
    (imported : m.ImportsItems made items) {kind : Kind} (family : kind.isAnyArray = true) :
    m.Imports (do pure { ← (do arrayCell .block (← made)) with kind }) (.array kind items) := by
  obtain ⟨cells, m', ran, kept, represents⟩ := imported
  let block := m'.heap.alloc (Series.ofCells cells.toArray).managed
  have fresh : m'.heap.get? block.1 = none := m'.heap.alloc_fresh _
  refine ⟨Cell.series kind block.1 0, { m' with heap := block.2 }, ?_, kept.trans (.alloc m' _),
    fun n around harbors => ?_⟩
  · have array : (do arrayCell .block (← made)) m =
        .ok (Cell.series .block block.1 0) { m' with heap := block.2 } := by
      rw [bind_ok ran]
      rfl
    rw [bind_ok array]
    rfl
  · have live := harbors.get? block.1 _ (kept.live _ fresh) (m'.get?_alloc_self _)
    have apart : block.1 ∉ around := fun member => by
      have dead := harbors.apart block.1 member (kept.live _ fresh)
      rw [m'.get?_alloc_self] at dead
      cases dead
    have inner : n.Harbors m m' (block.1 :: around) :=
      (harbors.front (.alloc m' _) (List.forall_mem_nil _)).enter fun _ => fresh
    exact .array family ⟨rfl, rfl, rfl⟩ apart (Query.cells_eq_ok.mpr ⟨_, live, rfl⟩)
      (represents n _ inner)

theorem imports_items_cons {m : Machine} {content : Json} {contents : List Json} {item : Datum}
    {items : List Datum} (present : item ≠ .null) (first : m.Imports (jsonCell content) item)
    (rest : ∀ m : Machine, m.ImportsItems (jsonItems contents) items) :
    m.ImportsItems (jsonItems (content :: contents)) (item :: items) := by
  obtain ⟨c, m₁, ran, kept, represents⟩ := first
  obtain ⟨cells, m₂, ranRest, keptRest, representsRest⟩ := rest m₁
  have some_ := (represents m₁ [] (.refl m m₁)).isNull_eq_false present
  refine ⟨c :: cells, m₂, ?_, kept.trans keptRest, fun n around harbors =>
    .cons present (represents n around (harbors.front keptRest (List.forall_mem_nil _)))
      (representsRest n around (harbors.back kept))⟩
  rw [jsonItems, bind_ok ran, bind_ok ranRest, some_]
  rfl

/-! ## Objects -/

theorem modify_append_cons {α : Type} (front : List α) (a : α) (old : List α) (f : α → α) :
    (front ++ a :: old).modify front.length f = front ++ f a :: old := by
  induction front with
  | nil => rfl
  | cons b front induction => exact congrArg (b :: ·) induction

theorem imports_fields_nil (m : Machine) : m.ImportsFields [] [] := by
  intro context s front old held content none
  rw [List.eq_nil_of_length_eq_zero none] at content
  refine ⟨[], m, rfl, .refl m, ?_, fun n around symbols _ names => ?_⟩
  · rw [← content]
    exact held
  · rw [List.map_eq_nil_iff.mp names]
    exact .nil

theorem imports_fields_cons {name : String} {content : Json} {contents : List (String × Json)}
    {value : Datum} {fields : List (String × Datum)}
    (first : ∀ m : Machine, m.Imports (jsonCell content) value)
    (rest : ∀ m : Machine, m.ImportsFields contents fields) (m : Machine) :
    m.ImportsFields ((name, content) :: contents) ((name, value) :: fields) := by
  intro context s front old held cells length
  obtain ⟨c, m₁, ran, kept, represents⟩ := first m
  cases old with
  | nil => cases length
  | cons before old =>
      have heldStill := kept.get? context s List.not_mem_nil held
      have inside : front.length < (front ++ before :: old).toArray.size := by simp
      have stored := storeCell_run c (Query.cells_eq_ok.mpr ⟨s, heldStill, cells⟩) inside
      have heldNow := @Machine.get?_stored_self _ _ _ _ front.length c heldStill cells
      have placed : (front ++ before :: old).toArray.modify front.length (fun _ => c) =
          (front ++ [c] ++ old).toArray := by
        rw [List.append_assoc, List.singleton_append]
        simpa using modify_append_cons front before old fun _ => c
      rw [placed] at heldNow
      obtain ⟨others, m₂, ranRest, keptRest, heldRest, representsRest⟩ :=
        rest (m₁.stored context front.length c) context _ (front ++ [c]) old heldNow rfl
          (Nat.succ.inj length)
      have keptStored := Machine.Keeps.stored m₁ context front.length c
      rw [List.length_append, List.length_singleton] at ranRest
      rw [List.append_assoc front [c] others, List.singleton_append] at heldRest
      refine ⟨c :: others, m₂, ?_, (kept.widen.trans keptStored).trans keptRest, heldRest,
        fun n around symbols harbors names => ?_⟩
      · rw [jsonFields, bind_ok ran, bind_ok stored]
        exact ranRest
      · have live : ∀ id ∈ [context], m.heap.get? id ≠ none := by
          simp [held]
        cases symbols with
        | nil => cases names
        | cons symbol symbols =>
            obtain ⟨spelled, names⟩ := List.cons.inj names
            have field : (n.symbols.spelling symbol, value) = (name, value) := Prod.ext spelled rfl
            rw [← field]
            exact .cons (represents n around (harbors.front (keptStored.trans keptRest) live))
              (representsRest n around symbols (harbors.back (kept.widen.trans keptStored)) names)

theorem intern_names (names : List String) (m : Machine) :
    ∃ symbols table, names.mapM intern m = .ok symbols { m with symbols := table } ∧
      m.symbols.Grows table ∧
      ∀ later, table.Grows later → symbols.map later.spelling = names := by
  induction names generalizing m with
  | nil => exact ⟨[], m.symbols, rfl, .refl _, fun _ _ => rfl⟩
  | cons name names induction =>
      let entered := m.symbols.intern name
      obtain ⟨symbols, table, ran, grown, spelled⟩ := induction { m with symbols := entered.2 }
      refine ⟨entered.1 :: symbols, table, ?_, (Symbols.Grows.intern _ _).trans grown,
        fun later kept => ?_⟩
      · have first : intern name m = .ok entered.1 { m with symbols := entered.2 } := rfl
        rw [List.mapM_cons, bind_ok first, bind_ok ran]
        rfl
      · have here : later.spelling entered.1 = name := by
          rw [(grown.trans kept).spelling _ (m.symbols.index_intern name)]
          exact (m.symbols.spelling_intern name).1
        rw [List.map_cons, here, spelled later kept]

/-- The entry of a name in the keylist of a new context. -/
def keyCell (key : SymbolId) : Cell := Cell.typeset (Typeset.param key .normal KindSet.anyValue)

/-- The keylist of a new context. -/
def namesSeries (keys : List SymbolId) : Series :=
  (Series.ofCells (Cell.blank :: keys.map keyCell).toArray).withFlags
    (Flags.keylist ||| Flags.managed)

/-- The variables of a new context before the first slot is filled. -/
def varsSeries (keylist : SeriesId) (keys : List SymbolId) : Series :=
  { (Series.ofCells (Cell.end_ :: keys.map fun _ => Cell.null).toArray).withFlags
      (Flags.varlist ||| Flags.managed) with link := .keylist keylist }

/-- What a new context is made of: variables with names in a keylist of their own. -/
structure NewContext (m : Machine) (kind : Kind) (keys : List SymbolId) (context : SeriesId)
    (m' : Machine) where
  keylist : SeriesId
  names : Series
  vars : Series
  kept : m.Keeps [] m'
  contextFresh : m.heap.get? context = none
  keylistFresh : m.heap.get? keylist = none
  apart : keylist ≠ context
  held : m'.heap.get? context = some vars
  heldNames : m'.heap.get? keylist = some names
  nameCells : names.content = .array (Cell.blank :: keys.map keyCell).toArray
  varCells : vars.content =
    .array (Cell.context kind context :: keys.map fun _ => Cell.null).toArray
  link : vars.link = .keylist keylist
  accessible : vars.has Flags.inaccessible = false

theorem makeContext_run (kind : Kind) (keys : List SymbolId) (m : Machine) :
    ∃ context m', makeContext kind keys m = .ok context m' ∧
      Nonempty (NewContext m kind keys context m') := by
  let names := namesSeries keys
  let keylist := m.heap.alloc names
  let m₁ : Machine := { m with heap := keylist.2 }
  let vars := varsSeries keylist.1 keys
  let context := m₁.heap.alloc vars
  let m₂ : Machine := { m₁ with heap := context.2 }
  have live : m₂.heap.get? context.1 = some vars := m₁.get?_alloc_self vars
  have content : vars.content = .array (Cell.end_ :: keys.map fun _ => Cell.null).toArray := rfl
  have other : keylist.1 ≠ context.1 := by
    intro same
    have fresh : m₁.heap.get? context.1 = none := m₁.heap.alloc_fresh vars
    rw [← same, m.get?_alloc_self names] at fresh
    cases fresh
  have stored : storeCell context.1 0 (Cell.context kind context.1) m₂ =
      .ok () (m₂.stored context.1 0 (Cell.context kind context.1)) :=
    storeCell_run _ (Query.cells_eq_ok.mpr ⟨vars, live, content⟩) (by simp)
  refine ⟨context.1, m₂.stored context.1 0 (Cell.context kind context.1), ?_, ⟨?_⟩⟩
  · change (alloc names >>= fun keylist => alloc (varsSeries keylist keys) >>= fun context =>
      storeCell context 0 (Cell.context kind context) >>= fun _ => pure context) m = _
    rw [bind_ok (Machine.alloc_run m names), bind_ok (Machine.alloc_run m₁ vars), bind_ok stored]
    rfl
  · have first : (Cell.end_ :: keys.map fun _ => Cell.null).toArray.modify 0
        (fun _ => Cell.context kind context.1) =
          (Cell.context kind context.1 :: keys.map fun _ => Cell.null).toArray := by
      simp
    have fresh : m.heap.get? context.1 = none :=
      (Machine.Keeps.alloc m names).live _ (m₁.heap.alloc_fresh vars)
    have held := @Machine.get?_stored_self _ _ _ _ 0 (Cell.context kind context.1) live content
    have kept : Machine.Keeps [context.1] m m₂ :=
      ((Machine.Keeps.alloc m names).trans (.alloc m₁ vars)).widen
    rw [first] at held
    exact {
      keylist := keylist.1
      names
      vars := _
      kept := (kept.trans (.stored m₂ _ _ _)).narrow (by simpa using fresh)
      contextFresh := fresh
      keylistFresh := m.heap.alloc_fresh names
      apart := other
      held
      heldNames := by
        rw [Machine.get?_stored_of_ne other]
        exact (Machine.Keeps.alloc m₁ vars).get? _ _ List.not_mem_nil (m.get?_alloc_self names)
      nameCells := rfl
      varCells := rfl
      link := rfl
      accessible := by
        change ((Series.ofCells _).withFlags (Flags.varlist ||| Flags.managed)).has _ = false
        rw [Series.has_withFlags_of_apart _ (by decide)]
        simp only [Series.ofCells, Series.has]
        split <;> decide }

end Interp

/-! ## Tagged contents -/

theorem Kind.ofName?_name {kind : Kind} (value : kind ≠ .«end») (present : kind ≠ .null) :
    Kind.ofName? kind.name = some kind := by
  cases kind <;> first | rfl | contradiction

namespace Interp

theorem imports_tagged {m : Machine} {name : String} {content : Json} {made : Interp Cell}
    {value : Datum} (imported : m.Imports made value)
    (same : taggedCell? [("type", .string name), ("value", content)] = some <$> made) :
    m.Imports (jsonCell (Datum.tagged name content)) value := by
  have whole : jsonCell (Datum.tagged name content) = made := by
    rw [Datum.tagged, jsonCell, same]
    simp
  rwa [whole]

/-- A content that is neither an array nor an object. -/
theorem taggedCell?_scalar {kind : Kind} {content : Json} {made : Interp Cell}
    (value : kind ≠ .«end») (present : kind ≠ .null) (flat : content.depth = 0)
    (same : taggedScalar? kind content = some <$> made) :
    taggedCell? [("type", .string kind.name), ("value", content)] = some <$> made := by
  rw [taggedCell?]
  simp only [Kind.ofName?_name value present]
  cases content with
  | array items => simp [Json.depth] at flat
  | object fields => simp [Json.depth] at flat
  | _ => exact same

theorem taggedCell?_array {kind : Kind} {items : List Json} (family : kind.isAnyArray = true) :
    taggedCell? [("type", .string kind.name), ("value", .array items)] =
      some <$> (do pure { ← jsonCell (.array items) with kind }) := by
  have known : Kind.ofName? kind.name = some kind :=
    Kind.ofName?_name (by rintro rfl; cases family) (by rintro rfl; cases family)
  rw [taggedCell?]
  simp [known, family]

theorem taggedCell?_object {fields : List (String × Json)} :
    taggedCell? [("type", .string Kind.object.name), ("value", .object fields)] =
      some <$> jsonCell (.object fields) := by
  have known : Kind.ofName? Kind.object.name = some .object := rfl
  rw [taggedCell?]
  simp [known]

theorem taggedCell?_word {kind : Kind} (family : kind.isAnyWord = true) (s : String) :
    taggedCell? [("type", .string kind.name), ("value", .string s)] =
      some <$> wordCell kind s := by
  cases kind <;> first | exact taggedCell?_scalar (by decide) (by decide) rfl rfl | cases family

theorem taggedCell?_text {kind : Kind} (family : kind.isAnyString = true) (s : String) :
    taggedCell? [("type", .string kind.name), ("value", .string s)] =
      some <$> textCell kind s := by
  cases kind <;> first | exact taggedCell?_scalar (by decide) (by decide) rfl rfl | cases family

theorem taggedScalar?_char (c : Char) :
    taggedScalar? .char (.string (String.singleton c)) = some <$> pure (Cell.char c) := by
  have single : (String.singleton c).toList = [c] := String.toList_singleton c
  unfold taggedScalar?
  simp [single]

theorem taggedScalar?_integer {i : Int} (fits : Bits.fits64 i = true) :
    taggedScalar? .integer (.integer i) = some <$> pure (Cell.integer i) := by
  unfold taggedScalar?
  simp [fits]

/-- The source text of a value is loaded. -/
theorem taggedCell?_source {kind : Kind} (source : kind.isSource = true) (text : String) :
    taggedCell? [("type", .string kind.name), ("value", .string text)] = loadFirst? text := by
  have known : Kind.ofName? kind.name = some kind :=
    Kind.ofName?_name (by rintro rfl; cases source) (by rintro rfl; cases source)
  rw [taggedCell?]
  simp only [known]
  cases kind <;> first | rfl | cases source

theorem jsonCell_source {kind : Kind} (source : kind.isSource = true) {text : String} {c : Cell}
    {m m' : Machine} (loaded : loadFirst? text m = .ok (some c) m') :
    jsonCell (Datum.tagged kind.name (.string text)) m = .ok c m' := by
  rw [Datum.tagged, jsonCell, taggedCell?_source source, bind_ok loaded]
  rfl

theorem imports_literal (m : Machine) {lexeme : Lexeme} {kind : Kind} {text : String}
    (sourced : lexeme.Sourced kind text) :
    m.Imports (jsonCell (Datum.tagged kind.name (.string text))) (.literal lexeme) := by
  obtain ⟨c, m', ran, kept, bears⟩ := loadFirst?_run sourced m
  exact ⟨c, m', jsonCell_source sourced.isSource ran, kept,
    fun n around harbors => .literal sourced (bears n around harbors)⟩

/-- Fields whose values are tagged are no tag themselves. -/
theorem taggedCell?_fields {fields : List (String × Datum)} {contents : List (String × Json)}
    (written : Datum.WrittenFields fields contents) : taggedCell? contents = pure none := by
  cases written with
  | nil => rfl
  | cons first rest =>
      cases rest with
      | nil => cases first <;> rfl
      | cons second rest => cases first <;> cases rest <;> rfl

theorem names_fields {fields : List (String × Datum)} {contents : List (String × Json)}
    (written : Datum.WrittenFields fields contents) :
    contents.map Prod.fst = fields.map Prod.fst := by
  induction fields generalizing contents with
  | nil => cases written; rfl
  | cons field fields induction =>
      cases written with
      | cons first rest => rw [List.map_cons, List.map_cons, induction rest]

theorem mapM_keys (keys : List SymbolId) (m : Machine) :
    ((keys.map keyCell).mapM fun c => expect (c.key?.bind (·.symbol)) : Query (List SymbolId)) m =
      .ok keys := by
  induction keys with
  | nil => rfl
  | cons key keys induction =>
      have first : (expect ((keyCell key).key?.bind (·.symbol)) : Query SymbolId) m = .ok key := rfl
      rw [List.map_cons, List.mapM_cons, Query.bind_ok first, Query.bind_ok induction]
      rfl

theorem contextKeys_of_new {m m' n : Machine} {kind : Kind} {keys : List SymbolId}
    {context : SeriesId} (new : NewContext m kind keys context m') {s : Series}
    (held : n.heap.get? context = some s) (link : s.link = .keylist new.keylist)
    (heldNames : n.heap.get? new.keylist = some new.names) :
    Query.contextKeys context n = .ok keys := by
  have keylist : Query.keylist context n = .ok new.keylist := by
    rw [Query.keylist, Query.bind_ok (Query.series_eq_ok.mpr held), link]
    rfl
  have cells := Query.cells_eq_ok.mpr ⟨_, heldNames, new.nameCells⟩
  rw [Query.contextKeys, Query.bind_ok keylist, Query.bind_ok cells]
  exact mapM_keys keys n

/-- Fields that are no tag become an object. -/
theorem imports_object {contents : List (String × Json)} {listed fields : List (String × Datum)}
    (plain : taggedCell? contents = pure none)
    (names : contents.map Prod.fst = listed.map Prod.fst)
    (imported : ∀ m : Machine, m.ImportsFields contents listed) (order : listed.Perm fields)
    (distinct : (fields.map Prod.fst).Nodup) (m : Machine) :
    m.Imports (jsonCell (.object contents)) (.object fields) := by
  obtain ⟨keys, table, ran, grown, spelled⟩ := intern_names (contents.map Prod.fst) m
  obtain ⟨context, m₁, made, ⟨new⟩⟩ := makeContext_run .object keys { m with symbols := table }
  have length : keys.length = contents.length := by
    have same := congrArg List.length (spelled table (.refl _))
    simpa using same
  obtain ⟨cells, m₂, stored, kept, held, represents⟩ :=
    imported m₁ context new.vars [Cell.context .object context] (keys.map fun _ => Cell.null)
      new.held new.varCells (by rw [List.length_map, length])
  rw [List.length_singleton] at stored
  have interned : m.Keeps [] { m with symbols := table } :=
    ⟨fun _ _ _ found => found, fun _ dead => dead, grown⟩
  have keptNew := interned.trans new.kept
  have heldNames : m₂.heap.get? new.keylist = some new.names :=
    kept.get? _ _ (by simpa using new.apart) new.heldNames
  refine ⟨Cell.context .object context, m₂, ?_,
    (keptNew.widen.trans kept).narrow (by simpa using new.contextFresh), fun n around harbors => ?_⟩
  · have keysRan : (contents.mapM fun field => intern field.1) m =
        .ok keys { m with symbols := table } := by
      rw [← ran, List.mapM_map]
      rfl
    rw [jsonCell, plain, pure_bind]
    change ((contents.mapM fun field => intern field.1) >>= _) m = _
    rw [bind_ok keysRan, bind_ok made, bind_ok stored]
    rfl
  · have varsHeld := harbors.get? context _ new.contextFresh held
    have apart : context ∉ around := fun member => by
      have dead := harbors.apart context member new.contextFresh
      rw [held] at dead
      cases dead
    have accessible : Query.isAccessible context n = .ok true := by
      have live : Query.isLive context n = .ok true :=
        congrArg Except.ok (Heap.isLive_iff.mpr ⟨_, varsHeld⟩)
      have open_ : Query.hasFlag context Flags.inaccessible n = .ok false :=
        Query.hasFlag_eq_ok.mpr ⟨_, varsHeld, new.accessible⟩
      rw [Query.isAccessible, Query.bind_ok live, if_pos rfl, Query.bind_ok open_]
      rfl
    have keyNames := spelled n.symbols
      ((new.kept.symbols.trans kept.symbols).trans harbors.symbols)
    have inner : n.Harbors m₁ m₂ (context :: around) :=
      (harbors.back keptNew).enter fun fresh => by
        rw [new.held] at fresh
        cases fresh
    exact .object ⟨rfl, rfl, rfl⟩ apart accessible
      (contextKeys_of_new new varsHeld new.link
        (harbors.get? _ _ new.keylistFresh heldNames))
      (Query.cells_eq_ok.mpr ⟨_, varsHeld, rfl⟩)
      (represents n _ keys inner (keyNames.trans names)) order distinct

end Interp

open Interp

mutual

theorem Datum.Written.imports : {value : Datum} → {j : Json} → value.Written j → (m : Machine) →
    m.Imports (jsonCell j) value
  | _, _, .null, _ => imports_tagged (imports_pure fun _ _ => .null ⟨rfl, rfl, rfl⟩) rfl
  | _, _, .blank, _ => imports_tagged (imports_pure fun _ _ => .blank ⟨rfl, rfl, rfl⟩) rfl
  | _, _, .void, _ => imports_tagged (imports_pure fun _ _ => .void ⟨rfl, rfl, rfl⟩) rfl
  | _, _, .logic _, _ => imports_tagged (imports_pure fun _ _ => .logic ⟨rfl, rfl, rfl⟩) rfl
  | _, _, .integer fits, _ =>
      imports_tagged (imports_pure fun _ _ => .integer fits ⟨rfl, rfl, rfl⟩)
        (taggedCell?_scalar (by decide) (by decide) rfl (taggedScalar?_integer fits))
  | _, _, .char c, _ =>
      imports_tagged (imports_pure fun _ _ => .char ⟨rfl, rfl, rfl⟩)
        (taggedCell?_scalar (by decide) (by decide) rfl (taggedScalar?_char c))
  | _, _, .word s family, m => imports_tagged (imports_word m family s) (taggedCell?_word family s)
  | _, _, .text s family, m => imports_tagged (imports_text m family s) (taggedCell?_text family s)
  | _, _, .literal sourced, m => imports_literal m sourced
  | _, _, .array family items, m => by
      refine imports_tagged (imports_array (items.imports m) family) ?_
      rw [taggedCell?_array family, jsonCell]
  | _, _, .object fields order distinct, m =>
      imports_tagged
        (imports_object (taggedCell?_fields fields) (names_fields fields) fields.imports order
          distinct m)
        taggedCell?_object

theorem Datum.WrittenItems.imports : {items : List Datum} → {contents : List Json} →
    Datum.WrittenItems items contents → (m : Machine) →
    m.ImportsItems (jsonItems contents) items
  | _, _, .nil, m => ⟨[], m, rfl, .refl m, fun _ _ _ => .nil⟩
  | _, _, .cons some_ first rest, m => imports_items_cons some_ (first.imports m) rest.imports

theorem Datum.WrittenFields.imports : {fields : List (String × Datum)} →
    {contents : List (String × Json)} → Datum.WrittenFields fields contents → (m : Machine) →
    m.ImportsFields contents fields
  | _, _, .nil, m => imports_fields_nil m
  | _, _, .cons first rest, m => imports_fields_cons first.imports rest.imports m

end

end Homoicon
