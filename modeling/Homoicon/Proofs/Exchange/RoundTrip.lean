import Mathlib.Data.List.Nodup
import Homoicon.Interpreter
import Homoicon.Proofs.Exchange.Import
import Homoicon.Proofs.Exchange.Values
import Homoicon.Proofs.Running

/-!
# Writing values and reading them back

A cell that stands for a value is written as a document of the value.  Each array and object that
is entered is another series of the heap, so the bound on the depth is never reached.  A value that
was written as JSON comes back as the same value, whatever machine reads the text.
-/

namespace Homoicon

/-! ## The bound on the depth -/

/-- The series around a value: arrays in use, none of them twice. -/
structure Machine.Around (m : Machine) (around : List SeriesId) : Prop where
  distinct : around.Nodup
  cells : ∀ id ∈ around, ∃ held, Query.cells id m = .ok held

theorem Machine.Around.length_le {m : Machine} {around : List SeriesId}
    (enclosing : m.Around around) : around.length ≤ m.heap.slots.size := by
  have slots : (around.map SeriesId.slot).Nodup :=
    enclosing.distinct.map fun _ _ same => congrArg SeriesId.mk same
  have inside : around.map SeriesId.slot ⊆ List.range m.heap.slots.size := by
    intro slot member
    obtain ⟨id, enclosed, rfl⟩ := List.mem_map.mp member
    obtain ⟨held, found⟩ := enclosing.cells id enclosed
    obtain ⟨s, live, -⟩ := Query.cells_eq_ok.mp found
    exact List.mem_range.mpr (Heap.slot_lt_size (by rw [Heap.isLive, live]; rfl))
  simpa using slots.length_le_of_subset inside

theorem Machine.Around.notMem_of_text {m : Machine} {around : List SeriesId}
    (enclosing : m.Around around) {id : SeriesId} {buffer : Text.Buffer}
    (found : Query.text id m = .ok buffer) : id ∉ around := by
  intro member
  obtain ⟨held, cells⟩ := enclosing.cells id member
  obtain ⟨s, live, content⟩ := Query.cells_eq_ok.mp cells
  obtain ⟨t, same, text⟩ := Query.text_eq_ok.mp found
  cases live.symm.trans same
  cases content.symm.trans text

/-- Inside one more series, one step less is left to enter others. -/
theorem Machine.Around.enter {m : Machine} {around : List SeriesId} {id : SeriesId}
    (inside : m.Around (id :: around)) {fuel : Nat}
    (enough : m.heap.slots.size ≤ fuel + around.length) :
    ∃ left, fuel = left + 1 ∧ m.heap.slots.size ≤ left + (id :: around).length := by
  have bound := inside.length_le
  rw [List.length_cons] at bound ⊢
  exact ⟨fuel - 1, by omega, by omega⟩

theorem Machine.Around.cons {m : Machine} {around : List SeriesId} (enclosing : m.Around around)
    {id : SeriesId} {held : Array Cell} (found : Query.cells id m = .ok held)
    (apart : id ∉ around) : m.Around (id :: around) where
  distinct := List.nodup_cons.mpr ⟨apart, enclosing.distinct⟩
  cells := List.forall_mem_cons.mpr ⟨⟨held, found⟩, enclosing.cells⟩

namespace Query

variable {m : Machine} {around : List SeriesId} {c : Cell} {kind : Kind} {payload : Payload}

theorem exchangeIn_tagged (holds : c.Holds kind payload) (plain : kind ≠ .quoted) {fuel : Nat}
    {content : Json}
    (written : exchangeContent (fun id => exchangeIn fuel (id :: around)) around c m =
      .ok content) :
    exchangeIn (fuel + 1) around c m = .ok (Datum.tagged kind.name content) := by
  have name : c.typeName = kind.name := by
    have unquoted : c.isQuoted = false := by
      simp [Cell.isQuoted, holds.unquoted, holds.kind, plain]
    unfold Cell.typeName Cell.isNull Cell.typeKind
    rw [unquoted, holds.kind]
    split
    · rename_i null
      rw [of_decide_eq_true null]
      rfl
    · rfl
  rw [exchangeIn, bind_ok written, name]
  rfl

theorem node_series {id : SeriesId} {index : Nat} (holds : c.Holds kind (.series id index)) :
    (c.seriesId? <|> c.varlist?) = some id := by
  rw [Cell.seriesId?, holds.payload]
  rfl

theorem node_context {varlist : SeriesId} {phase : Option Action}
    (holds : c.Holds kind (.context varlist phase)) :
    (c.seriesId? <|> c.varlist?) = some varlist := by
  rw [Cell.seriesId?, Cell.varlist?, holds.payload]
  rfl

theorem any_contains_eq_false {id : SeriesId} (apart : id ∉ around) :
    (some id).any around.contains = false := by
  simpa using apart

theorem ne_quoted_of_family {family : Kind → Bool} (apart : family .quoted = false)
    (member : family kind = true) : kind ≠ .quoted := by
  rintro rfl
  rw [apart] at member
  cases member

theorem isQuoted_of_holds (holds : c.Holds kind payload) (plain : kind ≠ .quoted) :
    c.isQuoted = false := by
  simp [Cell.isQuoted, holds.unquoted, holds.kind, plain]

/-- The content of a value that refers to no series. -/
def scalarContent? (m : Machine) : Payload → Option Json
  | .none => some .null
  | .logic b => some (.bool b)
  | .integer i => some (.integer i)
  | .char value => some (.string (String.singleton value))
  | .word symbol _ => some (.string (m.symbols.spelling symbol))
  | _ => none

section Content

variable {nested : SeriesId → Cell → Query Json} {id : SeriesId} {index : Nat}

theorem exchangeContent_scalar {content : Json} (holds : c.Holds kind payload)
    (plain : kind ≠ .quoted) (scalar : scalarContent? m payload = some content) :
    exchangeContent nested around c m = .ok content := by
  have unquoted := isQuoted_of_holds holds plain
  unfold exchangeContent
  cases payload <;> cases scalar
  all_goals
    simp only [unquoted, Cell.seriesId?, Cell.varlist?, holds.payload]
    rfl

theorem exchangeContent_text {buffer : Text.Buffer} (family : kind.isAnyString = true)
    (holds : c.Holds kind (.series id index)) (found : text id m = .ok buffer)
    (apart : id ∉ around) :
    exchangeContent nested around c m = .ok (.string (buffer.slice index buffer.size)) := by
  have unquoted := isQuoted_of_holds holds (ne_quoted_of_family rfl family)
  have noArray : kind.isAnyArray = false := by
    cases kind <;> first | rfl | cases family
  have whole : cellText c m = .ok (buffer.slice index buffer.size) :=
    cellText_run holds.payload found
  unfold exchangeContent
  rw [node_series holds]
  simp only [unquoted, any_contains_eq_false apart, holds.payload, holds.kind, noArray, family,
    Bool.false_eq_true, if_false, if_true]
  rw [map_run, whole]

/-- What has no counterpart is written as its source text, also inside itself. -/
theorem exchangeContent_source {text : String} (unquoted : c.quote = 0)
    (source : c.kind.isSource = true) (made : c.payload.isSource = true)
    (molded : mold c m = .ok text) :
    exchangeContent nested around c m = .ok (.string text) := by
  have written : (do pure (.string (← mold c)) : Query Json) m = .ok (.string text) := by
    rw [bind_ok molded, pure_run]
  have plain : c.isQuoted = false :=
    isQuoted_of_holds ⟨unquoted, rfl, rfl⟩ (ne_quoted_of_family rfl source)
  have noArray : c.kind.isAnyArray = false := by
    cases kind : c.kind <;> first | rfl | (rw [kind] at source; cases source)
  have noString : c.kind.isAnyString = false := by
    cases kind : c.kind <;> first | rfl | (rw [kind] at source; cases source)
  unfold exchangeContent
  simp only [plain, Bool.false_eq_true, if_false]
  by_cases inside : ((c.seriesId? <|> c.varlist?).any around.contains) = true
  · rw [if_pos inside]
    exact written
  · rw [if_neg inside]
    cases payload : c.payload with
    | series id index =>
        simp only [noArray, noString, Bool.false_eq_true, if_false]
        exact written
    | pair | tuple | time | date => exact written
    | _ =>
        rw [payload] at made
        cases made

theorem exchangeContent_array {cells : Array Cell} {contents : List Json}
    (family : kind.isAnyArray = true) (holds : c.Holds kind (.series id index))
    (found : Query.cells id m = .ok cells) (apart : id ∉ around)
    (items : (cells.toList.drop index).mapM (nested id) m = .ok contents) :
    exchangeContent nested around c m = .ok (.array contents) := by
  have unquoted := isQuoted_of_holds holds (ne_quoted_of_family rfl family)
  have rest : cellsFrom id index m = .ok (cells.toList.drop index) :=
    cellsFrom_eq_ok.mpr ⟨cells, found, rfl⟩
  unfold exchangeContent
  rw [node_series holds]
  simp only [unquoted, any_contains_eq_false apart, holds.payload, holds.kind, family,
    Bool.false_eq_true, if_false, if_true]
  rw [bind_ok rest, map_run, items]

/-- A field of an object: its name and the document of its value. -/
def exchangeField (nested : Cell → Query Json) (varlist : SeriesId) (key : SymbolId × Nat) :
    Query (String × Json) := do
  pure (← spelling key.1, ← nested (← cell varlist (key.2 + 1)))

theorem exchangeContent_object {varlist : SeriesId} {phase : Option Action} {names : List SymbolId}
    {contents : List (String × Json)} (holds : c.Holds .object (.context varlist phase))
    (accessible : isAccessible varlist m = .ok true) (apart : varlist ∉ around)
    (keys : contextKeys varlist m = .ok names)
    (fields : names.zipIdx.mapM (exchangeField (nested varlist) varlist) m = .ok contents) :
    exchangeContent nested around c m = .ok (.object contents) := by
  have unquoted := isQuoted_of_holds holds (by decide)
  unfold exchangeContent
  rw [node_context holds]
  simp only [unquoted, any_contains_eq_false apart, holds.payload, holds.kind,
    Bool.false_eq_true, if_false]
  rw [bind_ok accessible]
  change (contextKeys varlist >>= fun keys =>
    Json.object <$> keys.zipIdx.mapM (exchangeField (nested varlist) varlist)) m = _
  rw [bind_ok keys, map_run, fields]

end Content

theorem exchangeIn_source {text : String} (unquoted : c.quote = 0) (same : c.kind = kind)
    (source : kind.isSource = true) (made : c.payload.isSource = true)
    (molded : mold c m = .ok text) {fuel : Nat} :
    exchangeIn (fuel + 1) around c m = .ok (Datum.tagged kind.name (.string text)) := by
  subst same
  exact exchangeIn_tagged ⟨unquoted, rfl, rfl⟩ (ne_quoted_of_family rfl source)
    (exchangeContent_source unquoted source made molded)

end Query

/-! ## Writing a value -/

open Query

mutual

theorem Machine.Represents.exchange {m : Machine} : {around : List SeriesId} → {c : Cell} →
    {value : Datum} → m.Represents around c value → m.Around around → (fuel : Nat) →
    m.heap.slots.size ≤ fuel + around.length →
    ∃ j, exchangeIn (fuel + 1) around c m = .ok j ∧ value.Written j
  | _, _, _, .null holds, _, _, _ =>
      ⟨_, exchangeIn_tagged holds (by decide) (exchangeContent_scalar holds (by decide) rfl), .null⟩
  | _, _, _, .blank holds, _, _, _ =>
      ⟨_, exchangeIn_tagged holds (by decide) (exchangeContent_scalar holds (by decide) rfl),
        .blank⟩
  | _, _, _, .void holds, _, _, _ =>
      ⟨_, exchangeIn_tagged holds (by decide) (exchangeContent_scalar holds (by decide) rfl), .void⟩
  | _, _, _, .logic holds, _, _, _ =>
      ⟨_, exchangeIn_tagged holds (by decide) (exchangeContent_scalar holds (by decide) rfl),
        .logic _⟩
  | _, _, _, .integer fits holds, _, _, _ =>
      ⟨_, exchangeIn_tagged holds (by decide) (exchangeContent_scalar holds (by decide) rfl),
        .integer fits⟩
  | _, _, _, .char holds, _, _, _ =>
      ⟨_, exchangeIn_tagged holds (by decide) (exchangeContent_scalar holds (by decide) rfl),
        .char _⟩
  | _, _, _, .word family holds, _, _, _ => by
      have plain := ne_quoted_of_family rfl family
      exact ⟨_, exchangeIn_tagged holds plain (exchangeContent_scalar holds plain rfl),
        .word _ family⟩
  | _, _, _, .text family holds found, enclosing, _, _ => by
      have plain := ne_quoted_of_family rfl family
      have apart := enclosing.notMem_of_text found
      exact ⟨_, exchangeIn_tagged holds plain (exchangeContent_text family holds found apart),
        .text _ family⟩
  | _, _, _, .literal sourced bears, _, _, _ =>
      ⟨_, exchangeIn_source bears.unquoted (bears.kind_eq sourced) sourced.isSource bears.isSource
        (bears.mold sourced), .literal sourced⟩
  | _, _, _, .array family holds apart found items, enclosing, fuel, enough => by
      have plain := ne_quoted_of_family rfl family
      have inside := enclosing.cons found apart
      obtain ⟨left, rfl, less⟩ := inside.enter enough
      obtain ⟨contents, written, spelled⟩ := items.exchange inside left less
      exact ⟨_, exchangeIn_tagged holds plain
        (exchangeContent_array family holds found apart written), .array family spelled⟩
  | _, _, _, .object holds apart accessible keys found fields order distinct, enclosing, fuel,
      enough => by
      have inside := enclosing.cons found apart
      obtain ⟨left, rfl, less⟩ := inside.enter enough
      obtain ⟨contents, written, spelled⟩ := fields.exchange inside left less found 0 rfl
      exact ⟨_, exchangeIn_tagged holds (by decide)
        (exchangeContent_object holds accessible apart keys written),
        .object spelled order distinct⟩

theorem Machine.RepresentsItems.exchange {m : Machine} : {around : List SeriesId} →
    {cells : List Cell} → {items : List Datum} → m.RepresentsItems around cells items →
    m.Around around → (fuel : Nat) → m.heap.slots.size ≤ fuel + around.length →
    ∃ contents, cells.mapM (exchangeIn (fuel + 1) around) m = .ok contents ∧
      Datum.WrittenItems items contents
  | _, _, _, .nil, _, _, _ => ⟨[], rfl, .nil⟩
  | _, _, _, .cons some_ first rest, enclosing, fuel, enough => by
      obtain ⟨j, written, spelled⟩ := first.exchange enclosing fuel enough
      obtain ⟨contents, others, rest⟩ := rest.exchange enclosing fuel enough
      refine ⟨j :: contents, ?_, .cons some_ spelled rest⟩
      rw [List.mapM_cons, bind_ok written, bind_ok others, pure_run]

theorem Machine.RepresentsFields.exchange {m : Machine} : {around : List SeriesId} →
    {symbols : List SymbolId} → {cells : List Cell} → {fields : List (String × Datum)} →
    m.RepresentsFields around symbols cells fields → m.Around around → (fuel : Nat) →
    m.heap.slots.size ≤ fuel + around.length → {varlist : SeriesId} → {held : Array Cell} →
    Query.cells varlist m = .ok held → (before : Nat) → held.toList.drop (before + 1) = cells →
    ∃ contents, (symbols.zipIdx before).mapM
        (exchangeField (exchangeIn (fuel + 1) around) varlist) m = .ok contents ∧
      Datum.WrittenFields fields contents
  | _, _, _, _, .nil, _, _, _, _, _, _, _, _ => ⟨[], rfl, .nil⟩
  | around, symbol :: _, c :: _, _, .cons first rest, enclosing, fuel, enough, varlist, held, found,
      before, slots => by
      obtain ⟨j, written, spelled⟩ := first.exchange enclosing fuel enough
      obtain ⟨contents, others, rest⟩ := rest.exchange enclosing fuel enough found (before + 1)
        (by rw [← List.tail_drop, slots]; rfl)
      have here : held[before + 1]? = some c := by
        rw [← Array.getElem?_toList, ← List.head?_drop, slots]
        rfl
      have slot := cell_eq_ok.mpr ⟨held, found, here⟩
      refine ⟨(m.symbols.spelling symbol, j) :: contents, ?_, .cons spelled rest⟩
      have field : exchangeField (exchangeIn (fuel + 1) around) varlist (symbol, before) m =
          .ok (m.symbols.spelling symbol, j) := by
        have named : spelling symbol m = .ok (m.symbols.spelling symbol) := rfl
        rw [exchangeField, bind_ok named, bind_ok slot, bind_ok written, pure_run]
      rw [List.zipIdx_cons, List.mapM_cons, bind_ok field, bind_ok others, pure_run]

end

theorem Query.toJson_run {library : Json.Library} {m : Machine} {c : Cell} {j : Json}
    (exchanged : Query.exchange c m = .ok j) :
    Interpreter.toJson library c m = .ok (library.write j) := by
  rw [Interpreter.toJson, Query.bind_ok exchanged, Query.pure_run]

/-- A value is written as one of its documents. -/
theorem Query.exchange_represents {m : Machine} {c : Cell} {value : Datum}
    (represents : m.Represents [] c value) : ∃ j, Query.exchange c m = .ok j ∧ value.Written j :=
  represents.exchange ⟨List.nodup_nil, List.forall_mem_nil _⟩ (m.heap.slots.size + 1)
    (Nat.le_succ_of_le (Nat.le_refl _))

/-! ## There and back -/

/-- The text of a document of a value is read as that value, unless it nests too deep. -/
theorem Datum.Written.comes_back {library : Json.Library} (faithful : library.Faithful)
    {value : Datum} {j : Json} (written : value.Written j)
    (shallow : j.depth ≤ Json.Library.nestingLimit) (n : Machine) :
    ∃ c' n', Interp.ofJson library (library.write j) n = .ok c' n' ∧ n'.Represents [] c' value := by
  obtain ⟨c', n', ran, -, imported⟩ := written.sorted.imports n
  refine ⟨c', n', ?_, imported n' [] (.refl n n')⟩
  rw [Interp.ofJson, faithful.read_write written.exact shallow]
  exact ran

/-- The text of a value can always be written, and unless it nests too deep it is read as that
value again: an object with a field for a type and one for a value is not taken for what such
fields say. -/
theorem Interp.ofJson_toJson {library : Json.Library} (faithful : library.Faithful) {m : Machine}
    {c : Cell} {value : Datum} (represents : m.Represents [] c value) :
    ∃ j, Query.exchange c m = .ok j ∧ Interpreter.toJson library c m = .ok (library.write j) ∧
      (j.depth ≤ Json.Library.nestingLimit → ∀ n : Machine, ∃ c' n',
        Interp.ofJson library (library.write j) n = .ok c' n' ∧ n'.Represents [] c' value) := by
  obtain ⟨j, exchanged, written⟩ := Query.exchange_represents represents
  exact ⟨j, exchanged, Query.toJson_run exchanged,
    fun shallow => written.comes_back faithful shallow⟩

/-! ## An object that looks like a tag -/

/-- A machine with a block of one object, whose fields are `value` and `type`. -/
def taggedLooking : Machine :=
  { config := {}
    countdown := 0
    symbols := { entries := #[⟨"value", "value", ⟨0⟩, ⟨0⟩⟩, ⟨"type", "type", ⟨1⟩, ⟨1⟩⟩] }
    heap :=
      { ballast := 0
        slots := #[
          some (Series.ofCells #[Cell.context .object ⟨1⟩]),
          some { Series.ofCells #[Cell.context .object ⟨1⟩, Cell.integer 7, Cell.series .text ⟨3⟩ 0]
            with link := .keylist ⟨2⟩ },
          some (Series.ofCells #[Cell.blank,
            Cell.typeset (Typeset.param ⟨0⟩ .normal KindSet.anyValue),
            Cell.typeset (Typeset.param ⟨1⟩ .normal KindSet.anyValue)]),
          some (Series.ofText "integer!")] } }

/-- The value of that block. -/
def taggedLookingValue : Datum :=
  .array .block [.object [("type", .text .text "integer!"), ("value", .integer 7)]]

theorem taggedLooking_represents :
    taggedLooking.Represents [] (Cell.series .block ⟨0⟩ 0) taggedLookingValue := by
  have text : taggedLooking.Represents [⟨1⟩, ⟨0⟩] (Cell.series .text ⟨3⟩ 0)
      (.text .text "integer!") := by
    have shown := @Machine.Represents.text taggedLooking [⟨1⟩, ⟨0⟩] (Cell.series .text ⟨3⟩ 0) .text
      ⟨3⟩ 0 (.ofString "integer!") rfl ⟨rfl, rfl, rfl⟩ rfl
    rwa [Text.Buffer.slice_ofString] at shown
  have fields : taggedLooking.RepresentsFields [⟨1⟩, ⟨0⟩] [⟨0⟩, ⟨1⟩]
      [Cell.integer 7, Cell.series .text ⟨3⟩ 0]
      [("value", .integer 7), ("type", .text .text "integer!")] :=
    .cons (.integer rfl ⟨rfl, rfl, rfl⟩) (.cons text .nil)
  refine .array rfl ⟨rfl, rfl, rfl⟩ List.not_mem_nil rfl (.cons nofun ?_ .nil)
  exact .object ⟨rfl, rfl, rfl⟩ (by decide) rfl rfl rfl fields (.swap _ _ _) (by decide)

theorem Interp.ofJson_toJson_taggedLooking :
    taggedLooking.Represents [] (Cell.series .block ⟨0⟩ 0) taggedLookingValue ∧
      ∃ j, Query.exchange (Cell.series .block ⟨0⟩ 0) taggedLooking = .ok j ∧
        Interpreter.toJson Json.standard (Cell.series .block ⟨0⟩ 0) taggedLooking =
          .ok (Json.standard.write j) ∧
        (j.depth ≤ Json.Library.nestingLimit → ∀ n : Machine, ∃ c' n',
          Interp.ofJson Json.standard (Json.standard.write j) n = .ok c' n' ∧
            n'.Represents [] c' taggedLookingValue) :=
  ⟨taggedLooking_represents, ofJson_toJson Json.standard_faithful taggedLooking_represents⟩

/-! ## Scalars without a content -/

/-- The document of a bar, whose tag promises a content that is not null. -/
def barDocument : Json := Datum.tagged Kind.bar.name .null

/-- Cells that stand for the same literal have the same kind and the same text. -/
theorem Machine.Represents.alike {m m' : Machine} {around around' : List SeriesId} {c c' : Cell}
    {lexeme : Lexeme} (here : m.Represents around c (.literal lexeme))
    (there : m'.Represents around' c' (.literal lexeme)) :
    c.kind = c'.kind ∧ ∃ text, Query.mold c m = .ok text ∧ Query.mold c' m' = .ok text := by
  cases here with
  | literal sourced bears =>
      cases there with
      | literal sourced' bears' =>
          obtain ⟨rfl, rfl⟩ := sourced.unique sourced'
          exact ⟨(bears.kind_eq sourced).trans (bears'.kind_eq sourced).symm, _,
            bears.mold sourced, bears'.mold sourced⟩

/-- What becomes of scalars that have no content of their own in JSON, when a machine writes them
and another one reads them. -/
structure Json.Library.Exchanges (library : Json.Library) (m n : Machine) : Prop where
  /-- A bar does not come back as a bar: its document is read as an object with its two fields. -/
  bar : ∀ c : Cell, c.Holds .bar .none →
    Interpreter.toJson library c m = .ok (library.write barDocument) ∧
      ∃ c' n', Interp.ofJson library (library.write barDocument) n = .ok c' n' ∧
        n'.Represents [] c' (.object [("type", .text .text Kind.bar.name), ("value", .null)])
  /-- A pair, a time or another value that is molded is written with its kind and its source text,
  and what comes back is the first value of that text. -/
  source : ∀ (c : Cell) (text : String), c.quote = 0 → c.kind.isSource = true →
    c.payload.isSource = true → Query.mold c m = .ok text →
    Interpreter.toJson library c m =
        .ok (library.write (Datum.tagged c.kind.name (.string text))) ∧
      ∀ c' n', Interp.loadFirst? text n = .ok (some c') n' →
        Interp.ofJson library (library.write (Datum.tagged c.kind.name (.string text))) n =
          .ok c' n'
  /-- Tuples, dates, bytes and issues come back, alone or within other values. -/
  value : ∀ (c : Cell) (value : Datum), m.Represents [] c value →
    ∃ j, Interpreter.toJson library c m = .ok (library.write j) ∧
      (j.depth ≤ nestingLimit → ∃ c' n',
        Interp.ofJson library (library.write j) n = .ok c' n' ∧ n'.Represents [] c' value)
  /-- What comes back of such a literal has its kind, and is molded as it was. -/
  alike : ∀ (around around' : List SeriesId) (c c' : Cell) (lexeme : Lexeme),
    m.Represents around c (.literal lexeme) → n.Represents around' c' (.literal lexeme) →
    c.kind = c'.kind ∧ ∃ text, Query.mold c m = .ok text ∧ Query.mold c' n = .ok text
  /-- Each tuple, date, binary or issue that the scanner finds is such a literal. -/
  scanned : ∀ (text : String) (tokens : List Token), Token.tokenize text = .ok tokens →
    ∀ token ∈ tokens, Token.isSourced token.lexeme = true →
      ∃ c m', Interp.lexemeCell token.lexeme m = .ok c m' ∧
        m'.Represents [] c (.literal token.lexeme)

/-- A bar is read as an object. -/
theorem Interp.jsonCell_bar (n : Machine) :
    n.Imports (jsonCell barDocument)
      (.object [("type", .text .text Kind.bar.name), ("value", .null)]) := by
  have name (n : Machine) : n.Imports (jsonCell (.string Kind.bar.name))
      (.text .text Kind.bar.name) := by
    rw [jsonCell]
    exact imports_text n rfl Kind.bar.name
  have content (n : Machine) : n.Imports (jsonCell .null) .null := by
    rw [jsonCell]
    exact imports_pure fun _ _ => .null ⟨rfl, rfl, rfl⟩
  have fields (n : Machine) : n.ImportsFields
      [("type", .string Kind.bar.name), ("value", .null)]
      [("type", .text .text Kind.bar.name), ("value", .null)] :=
    imports_fields_cons name (imports_fields_cons content imports_fields_nil) n
  exact imports_object rfl rfl fields (.refl _) (by decide) n

/-- A bar is lost; each other scalar without a content of its own is left to its source text, from
which tuples, dates, bytes and issues are read back. -/
theorem Interp.ofJson_toJson_scalars {library : Json.Library} (faithful : library.Faithful)
    (m n : Machine) : library.Exchanges m n where
  bar c holds := by
    have written : Query.exchange c m = .ok barDocument :=
      Query.exchangeIn_tagged holds (by decide)
        (Query.exchangeContent_scalar holds (by decide) rfl)
    obtain ⟨c', n', ran, -, imported⟩ := jsonCell_bar n
    have read : library.read (library.write barDocument) = .ok barDocument :=
      faithful.read_write (Datum.exact_tagged .null) (by decide)
    refine ⟨Query.toJson_run written, c', n', ?_, imported n' [] (.refl n n')⟩
    rw [ofJson, read]
    exact ran
  source c text unquoted source made molded := by
    have written : Query.exchange c m = .ok (Datum.tagged c.kind.name (.string text)) :=
      Query.exchangeIn_source unquoted rfl source made molded
    refine ⟨Query.toJson_run written, fun c' n' loaded => ?_⟩
    have shallow : (Datum.tagged c.kind.name (.string text)).depth ≤ Json.Library.nestingLimit := by
      simp [Datum.tagged, Json.depth, Json.fieldsDepth, Json.Library.nestingLimit]
    have read := faithful.read_write (Datum.exact_tagged (.string text)) shallow
    rw [ofJson, read]
    exact jsonCell_source source loaded
  value c value represents := by
    obtain ⟨j, exchanged, written⟩ := Query.exchange_represents represents
    exact ⟨j, Query.toJson_run exchanged, fun shallow => written.comes_back faithful shallow n⟩
  alike _ _ _ _ _ here there := here.alike there
  scanned text tokens read token member counted := by
    obtain ⟨kind, molded, sourced⟩ := Token.settles_sourced.tokenize read token member counted
    obtain ⟨c, m', made, -, -, -, bears⟩ := lexemeCell_run sourced m
    exact ⟨c, m', made, .literal sourced (bears m' [] (.refl m m'))⟩

theorem Interp.ofJson_toJson_scalars_standard :
    Json.standard.Faithful ∧ Cell.bar.Holds .bar .none ∧
      taggedLooking.Represents [] { kind := .tuple, payload := .tuple [1, 2, 3] }
        (.literal (.tuple [1, 2, 3])) ∧
      Json.standard.Exchanges taggedLooking taggedLooking :=
  ⟨Json.standard_faithful, ⟨rfl, rfl, rfl⟩,
    .literal (.tuple (by decide) (by decide)) (.tuple ⟨rfl, rfl, rfl⟩),
    ofJson_toJson_scalars Json.standard_faithful taggedLooking taggedLooking⟩

end Homoicon
