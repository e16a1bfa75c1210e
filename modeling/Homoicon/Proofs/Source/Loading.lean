import Homoicon.Loader
import Homoicon.Proofs.Arena
import Homoicon.Proofs.Running
import Homoicon.Proofs.Source.Trees

/-!
# Trees on the heap

Which tree a cell stands for on the heap of a machine.  Loading a tree makes new series only, and
gives a cell that stands for the tree.
-/

namespace Homoicon

theorem Text.Buffer.slice_ofString (s : String) :
    (ofString s).slice 0 (ofString s).size = s := by
  rw [slice_eq, List.drop_zero, Nat.sub_zero, ← length_toList, List.take_length, toList_ofString,
    String.ofList_toList]

/-! ## Machines that only grow -/

namespace Symbols

theorem spelling_eq (t : Symbols) (id : SymbolId) :
    t.spelling id = ((t.entries[id.index]?).map SymbolEntry.spelling).getD "" := by
  unfold spelling entry
  rw [Array.getD_eq_getD_getElem?]
  cases t.entries[id.index]? <;> rfl

theorem spelling_link (t : Symbols) (before next id : SymbolId) :
    (t.link before next).spelling id = t.spelling id := by
  rw [spelling_eq, spelling_eq]
  unfold link
  rw [Array.getElem?_modify]
  split <;> cases t.entries[id.index]? <;> rfl

theorem spelling_push (t : Symbols) (text lower : String) (canon synonym id : SymbolId) :
    (t.push text lower canon synonym).spelling id =
      if id.index = t.entries.size then text else t.spelling id := by
  rw [spelling_eq, spelling_eq]
  unfold push
  rw [Array.getElem?_push]
  split <;> rfl

/-- A text is entered under its own spelling, and the other spellings stay. -/
theorem spelling_intern (t : Symbols) (text : String) :
    (t.intern text).2.spelling (t.intern text).1 = text ∧
      ∀ id, t.spelling id ≠ "" → (t.intern text).2.spelling id = t.spelling id := by
  have inside {id : SymbolId} (named : t.spelling id ≠ "") : id.index ≠ t.entries.size := by
    intro outside
    rw [spelling_eq, Array.getElem?_eq_none (Nat.le_of_eq outside.symm)] at named
    exact named rfl
  unfold intern
  cases known : t.bySpelling[text]? with
  | some id =>
      refine ⟨?_, fun _ _ => rfl⟩
      rw [spelling_eq, t.spelled text id known]
      rfl
  | none =>
      dsimp only
      cases t.byLower[Text.lowercase text]? with
      | some canon =>
          have size : (t.link canon ⟨t.entries.size⟩).entries.size = t.entries.size :=
            Array.size_modify
          refine ⟨?_, fun id named => ?_⟩
          · rw [spelling_push, if_pos size.symm]
          · rw [spelling_push, size, if_neg (inside named), spelling_link]
      | none =>
          refine ⟨?_, fun id named => ?_⟩
          · rw [spelling_push, if_pos rfl]
          · rw [spelling_push, if_neg (inside named)]
            rfl

end Symbols

/-- A machine that has come to hold more series and spellings, and is else the same. -/
structure Machine.Extends (m m' : Machine) : Prop where
  rest : m' = { m with heap := m'.heap, symbols := m'.symbols }
  get? : ∀ id s, m.heap.get? id = some s → m'.heap.get? id = some s
  spelling : ∀ symbol, m.symbols.spelling symbol ≠ "" →
    m'.symbols.spelling symbol = m.symbols.spelling symbol

namespace Machine.Extends

variable {m m' m'' : Machine}

theorem refl (m : Machine) : m.Extends m := ⟨rfl, fun _ _ found => found, fun _ _ => rfl⟩

theorem trans (first : m.Extends m') (second : m'.Extends m'') : m.Extends m'' where
  rest := by rw [second.rest, first.rest]
  get? id s found := second.get? id s (first.get? id s found)
  spelling symbol named := by
    have same := first.spelling symbol named
    rw [second.spelling symbol (by rwa [same]), same]

theorem alloc (m : Machine) (s : Series) :
    m.Extends { m with heap := (m.heap.alloc s).2 } where
  rest := rfl
  get? id found held := by
    have other : (m.heap.alloc s).1 ≠ id := by
      rintro rfl
      rw [Heap.alloc_fresh] at held
      cases held
    rw [Heap.get?_alloc, if_neg other, held]
  spelling _ _ := rfl

theorem intern (m : Machine) (text : String) :
    m.Extends { m with symbols := (m.symbols.intern text).2 } :=
  ⟨rfl, fun _ _ found => found, (m.symbols.spelling_intern text).2⟩

theorem cells (grown : m.Extends m') {id : SeriesId} {held : Array Cell}
    (found : Query.cells id m = .ok held) : Query.cells id m' = .ok held := by
  obtain ⟨s, live, content⟩ := Query.cells_eq_ok.mp found
  exact Query.cells_eq_ok.mpr ⟨s, grown.get? id s live, content⟩

theorem text (grown : m.Extends m') {id : SeriesId} {held : Text.Buffer}
    (found : Query.text id m = .ok held) : Query.text id m' = .ok held := by
  obtain ⟨s, live, content⟩ := Query.text_eq_ok.mp found
  exact Query.text_eq_ok.mpr ⟨s, grown.get? id s live, content⟩

theorem bytes (grown : m.Extends m') {id : SeriesId} {held : Array UInt8}
    (found : Query.bytes id m = .ok held) : Query.bytes id m' = .ok held := by
  obtain ⟨s, live, content⟩ := Query.bytes_eq_ok.mp found
  exact Query.bytes_eq_ok.mpr ⟨s, grown.get? id s live, content⟩

/-- Taking off quotes looks at nothing but the pairing of a deeply quoted value. -/
theorem unquotify_cases (c : Cell) (n : Nat) :
    (∃ inner, Query.unquotify c n = pure inner) ∨
      ∃ (pairing : SeriesId) (f : Cell → Cell), Query.unquotify c n = (do pure (f (← Query.cell pairing 0))) := by
  unfold Query.unquotify
  dsimp only
  split
  · exact .inl ⟨_, rfl⟩
  · split
    · split
      · split
        · exact .inl ⟨_, rfl⟩
        · exact .inr ⟨_, _, rfl⟩
      · exact .inl ⟨_, rfl⟩
    · exact .inl ⟨_, rfl⟩

theorem unquotify (grown : m.Extends m') {c inner : Cell} {depth : Nat}
    (found : Query.unquotify c depth m = .ok inner) : Query.unquotify c depth m' = .ok inner := by
  rcases unquotify_cases c depth with ⟨same, asked⟩ | ⟨pairing, f, asked⟩
  · rw [asked] at found ⊢
    exact found
  · rw [asked] at found ⊢
    obtain ⟨kept, cell, rest⟩ := Query.bind_eq_ok.mp found
    obtain ⟨held, cells, at_⟩ := Query.cell_eq_ok.mp cell
    exact Query.bind_eq_ok.mpr ⟨kept, Query.cell_eq_ok.mpr ⟨held, grown.cells cells, at_⟩, rest⟩

end Machine.Extends

/-! ## What a cell stands for -/

/-- A cell stands for a literal. -/
inductive Machine.Shows (m : Machine) (c : Cell) : Lexeme → Prop where
  | blank : c.kind = .blank → Shows m c .blank
  | bar : c.kind = .bar → Shows m c .bar
  | void : c.kind = .void → Shows m c (.construct "void")
  | logic {b : Bool} : c.kind = .logic → c.payload = .logic b →
      Shows m c (.construct (if b then "true" else "false"))
  | integer {i : Int} : c.kind = .integer → c.payload = .integer i → Shows m c (.integer i)
  | char {value : Char} : c.kind = .char → c.payload = .char value → Shows m c (.char value)
  | text {id : SeriesId} {index : Nat} {buffer : Text.Buffer} : c.kind = .text →
      c.payload = .series id index → Query.text id m = .ok buffer →
      Shows m c (.text .text (buffer.slice index buffer.size))
  | binary {id : SeriesId} {index : Nat} {bytes : Array UInt8} : c.kind = .binary →
      c.payload = .series id index → Query.bytes id m = .ok bytes →
      Shows m c (.binary (bytes.toList.drop index))
  | tuple {bytes : List UInt8} : c.kind = .tuple → c.payload = .tuple bytes →
      Shows m c (.tuple bytes)
  | word {mark : Mark} {symbol : SymbolId} {index : Nat} : c.kind = Kind.word.withMark mark →
      c.payload = .word symbol index → Shows m c (.word (m.symbols.spelling symbol) mark)

mutual

/-- A cell stands for a tree; the arrays of the tree are listed. -/
inductive Machine.Denotes (m : Machine) : Cell → Node → List SeriesId → Prop where
  | scalar {c : Cell} {lexeme : Lexeme} : c.quoteDepth = 0 → m.Shows c lexeme →
      Denotes m c (.scalar lexeme) []
  | array {c : Cell} {shape : Shape} {mark : Mark} {items : List Item} {id : SeriesId} {index : Nat}
      {cells : Array Cell} {ids : List SeriesId} : c.quoteDepth = 0 →
      c.kind = shape.kind mark → c.payload = .series id index → Query.cells id m = .ok cells →
      DenotesItems m (cells.toList.drop index) items ids →
      Denotes m c (.array shape mark items) (id :: ids)
  | quoted {c inner : Cell} {depth : Nat} {node : Node} {ids : List SeriesId} : 0 < depth →
      c.quoteDepth = depth → Query.unquotify c depth m = .ok inner → Denotes m inner node ids →
      Denotes m c (.quoted depth node) ids

/-- Some cells stand for the items of an array, with the same ones beginning a line. -/
inductive Machine.DenotesItems (m : Machine) : List Cell → List Item → List SeriesId → Prop where
  | nil : DenotesItems m [] [] []
  | cons {c : Cell} {cells : List Cell} {node : Node} {items : List Item}
      {here there : List SeriesId} : Denotes m c node here → DenotesItems m cells items there →
      DenotesItems m (c :: cells) (.mk node c.newline :: items) (here ++ there)

end

namespace Node

theorem Structural.items {shape : Shape} {mark : Mark} {items : List Item}
    (structural : (Node.array shape mark items).Structural) :
    ∀ item ∈ items, item.node.Structural := by
  cases structural with
  | array _ _ each => exact each
  | path each =>
      intro item member
      obtain ⟨part, inside, rfl⟩ := List.mem_map.mp member
      exact each part inside

end Node

namespace Machine

variable {m m' m'' : Machine}

/-! ## Growing leaves trees alone -/

theorem Shows.mono (grown : m.Extends m') {c : Cell} {lexeme : Lexeme} (literal : lexeme.Literal)
    (shown : m.Shows c lexeme) : m'.Shows c lexeme := by
  cases shown with
  | blank kind => exact .blank kind
  | bar kind => exact .bar kind
  | void kind => exact .void kind
  | logic kind payload => exact .logic kind payload
  | integer kind payload => exact .integer kind payload
  | char kind payload => exact .char kind payload
  | text kind payload held => exact .text kind payload (grown.text held)
  | binary kind payload held => exact .binary kind payload (grown.bytes held)
  | tuple kind payload => exact .tuple kind payload
  | @word _ symbol _ kind payload =>
      have named : m.symbols.spelling symbol ≠ "" := by
        cases literal with
        | word _ isName =>
            intro empty
            obtain ⟨first, later, spelled, -⟩ := isName.chars
            rw [empty] at spelled
            cases spelled
      rw [← grown.spelling symbol named]
      exact .word kind payload

mutual

theorem Denotes.mono (grown : m.Extends m') : {node : Node} → node.Structural → {c : Cell} →
    {ids : List SeriesId} → m.Denotes c node ids → m'.Denotes c node ids
  | .scalar _, structural, _, _, .scalar depth shown => by
      cases structural with
      | scalar literal => exact .scalar depth (shown.mono grown literal)
  | .array _ _ _, structural, _, _, .array depth kind payload held items =>
      .array depth kind payload (grown.cells held) (items.mono grown structural.items)
  | .quoted _ _, structural, _, _, .quoted positive depth taken inner => by
      cases structural with
      | quoted _ _ _ structural =>
          exact .quoted positive depth (grown.unquotify taken) (inner.mono grown structural)

theorem DenotesItems.mono (grown : m.Extends m') : {items : List Item} →
    (∀ item ∈ items, item.node.Structural) → {cells : List Cell} → {ids : List SeriesId} →
    m.DenotesItems cells items ids → m'.DenotesItems cells items ids
  | [], _, _, _, .nil => .nil
  | .mk _ _ :: _, structural, _, _, .cons first rest =>
      .cons (first.mono grown (structural _ List.mem_cons_self))
        (rest.mono grown fun item member => structural item (List.mem_cons_of_mem _ member))

end

/-! ## The marks on a cell do not matter -/

/-- Two cells that differ at most in where they stand. -/
structure SameValue (c c' : Cell) : Prop where
  kind : c'.kind = c.kind
  payload : c'.payload = c.payload
  quote : c'.quote = c.quote

theorem SameValue.quoteDepth {c c' : Cell} (same : SameValue c c') :
    c'.quoteDepth = c.quoteDepth := by
  unfold Cell.quoteDepth
  rw [same.payload, same.kind, same.quote]

theorem SameValue.unquotify {c c' inner : Cell} {n : Nat} (same : SameValue c c')
    (taken : Query.unquotify c n m = .ok inner) :
    ∃ inner', Query.unquotify c' n m = .ok inner' ∧ SameValue inner inner' := by
  obtain ⟨kind, payload, binding, quote⟩ := c
  obtain ⟨kind', payload', binding', quote'⟩ := c'
  obtain ⟨rfl, rfl, rfl⟩ : kind' = kind ∧ payload' = payload ∧ quote' = quote :=
    ⟨same.kind, same.payload, same.quote⟩
  revert taken
  unfold Query.unquotify
  split
  · intro taken
    cases taken
    exact ⟨_, rfl, rfl, rfl, rfl⟩
  · dsimp only
    cases payload' with
    | quoted pairing depth =>
        dsimp only
        split
        · split
          · intro taken
            cases taken
            exact ⟨_, rfl, rfl, rfl, rfl⟩
          · intro taken
            obtain ⟨kept, found, rest⟩ := Query.bind_eq_ok.mp taken
            cases rest
            exact ⟨_, Query.bind_eq_ok.mpr ⟨kept, found, rfl⟩, rfl, rfl, rfl⟩
        · intro taken
          cases taken
          exact ⟨_, rfl, rfl, rfl, rfl⟩
    | _ =>
        intro taken
        cases taken
        exact ⟨_, rfl, rfl, rfl, rfl⟩

theorem Shows.congr {c c' : Cell} {lexeme : Lexeme} (same : SameValue c c')
    (shown : m.Shows c lexeme) : m.Shows c' lexeme := by
  obtain ⟨sameKind, samePayload, -⟩ := same
  cases shown with
  | blank kind => exact .blank (sameKind.trans kind)
  | bar kind => exact .bar (sameKind.trans kind)
  | void kind => exact .void (sameKind.trans kind)
  | logic kind payload => exact .logic (sameKind.trans kind) (samePayload.trans payload)
  | integer kind payload => exact .integer (sameKind.trans kind) (samePayload.trans payload)
  | char kind payload => exact .char (sameKind.trans kind) (samePayload.trans payload)
  | text kind payload held => exact .text (sameKind.trans kind) (samePayload.trans payload) held
  | binary kind payload held => exact .binary (sameKind.trans kind) (samePayload.trans payload) held
  | tuple kind payload => exact .tuple (sameKind.trans kind) (samePayload.trans payload)
  | word kind payload => exact .word (sameKind.trans kind) (samePayload.trans payload)

theorem Denotes.congr : {node : Node} → {c c' : Cell} → {ids : List SeriesId} →
    m.Denotes c node ids → SameValue c c' → m.Denotes c' node ids
  | .scalar _, _, _, _, .scalar depth shown, same =>
      .scalar (same.quoteDepth.trans depth) (shown.congr same)
  | .array .., _, _, _, .array depth kind payload held items, same =>
      .array (same.quoteDepth.trans depth) (same.kind.trans kind) (same.payload.trans payload) held
        items
  | .quoted .., _, _, _, .quoted positive depth taken inner, same => by
      obtain ⟨inner', taken', sameInner⟩ := same.unquotify taken
      exact .quoted positive (same.quoteDepth.trans depth) taken' (inner.congr sameInner)

/-! ## New series -/

/-- A machine has grown by some series, each made once. -/
structure Makes (m m' : Machine) (ids : List SeriesId) : Prop where
  grown : m.Extends m'
  distinct : ids.Nodup
  fresh : ∀ id ∈ ids, m.heap.get? id = none
  live : ∀ id ∈ ids, ∃ s, m'.heap.get? id = some s

theorem Extends.makes (grown : m.Extends m') : m.Makes m' [] :=
  ⟨grown, List.nodup_nil, fun _ member => (nomatch member), fun _ member => (nomatch member)⟩

theorem Makes.append {here there : List SeriesId} (first : m.Makes m' here)
    (second : m'.Makes m'' there) : m.Makes m'' (here ++ there) where
  grown := first.grown.trans second.grown
  distinct := by
    refine List.nodup_append.mpr ⟨first.distinct, second.distinct, fun id member other behind => ?_⟩
    rintro rfl
    obtain ⟨s, found⟩ := first.live id member
    rw [second.fresh id behind] at found
    cases found
  fresh id member := by
    rcases List.mem_append.mp member with member | member
    · exact first.fresh id member
    · cases found : m.heap.get? id with
      | none => rfl
      | some s =>
          have later := first.grown.get? id s found
          rw [second.fresh id member] at later
          cases later
  live id member := by
    rcases List.mem_append.mp member with member | member
    · obtain ⟨s, found⟩ := first.live id member
      exact ⟨s, second.grown.get? id s found⟩
    · exact second.live id member

theorem Makes.perm {ids ids' : List SeriesId} (makes : m.Makes m' ids) (perm : ids'.Perm ids) :
    m.Makes m' ids' :=
  ⟨makes.grown, perm.nodup_iff.mpr makes.distinct, fun id member => makes.fresh id (perm.mem_iff.mp member),
    fun id member => makes.live id (perm.mem_iff.mp member)⟩

theorem makes_alloc (m : Machine) (s : Series) :
    m.Makes { m with heap := (m.heap.alloc s).2 } [(m.heap.alloc s).1] where
  grown := .alloc m s
  distinct := by simp
  fresh id member := by
    cases List.mem_singleton.mp member
    exact m.heap.alloc_fresh s
  live id member := by
    cases List.mem_singleton.mp member
    exact ⟨s, by rw [Heap.get?_alloc, if_pos rfl]⟩

/-! ## Loading -/

/-- A computation makes a cell that stands for a tree, and new series for its arrays. -/
def Loads (m : Machine) (made : Interp Cell) (node : Node) : Prop :=
  ∃ c m' ids, made m = .ok c m' ∧ m.Makes m' ids ∧ m'.Denotes c node ids ∧ c.newline = false

theorem loads_pure {c : Cell} {lexeme : Lexeme} (depth : c.quoteDepth = 0)
    (plain : c.newline = false) (shown : m.Shows c lexeme) :
    m.Loads (pure c) (.scalar lexeme) :=
  ⟨c, m, [], rfl, (Extends.refl m).makes, .scalar depth shown, plain⟩

theorem loads_word (m : Machine) (name : String) (mark : Mark) :
    m.Loads (Interp.wordCell (Kind.word.withMark mark) name) (.scalar (.word name mark)) := by
  obtain ⟨spelled, -⟩ := m.symbols.spelling_intern name
  refine ⟨_, _, [], rfl, (Extends.intern m name).makes, ?_, rfl⟩
  refine .scalar rfl ?_
  have shown : Shows { m with symbols := (m.symbols.intern name).2 }
      (Cell.word (Kind.word.withMark mark) (m.symbols.intern name).1)
      (.word ((m.symbols.intern name).2.spelling (m.symbols.intern name).1) mark) :=
    .word rfl rfl
  rwa [spelled] at shown

theorem get?_alloc_self (m : Machine) (s : Series) :
    Heap.get? (m.heap.alloc s).2 (m.heap.alloc s).1 = some s := by
  rw [Heap.get?_alloc, if_pos rfl]

theorem alloc_run (m : Machine) (s : Series) :
    Interp.alloc s m = .ok (m.heap.alloc s).1 { m with heap := (m.heap.alloc s).2 } := rfl

/-- A value at the beginning of a new series. -/
theorem loads_series {kind : Kind} {s : Series} {lexeme : Lexeme}
    (shown : Shows { m with heap := (m.heap.alloc s).2 } (Cell.series kind (m.heap.alloc s).1 0)
      lexeme) :
    m.Loads (do pure (Cell.series kind (← Interp.alloc s) 0)) (.scalar lexeme) :=
  ⟨Cell.series kind (m.heap.alloc s).1 0, { m with heap := (m.heap.alloc s).2 }, [], rfl,
    (Extends.alloc m s).makes, .scalar rfl shown, rfl⟩

theorem loads_text (m : Machine) (s : String) :
    m.Loads (Interp.textCell .text s) (.scalar (.text .text s)) := by
  have held : Query.text (m.heap.alloc (Series.ofText s).managed).1
      { m with heap := (m.heap.alloc (Series.ofText s).managed).2 } =
        .ok (Text.Buffer.ofString s) :=
    Query.text_eq_ok.mpr ⟨_, get?_alloc_self m _, rfl⟩
  have shown := Shows.text (c := Cell.series .text (m.heap.alloc (Series.ofText s).managed).1 0)
    rfl rfl held
  rw [Text.Buffer.slice_ofString] at shown
  exact loads_series shown

theorem loads_binary (m : Machine) (bytes : List UInt8) :
    m.Loads (do pure (Cell.series .binary (← Interp.allocBytes bytes.toArray) 0))
      (.scalar (.binary bytes)) := by
  have held : Query.bytes (m.heap.alloc (Series.ofBytes bytes.toArray).managed).1
      { m with heap := (m.heap.alloc (Series.ofBytes bytes.toArray).managed).2 } =
        .ok bytes.toArray :=
    Query.bytes_eq_ok.mpr ⟨_, get?_alloc_self m _, rfl⟩
  have shown := Shows.binary
    (c := Cell.series .binary (m.heap.alloc (Series.ofBytes bytes.toArray).managed).1 0)
    rfl rfl held
  exact loads_series shown

theorem loads_literal {lexeme : Lexeme} (literal : lexeme.Literal) (m : Machine) :
    m.Loads (Interp.lexemeCell lexeme) (.scalar lexeme) := by
  cases literal with
  | blank => exact loads_pure rfl rfl (.blank rfl)
  | bar => exact loads_pure rfl rfl (.bar rfl)
  | void => exact loads_pure rfl rfl (.void rfl)
  | logic b =>
      cases b
      · exact loads_pure rfl rfl (.logic (b := false) rfl rfl)
      · exact loads_pure rfl rfl (.logic (b := true) rfl rfl)
  | integer => exact loads_pure rfl rfl (.integer rfl rfl)
  | char => exact loads_pure rfl rfl (.char rfl rfl)
  | tuple => exact loads_pure rfl rfl (.tuple rfl rfl)
  | text s => exact loads_text m s
  | binary bytes => exact loads_binary m bytes
  | word mark _ => exact loads_word m _ mark

theorem Shows.kind_ne {c : Cell} {lexeme : Lexeme} (shown : m.Shows c lexeme) :
    c.kind ≠ .quoted := by
  cases shown with
  | blank kind | bar kind | void kind | logic kind | integer kind | char kind | text kind
  | binary kind | tuple kind =>
      rw [kind]
      decide
  | @word mark _ _ kind =>
      rw [kind]
      cases mark <;> decide

/-- An unquoted tree has no quotes on its cell either. -/
theorem Denotes.unquoted {c : Cell} {node : Node} {ids : List SeriesId}
    (denotes : m.Denotes c node ids) (unquoted : ∀ depth inner, node ≠ .quoted depth inner) :
    c.kind ≠ .quoted ∧ c.quoteDepth = 0 ∧ c.quote = 0 := by
  have plain : c.kind ≠ .quoted ∧ c.quoteDepth = 0 := by
    cases denotes with
    | scalar depth shown => exact ⟨shown.kind_ne, depth⟩
    | @array _ shape mark _ _ _ _ _ depth kind =>
        refine ⟨?_, depth⟩
        rw [kind]
        cases shape <;> cases mark <;> decide
    | quoted => exact absurd rfl (unquoted _ _)
  refine ⟨plain.1, plain.2, ?_⟩
  have depth := plain.2
  unfold Cell.quoteDepth at depth
  split at depth
  · rwa [if_neg plain.1] at depth
  · exact depth

/-- Up to depth three the quotes are counted on the cell. -/
theorem loads_shallow {c : Cell} {node : Node} {ids : List SeriesId} {depth : Nat}
    (positive : 0 < depth) (shallow : depth ≤ 3)
    (unquoted : ∀ more inner, node ≠ .quoted more inner) (denotes : m.Denotes c node ids) :
    m.Denotes { c with quote := depth } (.quoted depth node) ids := by
  obtain ⟨kind, -, quote⟩ := denotes.unquoted unquoted
  obtain ⟨depth, rfl⟩ : ∃ less, depth = less + 1 := ⟨depth - 1, by omega⟩
  have counted : ({ c with quote := depth + 1 } : Cell).quoteDepth = depth + 1 := by
    unfold Cell.quoteDepth
    dsimp only
    split
    · rw [if_neg kind]
    · rfl
  have taken : Query.unquotify { c with quote := depth + 1 } (depth + 1) =
      pure { c with quote := depth + 1 - (depth + 1) % 256 } := by
    unfold Query.unquotify
    rw [if_neg (by simp)]
    dsimp only
    split
    · rw [if_neg kind]
    · rfl
  have none_left : depth + 1 - (depth + 1) % 256 = c.quote := by omega
  have inner : m.Denotes { c with quote := depth + 1 - (depth + 1) % 256 } node ids :=
    denotes.congr ⟨rfl, rfl, none_left⟩
  exact .quoted positive counted (by rw [taken]; rfl) inner

/-- A deeper value moves into a pairing. -/
theorem loads_deep {c : Cell} {node : Node} {ids : List SeriesId} {depth : Nat}
    (deep : 3 < depth) (unquoted : ∀ more inner, node ≠ .quoted more inner)
    {pairing : SeriesId}
    (held : Query.cells pairing m = .ok #[{ c.copied with quote := 0 }, Cell.blank])
    {c' : Cell} (kind : c'.kind = .quoted) (payload : c'.payload = .quoted pairing depth)
    (denotes : m.Denotes c node ids) :
    m.Denotes c' (.quoted depth node) ids := by
  obtain ⟨-, -, quote⟩ := denotes.unquoted unquoted
  have counted : c'.quoteDepth = depth := by
    unfold Cell.quoteDepth
    rw [payload]
    exact if_pos kind
  have found : Query.cell pairing 0 m = .ok { c.copied with quote := 0 } :=
    Query.cell_eq_ok.mpr ⟨_, held, rfl⟩
  have taken : Query.unquotify c' depth = Query.cell pairing 0 >>= fun inner =>
      pure { inner.copied with
        quote := 0
        unevaluated := inner.copied.unevaluated || c'.unevaluated
        enfixed := inner.copied.enfixed || c'.enfixed
        newline := inner.copied.newline || c'.newline } := by
    have some_ : (depth == 0) = false := beq_eq_false_iff_ne.mpr (by omega)
    unfold Query.unquotify
    rw [payload]
    simp only [some_, kind, Bool.false_eq_true, if_false, if_true, Nat.sub_self,
      if_neg (by omega : ¬ 3 < 0)]
  have read := (congrFun taken m).trans (Query.bind_ok found _)
  exact .quoted (by omega) counted read (denotes.congr ⟨rfl, rfl, quote.symm⟩)

theorem loads_quoted {node : Node} {depth : Nat} {made : Interp Cell} (positive : 0 < depth)
    (bounded : depth < Bits.count32) (unquoted : ∀ more inner, node ≠ .quoted more inner)
    (structural : node.Structural) (loads : m.Loads made node) :
    m.Loads (do Interp.quotify (← made) depth) (.quoted depth node) := by
  obtain ⟨c, m', ids, loaded, makes, denotes, plain⟩ := loads
  obtain ⟨kind, noDepth, quote⟩ := denotes.unquoted unquoted
  have counted : c.quoteDepth + depth = depth := by rw [noDepth, Nat.zero_add]
  have some_ : (depth == 0) = false := beq_eq_false_iff_ne.mpr (by omega)
  have quoted : Interp.quotify c depth =
      if depth ≤ 3 then pure { c with quote := depth }
      else Interp.alloc ((Series.ofCells #[{ c.copied with quote := 0 }, Cell.blank]).withFlags
        (Flags.pairing ||| Flags.managed)) >>= fun pairing =>
          pure { kind := .quoted, payload := .quoted pairing depth, unevaluated := c.unevaluated,
                 enfixed := c.enfixed, newline := c.newline } := by
    unfold Interp.quotify
    simp only [some_, counted, Nat.not_le_of_lt bounded, kind, if_false, Bool.false_eq_true]
  unfold Loads
  rw [Interp.bind_ok loaded, quoted]
  by_cases shallow : depth ≤ 3
  · rw [if_pos shallow]
    exact ⟨_, m', ids, rfl, makes, loads_shallow positive shallow unquoted denotes, plain⟩
  · rw [if_neg shallow]
    have grown := Extends.alloc m' ((Series.ofCells #[{ c.copied with quote := 0 }, Cell.blank]).withFlags
      (Flags.pairing ||| Flags.managed))
    have made := makes.append grown.makes
    rw [List.append_nil] at made
    rw [Interp.bind_ok (alloc_run m' _)]
    refine ⟨_, _, ids, rfl, made, ?_, plain⟩
    refine loads_deep (Nat.lt_of_not_le shallow) unquoted ?_ rfl rfl (denotes.mono grown structural)
    exact Query.cells_eq_ok.mpr ⟨_, get?_alloc_self m' _, rfl⟩

theorem loads_array {shape : Shape} {mark : Mark} {items : List Item} {made : Interp (List Cell)}
    {cells : List Cell} {ids : List SeriesId} (loaded : made m = .ok cells m')
    (makes : m.Makes m' ids) (structural : ∀ item ∈ items, item.node.Structural)
    (denotes : m'.DenotesItems cells items ids) :
    m.Loads (do Interp.arrayCell (shape.kind mark) (← made)) (.array shape mark items) := by
  have grown := makes_alloc m' (Series.ofCells cells.toArray).managed
  let block := (m'.heap.alloc (Series.ofCells cells.toArray).managed).1
  have made_ : m.Makes _ (block :: ids) := (makes.append grown).perm (List.perm_append_singleton _ _).symm
  have held : Query.cells block
      { m' with heap := (m'.heap.alloc (Series.ofCells cells.toArray).managed).2 } =
        .ok cells.toArray :=
    Query.cells_eq_ok.mpr ⟨_, get?_alloc_self m' _, rfl⟩
  refine ⟨Cell.series (shape.kind mark) block 0, _, block :: ids, ?_, made_, ?_, rfl⟩
  · rw [Interp.bind_ok loaded]
    unfold Interp.arrayCell Interp.allocArray
    rw [Interp.bind_ok (alloc_run m' _)]
    rfl
  · exact .array rfl rfl rfl held (denotes.mono grown.grown structural)

/-- An item that begins a line is marked so. -/
theorem denotes_item {c : Cell} {node : Node} {ids : List SeriesId} (denotes : m.Denotes c node ids)
    (plain : c.newline = false) (newline : Bool) :
    ∃ c', (if newline then { c with newline := true } else c) = c' ∧ m.Denotes c' node ids ∧
      c'.newline = newline := by
  cases newline with
  | true => exact ⟨_, rfl, denotes.congr ⟨rfl, rfl, rfl⟩, rfl⟩
  | false => exact ⟨_, rfl, denotes, plain⟩

mutual

/-- Loading a tree makes a cell that stands for it. -/
theorem loads_node : {node : Node} → node.Structural → (m : Machine) →
    m.Loads (Interp.nodeCell node) node
  | .scalar _, structural, m => by
      cases structural with
      | scalar literal => exact loads_literal literal m
  | .quoted _ _, structural, m => by
      cases structural with
      | quoted positive bounded unquoted structural =>
          exact loads_quoted positive bounded unquoted structural (loads_node structural m)
  | .array shape mark items, structural, m => by
      obtain ⟨cells, m', ids, loaded, makes, denotes⟩ := loads_items structural.items m
      exact loads_array loaded makes structural.items denotes

/-- Loading items makes cells that stand for them. -/
theorem loads_items : {items : List Item} → (∀ item ∈ items, item.node.Structural) →
    (m : Machine) → ∃ cells m' ids, Interp.itemCells items m = .ok cells m' ∧ m.Makes m' ids ∧
      m'.DenotesItems cells items ids
  | [], _, m => ⟨[], m, [], rfl, (Extends.refl m).makes, .nil⟩
  | .mk node newline :: rest, structural, m => by
      have first : node.Structural := structural _ List.mem_cons_self
      obtain ⟨c, m₁, here, loaded, makes, denotes, plain⟩ := loads_node first m
      obtain ⟨cells, m₂, there, loadedRest, makesRest, denotesRest⟩ :=
        loads_items (fun item member => structural item (List.mem_cons_of_mem _ member)) m₁
      obtain ⟨c', marked, denotes, begins⟩ := denotes_item denotes plain newline
      have item : Interp.itemCell (.mk node newline) m = .ok c' m₁ := by
        rw [Interp.itemCell, Interp.bind_ok loaded]
        exact congrArg (EStateM.Result.ok · m₁) marked
      refine ⟨c' :: cells, m₂, here ++ there, ?_, makes.append makesRest, ?_⟩
      · rw [Interp.itemCells, Interp.bind_ok item, Interp.bind_ok loadedRest]
        rfl
      · rw [← begins]
        exact .cons (denotes.mono makesRest.grown first) denotesRest

end

end Machine

end Homoicon
