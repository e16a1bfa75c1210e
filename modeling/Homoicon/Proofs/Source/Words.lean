import Mathlib.Data.List.Forall2
import Homoicon.Proofs.Exchange.Growing

/-!
# The words of a source text

The words of a tree, in the order of the text, and the words among cells of the heap, those within
arrays and below quotes included.  What scanning makes has the words of the text, each of its
arrays and pairings made once.
-/

namespace Homoicon

mutual

/-- The names of the words of a tree, in order. -/
def Node.names : Node → List String
  | .scalar (.word name _) => [name]
  | .scalar _ => []
  | .quoted _ node => node.names
  | .array _ _ items => Item.names items

/-- The names of the words of some items, in order. -/
def Item.names : List Item → List String
  | [] => []
  | .mk node _ :: rest => node.names ++ Item.names rest

end

/-- The array of an array value, or the pairing of a value quoted too deeply for its cell. -/
def Cell.inner? (c : Cell) : Option SeriesId :=
  match c.kind, c.payload with
  | .quoted, .quoted pairing _ => some pairing
  | kind, .series id _ => if kind.isAnyArray then some id else none
  | _, _ => none

theorem Cell.inner?_of_isAnyWord {c : Cell} (word : c.kind.isAnyWord = true) : c.inner? = none := by
  obtain ⟨kind, payload⟩ := c
  unfold inner?
  cases kind <;> first | (cases word; done) | (cases payload <;> rfl)

namespace Machine

/-- The words among some cells, within arrays and below quotes too, in order.  The arrays and
pairings gone through are listed. -/
inductive Words (m : Machine) : List Cell → List Cell → List SeriesId → Prop where
  | nil : Words m [] [] []
  | word {c : Cell} {cells words : List Cell} {ids : List SeriesId} {symbol : SymbolId}
      {slot : Nat} : c.kind.isAnyWord = true → c.payload = .word symbol slot →
      Words m cells words ids → Words m (c :: cells) (c :: words) ids
  | within {c : Cell} {cells here there : List Cell} {inner : SeriesId} {held : Array Cell}
      {ids ids' : List SeriesId} : c.inner? = some inner → Query.cells inner m = .ok held →
      Words m held.toList here ids → Words m cells there ids' →
      Words m (c :: cells) (here ++ there) (inner :: (ids ++ ids'))
  | other {c : Cell} {cells words : List Cell} {ids : List SeriesId} :
      c.kind.isAnyWord = false → c.inner? = none → Words m cells words ids →
      Words m (c :: cells) words ids

namespace Words

variable {m m' : Machine} {cells words there : List Cell} {ids ids' : List SeriesId}

/-- The words depend on the arrays and pairings gone through only. -/
theorem transfer (known : m.Words cells words ids)
    (same : ∀ id ∈ ids, m'.heap.get? id = m.heap.get? id) : m'.Words cells words ids := by
  induction known with
  | nil => exact .nil
  | word kind payload _ ih => exact .word kind payload (ih same)
  | other kind inner _ ih => exact .other kind inner (ih same)
  | within inner found _ _ ihHere ihThere =>
      obtain ⟨s, live, content⟩ := Query.cells_eq_ok.mp found
      have first := same _ List.mem_cons_self
      refine .within inner (Query.cells_eq_ok.mpr ⟨s, first.trans live, content⟩)
        (ihHere fun id member => same id ?_) (ihThere fun id member => same id ?_)
      · exact List.mem_cons_of_mem _ (List.mem_append_left _ member)
      · exact List.mem_cons_of_mem _ (List.mem_append_right _ member)

theorem mono (known : m.Words cells words ids) (grown : m.Extends m') :
    m'.Words cells words ids := by
  induction known with
  | nil => exact .nil
  | word kind payload _ ih => exact .word kind payload ih
  | other kind inner _ ih => exact .other kind inner ih
  | within inner found _ _ ihHere ihThere =>
      exact .within inner (grown.cells found) ihHere ihThere

/-- The words of a cell come before those of the cells behind it. -/
theorem cons {c : Cell} (first : m.Words [c] words ids) (rest : m.Words cells there ids') :
    m.Words (c :: cells) (words ++ there) (ids ++ ids') := by
  cases first with
  | word kind payload none =>
      cases none
      exact .word kind payload rest
  | within inner found here none =>
      cases none
      rw [List.append_nil, List.append_nil]
      exact .within inner found here rest
  | other kind inner none =>
      cases none
      exact .other kind inner rest

end Words

/-- Some words have the given names. -/
def Spelled (t : Symbols) (words : List Cell) (names : List String) : Prop :=
  List.Forall₂ (fun c name => ∃ symbol, c.wordSymbol? = some symbol ∧ symbol.index < t.size ∧
    t.spelling symbol = name) words names

theorem Spelled.grow {t t' : Symbols} {words : List Cell} {names : List String}
    (spelled : Spelled t words names) (grows : t.Grows t') : Spelled t' words names := by
  refine spelled.imp fun c name => ?_
  rintro ⟨symbol, word, inside, rfl⟩
  exact ⟨symbol, word, Nat.lt_of_lt_of_le inside grows.size, grows.spelling symbol inside⟩

/-- A machine has come to hold some cells with the words of the given names, the arrays of which
are new. -/
structure Builds (m m' : Machine) (cells : List Cell) (names : List String)
    (ids : List SeriesId) : Prop where
  makes : m.Makes m' ids
  grows : m.symbols.Grows m'.symbols
  words : ∃ words, m'.Words cells words ids ∧ Spelled m'.symbols words names

namespace Builds

variable {m m' m'' : Machine} {c c' : Cell} {cells : List Cell} {names names' : List String}
  {ids ids' : List SeriesId}

theorem nil (m : Machine) : m.Builds m [] [] [] :=
  ⟨(Extends.refl m).makes, .refl _, [], .nil, .nil⟩

/-- A value that holds no words. -/
theorem plain (grown : m.Extends m') (grows : m.symbols.Grows m'.symbols)
    (kind : c.kind.isAnyWord = false) (inner : c.inner? = none) : m.Builds m' [c] [] [] :=
  ⟨grown.makes, grows, [], .other kind inner .nil, .nil⟩

theorem cons (first : m.Builds m' [c] names ids) (rest : m'.Builds m'' cells names' ids') :
    m.Builds m'' (c :: cells) (names ++ names') (ids ++ ids') := by
  obtain ⟨here, words, spelled⟩ := first.words
  obtain ⟨there, words', spelled'⟩ := rest.words
  exact ⟨first.makes.append rest.makes, first.grows.trans rest.grows, here ++ there,
    (words.mono rest.makes.grown).cons words',
    List.rel_append (spelled.grow rest.grows) spelled'⟩

/-- Quotes on the cell and the place of a value change nothing about its words. -/
theorem congr (built : m.Builds m' [c] names ids) (kind : c'.kind = c.kind)
    (inner : c'.inner? = c.inner?)
    (payload : c.kind.isAnyWord = true → c'.payload = c.payload) :
    m.Builds m' [c'] names ids := by
  obtain ⟨words, known, spelled⟩ := built.words
  refine ⟨built.makes, built.grows, ?_⟩
  cases known with
  | word isWord written none =>
      cases none
      obtain _ | ⟨⟨symbol, word, inside, name⟩, none⟩ := spelled
      cases none
      have same := payload isWord
      have word' : c'.wordSymbol? = some symbol := by
        unfold Cell.wordSymbol? at word ⊢
        rwa [same]
      exact ⟨[c'], .word (kind ▸ isWord) (same.trans written) .nil,
        .cons ⟨symbol, word', inside, name⟩ .nil⟩
  | within leads found here none =>
      cases none
      exact ⟨_, .within (inner.trans leads) found here .nil, spelled⟩
  | other isOther leads none =>
      cases none
      exact ⟨[], .other (kind ▸ isOther) (inner.trans leads) .nil, spelled⟩

theorem moved (built : m.Builds m' [c] names ids) (c' : Cell) (kind : c'.kind = c.kind)
    (payload : c'.payload = c.payload) : m.Builds m' [c'] names ids := by
  refine built.congr kind ?_ fun _ => payload
  unfold Cell.inner?
  rw [kind, payload]

/-- Cells that are put into a new array or pairing. -/
theorem enclose (built : m.Builds m' cells names ids) {s : Series} {held : Array Cell}
    (content : s.content = .array held) (known : ∀ {words}, m'.Words cells words ids →
      Words { m' with heap := (m'.heap.alloc s).2 } held.toList words ids)
    (leads : c.inner? = some (m'.heap.alloc s).1) :
    m.Builds { m' with heap := (m'.heap.alloc s).2 } [c] names ((m'.heap.alloc s).1 :: ids) := by
  obtain ⟨words, found, spelled⟩ := built.words
  refine ⟨(built.makes.append (makes_alloc m' s)).perm (List.perm_append_singleton _ _).symm,
    built.grows, words, ?_, spelled⟩
  have holds : Query.cells (m'.heap.alloc s).1 { m' with heap := (m'.heap.alloc s).2 } = .ok held :=
    Query.cells_eq_ok.mpr ⟨s, get?_alloc_self m' s, content⟩
  simpa using Words.within leads holds (known found) .nil

end Builds

section

open Interp

variable {m m' next : Machine} {c c' : Cell} {cells : List Cell} {names : List String}
  {ids : List SeriesId}

/-- Quoting a value changes nothing about its words. -/
theorem builds_quotify {n : Nat} (built : m.Builds m' [c] names ids)
    (quoted : quotify c n m' = .ok c' next) : ∃ ids', m.Builds next [c'] names ids' := by
  unfold quotify at quoted
  split at quoted
  · cases quoted
    exact ⟨ids, built⟩
  dsimp only at quoted
  by_cases vast : Bits.count32 ≤ c.quoteDepth + n
  · rw [if_pos vast] at quoted
    cases quoted
  rw [if_neg vast] at quoted
  by_cases kind : c.kind = .quoted
  · rw [if_pos kind] at quoted
    cases payload : c.payload with
    | quoted pairing before =>
        rw [payload] at quoted
        cases quoted
        refine ⟨ids, built.congr rfl ?_ fun word => absurd word ?_⟩
        · unfold Cell.inner?
          rw [payload, kind]
        · rw [kind]
          exact Bool.false_ne_true
    | _ =>
        rw [payload] at quoted
        cases quoted
        exact ⟨ids, built⟩
  rw [if_neg kind] at quoted
  split at quoted
  · cases quoted
    exact ⟨ids, built.moved _ rfl rfl⟩
  · rw [bind_ok (alloc_run m' _)] at quoted
    cases quoted
    have held := (built.moved { c.copied with quote := 0 } rfl rfl).cons
      (.plain (c := Cell.blank) (.refl m') (.refl _) rfl rfl)
    rw [List.append_nil, List.append_nil] at held
    refine ⟨_, held.enclose rfl (fun known => known.mono (.alloc m' _)) rfl⟩

theorem builds_array {kind : Kind} (built : m.Builds m' cells names ids)
    (array : kind.isAnyArray = true) (made : arrayCell kind cells m' = .ok c next) :
    ∃ ids', m.Builds next [c] names ids' := by
  unfold arrayCell allocArray at made
  rw [bind_ok (alloc_run m' _)] at made
  cases made
  refine ⟨_, built.enclose rfl (fun known => known.mono (.alloc m' _)) ?_⟩
  unfold Cell.inner? Cell.series
  cases kind <;> first | rfl | cases array

theorem builds_word {mark : Mark} {name : String}
    (made : wordCell (Kind.word.withMark mark) name m = .ok c next) :
    ∃ ids, m.Builds next [c] [name] ids := by
  cases made
  have isWord : (Kind.word.withMark mark).isAnyWord = true := by cases mark <;> rfl
  refine ⟨[], (Extends.intern m name).makes, .intern m.symbols name, _, .word isWord rfl .nil, ?_⟩
  exact .cons ⟨_, rfl, m.symbols.index_intern name, (m.symbols.spelling_intern name).1⟩ .nil

/-- A value of a new series that is no array. -/
theorem builds_series {s : Series} {f : SeriesId → Cell}
    (made : (do pure (f (← alloc s))) m = .ok c next)
    (kind : ∀ id, (f id).kind.isAnyWord = false) (inner : ∀ id, (f id).inner? = none) :
    ∃ ids, m.Builds next [c] [] ids := by
  rw [bind_ok (alloc_run m _)] at made
  cases made
  exact ⟨[], .plain (.alloc m s) (.refl _) (kind _) (inner _)⟩

/-- A named value is no word and leads to no array. -/
theorem constructCell_cases (name : String) :
    (∃ c, constructCell name = pure c ∧ c.kind.isAnyWord = false ∧ c.inner? = none) ∨
      ∃ cause, constructCell name = fail cause := by
  unfold constructCell
  split
  · exact .inl ⟨_, rfl, rfl, rfl⟩
  · exact .inl ⟨_, rfl, rfl, rfl⟩
  · exact .inl ⟨_, rfl, rfl, rfl⟩
  · exact .inl ⟨_, rfl, rfl, rfl⟩
  · exact .inl ⟨_, rfl, rfl, rfl⟩
  · exact .inr ⟨_, rfl⟩

theorem builds_lexeme {lexeme : Lexeme} (made : lexemeCell lexeme m = .ok c next) :
    ∃ ids, m.Builds next [c] (Node.scalar lexeme).names ids := by
  cases lexeme with
  | word name mark => exact builds_word made
  | text form s =>
      refine builds_series (f := fun id => Cell.series form.kind id 0) made ?_ ?_ <;>
        cases form <;> exact fun _ => rfl
  | binary bytes =>
      exact builds_series (f := fun id => Cell.series .binary id 0) made (fun _ => rfl) fun _ => rfl
  | pair x y integral =>
      cases integral <;> exact builds_series (f := fun id => { kind := .pair, payload := .pair id })
        made (fun _ => rfl) fun _ => rfl
  | construct name =>
      rw [lexemeCell] at made
      obtain ⟨value, same, kind, inner⟩ | ⟨cause, same⟩ := constructCell_cases name
      · rw [same] at made
        cases made
        exact ⟨[], .plain (.refl _) (.refl _) kind inner⟩
      · rw [same] at made
        cases made
  | opening | closing | quote | slash | setMark => cases made
  | _ =>
      cases made
      exact ⟨[], .plain (.refl _) (.refl _) rfl rfl⟩

mutual

/-- The value of a tree has the words of the tree. -/
theorem builds_node : {node : Node} → {m next : Machine} → {c : Cell} →
    nodeCell node m = .ok c next → ∃ ids, m.Builds next [c] node.names ids
  | .scalar _, _, _, _, made => builds_lexeme made
  | .quoted _ _, _, _, _, made => by
      obtain ⟨inner, between, made, quoted⟩ := bind_eq_ok.mp made
      obtain ⟨_, built⟩ := builds_node made
      exact builds_quotify built quoted
  | .array shape mark _, _, _, _, made => by
      obtain ⟨cells, between, made, array⟩ := bind_eq_ok.mp made
      obtain ⟨_, built⟩ := builds_items made
      refine builds_array built ?_ array
      cases shape <;> cases mark <;> rfl

/-- The values of some items have the words of the items. -/
theorem builds_items : {items : List Item} → {m next : Machine} → {cells : List Cell} →
    itemCells items m = .ok cells next → ∃ ids, m.Builds next cells (Item.names items) ids
  | [], m, _, _, made => by
      cases made
      exact ⟨[], .nil m⟩
  | .mk node newline :: rest, _, _, _, made => by
      obtain ⟨c, between, first, made⟩ := bind_eq_ok.mp made
      obtain ⟨cells, last, rest, done⟩ := bind_eq_ok.mp made
      cases done
      obtain ⟨value, _, first, marked⟩ := bind_eq_ok.mp first
      cases marked
      obtain ⟨_, built⟩ := builds_node first
      obtain ⟨_, builtRest⟩ := builds_items rest
      have item := built.moved (if newline then { value with newline := true } else value)
        (by cases newline <;> rfl) (by cases newline <;> rfl)
      exact ⟨_, item.cons builtRest⟩

end

end

/-- The tree of a source text is put on the heap in a new block, with the words of the text. -/
theorem builds_scan {m next : Machine} {source : String} {block : SeriesId}
    (scanned : Interp.scan source m = .ok block next) :
    ∃ items cells words ids, Node.scan source = .ok items ∧ m.Makes next (block :: ids) ∧
      Query.cells block next = .ok cells ∧ next.Words cells.toList words ids ∧
      Spelled next.symbols words (Item.names items) := by
  obtain ⟨items, between, read, made⟩ := Interp.bind_eq_ok.mp scanned
  obtain ⟨cells, last, made, put⟩ := Interp.bind_eq_ok.mp made
  have found : Node.scan source = .ok items ∧ between = m := by
    cases answer : Node.scan source with
    | ok found =>
        rw [answer] at read
        cases read
        exact ⟨rfl, rfl⟩
    | error cause =>
        rw [answer] at read
        cases cause <;> cases read
  obtain ⟨found, rfl⟩ := found
  obtain ⟨ids, built⟩ := builds_items made
  obtain ⟨words, known, spelled⟩ := built.words
  cases put
  exact ⟨items, cells.toArray, words, ids, found,
    (built.makes.append (makes_alloc last _)).perm (List.perm_append_singleton _ _).symm,
    Query.cells_eq_ok.mpr ⟨_, get?_alloc_self last _, rfl⟩, known.mono (.alloc last _), spelled⟩

end Machine

end Homoicon
