import Homoicon.Proofs.Natives
import Homoicon.Proofs.Paths.Elements

/-!
# Keys of comparison

A value of a kind that has an order is compared by a key, a list of numbers.  The order of two
values is that of their keys, and they are equal if they have the same key, so equality and order
cannot disagree.
-/

namespace Homoicon

/-! ## Names -/

namespace Symbols

/-- Names have the same canon if they have the same small letters: the small letters lead to the
canon, and the canon has them. -/
structure Folded (t : Symbols) : Prop where
  known : ∀ (i : Nat) (e : SymbolEntry), t.entries[i]? = some e → t.byLower[e.lower]? = some e.canon
  lowered : ∀ (text : String) (id : SymbolId), t.byLower[text]? = some id →
    (t.entries[id.index]?).map SymbolEntry.lower = some text

/-- A table that texts were entered into, one after the other. -/
inductive Entered : Symbols → Prop where
  | empty : Entered .empty
  | intern {t : Symbols} (before : Entered t) (text : String) : Entered (t.intern text).2

variable {t : Symbols}

theorem folded_empty : Folded .empty where
  known i e found := by
    rw [show Symbols.empty.entries = #[] from rfl, Array.getElem?_empty] at found
    cases found
  lowered text id found := by
    rw [show Symbols.empty.byLower = ∅ from rfl, Std.HashMap.getElem?_empty] at found
    cases found

theorem Folded.link (folded : t.Folded) (before next : SymbolId) : (t.link before next).Folded where
  known i e found := by
    rw [Symbols.link, Array.getElem?_modify] at found
    split_ifs at found
    · obtain ⟨old, here, rfl⟩ := Option.map_eq_some_iff.mp found
      exact folded.known i old here
    · exact folded.known i e found
  lowered text id found := by
    rw [← folded.lowered text id found, Symbols.link, Array.getElem?_modify]
    split_ifs
    · rw [Option.map_map]
      rfl
    · rfl

/-- An entry of a known name. -/
theorem Folded.push (folded : t.Folded) {lower : String} {canon : SymbolId}
    (found : t.byLower[lower]? = some canon) (text : String) (synonym : SymbolId) :
    (t.push text lower canon synonym).Folded where
  known i e here := by
    rw [Symbols.push, Array.getElem?_push] at here
    split_ifs at here
    · cases here
      exact found
    · exact folded.known i e here
  lowered text' id led := by
    have entered := folded.lowered text' id led
    rw [Symbols.push, Array.getElem?_push]
    split_ifs with new
    · rw [new, Array.getElem?_eq_none le_rfl] at entered
      cases entered
    · exact entered

/-- An entry of a new name, which is its own canon. -/
theorem Folded.enter (folded : t.Folded) {lower : String} (unknown : t.byLower[lower]? = none)
    (text : String) :
    ({ t with byLower := t.byLower.insert lower ⟨t.entries.size⟩ }.push text lower
      ⟨t.entries.size⟩ ⟨t.entries.size⟩).Folded where
  known i e here := by
    rw [Symbols.push, Array.getElem?_push] at here
    rw [Symbols.push, Std.HashMap.getElem?_insert]
    split_ifs at here
    · cases here
      exact if_pos (beq_self_eq_true lower)
    · have led := folded.known i e here
      rw [if_neg, led]
      intro same
      rw [← beq_iff_eq.mp same, unknown] at led
      cases led
  lowered text' id led := by
    rw [Symbols.push, Std.HashMap.getElem?_insert] at led
    rw [Symbols.push, Array.getElem?_push]
    split_ifs at led with same
    · cases led
      rw [if_pos rfl, ← beq_iff_eq.mp same]
      rfl
    · have entered := folded.lowered text' id led
      split_ifs with new
      · rw [new, Array.getElem?_eq_none le_rfl] at entered
        cases entered
      · exact entered

/-- Entering a text keeps the canons in step with the small letters. -/
theorem Folded.intern (folded : t.Folded) (text : String) : (t.intern text).2.Folded := by
  unfold Symbols.intern
  cases t.bySpelling[text]? with
  | some id => exact folded
  | none =>
      dsimp only
      cases found : t.byLower[Text.lowercase text]? with
      | some canon => exact (folded.link canon _).push found text _
      | none => exact folded.enter found text

theorem Entered.folded (entered : t.Entered) : t.Folded := by
  induction entered with
  | empty => exact folded_empty
  | intern _ text folded => exact folded.intern text

/-- The small letters of a name lead to its canon. -/
theorem Folded.canon (folded : t.Folded) {x : SymbolId} (inside : x.index < t.size) :
    t.byLower[t.lower x]? = some (t.canon x) := by
  have here : t.entries[x.index]? = some (t.entry x) := by
    rw [entry, Array.getD_eq_getD_getElem?, Array.getElem?_eq_getElem inside, Option.getD_some]
  exact folded.known x.index (t.entry x) here

/-- Names are the same if they have the same small letters. -/
theorem Folded.same_iff (folded : t.Folded) {x y : SymbolId} (first : x.index < t.size)
    (second : y.index < t.size) : t.same x y = true ↔ t.lower x = t.lower y := by
  have led := folded.canon first
  have led' := folded.canon second
  rw [same, beq_iff_eq]
  constructor
  · intro canon
    have lower := folded.lowered _ _ led
    rw [canon, folded.lowered _ _ led'] at lower
    exact (Option.some.inj lower).symm
  · intro lower
    rw [lower, led'] at led
    exact (Option.some.inj led).symm

end Symbols

/-! ## Orders of lists -/

theorem compareLists_eq_compareLex {α : Type} (order : α → α → Ordering) (xs ys : List α) :
    compareLists order xs ys = List.compareLex order xs ys := by
  induction xs generalizing ys with
  | nil => cases ys <;> rfl
  | cons x xs rest =>
      cases ys with
      | nil => rfl
      | cons y ys =>
          rw [compareLists, List.compareLex_cons_cons, rest]
          cases order x y <;> rfl

theorem compare_natCast (a b : Nat) : compare (a : Int) (b : Int) = compare a b := by
  rw [Int.compare_eq_ite_lt, Nat.compare_eq_ite_lt]
  simp only [Int.ofNat_lt]

/-- Lists whose elements are compared as numbers are compared as lists of numbers. -/
theorem compareLists_numbers {α : Type} (number : α → Nat) (xs ys : List α) :
    compareLists (fun x y => compare (number x) (number y)) xs ys =
      compare (xs.map fun x => (number x : Int)) (ys.map fun y => (number y : Int)) := by
  rw [compareLists_eq_compareLex]
  change _ = List.compareLex compare _ _
  induction xs generalizing ys with
  | nil => cases ys <;> rfl
  | cons x xs rest =>
      cases ys with
      | nil => rfl
      | cons y ys =>
          rw [List.map_cons, List.map_cons, List.compareLex_cons_cons, List.compareLex_cons_cons,
            compare_natCast, rest]

/-! ## Keys -/

/-- The code points of characters. -/
def codes (cs : List Char) : List Int := cs.map fun c => (c.toNat : Int)

theorem codes_inj {cs ds : List Char} : codes cs = codes ds ↔ cs = ds :=
  List.map_inj_right fun _ _ same => Char.toNat_inj.mp (Int.ofNat.inj same)

/-- The numbers of bytes. -/
def octets (bytes : List UInt8) : List Int := bytes.map fun b => (b.toNat : Int)

theorem octets_inj {xs ys : List UInt8} : octets xs = octets ys ↔ xs = ys :=
  List.map_inj_right fun _ _ same => UInt8.toNat_inj.mp (Int.ofNat.inj same)

/-- Dates are told apart by their keys, in which no time of day is told from midnight: a date has
none. -/
theorem Date.key_inj {d d' : Date} : d.key = d'.key ↔ d = d' := by
  obtain ⟨year, month, day, _, rfl⟩ := d
  obtain ⟨year', month', day', _, rfl⟩ := d'
  simp only [Date.key, List.cons.injEq, Int.natCast_inj, and_true, Date.mk.injEq]

namespace Machine

/-- The key of the payload of a kind. -/
inductive KeyOf (m : Machine) : Kind → Payload → List Int → Prop where
  | integer (n : Int) : KeyOf m .integer (.integer n) [n]
  | char (c : Char) : KeyOf m .char (.char c) (codes (Text.lowerChar c))
  | time (n : Int) : KeyOf m .time (.time n) [n]
  | date (d : Date) : KeyOf m .date (.date d) d.key
  | tuple (bytes : List UInt8) : KeyOf m .tuple (.tuple bytes) (octets bytes)
  | logic (b : Bool) : KeyOf m .logic (.logic b) [b.toNat]
  | word {k : Kind} {symbol : SymbolId} (word : k.isAnyWord = true)
      (known : symbol.index < m.symbols.size) (index : Nat) :
      KeyOf m k (.word symbol index) (codes (m.symbols.lower symbol).toList)
  | string {k : Kind} {id : SeriesId} {buffer : Text.Buffer} (string : k.isAnyString = true)
      (held : Query.text id m = .ok buffer) (start : Nat) :
      KeyOf m k (.series id start)
        (codes (Text.lowercase (buffer.slice start buffer.size)).toList)
  | binary {id : SeriesId} {bytes : Array UInt8} (held : Query.bytes id m = .ok bytes)
      {start : Nat} (inside : start ≤ bytes.size) :
      KeyOf m .binary (.series id start) (octets (bytes.toList.drop start))

/-- An unquoted value of a kind has a key. -/
structure Keyed (m : Machine) (k : Kind) (c : Cell) (key : List Int) : Prop where
  kind : c.kind = k
  plain : c.quote = 0
  key : m.KeyOf k c.payload key

end Machine

namespace Query

variable {m : Machine} {k : Kind} {a b : Cell} {x y : List Int}

theorem quoteDepth_plain {c : Cell} (plain : c.quote = 0) (unquoted : c.kind ≠ .quoted) :
    c.quoteDepth = 0 := by
  unfold Cell.quoteDepth
  split
  · rw [if_neg unquoted, plain]
  · exact plain

theorem unescapedKind_plain {c : Cell} (unquoted : c.kind ≠ .quoted) :
    unescapedKind c m = .ok c.kind := by
  unfold unescapedKind
  cases c.payload with
  | quoted pairing depth => exact congrFun (if_neg unquoted) m
  | _ => rfl

/-- Unquoted values of one kind are equal if their payloads are. -/
theorem equal_payload (kind : a.kind = b.kind) (unquoted : a.kind ≠ .quoted) (plain : a.quote = 0)
    (plain' : b.quote = 0) (strict : Bool) :
    ∃ inner, equal a b strict m = equalPayload inner strict a.payload b.payload m := by
  have unquoted' : b.kind ≠ .quoted := kind ▸ unquoted
  refine ⟨equalIn strict (comparisonDepth - 1), ?_⟩
  rw [equal, comparisonDepth, equalIn, quoteDepth_plain plain unquoted,
    quoteDepth_plain plain' unquoted', if_neg (by decide),
    Query.bind_ok (unescapedKind_plain unquoted), Query.bind_ok (unescapedKind_plain unquoted'),
    ← kind]
  simp only [unquoted, decide_false, Bool.or_self, Bool.false_eq_true, if_false, bne_self_eq_false]

theorem order_of_order? {o : Ordering} {strict : Bool} (ordered : order? a b strict m = .ok (some o)) :
    order a b strict m = .ok o := by
  rw [order, Query.bind_ok ordered]
  rfl

theorem compare_singleton (n n' : Int) : compare [n] [n'] = compare n n' := by
  rw [List.compare_cons_cons]
  cases compare n n' <;> rfl

theorem string_of_word (word : k.isAnyWord = true) : k.isAnyString = false := by
  revert word
  cases k <;> simp [Kind.isAnyWord, Kind.isAnyString]

/-- Values of one kind are in the order of their keys. -/
theorem order_keyed (first : m.Keyed k a x) (second : m.Keyed k b y) :
    order a b false m = .ok (compare x y) := by
  obtain ⟨kind, plain, key⟩ := first
  obtain ⟨kind', plain', key'⟩ := second
  generalize payload : a.payload = p at key
  generalize payload' : b.payload = q at key'
  refine order_of_order? ?_
  cases key with
  | integer n =>
      cases key' with
      | integer n' =>
          rw [compare_singleton, order?, plain, plain', kind, kind', payload, payload']
          rfl
      | word word | string word => cases word
  | char c =>
      cases key' with
      | char c' =>
          rw [order?, plain, plain', kind, kind', payload, payload', codes, codes,
            ← compareLists_numbers]
          rfl
      | word word | string word => cases word
  | time n =>
      cases key' with
      | time n' =>
          rw [compare_singleton, order?, plain, plain', kind, kind', payload, payload']
          rfl
      | word word | string word => cases word
  | date d =>
      cases key' with
      | date d' =>
          rw [order?, plain, plain', kind, kind', payload, payload']
          exact congrArg (fun o => Except.ok (some o)) (compareLists_eq_compareLex _ _ _)
      | word word | string word => cases word
  | tuple bytes =>
      cases key' with
      | tuple bytes' =>
          rw [order?, plain, plain', kind, kind', payload, payload', octets, octets,
            ← compareLists_numbers]
          rfl
      | word word | string word => cases word
  | logic b =>
      cases key' with
      | logic b' =>
          rw [compare_singleton, compare_natCast, order?, plain, plain', kind, kind', payload,
            payload']
          rfl
      | word word | string word => cases word
  | word word =>
      cases key' with
      | word =>
          have number : k.isAnyNumber = false := by
            revert word
            cases k <;> simp [Kind.isAnyWord, Kind.isAnyNumber]
          rw [order?, plain, plain', kind, kind', payload, payload', number, codes, codes,
            ← compareLists_numbers]
          simp only [bne_self_eq_false, Bool.or_self]
          rfl
      | string string => exact absurd string (by rw [string_of_word word]; decide)
      | integer | char | time | date | tuple | logic | binary => cases word
  | string string held start =>
      cases key' with
      | string _ held' start' =>
          have number : k.isAnyNumber = false := by
            revert string
            cases k <;> simp [Kind.isAnyString, Kind.isAnyNumber]
          rw [order?, plain, plain', kind, kind', payload, payload', number, codes, codes,
            ← compareLists_numbers]
          simp only [bne_self_eq_false, Bool.or_self, Bool.false_eq_true, if_false, Bool.and_self,
            string, if_true]
          rw [Query.bind_ok (cellText_run payload held), Query.bind_ok (cellText_run payload' held')]
          rfl
      | word word => exact absurd string (by rw [string_of_word word]; decide)
      | integer | char | time | date | tuple | logic | binary => cases string
  | @binary id bytes held start inside =>
      cases key' with
      | @binary id' bytes' held' start' inside' =>
          rw [order?, plain, plain', kind, kind', payload, payload', octets, octets,
            ← compareLists_numbers]
          change (do
            let xs ← Query.bytes id
            let ys ← Query.bytes id'
            if xs.size < start || ys.size < start' then defect
            return some (compareBytes (xs.toList.drop start) (ys.toList.drop start')) :
              Query (Option Ordering)) m = _
          rw [Query.bind_ok held, Query.bind_ok held', decide_eq_false (Nat.not_lt.mpr inside),
            decide_eq_false (Nat.not_lt.mpr inside')]
          rfl
      | word word | string word => cases word

/-- Texts are compared from their positions on, by their small letters. -/
theorem equalPayload_texts {inner : Cell → Cell → Query Bool} {id id' : SeriesId}
    {s t : Text.Buffer} (held : Query.text id m = .ok s) (held' : Query.text id' m = .ok t)
    {i j : Nat} :
    equalPayload inner false (.series id i) (.series id' j) m =
      .ok (Text.lowercase (s.slice i s.size) == Text.lowercase (t.slice j t.size)) := by
  rw [equalPayload]
  by_cases one : (id == id' && i == j) = true
  · rw [if_pos one]
    simp only [Bool.and_eq_true, beq_iff_eq] at one
    obtain ⟨rfl, rfl⟩ := one
    obtain rfl := Except.ok.inj (held.symm.trans held')
    rw [beq_self_eq_true]
    rfl
  · obtain ⟨_, live, content⟩ := Query.text_eq_ok.mp held
    obtain ⟨_, live', content'⟩ := Query.text_eq_ok.mp held'
    rw [if_neg one, Query.bind_ok (Query.series_eq_ok.mpr live),
      Query.bind_ok (Query.series_eq_ok.mpr live'), content, content']
    rfl

/-- Bytes are compared from their positions on. -/
theorem equalPayload_binaries {inner : Cell → Cell → Query Bool} {strict : Bool}
    {id id' : SeriesId} {xs ys : Array UInt8} (held : Query.bytes id m = .ok xs)
    (held' : Query.bytes id' m = .ok ys) {i j : Nat} :
    equalPayload inner strict (.series id i) (.series id' j) m =
      .ok (xs.toList.drop i == ys.toList.drop j) := by
  rw [equalPayload]
  by_cases one : (id == id' && i == j) = true
  · rw [if_pos one]
    simp only [Bool.and_eq_true, beq_iff_eq] at one
    obtain ⟨rfl, rfl⟩ := one
    obtain rfl := Except.ok.inj (held.symm.trans held')
    rw [beq_self_eq_true]
    rfl
  · obtain ⟨_, live, content⟩ := Query.bytes_eq_ok.mp held
    obtain ⟨_, live', content'⟩ := Query.bytes_eq_ok.mp held'
    rw [if_neg one, Query.bind_ok (Query.series_eq_ok.mpr live),
      Query.bind_ok (Query.series_eq_ok.mpr live'), content, content']
    rfl

/-- Values of one kind are equal if they have the same key. -/
theorem equal_keyed (names : m.symbols.Entered) (first : m.Keyed k a x)
    (second : m.Keyed k b y) : equal a b false m = .ok (x == y) := by
  obtain ⟨kind, plain, key⟩ := first
  obtain ⟨kind', plain', key'⟩ := second
  have unquoted : k ≠ .quoted := by
    rintro rfl
    generalize a.payload = p at key
    cases key with
    | word word | string word => cases word
  obtain ⟨inner, answer⟩ := equal_payload (m := m) (kind.trans kind'.symm) (kind ▸ unquoted) plain
    plain' false
  rw [answer]
  generalize a.payload = p at key
  generalize b.payload = q at key'
  have told {same : Bool} (means : same = true ↔ x = y) :
      (pure same : Query Bool) m = .ok (x == y) :=
    congrArg Except.ok (Bool.eq_iff_iff.mpr (means.trans beq_iff_eq.symm))
  cases key with
  | integer n =>
      cases key' with
      | integer n' => exact told (by rw [beq_iff_eq, List.singleton_inj])
      | word word | string word => cases word
  | char c =>
      cases key' with
      | char c' => exact told (beq_iff_eq.trans codes_inj.symm)
      | word word | string word => cases word
  | time n =>
      cases key' with
      | time n' => exact told (by rw [beq_iff_eq, List.singleton_inj])
      | word word | string word => cases word
  | date d =>
      cases key' with
      | date d' =>
          exact told (beq_iff_eq.trans Date.key_inj.symm)
      | word word | string word => cases word
  | tuple bytes =>
      cases key' with
      | tuple bytes' => exact told (beq_iff_eq.trans octets_inj.symm)
      | word word | string word => cases word
  | logic b =>
      cases key' with
      | logic b' => exact told (by cases b <;> cases b' <;> decide)
      | word word | string word => cases word
  | word word known =>
      cases key' with
      | word _ known' =>
          refine told ?_
          rw [if_neg Bool.false_ne_true, names.folded.same_iff known known', codes_inj,
            String.toList_inj]
      | string string => exact absurd string (by rw [string_of_word word]; decide)
      | integer | char | time | date | tuple | logic | binary => cases word
  | string string held start =>
      cases key' with
      | string _ held' start' =>
          rw [equalPayload_texts held held']
          exact told (by rw [beq_iff_eq, codes_inj, String.toList_inj])
      | word word => exact absurd string (by rw [string_of_word word]; decide)
      | integer | char | time | date | tuple | logic | binary => cases string
  | binary held inside =>
      cases key' with
      | binary held' inside' =>
          rw [equalPayload_binaries held held']
          exact told (beq_iff_eq.trans octets_inj.symm)
      | word word | string word => cases word

/-- Order and equality are consistent on the values of one kind: the order is always answered,
turns around with its arguments and is transitive, and it is equality if the values are equal. -/
theorem order_consistent {c : Cell} {z : List Int} (names : m.symbols.Entered)
    (first : m.Keyed k a x) (second : m.Keyed k b y) (third : m.Keyed k c z) :
    ∃ ab ba bc ac, order a b false m = .ok ab ∧ order b a false m = .ok ba ∧
      order b c false m = .ok bc ∧ order a c false m = .ok ac ∧
      ba = ab.swap ∧
      (ab.isLE = true → bc.isLE = true → ac.isLE = true) ∧
      (ab = .lt → bc = .lt → ac = .lt) ∧
      equal a b false m = .ok (ab == .eq) := by
  refine ⟨_, _, _, _, order_keyed first second, order_keyed second first, order_keyed second third,
    order_keyed first third, Std.OrientedCmp.eq_swap, Std.TransCmp.isLE_trans,
    Std.TransCmp.lt_trans, ?_⟩
  rw [equal_keyed names first second]
  refine congrArg Except.ok (Bool.eq_iff_iff.mpr ?_)
  rw [beq_iff_eq, beq_iff_eq, Std.LawfulEqCmp.compare_eq_iff_eq]

/-- A machine with the binaries `#{0102}` and `#{FF0102}`. -/
def sampleTwins : Machine := .ofArgs [] [.ofBytes #[1, 2], .ofBytes #[255, 1, 2]]

theorem order_consistent_sampleTwins :
    order (.series .binary ⟨1⟩ 0) (.series .binary ⟨2⟩ 1) false sampleTwins = .ok .eq ∧
      order (.series .binary ⟨2⟩ 1) (.series .binary ⟨1⟩ 0) false sampleTwins = .ok .eq ∧
      equal (.series .binary ⟨1⟩ 0) (.series .binary ⟨2⟩ 1) false sampleTwins = .ok true := by
  have held : Query.bytes ⟨1⟩ sampleTwins = .ok #[1, 2] := rfl
  have held' : Query.bytes ⟨2⟩ sampleTwins = .ok #[255, 1, 2] := rfl
  have first : sampleTwins.Keyed .binary (.series .binary ⟨1⟩ 0) [1, 2] :=
    ⟨rfl, rfl, .binary held (Nat.zero_le _)⟩
  have second : sampleTwins.Keyed .binary (.series .binary ⟨2⟩ 1) [1, 2] :=
    ⟨rfl, rfl, .binary held' (by decide)⟩
  obtain ⟨ab, ba, -, -, less, more, -, -, swap, -, -, same⟩ :=
    order_consistent .empty first second first
  obtain rfl : ab = .eq := Except.ok.inj (less.symm.trans rfl)
  obtain rfl : ba = .eq := swap
  exact ⟨less, more, same⟩

end Query

end Homoicon
