import Homoicon.Parse.Matching
import Homoicon.Proofs.Kinds
import Homoicon.Proofs.Parsing.Grammar
import Homoicon.Proofs.Running

/-!
# Rules as parsing expressions

Rules are a flat run of cells.  Here it is said which cells spell which parsing expression, what a
cursor over rules and a subject stand for in a machine, and what looking at them comes to.  None of
it changes the machine.
-/

namespace Homoicon

/-- A cell whose relative words are tied to a running call. -/
def Cell.resolved (c : Cell) (specifier : Specifier) : Cell :=
  match c.binding, specifier with
  | .relative _, some varlist => c.withBinding (.specific varlist)
  | _, _ => c

/-- The call that words are tied to belongs to the collector, as it does once a value refers to
it. -/
def Machine.Settled (m : Machine) (specifier : Specifier) : Prop :=
  ∀ varlist, specifier = some varlist → Query.hasFlag varlist Flags.managed m = .ok true

namespace Interp

theorem ensureManaged_run {m : Machine} {id : SeriesId}
    (managed : Query.hasFlag id Flags.managed m = .ok true) : ensureManaged id m = .ok () m := by
  unfold ensureManaged
  rw [lift_bind_ok managed]
  rfl

theorem derelativize_run {m : Machine} {specifier : Specifier} (settled : m.Settled specifier)
    (c : Cell) : derelativize c specifier m = .ok (c.resolved specifier) m := by
  unfold derelativize Cell.resolved
  cases c.binding with
  | unbound => rfl
  | specific context => rfl
  | relative paramlist =>
      cases specifier with
      | none => rfl
      | some varlist => exact bind_ok (ensureManaged_run (settled varlist rfl)) _

end Interp

namespace Query

theorem size_run {id : SeriesId} {m : Machine} {s : Series} (found : m.heap.get? id = some s) :
    Query.size id m = .ok s.content.size := by
  unfold Query.size
  rw [bind_ok (series_eq_ok.mpr found)]
  rfl

end Query

namespace Parse

/-- A cursor at the first of some cells, which are tied to the call that the rules belong to. -/
structure Rules.Reads (m : Machine) (rules : Rules) (cells : List Cell) : Prop where
  settled : m.Settled rules.specifier
  held : ∃ all, Query.cells rules.array m = .ok all ∧
    (all.toList.drop rules.index).map (·.resolved rules.specifier) = cells

namespace Rules

variable {m : Machine} {rules : Rules} {c : Cell} {cells rest : List Cell}

/-- The cursor some cells further. -/
def forward (rules : Rules) (count : Nat) : Rules := { rules with index := rules.index + count }

@[simp] theorem forward_forward (first second : Nat) :
    (rules.forward first).forward second = rules.forward (first + second) := by
  simp [forward, Nat.add_assoc]

theorem forward_cons (c : Cell) (cells : List Cell) :
    (rules.forward 1).forward cells.length = rules.forward (c :: cells).length := by
  rw [forward_forward, List.length_cons, Nat.add_comm]

@[simp] theorem next_eq_forward : rules.next = rules.forward 1 := rfl

theorem Reads.forward (reads : rules.Reads m (cells ++ rest)) :
    (rules.forward cells.length).Reads m rest := by
  obtain ⟨settled, all, found, shown⟩ := reads
  refine ⟨settled, all, found, ?_⟩
  have dropped := congrArg (List.drop cells.length) shown
  simpa [Rules.forward, ← List.map_drop, List.drop_drop] using dropped

theorem Reads.tail (reads : rules.Reads m (c :: rest)) : (rules.forward 1).Reads m rest :=
  Reads.forward (show rules.Reads m ([c] ++ rest) from reads)

theorem current?_run (reads : rules.Reads m cells) : rules.current? m = .ok cells.head? m := by
  obtain ⟨settled, all, found, shown⟩ := reads
  have first : cells.head? = all[rules.index]?.map (·.resolved rules.specifier) := by
    rw [← shown, List.head?_map, List.head?_drop, Array.getElem?_toList]
  unfold current?
  rw [Interp.lift_bind_ok found]
  cases looked : all[rules.index]? with
  | none => simp [first, looked]
  | some c => simp [first, looked, Interp.map_run, Interp.derelativize_run settled]

theorem take_run (reads : rules.Reads m (c :: rest)) (after : String) :
    rules.take after m = .ok (c, rules.forward 1) m := by
  unfold take
  rw [Interp.bind_ok (current?_run reads)]
  rfl

end Rules

/-- A subject that shows an input in a machine. -/
def Subject.Shows (m : Machine) (s : Subject) : Input → Prop
  | .array elements => s.cell.kind.isAnyArray = true ∧ m.Settled s.specifier ∧
      ∃ cells, Query.cells s.series m = .ok cells ∧
        cells.toList.map (·.resolved s.specifier) = elements
  | .text characters => s.cell.kind.isAnyArray = false ∧ s.cell.is .binary = false ∧
      ∃ buffer, Query.text s.series m = .ok buffer ∧ buffer.toList = characters
  | .binary bytes => s.cell.kind.isAnyArray = false ∧ s.cell.is .binary = true ∧
      ∃ held, Query.bytes s.series m = .ok held ∧ held.toList = bytes

/-- The text by which a value is found in a text or binary. -/
def needle (value : Cell) : Query String :=
  if value.is .tag then Query.mold value else Query.form value

/-- The input of a subject, compared with values as the machine does. -/
def Subject.reading (m : Machine) (s : Subject) (input : Input) : Reading where
  input := input
  strict := s.strict
  equal element value := (Query.equal element value s.strict m).toOption.getD false
  shown value := (needle value m).toOption.getD ""

/-- Comparing a value with the elements of an input, or else its text, comes to an answer. -/
def Subject.Decides (m : Machine) (s : Subject) (input : Input) (value : Cell) : Prop :=
  match input with
  | .array elements => ∀ c ∈ elements, ∃ same, Query.equal c value s.strict m = .ok same
  | _ => ∃ text, needle value m = .ok text

/-- How a rule fared that takes a position to another or to none. -/
def Match.ofBehind : Option Nat → Match
  | some behind => .matched behind
  | none => .notFound

namespace Subject

variable {m : Machine} {s : Subject} {input : Input}

theorem size_run (shown : s.Shows m input) : s.size m = .ok input.size := by
  unfold Subject.size
  cases input with
  | array elements =>
      obtain ⟨-, -, cells, found, rfl⟩ := shown
      obtain ⟨held, live, content⟩ := Query.cells_eq_ok.mp found
      simp [Query.size_run live, content, Content.size, Input.size]
  | text characters =>
      obtain ⟨-, -, buffer, found, rfl⟩ := shown
      obtain ⟨held, live, content⟩ := Query.text_eq_ok.mp found
      simp [Query.size_run live, content, Content.size, Input.size]
  | binary bytes =>
      obtain ⟨-, -, array, found, rfl⟩ := shown
      obtain ⟨held, live, content⟩ := Query.bytes_eq_ok.mp found
      simp [Query.size_run live, content, Content.size, Input.size]

theorem element?_run (shown : s.Shows m input) (pos : Nat) :
    s.element? pos m = .ok (input.element? pos) m := by
  unfold element?
  cases input with
  | array elements =>
      obtain ⟨array, settled, cells, found, rfl⟩ := shown
      rw [if_pos array, Interp.lift_bind_ok found]
      cases looked : cells[pos]? with
      | none => simp [Input.element?, looked]
      | some c => simp [Input.element?, looked, Interp.map_run, Interp.derelativize_run settled]
  | text characters =>
      obtain ⟨other, notBinary, buffer, found, rfl⟩ := shown
      simp only [other, notBinary, Bool.false_eq_true, if_false]
      rw [Interp.lift_bind_ok found]
      simp [Input.element?, Text.Buffer.get?_eq]
  | binary bytes =>
      obtain ⟨other, binary, array, found, rfl⟩ := shown
      simp only [other, binary, Bool.false_eq_true, if_false, if_true]
      rw [Interp.lift_bind_ok found]
      simp [Input.element?]

theorem matchText?_run (shown : s.Shows m input) (text : String)
    (other : s.cell.kind.isAnyArray = false) {value : Cell} (asked : needle value m = .ok text)
    (pos : Nat) (inside : pos ≤ input.size) :
    s.matchText? pos text m = .ok ((s.reading m input).literal value pos) := by
  have same : (s.reading m input).shown value = text := by
    simp [reading, asked, Except.toOption]
  unfold matchText?
  cases input with
  | array elements => simp [shown.1] at other
  | text characters =>
      obtain ⟨-, notBinary, buffer, found, rfl⟩ := shown
      have slice : buffer.slice pos (pos + text.length) =
          String.ofList ((buffer.toList.drop pos).take text.length) := by
        rw [Text.Buffer.slice_eq, Nat.add_sub_cancel_left]
      have size : buffer.toList.length = buffer.size := buffer.length_toList
      simp only [notBinary, Bool.false_eq_true, if_false]
      rw [Query.bind_ok found]
      simp only [Reading.literal, same, slice, Reading.folded]
      by_cases short : buffer.size < pos + text.length
      · simp [reading, short, size, Nat.not_le_of_lt short]
      · cases strict : s.strict <;> simp [reading, short, size, strict, Nat.le_of_not_lt]
  | binary bytes =>
      obtain ⟨-, binary, array, found, rfl⟩ := shown
      simp only [binary, if_true]
      rw [Query.bind_ok found]
      have stands (wanted : List UInt8) :
          (pos + wanted.length ≤ array.size ∧
            (array.extract pos (pos + wanted.length)).toList = wanted) ↔
          wanted <+: array.toList.drop pos := by
        have taken : (array.extract pos (pos + wanted.length)).toList =
            (array.toList.drop pos).take wanted.length := by simp [List.extract]
        rw [List.prefix_iff_eq_take, taken]
        constructor
        · rintro ⟨-, whole⟩
          exact whole.symm
        · intro whole
          refine ⟨?_, whole.symm⟩
          have length := congrArg List.length whole
          simp only [Input.size, List.length_take, List.length_drop, Array.length_toList] at *
          omega
      simp only [Reading.literal, same, Bool.and_eq_true, decide_eq_true_eq, beq_iff_eq, stands]
      rfl

theorem matchLiteral_run (shown : s.Shows m input) {value : Cell}
    (decides : s.Decides m input value) (pos : Nat) (inside : pos ≤ input.size) :
    s.matchLiteral value pos m =
      .ok (Match.ofBehind ((s.reading m input).literal value pos)) m := by
  unfold matchLiteral
  by_cases array : s.cell.kind.isAnyArray = true
  · cases input with
    | array elements =>
        rw [if_pos array, Interp.bind_ok (element?_run shown pos)]
        simp only [Input.element?, Reading.literal, reading]
        cases looked : elements[pos]? with
        | none => rfl
        | some c =>
            obtain ⟨same, asked⟩ := decides c (List.mem_of_getElem? looked)
            simp only
            rw [Interp.lift_bind_ok asked]
            cases same <;> simp [asked, Except.toOption, Match.ofBehind]
    | text characters => simp [shown.1] at array
    | binary bytes => simp [shown.1] at array
  · rw [if_neg array]
    have answered : ∃ text, needle value m = .ok text := by
      cases input with
      | array elements => exact absurd shown.1 array
      | text characters => exact decides
      | binary bytes => exact decides
    obtain ⟨text, asked⟩ := answered
    have found := matchText?_run shown text (by simpa using array) asked pos inside
    have first : (needle value).ask m = .ok text m := by rw [Interp.ask_run, asked]
    have second : (s.matchText? pos text).ask m =
        .ok ((s.reading m input).literal value pos) m := by rw [Interp.ask_run, found]
    change ((needle value).ask >>= _) m = _
    rw [Interp.bind_ok first, Interp.bind_ok second]
    cases (s.reading m input).literal value pos <;> rfl

end Subject

/-! ## Spelling -/

/-- The cells of rules one after the other. -/
inductive Sequence (item : Peg → List Cell → Prop) : Peg → List Cell → Prop where
  | nil : Sequence item .empty []
  | cons {p q : Peg} {first rest : List Cell} :
      item p first → Sequence item q rest → Sequence item (.seq p q) (first ++ rest)

/-- The cells of alternatives with bars between them. -/
inductive Alternatives (item : Peg → List Cell → Prop) : Peg → List Cell → Prop where
  | last {p : Peg} {cells : List Cell} : Sequence item p cells → Alternatives item p cells
  | or {p q : Peg} {first rest : List Cell} {bar : Cell} :
      Sequence item p first → bar.isBar = true → Alternatives item q rest →
      Alternatives item (.choice p q) (first ++ bar :: rest)

/-- A word that is a keyword. -/
structure IsKeyword (m : Machine) (k : Keyword) (c : Cell) : Prop where
  word : c.is .word = true
  spelled : ∃ symbol index, c.payload = .word symbol index ∧
    Keyword.ofName? (m.symbols.lower symbol) = some k

/-- A count in front of a rule. -/
structure IsCount (n : Nat) (c : Cell) : Prop where
  integer : c.is .integer = true
  value : c.asInteger? = some (n : Int)

/-- The value that a rule is: a literal, a datatype or a block of rules. -/
inductive Value (m : Machine) (s : Subject) (input : Input) (item : Peg → List Cell → Prop) :
    Peg → Cell → Prop where
  | quoted {c value : Cell} :
      c.isQuoted = true → Query.unquotify c 1 m = .ok value → s.Decides m input value →
      Value m s input item (.literal value) c
  | literal {c : Cell} :
      c.is .text = true ∨ c.is .char = true → s.Decides m input c →
      Value m s input item (.literal c) c
  | datatype {c : Cell} {kind : Kind} :
      c.is .datatype = true → c.payload = .datatype kind → Value m s input item (.element kind) c
  | block {p : Peg} {c : Cell} {rules : Rules} {cells : List Cell} :
      c.is .block = true → Rules.ofBlock c m = .ok rules → rules.Reads m cells →
      Alternatives item p cells → Value m s input item p c

/-- A keyword that is a rule by itself. -/
inductive Atom : Keyword → Peg → Prop where
  | skip : Atom .skip .skip
  | end_ : Atom .end_ .end_
  | fail : Atom .fail .fail

/-- A keyword in front of a rule. -/
inductive Operator (p : Peg) : Keyword → Peg → Prop where
  | any : Operator p .any (.any p)
  | while_ : Operator p .while_ (.any p)
  | some_ : Operator p .some_ (.some_ p)
  | opt : Operator p .opt (.times 0 1 p)
  | not_ : Operator p .not_ (.not_ p)
  | ahead : Operator p .ahead (.ahead p)
  | to_ : Operator p .to_ (.to_ p)
  | thru : Operator p .thru (.thru p)

/-- The cells of one rule, whatever they are followed by.  A rule that begins with a count is put
in a block to be counted itself. -/
inductive Item (m : Machine) (s : Subject) (input : Input) : Peg → List Cell → Prop where
  | value {p : Peg} {c : Cell} : Value m s input (Item m s input) p c → Item m s input p [c]
  | named {p : Peg} {c value : Cell} :
      c.is .word = true → keyword? c m = .ok none → Query.getVar c none m = .ok value →
      Value m s input (Item m s input) p value → Item m s input p [c]
  | atom {k : Keyword} {p : Peg} {c : Cell} : IsKeyword m k c → Atom k p → Item m s input p [c]
  | operator {k : Keyword} {p q : Peg} {c : Cell} {cells : List Cell} :
      IsKeyword m k c → Operator p k q → Item m s input p cells → Item m s input q (c :: cells)
  | count {p : Peg} {n : Nat} {c d : Cell} {cells : List Cell} :
      IsCount n c → d.is .integer = false → Item m s input p (d :: cells) →
      Item m s input (.times n n p) (c :: d :: cells)
  | counts {p : Peg} {least most : Nat} {c d e : Cell} {cells : List Cell} :
      IsCount least c → IsCount most d → least ≤ most → e.is .integer = false →
      Item m s input p (e :: cells) → Item m s input (.times least most p) (c :: d :: e :: cells)

/-- The cells of a block of rules. -/
abbrev Spells (m : Machine) (s : Subject) (input : Input) : Peg → List Cell → Prop :=
  Alternatives (Item m s input)

end Parse

end Homoicon
