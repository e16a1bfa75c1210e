import Homoicon.Proofs.Parsing.Spelling

/-!
# Matching rules is running their parsing expression

A block of rules matches what the parsing expression that it spells does, and a match ends: the
number of rounds it takes is bounded by the expression and the size of the input, and how deep
rules nest by the height of the expression.  Only where the native stack is used up on the way is
there another answer, the error that says so.
-/

namespace Homoicon.Parse

namespace Peg

/-- How deep the rules of an expression nest. -/
def height : Peg → Nat
  | seq first second => max (first.height + 1) second.height
  | choice first second => max first.height second.height
  | any rule | some_ rule | times _ _ rule | not_ rule | ahead rule | to_ rule | thru rule =>
    rule.height + 1
  | _ => 1

theorem height_pos (p : Peg) : 0 < p.height := by
  induction p with
  | seq first second => exact Nat.lt_of_lt_of_le (Nat.succ_pos _) (Nat.le_max_left _ _)
  | choice first second ih _ => exact Nat.lt_of_lt_of_le ih (Nat.le_max_left _ _)
  | _ => exact Nat.succ_pos _

/-- A bound on the rounds of each loop in matching an expression over an input of a size. -/
def rounds (size : Nat) : Peg → Nat
  | seq first second | choice first second => first.rounds size + second.rounds size + 1
  | any rule | some_ rule => rule.rounds size + size + 2
  | times _ most rule => rule.rounds size + most + 3
  | not_ rule | ahead rule | to_ rule | thru rule => rule.rounds size + 2
  | _ => 1

/-- Rules nest no deeper than the rounds that they may take. -/
theorem height_le_rounds (p : Peg) (size : Nat) : p.height ≤ p.rounds size := by
  induction p <;> simp only [height, rounds] <;> omega

theorem greedy_of_none {step : Nat → Option Nat} {pos : Nat} (missed : step pos = none)
    (left : Nat) : greedy step left pos = pos := by
  cases left <;> simp [greedy, missed]

theorem greedy_at_end {size : Nat} {step : Nat → Option Nat} (ahead : Onward size step)
    (left : Nat) : greedy step left size = size := by
  cases found : step size with
  | none => exact greedy_of_none found left
  | some behind =>
      obtain ⟨further, within⟩ := ahead size behind le_rfl found
      cases left <;> simp [greedy, found, Nat.le_antisymm within further]

/-- How often a repetition may get ahead does not matter once it is enough. -/
theorem greedy_eq_greedy {size : Nat} {step : Nat → Option Nat} (ahead : Onward size step)
    {left more pos : Nat} (inside : pos ≤ size) (enough : size - pos ≤ left)
    (enoughMore : size - pos ≤ more) : greedy step left pos = greedy step more pos := by
  induction left generalizing more pos with
  | zero =>
      obtain rfl : pos = size := by omega
      rw [greedy_at_end ahead, greedy_at_end ahead]
  | succ left ih =>
      cases more with
      | zero =>
          obtain rfl : pos = size := by omega
          rw [greedy_at_end ahead, greedy_at_end ahead]
      | succ more =>
          cases found : step pos with
          | none => rw [greedy_of_none found, greedy_of_none found]
          | some behind =>
              have onward := ahead pos behind inside found
              by_cases stays : behind = pos
              · simp [greedy, found, stays]
              · simp only [greedy, found, stays, if_false]
                exact ih onward.2 (by omega) (by omega)

theorem greedy_of_some {size : Nat} {step : Nat → Option Nat} (ahead : Onward size step)
    {pos behind : Nat} (inside : pos ≤ size) (found : step pos = some behind) :
    greedy step (size - pos) pos =
      if behind = pos then pos else greedy step (size - behind) behind := by
  have onward := ahead pos behind inside found
  have more : greedy step (size - pos) pos = greedy step (size - pos + 1) pos :=
    greedy_eq_greedy ahead inside (by omega) (by omega)
  rw [more, greedy, found]
  by_cases stays : behind = pos
  · simp [stays]
  · simp only [stays, if_false]
    exact greedy_eq_greedy ahead onward.2 (by omega) (by omega)

/-- The end is found where the input ends. -/
theorem denote_to_end {r : Reading} {pos : Nat} (inside : pos ≤ r.input.size) (thru : Bool) :
    (if thru then Peg.thru .end_ else .to_ .end_).denote r pos = some r.input.size := by
  have split : onward r.input.size pos =
      List.range' pos (r.input.size - pos) ++ [r.input.size] := by
    have count : r.input.size + 1 - pos = r.input.size - pos + 1 := by omega
    rw [onward, count, List.range'_1_concat]
    congr 2
    omega
  have before (place : Nat) (member : place ∈ List.range' pos (r.input.size - pos)) :
      denote r .end_ place = none := by
    rw [List.mem_range'_1] at member
    rw [denote, if_neg (by omega)]
  have last : denote r .end_ r.input.size = some r.input.size := by simp [denote]
  cases thru with
  | true =>
      have missed := List.findSome?_eq_none_iff.mpr before
      change (onward r.input.size pos).findSome? (denote r .end_) = _
      simp only [split, List.findSome?_append, missed, Option.none_or, List.findSome?_cons, last]
  | false =>
      have missed : (List.range' pos (r.input.size - pos)).find?
          (fun place => (denote r .end_ place).isSome) = none := by
        rw [List.find?_eq_none]
        intro place member
        simp [before place member]
      change (onward r.input.size pos).find? (fun place => (denote r .end_ place).isSome) = _
      simp only [split, List.find?_append, missed, Option.none_or, List.find?_cons, last,
        Option.isSome_some]

end Peg

section Cells

variable {m : Machine} {s : Subject} {input : Input} {item : Peg → List Cell → Prop} {p : Peg}
  {c : Cell} {cells rest : List Cell}

theorem keyword?_of_not_word (other : c.is .word = false) : keyword? c m = .ok none := by
  simp [keyword?, other]

/-- A value that is a rule is none of the cells that the dialect gives a meaning of its own. -/
theorem Value.is_other (spelled : Value m s input item p c) {k : Kind}
    (other : k ∉ [Kind.quoted, .text, .char, .datatype, .block]) : c.is k = false := by
  simp only [List.mem_cons, List.not_mem_nil, or_false, not_or] at other
  obtain ⟨quoted, text, char, datatype, block⟩ := other
  cases spelled with
  | quoted marked => exact Cell.is_of_isQuoted marked quoted
  | literal kind =>
      rcases kind with kind | kind
      · exact Cell.is_other kind (Ne.symm text)
      · exact Cell.is_other kind (Ne.symm char)
  | datatype kind => exact Cell.is_other kind (Ne.symm datatype)
  | block kind => exact Cell.is_other kind (Ne.symm block)

theorem Item.ne_nil (spelled : Item m s input p cells) : cells ≠ [] := by
  cases spelled <;> exact List.cons_ne_nil _ _

theorem Operator.rounds_le {q : Peg} {k : Keyword} (prefixed : Operator p k q) (size : Nat) :
    p.rounds size + 1 ≤ q.rounds size := by
  cases prefixed <;> simp only [Peg.rounds] <;> omega

theorem Operator.height_eq {q : Peg} {k : Keyword} (prefixed : Operator p k q) :
    q.height = p.height + 1 := by
  cases prefixed <;> rfl

/-- No bar stands among the cells of one rule. -/
theorem Item.no_bar {p : Peg} {cells : List Cell} (spelled : Item m s input p cells) :
    ∀ c ∈ cells, c.isBar = false := by
  match spelled with
  | .value spelled => exact List.forall_mem_singleton.mpr (spelled.is_other (by decide))
  | .named word _ _ _ => exact List.forall_mem_singleton.mpr (Cell.is_other word (by decide))
  | .atom known _ => exact List.forall_mem_singleton.mpr (Cell.is_other known.word (by decide))
  | .operator known _ inner =>
      exact List.forall_mem_cons.mpr ⟨Cell.is_other known.word (by decide), inner.no_bar⟩
  | .count known _ inner =>
      exact List.forall_mem_cons.mpr ⟨Cell.is_other known.integer (by decide), inner.no_bar⟩
  | .counts known second _ _ inner =>
      exact List.forall_mem_cons.mpr ⟨Cell.is_other known.integer (by decide),
        List.forall_mem_cons.mpr ⟨Cell.is_other second.integer (by decide), inner.no_bar⟩⟩
termination_by cells.length

theorem Item.length_le {p : Peg} {cells : List Cell} (spelled : Item m s input p cells)
    (size : Nat) : cells.length ≤ p.rounds size := by
  match spelled with
  | .value _ | .named _ _ _ _ | .atom _ _ => cases p <;> simp [Peg.rounds]
  | .operator _ prefixed inner =>
      exact (Nat.succ_le_succ (inner.length_le size)).trans (prefixed.rounds_le size)
  | .count _ _ inner =>
      have shorter := inner.length_le size
      simp only [List.length_cons, Peg.rounds] at shorter ⊢
      omega
  | .counts _ _ _ _ inner =>
      have shorter := inner.length_le size
      simp only [List.length_cons, Peg.rounds] at shorter ⊢
      omega
termination_by cells.length

theorem Sequence.length_le (spelled : Sequence (Item m s input) p cells) (size : Nat) :
    cells.length ≤ p.rounds size := by
  induction spelled with
  | nil => simp
  | cons first _ ih =>
      have shorter := first.length_le size
      simp only [List.length_append, Peg.rounds]
      omega

theorem Sequence.no_bar (spelled : Sequence (Item m s input) p cells) :
    ∀ c ∈ cells, c.isBar = false := by
  induction spelled with
  | nil => exact fun _ member => nomatch member
  | cons first _ ih => exact List.forall_mem_append.mpr ⟨first.no_bar, ih⟩

theorem Alternatives.length_le (spelled : Spells m s input p cells) (size : Nat) :
    cells.length ≤ p.rounds size := by
  induction spelled with
  | last only => exact only.length_le size
  | or first _ _ ih =>
      have shorter := first.length_le size
      simp only [List.length_append, List.length_cons, Peg.rounds]
      omega

theorem IsKeyword.keyword?_run {k : Keyword} (known : IsKeyword m k c) :
    keyword? c m = .ok (some k) := by
  obtain ⟨word, symbol, index, held, named⟩ := known
  simp only [keyword?, word, Homoicon.Cell.wordSymbol?, held, Bool.not_true, Bool.false_eq_true,
    if_false]
  rw [← named]
  rfl

/-- A word can always be molded. -/
theorem mold_run_of_word {c : Cell} (word : c.is .word = true) (m : Machine) :
    ∃ name, Query.mold c m = .ok name := by
  simp only [Homoicon.Cell.is, Bool.and_eq_true, beq_iff_eq, decide_eq_true_eq] at word
  obtain ⟨unquoted, kind⟩ := word
  have shallow : c.quoteDepth = 0 := by
    unfold Homoicon.Cell.quoteDepth
    cases c.payload <;> simp [unquoted, kind]
  have written (depth : Nat) (writer : Molder) :
      ∃ next, Mold.cell (depth + 1) c writer m = .ok next := by
    simp only [Mold.cell, shallow, Mold.scalarText?, kind, Mold.compound]
    cases c.payload with
    | varargs source => cases source <;> exact ⟨_, rfl⟩
    | _ => exact ⟨_, rfl⟩
  obtain ⟨next, written⟩ := written (4 * m.heap.slots.size + 7) {}
  refine ⟨next.out, ?_⟩
  unfold Query.mold Mold.nesting
  rw [Query.bind_ok (Query.read_run m), Query.bind_ok written]
  rfl

theorem IsKeyword.mold_run {k : Keyword} (known : IsKeyword m k c) :
    ∃ name, Query.mold c m = .ok name :=
  mold_run_of_word known.1 m

/-- Skipping a rule passes exactly over its cells. -/
theorem Item.skipItem_run (spelled : Item m s input p cells)
    {rules : Rules} (reads : rules.Reads m (cells ++ rest)) {fuel : Nat}
    (enough : cells.length ≤ fuel) :
    Rules.skipItem fuel rules m = .ok (rules.forward cells.length) m := by
  induction fuel generalizing p cells rules with
  | zero => cases spelled <;> simp at enough
  | succ fuel ih =>
      unfold Rules.skipItem
      cases spelled with
      | value spelled =>
          have integer := spelled.is_other (k := .integer) (by decide)
          have asked : keyword? _ m = _ := keyword?_of_not_word (spelled.is_other (by decide))
          rw [Interp.bind_ok (Rules.take_run reads "rule")]
          simp only [integer, Bool.false_eq_true, if_false]
          rw [Interp.ask_bind_ok asked]
          rfl
      | named word unknown _ _ =>
          have integer := Cell.is_other word (by decide : Kind.word ≠ .integer)
          rw [Interp.bind_ok (Rules.take_run reads "rule")]
          simp only [integer, Bool.false_eq_true, if_false]
          rw [Interp.ask_bind_ok unknown]
          rfl
      | atom known atomic =>
          have integer := Cell.is_other known.word (by decide : Kind.word ≠ .integer)
          obtain ⟨name, molded⟩ := known.mold_run
          rw [Interp.bind_ok (Rules.take_run reads "rule")]
          simp only [integer, Bool.false_eq_true, if_false]
          rw [Interp.ask_bind_ok known.keyword?_run]
          simp only
          rw [Interp.lift_bind_ok molded]
          cases atomic <;> rfl
      | @operator _ _ _ c inside known prefixed inner =>
          have integer := Cell.is_other known.word (by decide : Kind.word ≠ .integer)
          obtain ⟨name, molded⟩ := known.mold_run
          have skipped := ih inner reads.tail (Nat.le_of_succ_le_succ enough)
          rw [Rules.forward_cons c] at skipped
          rw [Interp.bind_ok (Rules.take_run reads "rule")]
          simp only [integer, Bool.false_eq_true, if_false]
          rw [Interp.ask_bind_ok known.keyword?_run]
          simp only
          rw [Interp.lift_bind_ok molded]
          cases prefixed <;> exact skipped
      | @count _ _ c d inside known plain inner =>
          have skipped := ih inner reads.tail (Nat.le_of_succ_le_succ enough)
          rw [Rules.forward_cons c] at skipped
          rw [Interp.bind_ok (Rules.take_run reads "rule")]
          simp only [known.integer, if_true]
          rw [Interp.bind_ok (Rules.current?_run reads.tail)]
          simpa [plain] using skipped
      | @counts _ _ _ c d e inside known second _ _ inner =>
          have shorter : _ ≤ fuel := Nat.le_of_succ_le (Nat.le_of_succ_le_succ enough)
          have skipped := ih inner reads.tail.tail shorter
          rw [Rules.forward_cons d, Rules.forward_cons c] at skipped
          rw [Interp.bind_ok (Rules.take_run reads "rule")]
          simp only [known.integer, if_true]
          rw [Interp.bind_ok (Rules.current?_run reads.tail)]
          simpa [second.integer] using skipped

end Cells

/-! ## Giving up what was kept -/

section Kept

variable {m : Machine} {id : SeriesId} {cells : Array Cell}

theorem modify_eq_self {heap : Heap} {held : Series} {f : Series → Series}
    (found : heap.get? id = some held) (same : f held = held) : heap.modify id f = heap := by
  have slots : heap.slots.modify id.slot (Option.map f) = heap.slots := by
    apply Array.ext_getElem?
    intro slot
    rw [Array.getElem?_modify]
    split
    · rename_i here
      subst here
      unfold Heap.get? at found
      cases looked : heap.slots[id.slot]? with
      | none => simp [looked] at found
      | some content => simp_all
    · rfl
  simp [Heap.modify, slots]

/-- Cutting an array off at its end changes nothing. -/
theorem shrink_run (found : Query.cells id m = .ok cells) :
    Interp.modifyCells id (·.shrink cells.size) m = .ok () m := by
  obtain ⟨held, live, content⟩ := Query.cells_eq_ok.mp found
  have array : Interp.isArray id m = .ok true := by
    unfold Interp.isArray
    rw [Query.bind_ok (Query.series_eq_ok.mpr live), content]
    rfl
  have lives : m.heap.isLive id = true := by simp [Heap.isLive, live]
  unfold Interp.modifyCells
  rw [Interp.lift_bind_ok array, if_pos rfl]
  unfold Interp.modifySeries
  rw [if_pos lives]
  have kept (f : Heap → Heap) (same : f m.heap = m.heap) : m.onHeap f = m := by
    change { m with heap := f m.heap } = m
    rw [same]
  rw [kept]
  apply modify_eq_self live
  obtain ⟨flags, held, link, role⟩ := held
  subst content
  simp

end Kept

/-! ## Using up the native stack -/

/-- Whether rules that nest from one level on use up the native stack before they are so deep. -/
def Overrun (m : Machine) (level height : Nat) : Prop :=
  ∃ rules, level ≤ rules ∧ rules < level + height ∧ m.config.overruns m.frames.size rules = true

theorem Overrun.mono {m : Machine} {level height lower higher : Nat}
    (used : Overrun m level height) (from_ : lower ≤ level)
    (upto : level + height ≤ lower + higher) : Overrun m lower higher := by
  obtain ⟨rules, above, below, spent⟩ := used
  exact ⟨rules, from_.trans above, below.trans_le upto, spent⟩

/-- A run that comes to a value and leaves the machine as it is, unless the native stack is used up
on the way, as it may be if `spent`. -/
def Fares {α : Type} (spent : Prop) (m : Machine) (a : α) (run : EStateM.Result Fault Machine α) :
    Prop :=
  run = .ok a m ∨ spent ∧ run = .error (.error Cause.stackOverflow.error) m

namespace Fares

variable {α β : Type} {spent more : Prop} {m : Machine} {a : α} {b : β}

theorem mono {run : EStateM.Result Fault Machine α} (fares : Fares spent m a run)
    (implied : spent → more) : Fares more m a run :=
  fares.imp_right (And.imp_left implied)

theorem bind {x : Interp α} {f : α → Interp β} (fares : Fares spent m a (x m))
    (behind : Fares spent m b (f a m)) : Fares spent m b ((x >>= f) m) := by
  rcases fares with done | ⟨used, failed⟩
  · rwa [Interp.bind_ok done]
  · exact .inr ⟨used, Interp.bind_error failed f⟩

theorem map {x : Interp α} (fares : Fares spent m a (x m)) (f : α → β) :
    Fares spent m (f a) ((f <$> x) m) := by
  rw [Interp.map_run]
  rcases fares with done | ⟨used, failed⟩
  · exact .inl (by rw [done])
  · exact .inr ⟨used, by rw [failed]⟩

end Fares

/-- Looking at the native stack fails where it is used up. -/
theorem fares_checkStack {spent : Prop} {m : Machine} {level : Nat}
    (own : m.config.overruns m.frames.size level = true → spent) :
    Fares spent m () ((liftM (Query.checkStack level) : Interp Unit) m) := by
  rw [Interp.lift_run, Query.checkStack]
  by_cases used : m.config.overruns m.frames.size level = true
  · exact .inr ⟨own used, by rw [if_pos used]⟩
  · exact .inl (by rw [if_neg used])

/-! ## Blocks of rules -/

/-- A parser whose rules, as far as they are not higher than a number, match what their parsing
expression does and leave the machine as it is. -/
def Parser.Follows (p : Parser) (spent : Prop) (m : Machine) (s : Subject) (input : Input)
    (height : Nat) : Prop :=
  ∀ {rule : Peg} {cells rest : List Cell} {rules : Rules} {pos : Nat},
    Item m s input rule cells → rule.height ≤ height →
    rule.rounds input.size < p.engine.rounds → rules.Reads m (cells ++ rest) →
    pos ≤ input.size →
    Fares spent m
      (Match.ofBehind (rule.denote (s.reading m input) pos), rules.forward cells.length)
      (p.item s rules pos m)

/-- What was kept can be given up without a change. -/
def Subject.KeepsNothing (m : Machine) (s : Subject) : Prop :=
  ∀ collection, s.collection = some collection → ∃ cells, Query.cells collection m = .ok cells

namespace Parser

variable {p : Parser} {spent : Prop} {m : Machine} {s : Subject} {input : Input} {height : Nat}
  {rule : Peg} {cells rest : List Cell} {rules : Rules} {pos : Nat}

theorem nextAlternative?_end (plain : ∀ c ∈ cells, c.isBar = false) (reads : rules.Reads m cells)
    {fuel : Nat} (enough : cells.length < fuel) : nextAlternative? fuel rules m = .ok none m := by
  induction cells generalizing rules fuel with
  | nil =>
      obtain ⟨fuel, rfl⟩ := Nat.exists_eq_succ_of_ne_zero (Nat.ne_zero_of_lt enough)
      unfold nextAlternative?
      rw [Interp.bind_ok (Rules.current?_run reads)]
      rfl
  | cons c cells ih =>
      obtain ⟨fuel, rfl⟩ := Nat.exists_eq_succ_of_ne_zero (Nat.ne_zero_of_lt enough)
      obtain ⟨first, others⟩ := List.forall_mem_cons.mp plain
      unfold nextAlternative?
      rw [Interp.bind_ok (Rules.current?_run reads)]
      simp only [List.head?_cons, first, Bool.false_eq_true, if_false]
      exact ih others reads.tail (Nat.lt_of_succ_lt_succ enough)

theorem nextAlternative?_bar (plain : ∀ c ∈ cells, c.isBar = false) {bar : Cell}
    (mark : bar.isBar = true) (reads : rules.Reads m (cells ++ bar :: rest)) {fuel : Nat}
    (enough : cells.length < fuel) :
    nextAlternative? fuel rules m = .ok (some (rules.forward (cells.length + 1))) m := by
  induction cells generalizing rules fuel with
  | nil =>
      obtain ⟨fuel, rfl⟩ := Nat.exists_eq_succ_of_ne_zero (Nat.ne_zero_of_lt enough)
      unfold nextAlternative?
      rw [Interp.bind_ok (Rules.current?_run reads)]
      simp [mark]
  | cons c cells ih =>
      obtain ⟨fuel, rfl⟩ := Nat.exists_eq_succ_of_ne_zero (Nat.ne_zero_of_lt enough)
      obtain ⟨first, others⟩ := List.forall_mem_cons.mp plain
      unfold nextAlternative?
      rw [Interp.bind_ok (Rules.current?_run reads)]
      have later := ih others reads.tail (Nat.lt_of_succ_lt_succ enough)
      rw [Rules.forward_forward, Nat.add_comm] at later
      simpa [first] using later

/-- What is left to do when a rule fails: to go on with the next alternative. -/
def resume (p : Parser) (s : Subject) (start : Nat) (kept : Option Nat) (fuel : Nat)
    (rules : Rules) : Interp Match := do
  match ← nextAlternative? p.engine.rounds rules with
  | none => pure .notFound
  | some rules => alternatives p s start kept fuel rules start

theorem alternatives_end (start : Nat) (kept : Option Nat) (fuel : Nat) (reads : rules.Reads m cells)
    (ended : ∀ c, cells.head? = some c → c.isBar = true) :
    alternatives p s start kept (fuel + 1) rules pos m = .ok (.matched pos) m := by
  unfold alternatives
  rw [Interp.bind_ok (Rules.current?_run reads)]
  cases cells with
  | nil => rfl
  | cons c cells => simp [ended c rfl]

theorem alternatives_item (follows : p.Follows spent m s input height)
    (spelled : Item m s input rule cells) (low : rule.height ≤ height)
    (few : rule.rounds input.size < p.engine.rounds) (reads : rules.Reads m (cells ++ rest))
    (inside : pos ≤ input.size) (start : Nat) (kept : Option Nat) (fuel : Nat)
    (unkept : s.giveUp kept m = .ok () m) {result : Match}
    (behind : Fares spent m result <|
      match rule.denote (s.reading m input) pos with
      | some behind => alternatives p s start kept fuel (rules.forward cells.length) behind m
      | none => resume p s start kept fuel (rules.forward cells.length) m) :
    Fares spent m result (alternatives p s start kept (fuel + 1) rules pos m) := by
  have plain := spelled.no_bar
  unfold alternatives
  rw [Interp.bind_ok (Rules.current?_run reads)]
  cases cells with
  | nil => cases spelled
  | cons c cells =>
      have first := plain c List.mem_cons_self
      simp only [List.cons_append, List.head?_cons, first, Bool.false_eq_true, if_false]
      refine (follows spelled low few reads inside).bind ?_
      cases found : rule.denote (s.reading m input) pos with
      | some place => simpa [Match.ofBehind, found] using behind
      | none =>
          rw [found] at behind
          change Fares spent m result ((s.giveUp kept >>= fun _ => _) m)
          rw [Interp.bind_ok unkept]
          exact behind

/-- A sequence that matches is the end of its block. -/
theorem sequence_matched (follows : p.Follows spent m s input height)
    (spelled : Sequence (Item m s input) rule cells) (low : rule.height ≤ height + 1)
    (few : rule.rounds input.size < p.engine.rounds) (reads : rules.Reads m (cells ++ rest))
    (ended : ∀ c, rest.head? = some c → c.isBar = true) (inside : pos ≤ input.size) (start : Nat)
    {kept : Option Nat} (unkept : s.giveUp kept m = .ok () m) {fuel behind : Nat}
    (enough : cells.length < fuel) (found : rule.denote (s.reading m input) pos = some behind) :
    Fares spent m (.matched behind) (alternatives p s start kept fuel rules pos m) := by
  obtain ⟨fuel, rfl⟩ := Nat.exists_eq_succ_of_ne_zero (Nat.ne_zero_of_lt enough)
  induction spelled generalizing rules pos fuel with
  | nil =>
      cases found
      exact .inl (alternatives_end start kept fuel reads ended)
  | @cons first second ahead others item _ ih =>
      simp only [Peg.height, Peg.rounds, List.length_append] at low few enough
      have some_ := List.length_pos_iff.mpr item.ne_nil
      obtain ⟨middle, before, after⟩ := Option.bind_eq_some_iff.mp found
      rw [List.append_assoc] at reads
      obtain ⟨-, within⟩ := Peg.denote_onward _ first pos middle inside before
      obtain ⟨fuel, rfl⟩ : ∃ less, fuel = less + 1 := ⟨fuel - 1, by omega⟩
      refine alternatives_item follows item (by omega) (by omega) reads inside start kept _ unkept ?_
      rw [before]
      exact ih (by omega) (by omega) reads.forward within after fuel (by omega)

/-- A sequence that fails leaves it to the alternatives behind it. -/
theorem sequence_failed (follows : p.Follows spent m s input height)
    (spelled : Sequence (Item m s input) rule cells) (low : rule.height ≤ height + 1)
    (few : rule.rounds input.size < p.engine.rounds) (reads : rules.Reads m (cells ++ rest))
    (inside : pos ≤ input.size) (start : Nat) {kept : Option Nat}
    (unkept : s.giveUp kept m = .ok () m) {fuel : Nat} (enough : cells.length < fuel)
    (missed : rule.denote (s.reading m input) pos = none) {result : Match}
    (resumed : ∀ {left : List Cell} {cursor : Rules} {later : Nat},
      (∀ c ∈ left, c.isBar = false) → left.length ≤ cells.length →
      cursor.Reads m (left ++ rest) → fuel ≤ later + cells.length →
      Fares spent m result (resume p s start kept later cursor m)) :
    Fares spent m result (alternatives p s start kept fuel rules pos m) := by
  induction spelled generalizing rules pos fuel with
  | nil => cases missed
  | @cons first second ahead others item remaining ih =>
      simp only [Peg.height, Peg.rounds, List.length_append] at low few enough resumed
      have some_ := List.length_pos_iff.mpr item.ne_nil
      rw [List.append_assoc] at reads
      obtain ⟨fuel, rfl⟩ : ∃ less, fuel = less + 1 := ⟨fuel - 1, by omega⟩
      refine alternatives_item follows item (by omega) (by omega) reads inside start kept fuel
        unkept ?_
      cases before : first.denote (s.reading m input) pos with
      | none => exact resumed remaining.no_bar (by omega) reads.forward (by omega)
      | some middle =>
          have after : second.denote (s.reading m input) middle = none := by
            simpa [Peg.denote, before] using missed
          obtain ⟨-, within⟩ := Peg.denote_onward _ first pos middle inside before
          exact ih (by omega) (by omega) reads.forward within (by omega : _ < fuel) after
            fun plain short there enough => resumed plain (by omega) there (by omega)

/-- The alternatives of a block are tried in order, each where the first began. -/
theorem alternatives_run (follows : p.Follows spent m s input height)
    (spelled : Spells m s input rule cells) (low : rule.height ≤ height + 1)
    (few : rule.rounds input.size < p.engine.rounds) (reads : rules.Reads m cells)
    (inside : pos ≤ input.size) {kept : Option Nat} (unkept : s.giveUp kept m = .ok () m)
    {fuel : Nat} (enough : cells.length < fuel) :
    Fares spent m (Match.ofBehind (rule.denote (s.reading m input) pos))
      (alternatives p s pos kept fuel rules pos m) := by
  induction spelled generalizing rules fuel with
  | @last rule cells only =>
      have whole : rules.Reads m (cells ++ []) := by rwa [List.append_nil]
      cases found : rule.denote (s.reading m input) pos with
      | some behind =>
          exact sequence_matched follows only low few whole (by simp) inside pos unkept enough found
      | none =>
          refine sequence_failed follows only low few whole inside pos unkept enough found ?_
          intro left cursor later plain short there _
          rw [List.append_nil] at there
          have length := only.length_le input.size
          rw [resume, Interp.bind_ok (nextAlternative?_end plain there (by omega))]
          exact .inl rfl
  | @or first second ahead others bar sequence mark remaining ih =>
      simp only [Peg.height, Peg.rounds, List.length_append, List.length_cons] at low few enough
      have ended (c : Cell) (here : (bar :: others).head? = some c) : c.isBar = true := by
        cases here
        exact mark
      have length := sequence.length_le input.size
      cases found : first.denote (s.reading m input) pos with
      | some behind =>
          have matched := sequence_matched follows sequence (by omega) (by omega) reads ended inside
            pos unkept (by omega : _ < fuel) found
          simpa [Peg.denote, found, Match.ofBehind] using matched
      | none =>
          refine sequence_failed follows sequence (by omega) (by omega) reads inside pos unkept
            (by omega : _ < fuel) found ?_
          intro left cursor later plain short there left_
          have next : (cursor.forward (left.length + 1)).Reads m others := by
            have behind := there.forward.tail
            rwa [Rules.forward_forward] at behind
          rw [resume, Interp.bind_ok (nextAlternative?_bar plain mark there (by omega))]
          have tried := ih (by omega) (by omega) next (by omega : _ < later)
          simpa [Peg.denote, found] using tried

/-- A block of rules matches what its parsing expression does. -/
theorem block_run (own : m.config.overruns m.frames.size p.level = true → spent)
    (follows : p.Follows spent m s input height) (spelled : Spells m s input rule cells)
    (low : rule.height ≤ height + 1) (few : rule.rounds input.size < p.engine.rounds)
    (reads : rules.Reads m cells) (inside : pos ≤ input.size) (keeps : s.KeepsNothing m) :
    Fares spent m (Match.ofBehind (rule.denote (s.reading m input) pos))
      (p.block s rules pos m) := by
  have length := spelled.length_le input.size
  have ran {kept : Option Nat} (unkept : s.giveUp kept m = .ok () m) :=
    alternatives_run follows spelled low few reads inside unkept (length.trans_lt few)
  unfold block
  refine (fares_checkStack own).bind ?_
  cases collection : s.collection with
  | none =>
      have unkept : s.giveUp none m = .ok () m := by simp [Subject.giveUp, collection]
      simp only [pure_bind]
      refine (ran unkept).bind ?_
      cases rule.denote (s.reading m input) pos <;> exact .inl rfl
  | some id =>
      obtain ⟨items, found⟩ := keeps id collection
      obtain ⟨held, live, content⟩ := Query.cells_eq_ok.mp found
      have size : Query.size id m = .ok items.size := by
        rw [Query.size_run live, content]
        rfl
      have unkept : s.giveUp (some items.size) m = .ok () m := by
        simpa [Subject.giveUp, collection] using shrink_run found
      simp only [pure_bind]
      rw [Interp.lift_bind_ok size]
      refine (ran unkept).bind ?_
      cases rule.denote (s.reading m input) pos <;> exact .inl rfl

/-! ## Repetition and search -/

/-- An unbounded repetition ends where the rule fails or does not get ahead. -/
theorem repetitions_unbounded (follows : p.Follows spent m s input height)
    (spelled : Item m s input rule cells) (low : rule.height ≤ height)
    (few : rule.rounds input.size < p.engine.rounds) (reads : rules.Reads m (cells ++ rest))
    (inside : pos ≤ input.size) {least count fuel : Nat} (reached : least ≤ count)
    (enough : input.size - pos < fuel) :
    Fares spent m
      (.matched (Peg.greedy (rule.denote (s.reading m input)) (input.size - pos) pos))
      (repetitions p s rules least none fuel count pos m) := by
  have onward : Peg.Onward input.size (rule.denote (s.reading m input)) :=
    Peg.denote_onward (s.reading m input) rule
  induction fuel generalizing count pos with
  | zero => omega
  | succ fuel ih =>
      unfold repetitions
      simp only [Option.any_none, Bool.false_eq_true, if_false]
      refine (follows spelled low few reads inside).bind ?_
      cases found : rule.denote (s.reading m input) pos with
      | none =>
          exact .inl (by
            simp [Match.ofBehind, counts, Peg.greedy_of_none found, Nat.not_lt.mpr reached])
      | some behind =>
          have further := onward pos behind inside found
          rw [Peg.greedy_of_some onward inside found]
          by_cases stays : behind = pos
          · exact .inl (by
              simp [Match.ofBehind, counts, stays, Nat.not_lt.mpr (Nat.le_succ_of_le reached)])
          · have later := ih further.2 (Nat.le_succ_of_le reached) (by omega)
            simpa [Match.ofBehind, stays] using later

/-- A bounded repetition takes as many matches as it is allowed. -/
theorem repetitions_bounded (follows : p.Follows spent m s input height)
    (spelled : Item m s input rule cells) (low : rule.height ≤ height)
    (few : rule.rounds input.size < p.engine.rounds) (reads : rules.Reads m (cells ++ rest))
    (inside : pos ≤ input.size) {least most count fuel : Nat} (allowed : count ≤ most)
    (enough : most - count < fuel) :
    Fares spent m
      (let (more, last) := Peg.bounded (rule.denote (s.reading m input)) (most - count) pos
       counts least (count + more) last)
      (repetitions p s rules least (some most) fuel count pos m) := by
  have onward : Peg.Onward input.size (rule.denote (s.reading m input)) :=
    Peg.denote_onward (s.reading m input) rule
  induction fuel generalizing count pos with
  | zero => omega
  | succ fuel ih =>
      unfold repetitions
      by_cases done : most ≤ count
      · have none : most - count = 0 := by omega
        exact .inl (by simp [done, none, Peg.bounded])
      · obtain ⟨left, remaining⟩ : ∃ left, most - count = left + 1 := ⟨most - count - 1, by omega⟩
        simp only [Option.any_some, done, decide_false, Bool.false_eq_true, if_false]
        refine (follows spelled low few reads inside).bind ?_
        rw [remaining, Peg.bounded]
        cases found : rule.denote (s.reading m input) pos with
        | none => exact .inl (by simp [Match.ofBehind])
        | some behind =>
            have further := onward pos behind inside found
            have later := ih further.2 (by omega : count + 1 ≤ most) (by omega)
            have fewer : most - (count + 1) = left := by omega
            rw [fewer] at later
            simpa [Match.ofBehind, Nat.add_assoc, Nat.add_comm 1] using later

theorem repeated_run (spelled : Item m s input rule cells)
    (few : rule.rounds input.size < p.engine.rounds) (reads : rules.Reads m (cells ++ rest))
    {least : Nat} {limit : Option Nat} {result : Match}
    (ran : Fares spent m result (repetitions p s rules least limit p.engine.rounds 0 pos m)) :
    Fares spent m (result, rules.forward cells.length)
      (p.repeated s rules pos least limit m) := by
  have length := spelled.length_le input.size
  have skipped := spelled.skipItem_run reads (length.trans few.le)
  unfold repeated Parser.skipItem
  rw [Interp.bind_ok skipped]
  exact ran.bind (.inl rfl)

/-- A search stops at the first place where the rule matches. -/
theorem search_run (follows : p.Follows spent m s input height)
    (spelled : Item m s input rule cells) (low : rule.height ≤ height)
    (few : rule.rounds input.size < p.engine.rounds) (reads : rules.Reads m (cells ++ rest))
    (thru : Bool) {places : List Nat} (inside : ∀ place ∈ places, place ≤ input.size) :
    Fares spent m
      (Match.ofBehind
        (if thru then places.findSome? (rule.denote (s.reading m input))
         else places.find? fun place => (rule.denote (s.reading m input) place).isSome))
      (p.search s rules thru places m) := by
  induction places with
  | nil => cases thru <;> exact .inl rfl
  | cons place places ih =>
      obtain ⟨here, others⟩ := List.forall_mem_cons.mp inside
      unfold search
      refine (follows spelled low few reads here).bind ?_
      cases found : rule.denote (s.reading m input) place with
      | none =>
          have later := ih others
          simpa [Match.ofBehind, found] using later
      | some behind => cases thru <;> exact .inl (by simp [Match.ofBehind, found])

/-! ## One rule -/

theorem element_run (shown : s.Shows m input) (kind : Kind) (fits : Cell → Bool)
    (same : ∀ c, fits c = decide (c.typeKind = kind)) :
    element s pos fits m = .ok (Match.ofBehind ((s.reading m input).element kind pos)) m := by
  unfold element
  rw [Interp.bind_ok (Subject.element?_run shown pos)]
  unfold Reading.element Subject.reading
  cases input.element? pos with
  | none => rfl
  | some c =>
      by_cases here : c.typeKind = kind <;> simp [same, here, Match.ofBehind]

/-- A value matches what the parsing expression that it stands for does. -/
theorem value_run (own : m.config.overruns m.frames.size p.level = true → spent)
    (shown : s.Shows m input) (keeps : s.KeepsNothing m)
    (follows : p.Follows spent m s input height) {c : Cell}
    (spelled : Value m s input (Item m s input) rule c) (low : rule.height ≤ height + 1)
    (few : rule.rounds input.size < p.engine.rounds) (inside : pos ≤ input.size) :
    Fares spent m (Match.ofBehind (rule.denote (s.reading m input) pos)) (p.value s c pos m) := by
  unfold value
  cases spelled with
  | quoted marked taken decides =>
      have found := Subject.matchLiteral_run shown decides pos inside
      rw [if_pos marked, Interp.lift_bind_ok taken]
      exact .inl (by simpa [Peg.denote] using found)
  | literal kind decides =>
      have found := Subject.matchLiteral_run shown decides pos inside
      rcases kind with kind | kind
      · have unquoted := Cell.isQuoted_of_is kind (by decide)
        exact .inl (by
          simpa [unquoted, (Cell.is_iff.mp kind).2, Kind.isAnyWord, Kind.isAnyPath, Peg.denote]
            using found)
      · have unquoted := Cell.isQuoted_of_is kind (by decide)
        exact .inl (by
          simpa [unquoted, (Cell.is_iff.mp kind).2, Kind.isAnyWord, Kind.isAnyPath, Peg.denote]
            using found)
  | datatype kind held =>
      have unquoted := Cell.isQuoted_of_is kind (by decide)
      simp only [unquoted, (Cell.is_iff.mp kind).2, Bool.false_eq_true, if_false]
      exact .inl (element_run shown _ _ fun c => by simp [held])
  | block kind opened reads alternatives =>
      have unquoted := Cell.isQuoted_of_is kind (by decide)
      simp only [unquoted, (Cell.is_iff.mp kind).2, Bool.false_eq_true, if_false]
      rw [Interp.lift_bind_ok opened]
      exact block_run own follows alternatives low few reads inside keeps

theorem keyword?_total (c : Cell) : ∃ found, keyword? c m = .ok found := by
  unfold keyword?
  split
  · exact ⟨none, rfl⟩
  · cases c.wordSymbol? with
    | none => exact ⟨none, rfl⟩
    | some symbol => exact ⟨_, rfl⟩

/-- A rule that begins with END is END. -/
theorem eq_end_of_keyword? {c : Cell} (spelled : Item m s input rule (c :: cells))
    (asked : keyword? c m = .ok (some .end_)) : rule = .end_ ∧ cells = [] := by
  cases spelled with
  | value spelled =>
      rw [keyword?_of_not_word (spelled.is_other (by decide))] at asked
      cases asked
  | named _ unknown _ _ =>
      rw [unknown] at asked
      cases asked
  | atom known atomic =>
      rw [known.keyword?_run] at asked
      cases asked
      cases atomic
      exact ⟨rfl, rfl⟩
  | operator known prefixed _ =>
      rw [known.keyword?_run] at asked
      cases asked
      cases prefixed
  | count known =>
      rw [keyword?_of_not_word (Cell.is_other known.integer (by decide))] at asked
      cases asked
  | counts known =>
      rw [keyword?_of_not_word (Cell.is_other known.integer (by decide))] at asked
      cases asked

theorem seekRule_run (shown : s.Shows m input) (follows : p.Follows spent m s input height)
    (spelled : Item m s input rule cells) (low : rule.height ≤ height)
    (few : rule.rounds input.size < p.engine.rounds) (reads : rules.Reads m (cells ++ rest))
    (inside : pos ≤ input.size) (thru : Bool) :
    Fares spent m
      (Match.ofBehind ((if thru then Peg.thru rule else .to_ rule).denote (s.reading m input) pos),
        rules.forward cells.length)
      (p.seekRule s rules pos thru m) := by
  have length := spelled.length_le input.size
  have skipped : p.skipItem rules m = _ := spelled.skipItem_run reads (length.trans few.le)
  have within : ∀ place ∈ Peg.onward input.size pos, place ≤ input.size :=
    fun place member => (Peg.mem_onward.mp member).2
  have searched := search_run follows spelled low few reads thru within
  unfold seekRule
  change Fares spent m _ (p.search s rules thru (List.range' pos (input.size + 1 - pos)) m)
    at searched
  rw [Interp.ask_bind_ok (Subject.size_run shown)]
  cases cells with
  | nil => exact absurd rfl spelled.ne_nil
  | cons c cells =>
      obtain ⟨found, asked⟩ := keyword?_total (m := m) c
      have seen : rules.isAt .end_ m = .ok (found == some .end_) m := by
        unfold Rules.isAt
        rw [Interp.bind_ok (Rules.current?_run reads)]
        simp only [List.cons_append, List.head?_cons]
        rw [Interp.ask_bind_ok asked]
        rfl
      rw [Interp.bind_ok seen]
      by_cases ended : found = some .end_
      · subst ended
        obtain ⟨rfl, rfl⟩ := eq_end_of_keyword? spelled asked
        rw [Peg.denote_to_end (r := s.reading m input) inside thru]
        exact .inl rfl
      · simp only [beq_iff_eq, ended, if_false]
        rw [Interp.bind_ok skipped]
        refine searched.bind ?_
        cases thru <;> exact .inl rfl

theorem ofBehind_times (least most : Nat) :
    Match.ofBehind ((Peg.times least most rule).denote (s.reading m input) pos) =
      (let (count, last) := Peg.bounded (rule.denote (s.reading m input)) most pos
       counts least count last) := by
  simp only [Peg.denote, counts]
  split <;> rfl

theorem repetitions_some (follows : p.Follows spent m s input height)
    (spelled : Item m s input rule cells) (low : rule.height ≤ height)
    (few : rule.rounds input.size < p.engine.rounds) (reads : rules.Reads m (cells ++ rest))
    (inside : pos ≤ input.size) {fuel : Nat} (enough : input.size - pos < fuel) :
    Fares spent m (Match.ofBehind ((Peg.some_ rule).denote (s.reading m input) pos))
      (repetitions p s rules 1 none (fuel + 1) 0 pos m) := by
  have onward : Peg.Onward input.size (rule.denote (s.reading m input)) :=
    Peg.denote_onward (s.reading m input) rule
  have size : (s.reading m input).input.size = input.size := rfl
  unfold repetitions
  simp only [Option.any_none, Bool.false_eq_true, if_false]
  refine (follows spelled low few reads inside).bind ?_
  cases found : rule.denote (s.reading m input) pos with
  | none => exact .inl (by simp [Match.ofBehind, counts, Peg.denote, found])
  | some behind =>
      obtain ⟨further, within⟩ := onward pos behind inside found
      have ran := repetitions_unbounded follows spelled low few reads within (le_refl 1)
        (by omega : _ < fuel)
      simp only [Peg.denote, found, Option.map_some, size, Match.ofBehind,
        Peg.greedy_of_some onward inside found]
      by_cases stays : behind = pos
      · exact .inl (by simp [counts, stays])
      · simpa [stays] using ran

/-- A keyword with its rule matches what the parsing expression does. -/
theorem keyword_run (shown : s.Shows m input) (follows : p.Follows spent m s input height) {k : Keyword}
    {c : Cell} {whole : Peg} (known : IsKeyword m k c) (prefixed : Operator rule k whole)
    (spelled : Item m s input rule cells) (low : rule.height ≤ height)
    (few : whole.rounds input.size < p.engine.rounds) (reads : rules.Reads m (cells ++ rest))
    (inside : pos ≤ input.size) :
    Fares spent m
      (Match.ofBehind (whole.denote (s.reading m input) pos), rules.forward cells.length)
      (p.keyword s k c rules pos m) := by
  obtain ⟨name, molded⟩ := known.mold_run
  have fewer : rule.rounds input.size < p.engine.rounds :=
    (Nat.le_of_succ_le (prefixed.rounds_le input.size)).trans_lt few
  have ran := follows spelled low fewer reads inside
  unfold keyword
  rw [Interp.lift_bind_ok molded, Interp.ask_bind_ok (Subject.size_run shown)]
  cases prefixed with
  | any | while_ =>
      simp only [Peg.rounds] at few
      exact repeated_run spelled fewer reads
        (repetitions_unbounded follows spelled low fewer reads inside (Nat.zero_le 0) (by omega))
  | some_ =>
      simp only [Peg.rounds] at few
      obtain ⟨more, total⟩ : ∃ more, p.engine.rounds = more + 1 := ⟨p.engine.rounds - 1, by omega⟩
      refine repeated_run spelled fewer reads ?_
      rw [total]
      exact repetitions_some follows spelled low fewer reads inside (by omega)
  | opt =>
      simp only [Peg.rounds] at few
      refine repeated_run spelled fewer reads ?_
      rw [ofBehind_times]
      simpa using repetitions_bounded follows spelled low fewer reads inside (Nat.zero_le 1)
        (by omega)
  | not_ =>
      simp only
      refine ran.bind ?_
      cases found : rule.denote (s.reading m input) pos <;>
        exact .inl (by simp [Match.ofBehind, Peg.denote, found])
  | ahead =>
      simp only
      refine ran.bind ?_
      cases found : rule.denote (s.reading m input) pos <;>
        exact .inl (by simp [Match.ofBehind, Match.behind?, Peg.denote, found])
  | to_ => exact seekRule_run shown follows spelled low fewer reads inside false
  | thru => exact seekRule_run shown follows spelled low fewer reads inside true

theorem atom_run (shown : s.Shows m input) {k : Keyword} {c : Cell} (known : IsKeyword m k c)
    (atomic : Atom k rule) :
    p.keyword s k c rules pos m =
      .ok (Match.ofBehind (rule.denote (s.reading m input) pos), rules) m := by
  obtain ⟨name, molded⟩ := known.mold_run
  unfold keyword
  rw [Interp.lift_bind_ok molded, Interp.ask_bind_ok (Subject.size_run shown)]
  have size : (s.reading m input).input.size = input.size := rfl
  cases atomic with
  | skip => by_cases more : pos < input.size <;> simp [Peg.denote, Match.ofBehind, size, more]
  | end_ => by_cases ended : input.size ≤ pos <;> simp [Peg.denote, Match.ofBehind, size, ended]
  | fail => rfl

/-- A counted rule matches as often as its counts tell. -/
theorem counted_run (follows : p.Follows spent m s input height) {least most : Nat}
    (spelled : Item m s input rule cells) (low : rule.height ≤ height)
    (few : (Peg.times least most rule).rounds input.size < p.engine.rounds)
    (reads : rules.Reads m (cells ++ rest)) (inside : pos ≤ input.size) :
    Fares spent m
      (Match.ofBehind ((Peg.times least most rule).denote (s.reading m input) pos),
        rules.forward cells.length)
      (p.repeated s rules pos least (some most) m) := by
  simp only [Peg.rounds] at few
  have fewer : rule.rounds input.size < p.engine.rounds := by omega
  refine repeated_run spelled fewer reads ?_
  rw [ofBehind_times]
  simpa using repetitions_bounded follows spelled low fewer reads inside (Nat.zero_le most)
    (by omega)

/-- A rule matches what its parsing expression does if the rules inside it do. -/
theorem rule_run (own : m.config.overruns m.frames.size p.level = true → spent)
    (shown : s.Shows m input) (keeps : s.KeepsNothing m)
    (follows : p.Follows spent m s input height) (spelled : Item m s input rule cells)
    (low : rule.height ≤ height + 1) (few : rule.rounds input.size < p.engine.rounds)
    (reads : rules.Reads m (cells ++ rest)) (inside : pos ≤ input.size) :
    Fares spent m
      (Match.ofBehind (rule.denote (s.reading m input) pos), rules.forward cells.length)
      (p.rule s rules pos m) := by
  unfold Parser.rule
  cases spelled with
  | @value _ c spelled =>
      have ran := value_run own shown keeps follows spelled low few inside
      rw [Interp.bind_ok (Rules.take_run reads "rule")]
      by_cases unquoted : c.quote = 0
      · have other {k : Kind} (apart : k ∉ [Kind.quoted, .text, .char, .datatype, .block]) :
            c.kind ≠ k := by
          have elsewhere := spelled.is_other apart
          simpa [Cell.is, unquoted] using elsewhere
        have given := ran.map fun result => (result, rules.forward 1)
        simp only [unquoted, bne_self_eq_false, Bool.false_eq_true, if_false]
        cases kind : c.kind <;> first
          | exact given
          | exact absurd kind (other (by decide))
      · simp only [bne_iff_ne, ne_eq, unquoted, not_false_eq_true, if_true]
        exact ran.bind (.inl rfl)
  | @named _ c value word unknown held spelled =>
      have ran := value_run own shown keeps follows spelled low few inside
      obtain ⟨unquoted, kind⟩ := Cell.is_iff.mp word
      rw [Interp.bind_ok (Rules.take_run reads "rule")]
      simp only [unquoted, kind, bne_self_eq_false, Bool.false_eq_true, if_false]
      rw [Interp.ask_bind_ok unknown]
      simp only
      rw [Interp.lift_bind_ok held]
      exact ran.map _
  | @atom k _ c known atomic =>
      obtain ⟨unquoted, kind⟩ := Cell.is_iff.mp known.word
      rw [Interp.bind_ok (Rules.take_run reads "rule")]
      simp only [unquoted, kind, bne_self_eq_false, Bool.false_eq_true, if_false]
      rw [Interp.ask_bind_ok known.keyword?_run]
      exact .inl (atom_run shown known atomic)
  | @operator k inner _ c behind known prefixed spelled =>
      obtain ⟨unquoted, kind⟩ := Cell.is_iff.mp known.word
      have lower : inner.height ≤ height := by
        rw [prefixed.height_eq] at low
        omega
      rw [Interp.bind_ok (Rules.take_run reads "rule")]
      simp only [unquoted, kind, bne_self_eq_false, Bool.false_eq_true, if_false]
      rw [Interp.ask_bind_ok known.keyword?_run, ← Rules.forward_cons]
      exact keyword_run shown follows known prefixed spelled lower few reads.tail inside
  | @count inner n c d behind known plain spelled =>
      obtain ⟨unquoted, kind⟩ := Cell.is_iff.mp known.integer
      have ran := counted_run follows spelled (Nat.le_of_succ_le_succ low) few reads.tail inside
      rw [Interp.bind_ok (Rules.take_run reads "rule")]
      simp only [unquoted, kind, bne_self_eq_false, Bool.false_eq_true, if_false, counted]
      have seen : (rules.forward 1).current? m = .ok (some d) m := Rules.current?_run reads.tail
      have single : Option.filter (·.is .integer) (some d) = none := by simp [plain]
      rw [Interp.bind_ok seen, ← Rules.forward_cons]
      simpa only [single, known.value, Option.getD_some, Int.toNat_natCast,
        Int.not_lt.mpr (Int.natCast_nonneg n), if_false] using ran
  | @counts inner least most c d e behind known second ordered plain spelled =>
      obtain ⟨unquoted, kind⟩ := Cell.is_iff.mp known.integer
      have ran := counted_run follows spelled (Nat.le_of_succ_le_succ low) few reads.tail.tail inside
      rw [Interp.bind_ok (Rules.take_run reads "rule")]
      simp only [unquoted, kind, bne_self_eq_false, Bool.false_eq_true, if_false, counted]
      have seen : (rules.forward 1).current? m = .ok (some d) m := Rules.current?_run reads.tail
      have third : ((rules.forward 1).forward 1).current? m = .ok (some e) m :=
        Rules.current?_run reads.tail.tail
      have pair : Option.filter (·.is .integer) (some d) = some d := by simp [second.integer]
      rw [Interp.bind_ok seen, ← Rules.forward_cons, ← Rules.forward_cons]
      simp only [pair, Rules.next_eq_forward]
      rw [Interp.bind_ok third]
      simpa [plain, known.value, second.value, Nat.not_lt.mpr ordered,
        Int.not_lt.mpr (Int.natCast_nonneg least)] using ran

end Parser

/-- However deep rules may nest, a rule that is no higher matches what its parsing expression
does: the rules inside it are matched one level further in and are lower. -/
theorem matchItem_follows {e : Engine} {m : Machine} {s : Subject} {input : Input}
    (shown : s.Shows m input) (keeps : s.KeepsNothing m) {depth height : Nat} (level : Nat)
    (deep : height ≤ depth) :
    Parser.Follows ⟨e, level, matchItem e depth level⟩ (Overrun m (level + 1) height) m s input
      height := by
  induction depth generalizing level height with
  | zero =>
      intro rule _ _ _ _ _ low
      have positive := rule.height_pos
      omega
  | succ depth ih =>
      intro rule cells rest rules pos spelled low few reads inside
      have positive := rule.height_pos
      have inner : Parser.Follows ⟨e, level + 1, matchItem e depth (level + 1)⟩
          (Overrun m (level + 1) height) m s input (height - 1) := by
        intro _ _ _ _ _ spelled low few reads inside
        have later := ih (level + 1) (by omega : height - 1 ≤ depth) spelled low few reads inside
        exact later.mono fun used => used.mono (by omega) (by omega)
      refine Parser.rule_run ?_ shown keeps inner spelled (by omega) few reads inside
      exact fun used => ⟨level + 1, le_rfl, by omega, used⟩

/-- The cells of `some "a" skip | end`. -/
def sampleCells : List Cell :=
  [Cell.word .word ⟨0⟩, Cell.series .text ⟨1⟩ 0, Cell.word .word ⟨1⟩, Cell.bar,
    Cell.word .word ⟨2⟩]

/-- A machine that holds the text `aab` and rules for it. -/
def sampleMachine : Machine where
  config := {}
  heap :=
    { slots := #[some (Series.ofText "aab"), some (Series.ofText "a"),
        some (Series.ofCells sampleCells.toArray)]
      ballast := 0 }
  symbols :=
    { entries := #[⟨"some", "some", ⟨0⟩, ⟨0⟩⟩, ⟨"skip", "skip", ⟨1⟩, ⟨1⟩⟩,
        ⟨"end", "end", ⟨2⟩, ⟨2⟩⟩] }
  countdown := 0

/-- The text `aab`, where case matters. -/
def sampleSubject : Subject :=
  { cell := Cell.series .text ⟨0⟩ 0, series := ⟨0⟩, specifier := none, strict := true }

/-- What the rules of the sample spell. -/
def samplePeg : Peg :=
  .choice (.seq (.some_ (.literal (Cell.series .text ⟨1⟩ 0))) (.seq .skip .empty))
    (.seq .end_ .empty)

theorem sampleCells_spell_samplePeg :
    Spells sampleMachine sampleSubject (.text ['a', 'a', 'b']) samplePeg sampleCells := by
  have letter : Item sampleMachine sampleSubject (.text ['a', 'a', 'b'])
      (.literal (Cell.series .text ⟨1⟩ 0)) [Cell.series .text ⟨1⟩ 0] :=
    .value (.literal (.inl rfl) ⟨"a", rfl⟩)
  have many := Item.operator (c := Cell.word .word ⟨0⟩) (k := .some_) ⟨rfl, _, _, rfl, rfl⟩ .some_
    letter
  have one : Item sampleMachine sampleSubject (.text ['a', 'a', 'b']) .skip
      [Cell.word .word ⟨1⟩] := .atom ⟨rfl, _, _, rfl, rfl⟩ .skip
  have stop : Item sampleMachine sampleSubject (.text ['a', 'a', 'b']) .end_
      [Cell.word .word ⟨2⟩] := .atom ⟨rfl, _, _, rfl, rfl⟩ .end_
  exact .or (.cons many (.cons one .nil)) rfl (.last (.cons stop .nil))

/-- An engine for rules that evaluate nothing. -/
def idle : Engine := ⟨fun _ _ => throw .exhausted, 20⟩

/-- A machine that holds the text `aab` and, for it, the rules `["a"]` in a block.  Its native stack
has room for one block of rules, but not for a block in it. -/
def crampedMachine : Machine where
  config := { stackBytes := 1000, stackUse := fun _ rules => 600 * (rules + 1) }
  heap :=
    { slots := #[some (Series.ofText "aab"), some (Series.ofText "a"),
        some (Series.ofCells #[Cell.series .block ⟨3⟩ 0]),
        some (Series.ofCells #[Cell.series .text ⟨1⟩ 0])]
      ballast := 0 }
  symbols := .empty
  countdown := 0

/-- What a block of rules in a block spells. -/
def nestedPeg : Peg := .seq (.seq (.literal (Cell.series .text ⟨1⟩ 0)) .empty) .empty

theorem nested_spells : Spells crampedMachine sampleSubject (.text ['a', 'a', 'b']) nestedPeg
    [Cell.series .block ⟨3⟩ 0] := by
  have letter : Item crampedMachine sampleSubject (.text ['a', 'a', 'b'])
      (.literal (Cell.series .text ⟨1⟩ 0)) [Cell.series .text ⟨1⟩ 0] :=
    .value (.literal (.inl rfl) ⟨"a", rfl⟩)
  have reads : Rules.Reads crampedMachine ⟨⟨3⟩, 0, none⟩ [Cell.series .text ⟨1⟩ 0] :=
    ⟨nofun, _, rfl, rfl⟩
  have block : Item crampedMachine sampleSubject (.text ['a', 'a', 'b'])
      (.seq (.literal (Cell.series .text ⟨1⟩ 0)) .empty) [Cell.series .block ⟨3⟩ 0] :=
    .value (.block rfl rfl reads (.last (.cons letter .nil)))
  exact .last (.cons block .nil)

end Homoicon.Parse
