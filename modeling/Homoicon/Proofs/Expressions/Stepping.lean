import Homoicon.Proofs.Expressions.Levels

/-!
# The steps of a formula

What the evaluator does with the cells of a formula at a level: it begins an expression, fetches a
cell, and sees whether an operator follows.  None of the operators of arithmetic takes a cell before
it is evaluated.
-/

namespace Homoicon

open Interp (Gives)

variable {reads : Places} {specifier : Specifier} {op : FormulaOp} {enfix : Bool} {w : Cell}
  {m : Machine}

/-! ## Cells -/

theorem Cell.IsQuiet.of_is {c : Cell} {k : Kind} (is : c.is k = true) (word : k ≠ .word)
    (path : k ≠ .path) : c.IsQuiet :=
  ⟨Cell.is_other is word, Cell.is_other is path⟩

theorem Heap.Names.isEnd {h : Heap} (names : h.Names reads specifier op enfix w) :
    w.isEnd = false := by
  have kind := (Cell.is_iff.mp names.1).2
  simp [Cell.isEnd, kind]

theorem Heap.Begins.isEnd {h : Heap} (begins : h.Begins reads specifier w) : w.isEnd = false := by
  cases begins with
  | integer integer => exact integer.isLiteral.isEnd
  | group group => simp [Cell.isEnd, (Cell.is_iff.mp group).2]
  | word names => exact names.isEnd

/-- What stands behind a formula is at its end only if nothing is there. -/
theorem Heap.Follows.isEnd {h : Heap} {operator : Prop} {rest : List Cell}
    (follows : h.Follows reads specifier operator rest) :
    (rest.headD Cell.end_).isEnd = rest.isEmpty := by
  cases rest with
  | nil => rfl
  | cons c rest =>
      rcases follows c rfl with begins | ⟨-, op, names⟩
      · exact begins.isEnd
      · exact names.isEnd

/-! ## Operators -/

/-- An action of arithmetic has none of the conventions for the left side. -/
theorem Heap.Computes.without {a : Action} {base : SeriesId} {p₁ p₂ : Typeset}
    (computes : m.heap.Computes reads op a base p₁ p₂) {flags : Flags}
    (part : flags &&& Flags.lookbacks = flags) : Query.actionHas a flags m = .ok false := by
  obtain ⟨s, found, plain⟩ := computes.plain
  exact Query.hasFlag_eq_ok.mpr ⟨s, found, Series.has_of_mask part plain⟩

/-- The operator that the word at a feed is for the evaluator, if it is one. -/
theorem Heap.Refers.operator_run {id : FeedId} {feed : Feed} {r : VarRef} {value : Cell} {a : Action}
    (refers : m.heap.Refers reads specifier w r value) (word : w.is .word = true)
    (action : value.asAction? = some a) (fed : Query.feed id m = .ok feed)
    (current : feed.value = w) (own : feed.specifier = specifier) :
    Engine.operatorAt? id m =
      .ok (if value.enfixed then some ⟨a, value.binding, w.wordSymbol?⟩ else none) m := by
  have noPath : Query.isDividePath w m = .ok false := by
    rw [Query.isDividePath, Cell.is_other word (by decide)]
    rfl
  rw [Engine.operatorAt?, Interp.lift_bind_ok fed, current, own]
  refine (Interp.lift_bind_ok noPath _).trans ?_
  rw [word]
  refine (Interp.lift_bind_ok refers.tryGetVar? _).trans ?_
  simp only [action]
  rfl

namespace Level

variable {l : Level} {frame : Frame} {i : Nat} {tight : Bool}

/-! ## Beginning -/

/-- A frame that begins an expression at a position. -/
def starting (frame : Frame) (i : Nat) (tight : Bool) : Frame :=
  { frame with
    exprIndex := some i, out := { frame.out with stale := true }, noLookahead := tight }

namespace At

theorem start (at_ : l.At frame i tight m) :
    Gives (Engine.startExpression l.below.size) m () (l.At (starting frame i tight) i false) := by
  unfold Engine.startExpression
  refine outlasts.poll at_ fun m at_ => ?_
  obtain ⟨feed, fed, reads⟩ := at_.read
  have position : feed.position?.map (·.2) = some i := by rw [Feed.position?, reads.source]; rfl
  refine .asked at_.asked (.asked fed (.bind (at_.loosen false) fun m at_ => ?_))
  rw [position, reads.tight]
  exact at_.onFrame _ rfl rfl

/-- No operator takes a cell before it is evaluated. -/
theorem quotingOperator_run (at_ : l.At frame i tight m) {operator : Prop}
    (follows : m.heap.Follows reads l.specifier operator (l.cells.drop i)) :
    Engine.quotingOperator? l.below.size frame.feed l.specifier m = .ok none := by
  obtain ⟨feed, fed, here⟩ := at_.read
  have quiet (plain : feed.value.is .word = false) :
      Engine.quotingOperator? l.below.size frame.feed l.specifier m = .ok none := by
    rw [Engine.quotingOperator?, Query.bind_ok fed, Query.bind_ok at_.asked, plain, Bool.not_false,
      Bool.or_true, if_pos rfl]
    rfl
  have plain {op : FormulaOp} {enfix : Bool}
      (names : m.heap.Names reads l.specifier op enfix feed.value) :
      Engine.quotingOperator? l.below.size frame.feed l.specifier m = .ok none := by
    obtain ⟨-, r, value, a, base, p₁, p₂, refers, action, -, computes⟩ := names
    rw [Engine.quotingOperator?, Query.bind_ok fed, Query.bind_ok at_.asked]
    split
    · rfl
    · refine (Query.bind_ok refers.tryGetVar? _).trans ?_
      simp only [action]
      refine (Query.bind_ok (computes.without (by decide)) _).trans ?_
      rw [Bool.and_false]
      rfl
  have value := here.value
  cases rest : l.cells.drop i with
  | nil =>
      rw [rest] at value
      exact quiet (by rw [value]; rfl)
  | cons c behind =>
      obtain rfl : feed.value = c := by rw [value, rest]; rfl
      rcases follows feed.value (by rw [rest]; rfl) with (integer | group | names) | ⟨-, op, names⟩
      · exact quiet integer.isLiteral.quiet.1
      · exact quiet (Cell.is_other group (by decide))
      · exact plain names
      · exact plain names

theorem look (at_ : l.At frame i tight m) {c : Cell} {rest : List Cell}
    (here : l.cells.drop i = c :: rest) (real : c.isEnd = false) {operator : Prop}
    (follows : l.start.heap.Follows reads l.specifier operator rest) :
    Gives (Engine.lookahead l.below.size) m (.reevaluate c none) (l.At frame (i + 1) tight) := by
  obtain ⟨feed, fed, current⟩ := at_.read
  have behind : l.cells.drop (i + 1) = rest := by rw [← List.tail_drop, here]; rfl
  have more : feed.isEnd = false := by rw [Feed.isEnd, current.value, here]; exact real
  have part : ∀ d ∈ rest, d ∈ l.cells := fun d member =>
    List.mem_of_mem_drop (i := i + 1) (by rw [behind]; exact member)
  unfold Engine.lookahead
  refine .asked at_.asked (.asked fed ?_)
  rw [more, if_neg Bool.false_ne_true]
  refine .bind (at_.fetchKept here) fun m at_ => ?_
  have follows : m.heap.Follows reads l.specifier operator (l.cells.drop (i + 1)) :=
    behind ▸ at_.follows part follows
  rw [current.specifier]
  exact .asked (at_.quotingOperator_run follows) (.pure at_)

/-! ## What follows a value -/

/-- Where no operator follows, or none that may take the value, the frame is done. -/
theorem settle (at_ : l.At frame i tight m) {operator : Prop}
    (follows : m.heap.Follows reads l.specifier operator (l.cells.drop i))
    (single : l.cells.drop i = [] ∨ frame.toEnd = false)
    (operand : operator → frame.noLookahead = true) :
    Engine.postSwitch l.below.size m = .ok .finished m := by
  obtain ⟨feed, fed, here⟩ := at_.read
  have value := here.value
  have ended := follows.isEnd
  rw [← value] at ended
  have after (more : l.cells.drop i ≠ []) : Engine.afterExpression frame = .finished := by
    rw [Engine.afterExpression, single.resolve_left more]
    rfl
  have quiet (calm : feed.value.IsQuiet) :
      Engine.postSwitch l.below.size m = .ok .finished m := by
    rw [Engine.postSwitch_quiet at_.asked fed calm, Feed.isEnd, ended]
    split
    · rfl
    · rename_i more
      rw [after (by simpa using more)]
  cases rest : l.cells.drop i with
  | nil => exact quiet (by rw [value, rest]; exact ⟨rfl, rfl⟩)
  | cons c behind =>
      obtain rfl : feed.value = c := by rw [value, rest]; rfl
      have more : feed.isEnd = false := by rw [Feed.isEnd, ended, rest]; rfl
      rcases follows feed.value (by rw [rest]; rfl) with
        (integer | group | names) | ⟨allowed, op, names⟩
      · exact quiet integer.isLiteral.quiet
      · exact quiet (.of_is group (by decide) (by decide))
      · obtain ⟨word, r, value, a, -, -, -, refers, action, fixity, -⟩ := names
        have looked := refers.operator_run word action fed rfl here.specifier
        rw [fixity] at looked
        rw [Engine.postSwitch, Interp.lift_bind_ok at_.asked, Interp.lift_bind_ok fed, more]
        refine (Interp.bind_ok looked _).trans ?_
        rw [after (by simp [rest])]
        rfl
      · obtain ⟨word, r, value, a, _, _, _, refers, action, fixity, computes⟩ := names
        have looked := refers.operator_run word action fed rfl here.specifier
        rw [fixity] at looked
        obtain ⟨s, live, plain⟩ := computes.plain
        have visible : s.has Flags.invisible = false := Series.has_of_mask (by decide) plain
        rw [Engine.postSwitch, Interp.lift_bind_ok at_.asked, Interp.lift_bind_ok fed, more]
        refine (Interp.bind_ok looked _).trans ?_
        refine (Interp.lift_bind_ok (Query.series_eq_ok.mpr live) _).trans ?_
        rw [operand allowed]
        change (if true && !s.has Flags.invisible then _ else _ : Interp Step) m = _
        rw [visible]
        rfl

end At

end Level

end Homoicon
