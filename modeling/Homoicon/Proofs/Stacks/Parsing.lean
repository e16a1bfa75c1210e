import Homoicon.Parse.Matching
import Homoicon.Proofs.Stacks.Evaluation

/-!
# Parsing keeps the levels

Rules may evaluate code and leave a block of rules by a throw, so a match is judged as an
evaluation is: the level is kept, up to a throw that the result tells of.
-/

open Std.Do

set_option mvcgen.warning false

namespace Homoicon.Parse

namespace Match

/-- Whether a match ended by a throw. -/
def threw : Match → Bool
  | thrown => true
  | _ => false

@[simp] theorem threw_matched (behind : Nat) : (matched behind).threw = false := rfl

@[simp] theorem threw_accepted (behind : Nat) : (accepted behind).threw = false := rfl

@[simp] theorem threw_notFound : notFound.threw = false := rfl

@[simp] theorem threw_thrown : thrown.threw = true := rfl

@[simp] theorem threw_ite (found : Prop) [Decidable found] (result other : Match) :
    (if found then result else other).threw = if found then result.threw else other.threw :=
  apply_ite threw found result other

@[simp] theorem threw_counts (least count pos : Nat) :
    (Parser.counts least count pos).threw = false := by
  simp [Parser.counts]

@[simp] theorem threw_of_ne {result : Match} (other : ¬result = thrown) :
    result.threw = false := by
  cases result <;> simp_all

theorem threw_of_behind? {result : Match} {behind : Nat}
    (found : result.behind? = some behind) : result.threw = false := by
  cases result <;> simp_all [behind?]

@[simp] theorem isNone_and_threw (result : Match) :
    (result.behind?.isNone && result.threw) = result.threw := by
  cases result <;> rfl

end Match

/-- What is done with a match keeps a level if it does when something was found. -/
theorem keeps_bind_match {l : Levels} {x : Interp (Match × Rules)}
    {next : Match × Rules → Interp (Match × Rules)}
    (kept : Keeps (fun result => result.1.threw) l x)
    (missed : ∀ result, result.1.behind? = none → next result = pure result)
    (found : ∀ result behind, result.1.behind? = some behind →
      Keeps (fun result => result.1.threw) l (next result)) :
    Keeps (fun result => result.1.threw) l (x >>= next) := by
  refine Triple.bind _ _ kept fun result => ?_
  cases stands : result.1.behind? with
  | none =>
      rw [missed result stands]
      mvcgen
  | some behind =>
      have same : l.after result.1.threw = l := by
        rw [Match.threw_of_behind? stands, Levels.after_false]
      change ⦃fun m => ⌜m.At (l.after result.1.threw)⌝⦄ next result ⦃_⦄
      rw [same]
      exact found result behind stands

section Cursors

variable (l : Levels)

@[spec]
theorem Rules.current?_calm (rules : Rules) : Calm l rules.current? := by
  mvcgen [current?]

@[spec]
theorem Rules.take_calm (rules : Rules) (after : String) : Calm l (rules.take after) := by
  mvcgen [take]

@[spec]
theorem Rules.isAt_calm (rules : Rules) (keyword : Keyword) : Calm l (rules.isAt keyword) := by
  mvcgen [isAt]

@[spec]
theorem Rules.takeOnly_calm (rules : Rules) : Calm l rules.takeOnly := by
  mvcgen [takeOnly]

@[spec]
theorem Rules.skipItem_calm (fuel : Nat) (rules : Rules) : Calm l (skipItem fuel rules) := by
  induction fuel generalizing rules with
  | zero => exact Interp.throws l (fun _ => rfl) _
  | succ fuel ih => mvcgen [skipItem, ih]

@[spec]
theorem Rules.takeTarget_calm (rules : Rules) (after : String) :
    Calm l (rules.takeTarget after) := by
  mvcgen [takeTarget]

@[spec]
theorem Subject.element?_calm (s : Subject) (pos : Nat) : Calm l (s.element? pos) := by
  mvcgen [element?]

@[spec]
theorem Subject.matchLiteral_keeps (s : Subject) (value : Cell) (pos : Nat) :
    Keeps Match.threw l (s.matchLiteral value pos) := by
  mvcgen [matchLiteral]
  all_goals simp_all

@[spec]
theorem Subject.keepItems_calm (collection : SeriesId) (items : List Cell) (only : Bool) :
    Calm l (keepItems collection items only) := by
  mvcgen [keepItems]

@[spec]
theorem Subject.giveUp_calm (s : Subject) (kept : Option Nat) : Calm l (s.giveUp kept) := by
  mvcgen [giveUp]

end Cursors

/-- A parser that keeps the levels, up to the data stack. -/
structure Parser.Steady (p : Parser) : Prop where
  engine : p.engine.Steady
  item : ∀ s rules pos (l : Levels), l.stack = ⊤ →
    Keeps (fun result => result.1.threw) l (p.item s rules pos)

namespace Parser

variable {p : Parser} (l : Levels)

@[spec]
theorem skipItem_calm (rules : Rules) : Calm l (p.skipItem rules) :=
  Rules.skipItem_calm l p.engine.rounds rules

@[spec]
theorem nextAlternative?_calm (fuel : Nat) (rules : Rules) :
    Calm l (nextAlternative? fuel rules) := by
  induction fuel generalizing rules with
  | zero => exact Interp.throws l (fun _ => rfl) _
  | succ fuel ih => mvcgen [nextAlternative?, ih]

@[spec]
theorem leaveBlock_catches (pos : Nat) : Catches Match.threw l (leaveBlock pos) := by
  have asked := Interp.thrownLabel?_calm (l.after true)
  mvcgen [leaveBlock, -Interp.thrownLabel?_calm, asked]
  all_goals simp_all

@[spec]
theorem element_keeps (s : Subject) (pos : Nat) (fits : Cell → Bool) :
    Keeps Match.threw l (element s pos fits) := by
  mvcgen [element]
  all_goals simp_all

@[spec]
theorem seek_keeps (s : Subject) (rules : Rules) (name : String) :
    Keeps (fun result => result.1.threw) l (seek s rules name) := by
  mvcgen [seek]
  all_goals simp_all

@[spec]
theorem leave_keeps (label : Action) (value : Cell) : Keeps Match.threw l (leave label value) := by
  mvcgen [leave]

section Rules

variable (steady : p.Steady)

include steady

theorem doGroup_keeps (group : Cell) : Keeps Option.isNone l (p.doGroup group) :=
  Engine.doBlock_keeps steady.engine l _

theorem alternatives_keeps (s : Subject) (start : Nat) (kept : Option Nat) (fuel : Nat)
    (rules : Rules) (pos : Nat) (anyStack : l.stack = ⊤) :
    Keeps Match.threw l (alternatives p s start kept fuel rules pos) := by
  have matched := steady.item
  induction fuel generalizing rules pos with
  | zero => exact Interp.throws l (fun _ => rfl) _
  | succ fuel ih =>
      mvcgen [alternatives, matched, ih]
      all_goals simp_all

theorem block_keeps (s : Subject) (rules : Rules) (pos : Nat) (anyStack : l.stack = ⊤) :
    Keeps Match.threw l (p.block s rules pos) := by
  have matched := alternatives_keeps l steady
  mvcgen [block, matched]

theorem value_keeps (s : Subject) (rule : Cell) (pos : Nat) (anyStack : l.stack = ⊤) :
    Keeps Match.threw l (p.value s rule pos) := by
  have inner := block_keeps l steady
  mvcgen [value, inner]
  all_goals simp_all

theorem repetitions_keeps (s : Subject) (rules : Rules) (least : Nat) (limit : Option Nat)
    (fuel count pos : Nat) (anyStack : l.stack = ⊤) :
    Keeps Match.threw l (repetitions p s rules least limit fuel count pos) := by
  have matched := steady.item
  induction fuel generalizing count pos with
  | zero => exact Interp.throws l (fun _ => rfl) _
  | succ fuel ih =>
      mvcgen [repetitions, matched, ih]
      all_goals simp_all

theorem repeated_keeps (s : Subject) (rules : Rules) (pos least : Nat) (limit : Option Nat)
    (anyStack : l.stack = ⊤) :
    Keeps (fun result => result.1.threw) l (p.repeated s rules pos least limit) := by
  have matched := repetitions_keeps l steady
  mvcgen [repeated, matched]

theorem capture_keeps (s : Subject) (rules : Rules) (pos : Nat) (name : String) (whole : Bool)
    (anyStack : l.stack = ⊤) :
    Keeps (fun result => result.1.threw) l (p.capture s rules pos name whole) := by
  unfold capture
  refine Triple.bind _ _ (Rules.takeTarget_calm l rules name) fun (target, rules) => ?_
  refine keeps_bind_match (steady.item s rules pos l anyStack) ?_ ?_
  · rintro ⟨result, rules⟩ missed
    simp [missed]
  · rintro ⟨result, rules⟩ behind found
    have quiet := Match.threw_of_behind? found
    mvcgen
    all_goals simp_all

theorem guarded_keeps (block : Cell) (s : Subject) (rules : Rules) (pos : Nat)
    (anyStack : l.stack = ⊤) :
    Keeps (fun result => result.1.threw) l (Interp.guarding do
      Interp.guard block
      p.item s rules pos) := by
  refine Interp.guarding_keeps l _ ?_
  have matched := steady.item s rules pos l.unguarded anyStack
  mvcgen [matched]

theorem collect_keeps (s : Subject) (rules : Rules) (pos : Nat) (name : String)
    (anyStack : l.stack = ⊤) :
    Keeps (fun result => result.1.threw) l (p.collect s rules pos name) := by
  unfold collect
  refine Triple.bind _ _ (Rules.takeTarget_calm l rules name) fun (target, rules) => ?_
  refine Triple.bind _ _ (Interp.allocArray_calm l []) fun collection => ?_
  refine keeps_bind_match (guarded_keeps l steady _ _ rules pos anyStack) ?_ ?_
  · rintro ⟨result, rules⟩ missed
    simp [missed]
  · rintro ⟨result, rules⟩ behind found
    have quiet := Match.threw_of_behind? found
    mvcgen
    all_goals simp_all

theorem keep_keeps (s : Subject) (rules : Rules) (pos : Nat) (name : String)
    (anyStack : l.stack = ⊤) :
    Keeps (fun result => result.1.threw) l (p.keep s rules pos name) := by
  have reduced := Engine.reduce_keeps steady.engine l
  have kept (collection : SeriesId) (only : Bool) (rules : Rules) :
      Keeps (fun result => result.1.threw) l (p.keepMatched s collection only rules pos) := by
    unfold keepMatched
    refine keeps_bind_match (steady.item s rules pos l anyStack) ?_ ?_
    · rintro ⟨result, rules⟩ missed
      simp [missed]
    · rintro ⟨result, rules⟩ behind found
      have quiet := Match.threw_of_behind? found
      mvcgen
      all_goals simp_all
  mvcgen [keep, reduced, kept]
  all_goals simp_all

theorem replacement_keeps (rules : Rules) (after : String) :
    Keeps (fun result => result.1.isNone) l (p.replacement rules after) := by
  have ran := doGroup_keeps l steady
  mvcgen [replacement, ran]
  all_goals simp_all

theorem remove_keeps (s : Subject) (rules : Rules) (pos : Nat) (anyStack : l.stack = ⊤) :
    Keeps (fun result => result.1.threw) l (p.remove s rules pos) := by
  unfold remove
  refine keeps_bind_match (steady.item s rules pos l anyStack) ?_ ?_
  · rintro ⟨result, rules⟩ missed
    simp [missed]
  · rintro ⟨result, rules⟩ behind found
    have quiet := Match.threw_of_behind? found
    mvcgen
    all_goals simp_all

theorem insert_keeps (s : Subject) (rules : Rules) (pos : Nat) (name : String) :
    Keeps (fun result => result.1.threw) l (p.insert s rules pos name) := by
  have replaced := replacement_keeps l steady
  mvcgen [insert, replaced]
  all_goals simp_all

theorem change_keeps (s : Subject) (rules : Rules) (pos : Nat) (name : String)
    (anyStack : l.stack = ⊤) :
    Keeps (fun result => result.1.threw) l (p.change s rules pos name) := by
  unfold change
  refine Triple.bind _ _ (Rules.takeOnly_calm l rules) fun (only, rules) => ?_
  refine Triple.bind _ _ (steady.item s rules pos l anyStack) fun (result, rules) => ?_
  -- The replacement is evaluated even while a throw out of the rule is in progress.
  have replaced := replacement_keeps (l.after result.threw) steady
  cases stands : result.behind? with
  | none =>
      mvcgen [replaced]
      all_goals simp_all
  | some behind =>
      have quiet := Match.threw_of_behind? stands
      mvcgen [replaced]
      all_goals simp_all

theorem condition_keeps (rules : Rules) (pos : Nat) (name : String) :
    Keeps (fun result => result.1.threw) l (p.condition rules pos name) := by
  have ran := doGroup_keeps l steady
  mvcgen [condition, ran]
  all_goals simp_all

theorem into_keeps (s : Subject) (rules : Rules) (pos : Nat) (name : String)
    (anyStack : l.stack = ⊤) :
    Keeps (fun result => result.1.threw) l (p.into s rules pos name) := by
  have inner := block_keeps l steady
  mvcgen [into, inner]
  all_goals simp_all

theorem expression_keeps (s : Subject) (rules : Rules) (pos : Nat) (anyStack : l.stack = ⊤) :
    Keeps (fun result => result.1.threw) l (p.expression s rules pos) := by
  have evaluated := Engine.evalStepAt_keeps steady.engine l
  have matched := guarded_keeps l steady
  mvcgen [expression, evaluated, matched]
  all_goals simp_all

theorem search_keeps (s : Subject) (rules : Rules) (thru : Bool) (positions : List Nat)
    (anyStack : l.stack = ⊤) : Keeps Match.threw l (p.search s rules thru positions) := by
  have matched := steady.item
  induction positions with
  | nil =>
      mvcgen [search]
      simp_all
  | cons pos rest ih =>
      mvcgen [search, matched, ih]
      all_goals simp_all

theorem seekRule_keeps (s : Subject) (rules : Rules) (pos : Nat) (thru : Bool)
    (anyStack : l.stack = ⊤) :
    Keeps (fun result => result.1.threw) l (p.seekRule s rules pos thru) := by
  have searched := search_keeps l steady
  mvcgen [seekRule, searched]
  all_goals simp_all

theorem keyword_keeps (s : Subject) (k : Keyword) (rule : Cell) (rules : Rules) (pos : Nat)
    (anyStack : l.stack = ⊤) :
    Keeps (fun result => result.1.threw) l (p.keyword s k rule rules pos) := by
  have matched := steady.item
  have many := repeated_keeps l steady
  have captured := capture_keeps l steady
  have collected := collect_keeps l steady
  have kept := keep_keeps l steady
  have removed := remove_keeps l steady
  have inserted := insert_keeps l steady
  have changed := change_keeps l steady
  have tested := condition_keeps l steady
  have entered := into_keeps l steady
  have evaluated := expression_keeps l steady
  have sought := seekRule_keeps l steady
  mvcgen [keyword, matched, many, captured, collected, kept, removed, inserted, changed, tested,
    entered, evaluated, sought]
  all_goals clear matched many captured collected kept removed
  all_goals clear inserted changed tested entered evaluated sought
  all_goals simp_all

theorem counted_keeps (s : Subject) (rule : Cell) (rules : Rules) (pos : Nat) (least : Int)
    (anyStack : l.stack = ⊤) :
    Keeps (fun result => result.1.threw) l (p.counted s rule rules pos least) := by
  have many := repeated_keeps l steady
  mvcgen [counted, many]
  all_goals simp_all

theorem rule_keeps (s : Subject) (rules : Rules) (pos : Nat) (anyStack : l.stack = ⊤) :
    Keeps (fun result => result.1.threw) l (p.rule s rules pos) := by
  have ran := doGroup_keeps l steady
  have matched := value_keeps l steady
  have many := counted_keeps l steady
  have worded := keyword_keeps l steady
  have gotten := Path.get_keeps steady.engine l
  mvcgen [rule, ran, matched, many, worded, gotten]
  all_goals clear ran matched many worded gotten
  all_goals simp_all

end Rules

end Parser

/-- Matching a rule keeps a level, however deep rules may nest. -/
theorem matchItem_keeps {e : Engine} (steady : e.Steady) (depth level : Nat) (s : Subject)
    (rules : Rules) (pos : Nat) (l : Levels) (anyStack : l.stack = ⊤) :
    Keeps (fun result => result.1.threw) l (matchItem e depth level s rules pos) := by
  induction depth generalizing level s rules pos l with
  | zero => exact Interp.throws l (fun _ => rfl) _
  | succ depth ih =>
      exact Parser.rule_keeps (p := ⟨e, level + 1, matchItem e depth (level + 1)⟩) l
        ⟨steady, ih (level + 1)⟩ s rules pos anyStack

theorem run_keeps {e : Engine} (steady : e.Steady) (input rules : Cell) (strict : Bool)
    (l : Levels) (anyStack : l.stack = ⊤) : Keeps Match.threw l (run e input rules strict) := by
  have matched := Parser.block_keeps (p := ⟨e, 0, matchItem e e.rounds 0⟩) l
    ⟨steady, fun s rules pos l => matchItem_keeps steady e.rounds 0 s rules pos l⟩
  mvcgen [run, matched]
  all_goals simp_all

end Homoicon.Parse
