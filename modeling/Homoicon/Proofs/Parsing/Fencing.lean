import Homoicon.Parse.Matching
import Homoicon.Proofs.Refining

/-!
# Matching within a fence

A fence refuses some of the rules when they are tried, and some of their results.  Matching within
it runs as matching does until a rule is refused, so what is proved of the runs that stay inside
holds of matching itself.
-/

namespace Homoicon

namespace Parse

open Interp

/-- A parser that runs as another one does until it refuses a rule. -/
structure Parser.Refines (q p : Parser) : Prop where
  engine : q.engine.Refines p.engine
  level : q.level = p.level
  item : ∀ s rules pos, Interp.Refines (q.item s rules pos) (p.item s rules pos)

namespace Parser.Refines

variable {q p : Parser} (refines : q.Refines p)

include refines

theorem doGroup (group : Cell) : Interp.Refines (q.doGroup group) (p.doGroup group) :=
  refines.engine.doBlock _

theorem alternatives (s : Subject) (start : Nat) (kept : Option Nat) (fuel : Nat) (rules : Rules)
    (pos : Nat) :
    Interp.Refines (Parser.alternatives q s start kept fuel rules pos)
      (Parser.alternatives p s start kept fuel rules pos) := by
  induction fuel generalizing rules pos with
  | zero => exact .refl _
  | succ fuel ih =>
      unfold Parser.alternatives
      rw [refines.engine.rounds]
      refine .behind fun
        | none => .refl _
        | some rule => .ite (.refl _) (.bind (refines.item s rules pos) fun (result, rules) => ?_)
      match result with
      | .matched behind | .accepted behind => exact ih rules behind
      | .thrown => exact .refl _
      | .notFound =>
          exact .behind fun _ => .behind fun
            | none => .refl _
            | some rules => ih rules start

theorem block (s : Subject) (rules : Rules) (pos : Nat) :
    Interp.Refines (q.block s rules pos) (p.block s rules pos) := by
  have inner := refines.alternatives s pos
  unfold Parser.block
  rw [refines.engine.rounds, refines.level]
  refine .behind fun _ => ?_
  cases s.collection with
  | none => exact .behind fun kept => .bind (inner kept _ rules pos) fun _ => .refl _
  | some _ =>
      exact .behind fun size => .behind fun kept => .bind (inner kept _ rules pos) fun _ => .refl _

theorem value (s : Subject) (rule : Cell) (pos : Nat) :
    Interp.Refines (q.value s rule pos) (p.value s rule pos) := by
  have inner := refines.block s
  unfold Parser.value
  refine .ite (.refl _) ?_
  cases rule.kind with
  | block => exact .behind fun rules => inner rules pos
  | _ => exact .refl _

theorem repetitions (s : Subject) (rules : Rules) (least : Nat) (limit : Option Nat)
    (fuel count pos : Nat) :
    Interp.Refines (Parser.repetitions q s rules least limit fuel count pos)
      (Parser.repetitions p s rules least limit fuel count pos) := by
  induction fuel generalizing count pos with
  | zero => exact .refl _
  | succ fuel ih =>
      unfold Parser.repetitions
      refine .ite (.refl _) (.bind (refines.item s rules pos) fun (result, _) => ?_)
      match result with
      | .matched behind => exact .ite (.refl _) (ih _ behind)
      | .accepted _ | .notFound | .thrown => exact .refl _

theorem repeated (s : Subject) (rules : Rules) (pos least : Nat) (limit : Option Nat) :
    Interp.Refines (q.repeated s rules pos least limit) (p.repeated s rules pos least limit) := by
  have inner := refines.repetitions s rules least limit
  unfold Parser.repeated Parser.skipItem
  rw [refines.engine.rounds]
  exact .behind fun _ => .bind (inner _ 0 pos) fun _ => .refl _

theorem capture (s : Subject) (rules : Rules) (pos : Nat) (name : String) (whole : Bool) :
    Interp.Refines (q.capture s rules pos name whole) (p.capture s rules pos name whole) :=
  .behind fun (_, rules) => .bind (refines.item s rules pos) fun _ => .refl _

theorem collect (s : Subject) (rules : Rules) (pos : Nat) (name : String) :
    Interp.Refines (q.collect s rules pos name) (p.collect s rules pos name) :=
  .behind fun (_, rules) => .behind fun collection =>
    .bind (.guarding (.behind fun _ =>
      refines.item { s with collection := some collection } rules pos)) fun _ => .refl _

theorem keepMatched (s : Subject) (collection : SeriesId) (only : Bool) (rules : Rules)
    (pos : Nat) :
    Interp.Refines (q.keepMatched s collection only rules pos)
      (p.keepMatched s collection only rules pos) :=
  .bind (refines.item s rules pos) fun _ => .refl _

theorem keep (s : Subject) (rules : Rules) (pos : Nat) (name : String) :
    Interp.Refines (q.keep s rules pos name) (p.keep s rules pos name) := by
  have reduced := refines.engine.reduce
  unfold Parser.keep
  cases s.collection with
  | none => exact .refl _
  | some collection =>
      refine .behind fun (only, rules) => .behind fun rule? => ?_
      dsimp only
      cases rule?.filter (·.is .getBlock) with
      | none => exact refines.keepMatched s collection only rules pos
      | some _ => exact .behind fun _ => .bind (reduced _ _ _) fun _ => .refl _

theorem replacement (rules : Rules) (after : String) :
    Interp.Refines (q.replacement rules after) (p.replacement rules after) :=
  .behind fun _ => .ite (.bind (refines.doGroup _) fun _ => .refl _) (.refl _)

theorem remove (s : Subject) (rules : Rules) (pos : Nat) :
    Interp.Refines (q.remove s rules pos) (p.remove s rules pos) :=
  .bind (refines.item s rules pos) fun _ => .refl _

theorem insert (s : Subject) (rules : Rules) (pos : Nat) (name : String) :
    Interp.Refines (q.insert s rules pos name) (p.insert s rules pos name) :=
  .behind fun (_, rules) => .bind (refines.replacement rules name) fun _ => .refl _

theorem change (s : Subject) (rules : Rules) (pos : Nat) (name : String) :
    Interp.Refines (q.change s rules pos name) (p.change s rules pos name) :=
  .behind fun (_, rules) => .bind (refines.item s rules pos) fun (_, rules) =>
    .bind (refines.replacement rules name) fun _ => .refl _

theorem condition (rules : Rules) (pos : Nat) (name : String) :
    Interp.Refines (q.condition rules pos name) (p.condition rules pos name) :=
  .behind fun _ => .ite (.refl _) (.bind (refines.doGroup _) fun _ => .refl _)

theorem into (s : Subject) (rules : Rules) (pos : Nat) (name : String) :
    Interp.Refines (q.into s rules pos name) (p.into s rules pos name) := by
  have inner := refines.block
  unfold Parser.into
  refine .behind fun (item, rules) => ?_
  dsimp only
  refine .ite ?_ ?_
  all_goals
    refine .behind fun block => .ite (.behind fun _ => .behind fun _ => ?_) ?_
  all_goals
    refine .behind fun element => ?_
    cases element.filter _ with
    | none => exact .refl _
    | some element => ?_
  all_goals
    exact .behind fun sub => .behind fun size => .behind fun rules =>
      .bind (inner sub rules _) fun _ => .refl _

theorem expression (s : Subject) (rules : Rules) (pos : Nat) :
    Interp.Refines (q.expression s rules pos) (p.expression s rules pos) := by
  have evaluated := refines.engine.evalStepAt
  unfold Parser.expression Parser.skipItem
  rw [refines.engine.rounds]
  dsimp only
  refine .ite (.behind fun _ => ?_) ?_
  all_goals
    refine .behind fun size => .ite (.refl _) (.bind (evaluated _ _ _) fun
      | none => .refl _
      | some (value, next) => .ite (.refl _) (.behind fun holder => .behind fun series => ?_))
    exact .bind (.guarding (.behind fun _ => refines.item _ rules 0)) fun _ => .refl _

theorem search (s : Subject) (rules : Rules) (thru : Bool) (positions : List Nat) :
    Interp.Refines (q.search s rules thru positions) (p.search s rules thru positions) := by
  induction positions with
  | nil => exact .refl _
  | cons pos rest ih =>
      unfold Parser.search
      exact .bind (refines.item s rules pos) fun (result, _) => match result with
        | .matched _ | .accepted _ | .thrown => .refl _
        | .notFound => ih

theorem seekRule (s : Subject) (rules : Rules) (pos : Nat) (thru : Bool) :
    Interp.Refines (q.seekRule s rules pos thru) (p.seekRule s rules pos thru) := by
  have inner := refines.search s rules thru
  unfold Parser.seekRule Parser.skipItem
  rw [refines.engine.rounds]
  exact .behind fun size => .behind fun ends => .ite (.refl _)
    (.behind fun _ => .bind (inner _) fun _ => .refl _)

theorem keyword (s : Subject) (k : Keyword) (rule : Cell) (rules : Rules) (pos : Nat) :
    Interp.Refines (q.keyword s k rule rules pos) (p.keyword s k rule rules pos) := by
  refine .behind fun name => .behind fun size => ?_
  cases k with
  | while_ | any | some_ | opt => exact refines.repeated _ _ _ _ _
  | not_ | ahead => exact .bind (refines.item _ _ _) fun _ => .refl _
  | copy | set => exact refines.capture _ _ _ _ _
  | collect => exact refines.collect _ _ _ _
  | keep => exact refines.keep _ _ _ _
  | remove => exact refines.remove _ _ _
  | insert => exact refines.insert _ _ _ _
  | change => exact refines.change _ _ _ _
  | if_ => exact refines.condition _ _ _
  | into => exact refines.into _ _ _ _
  | do_ => exact refines.expression _ _ _
  | to_ | thru => exact refines.seekRule _ _ _ _
  | _ => exact .refl _

theorem counted (s : Subject) (rule : Cell) (rules : Rules) (pos : Nat) (least : Int) :
    Interp.Refines (q.counted s rule rules pos least) (p.counted s rule rules pos least) := by
  have inner := refines.repeated s
  unfold Parser.counted
  refine .behind fun second? => ?_
  dsimp only
  cases second?.filter (·.is .integer) with
  | none => exact .ite (.refl _) (inner _ _ _ _)
  | some second =>
      exact .behind fun third? => .ite (.refl _) (.ite (.refl _) (inner _ _ _ _))

theorem rule (s : Subject) (rules : Rules) (pos : Nat) :
    Interp.Refines (q.rule s rules pos) (p.rule s rules pos) := by
  have inner := refines.value s
  unfold Parser.rule
  refine .behind fun (item, rules) => .ite (.bind (inner item pos) fun _ => .refl _) ?_
  cases item.kind with
  | integer => exact refines.counted s item rules pos _
  | getGroup =>
      exact .bind (refines.doGroup item) fun
        | none => .refl _
        | some value => .ite (.refl _) (.map _ (inner value pos))
  | word =>
      exact .behind fun
        | none => .behind fun value => .map _ (inner value pos)
        | some k => refines.keyword s k item rules pos
  | path =>
      exact .bind (refines.engine.getPath _ _ _) fun
        | none => .refl _
        | some value => .map _ (inner value pos)
  | group => exact .bind (refines.doGroup item) fun _ => .refl _
  | setWord | getWord => exact .refl _
  | _ => exact .map _ (inner item pos)

end Parser.Refines

/-! ## Fences -/

/-- What a rule begins with when it is tried. -/
structure Head where
  rule : Cell
  keyword : Option Keyword
  /-- The cell behind the first one. -/
  following : Option Cell

/-- The head of the rule under a cursor. -/
def Rules.head? (rules : Rules) (m : Machine) : Option Head :=
  match rules.take "rule" m with
  | .ok (rule, rest) next =>
    match keyword? rule next, rest.current? next with
    | .ok keyword, .ok following _ => some ⟨rule, keyword, following⟩
    | _, _ => none
  | .error _ _ => none

theorem Rules.head?_eq_some {rules : Rules} {m : Machine} {head : Head}
    (begins : rules.head? m = some head) :
    ∃ rest middle after, rules.take "rule" m = .ok (head.rule, rest) middle ∧
      keyword? head.rule middle = .ok head.keyword ∧
      rest.current? middle = .ok head.following after := by
  unfold Rules.head? at begins
  split at begins
  · rename_i rule rest middle took
    split at begins
    · rename_i keyword following after named looked
      cases begins
      exact ⟨rest, middle, after, took, named, looked⟩
    · cases begins
  · cases begins

/-- Which rules may be tried, and how they may fare. -/
structure Fence where
  admits : Head → Bool
  /-- Judges the result of a rule by the machines before and behind it. -/
  passes : Subject → Head → Machine → Match → Machine → Bool

/-- Matches one rule within a fence. -/
def Fence.item (fence : Fence) (item : Subject → Rules → Nat → Interp (Match × Rules))
    (s : Subject) (rules : Rules) (pos : Nat) : Interp (Match × Rules) := fun m =>
  match rules.head? m with
  | none => .error .exhausted m
  | some head =>
    if fence.admits head then
      match item s rules pos m with
      | .ok result next =>
        if fence.passes s head m result.1 next then .ok result next else .error .exhausted next
      | failed => failed
    else .error .exhausted m

/-- Matches the rule under a cursor inside `level` others, it and the rules in it within a fence. -/
def Fence.matchItem (fence : Fence) (e : Engine) :
    Nat → (level : Nat) → Subject → Rules → Nat → Interp (Match × Rules)
  | 0, _ => fun _ _ _ => throw .exhausted
  | depth + 1, level =>
    fence.item (Parser.rule
      { engine := e, level := level + 1, item := fence.matchItem e depth (level + 1) })

variable {fence : Fence} {item : Subject → Rules → Nat → Interp (Match × Rules)} {s : Subject}
  {rules : Rules} {pos : Nat}

/-- A run within a fence was admitted and passed. -/
theorem Fence.item_eq_ok {m next : Machine} {result : Match × Rules}
    (done : fence.item item s rules pos m = .ok result next) :
    ∃ head, rules.head? m = some head ∧ fence.admits head = true ∧
      item s rules pos m = .ok result next ∧ fence.passes s head m result.1 next = true := by
  unfold Fence.item at done
  split at done
  · cases done
  · rename_i head found
    split at done
    · rename_i admitted
      split at done
      · rename_i ran
        split at done
        · rename_i passed
          cases done
          exact ⟨head, found, admitted, ran, passed⟩
        · cases done
      · rename_i failed
        exact absurd done (failed _ _)
    · cases done

theorem Fence.item_refines : Interp.Refines (fence.item item s rules pos) (item s rules pos) :=
  fun _ _ _ done =>
    have ⟨_, _, _, ran, _⟩ := Fence.item_eq_ok done
    ran

/-- Matching within a fence is matching, as far as it gets. -/
theorem Fence.matchItem_refines {d e : Engine} (refines : d.Refines e) (fence : Fence)
    (depth level : Nat) (s : Subject) (rules : Rules) (pos : Nat) :
    Interp.Refines (fence.matchItem d depth level s rules pos)
      (Parse.matchItem e depth level s rules pos) := by
  induction depth generalizing level s rules pos with
  | zero => exact .refl _
  | succ depth ih =>
      have inner : Parser.Refines ⟨d, level + 1, fence.matchItem d depth (level + 1)⟩
          ⟨e, level + 1, Parse.matchItem e depth (level + 1)⟩ := ⟨refines, rfl, ih (level + 1)⟩
      intro m result next done
      exact inner.rule s rules pos m result next (item_refines m result next done)

end Parse

end Homoicon
