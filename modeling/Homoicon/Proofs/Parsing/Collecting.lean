import Homoicon.Proofs.Parsing.Adequacy
import Homoicon.Proofs.Parsing.Elsewhere
import Homoicon.Proofs.Parsing.Fencing

/-!
# What a failing rule keeps

A block of rules gives up what a failing alternative has kept.  A rule that fails otherwise may
have kept something all the same: NOT, INTO and DO judge a rule that has matched, a count may come
too late, and REJECT leaves its block without giving anything up.  Every other rule keeps nothing
when it fails.
-/

open Std.Do

set_option mvcgen.warning false

namespace Homoicon

/-- Holds some elements, with more behind them if it may. -/
def Series.Trait.collecting (base : List Cell) (more : Bool) : Series.Trait where
  holds s := ∃ cells, s.content = .array cells ∧
    if more then base <+: cells.toList else cells.toList = base
  withFlags _ here := here

/-- An array holds some elements, with more behind them if it may. -/
abbrev Law.kept (id : SeriesId) (base : List Cell) (more : Bool) : Law :=
  .of id (.collecting base more)

theorem Machine.Obeys.mono_kept {m : Machine} {id : SeriesId} {base : List Cell}
    {fewer more : Bool} (here : m.Obeys (.kept id base fewer)) (weaker : fewer = true → more = true) :
    m.Obeys (.kept id base more) := by
  obtain ⟨s, live, cells, content, known⟩ := here
  refine ⟨s, live, cells, content, ?_⟩
  cases fewer with
  | true => rwa [if_pos (weaker rfl)]
  | false =>
      rw [if_neg Bool.false_ne_true] at known
      split
      · rw [known]
      · exact known

/-- What a computation does from exact elements it does from more. -/
theorem Machine.kept_true_iff {m : Machine} {id : SeriesId} {base : List Cell} :
    m.Obeys (.kept id base true) ↔ ∃ more, m.Obeys (.kept id (base ++ more) false) := by
  constructor
  · rintro ⟨s, live, cells, content, more, same⟩
    exact ⟨more, s, live, cells, content, same.symm⟩
  · rintro ⟨more, s, live, cells, content, same⟩
    refine ⟨s, live, cells, content, more, ?_⟩
    rw [if_neg Bool.false_ne_true] at same
    exact same.symm

namespace Parse

open Law Interp Series.Trait

attribute [local spec high] Protection.current?_of Protection.takeRule_of Protection.isAt_of
  Protection.takeOnly_of Protection.skipRule_of Protection.takeTarget_of Protection.element?_of
  Protection.matchLiteral_of Protection.element_of Protection.seek_of Protection.leave_of

/-! ## Keeping and giving up -/

/-- A computation that leaves an array alone. -/
abbrev Spares {α : Type} (id : SeriesId) (x : Interp α) : Prop :=
  ∀ base more, Keeping (.kept id base more) x

namespace Spares

variable {α β : Type} {id : SeriesId}

theorem pure (a : α) : Spares id (Pure.pure a) := fun _ _ => by mvcgen

theorem bind {x : Interp β} {f : β → Interp α} (first : Spares id x)
    (later : ∀ b, Spares id (f b)) : Spares id (x >>= f) :=
  fun base more => Triple.bind _ _ (first base more) fun b => later b base more

theorem ite {p : Prop} [Decidable p] {yes no : Interp α} (first : Spares id yes)
    (second : Spares id no) : Spares id (if p then yes else no) := by
  split
  · exact first
  · exact second

end Spares

/-- A computation that adds to an array at most, and that only if its result tells so. -/
def Adds {α : Type} (id : SeriesId) (adds : α → Bool) (x : Interp α) : Prop :=
  ∀ ⦃base more m a next⦄, m.Obeys (.kept id base more) → x m = .ok a next →
    next.Obeys (.kept id base (more || adds a))

namespace Adds

variable {α β : Type} {id : SeriesId} {adds : α → Bool}

theorem of_spares {x : Interp α} (spares : Spares id x) : Adds id adds x :=
  fun base more _ _ _ here done =>
    (obeys_of_ok (spares base more) here done).mono_kept fun already => by
      rw [already, Bool.true_or]

theorem pure (a : α) : Adds id adds (Pure.pure a) := by
  rintro base more m _ _ here ⟨⟩
  exact here.mono_kept fun already => by rw [already, Bool.true_or]

/-- What comes before does not matter if it leaves the array alone. -/
theorem behind {x : Interp β} {f : β → Interp α} (spares : Spares id x)
    (later : ∀ b, Adds id adds (f b)) : Adds id adds (x >>= f) := by
  intro base more m a last here done
  obtain ⟨b, next, ran, done⟩ := bind_eq_ok.mp done
  exact later b (obeys_of_ok (spares base more) here ran) done

/-- What has been added has to be told of in the end. -/
theorem bind {tells : β → Bool} {x : Interp β} {f : β → Interp α} (first : Adds id tells x)
    (later : ∀ b, Adds id adds (f b)) (owned : ∀ b, tells b = true → Yields (adds · = true) (f b)) :
    Adds id adds (x >>= f) := by
  intro base more m a last here done
  obtain ⟨b, next, ran, done⟩ := bind_eq_ok.mp done
  refine (later b (first here ran) done).mono_kept fun may => ?_
  cases told : tells b with
  | false => simpa [told] using may
  | true => rw [owned b told done, Bool.or_true]

theorem ite {p : Prop} [Decidable p] {yes no : Interp α} (first : Adds id adds yes)
    (second : Adds id adds no) : Adds id adds (if p then yes else no) := by
  split
  · exact first
  · exact second

theorem map {tells : β → Bool} {x : Interp β} (f : β → α) (first : Adds id tells x)
    (same : ∀ b, adds (f b) = tells b) : Adds id adds (f <$> x) := by
  intro base more m a last here done
  rw [map_run] at done
  cases ran : x m with
  | error => simp [ran] at done
  | ok b next =>
      rw [ran] at done
      cases done
      rw [same]
      exact first here ran

theorem guarding {x : Interp α} (first : Adds id adds x) : Adds id adds (guarding x) :=
  .behind (fun base more => guardMark_keeping (.kept id base more)) fun mark =>
    .bind first (fun a => .of_spares (.bind (fun _ _ => unguardTo_keeping _ mark) fun _ =>
      .pure a)) fun _ told => .bind fun _ => .pure told

/-- What is known of a computation from exact elements is known of it from more. -/
theorem of_exact {x : Interp α} (exact_ : ∀ ⦃base m a next⦄, m.Obeys (.kept id base false) →
    x m = .ok a next → next.Obeys (.kept id base (adds a))) : Adds id adds x := by
  intro base more m a next here done
  cases more with
  | false => simpa only [Bool.false_or] using exact_ here done
  | true =>
      obtain ⟨added, here⟩ := Machine.kept_true_iff.mp here
      have behind := (exact_ here done).mono_kept fun _ => (rfl : true = true)
      obtain ⟨again, behind⟩ := Machine.kept_true_iff.mp behind
      exact Machine.kept_true_iff.mpr ⟨added ++ again, by rwa [← List.append_assoc]⟩

end Adds

/-- Whether a rule matched, or was left. -/
def Match.hit : Match → Bool
  | notFound => false
  | _ => true

/-- Whether KEEP adds to a series. -/
def Subject.collects (s : Subject) (id : SeriesId) : Bool := s.collection == some id

section Elements

variable {id : SeriesId}

theorem allows_append {base : List Cell} (items : List Cell) :
    (collecting base true).Allows (Series.mapCells (·.appendList items)) := by
  rintro ⟨flags, content, link, role⟩ ⟨cells, rfl, known⟩
  refine ⟨_, rfl, ?_⟩
  rw [if_pos rfl] at known ⊢
  simpa using known.trans (List.prefix_append _ _)

theorem modifyCells_adds (collection : SeriesId) (items : List Cell) {f : Array Cell → Array Cell}
    (appends : ∀ cells, f cells = cells.appendList items) :
    Adds id (fun _ => collection == id) (modifyCells collection f) := by
  obtain rfl : f = (·.appendList items) := funext appends
  by_cases same : collection = id
  · subst same
    intro base more m a next here done
    have grown := obeys_of_ok (modifyCells_of collection (collecting base true) collection _
      fun _ => allows_append items) (here.mono_kept fun _ => rfl) done
    simpa using grown
  · exact .of_spares fun base more =>
      modifyCells_of id (collecting base more) collection _ fun here => absurd here same

theorem keepItems_adds (collection : SeriesId) (items : List Cell) (only : Bool) :
    Adds id (fun _ => collection == id) (Subject.keepItems collection items only) :=
  .ite (.behind (fun base more => arrayCell_of id (collecting base more) .block items) fun block =>
      modifyCells_adds collection [block] fun cells => by simp)
    (modifyCells_adds collection items fun _ => rfl)

/-- Giving up what was kept leaves what there was. -/
theorem giveUp_kept {s : Subject} {base : List Cell} {more : Bool} {kept : Option Nat}
    (marked : s.collects id = true → kept = some base.length)
    (only : more = true → s.collects id = true) {m next : Machine}
    (here : m.Obeys (.kept id base more)) (done : s.giveUp kept m = .ok () next) :
    next.Obeys (.kept id base false) := by
  unfold Subject.giveUp at done
  cases collects : s.collects id with
  | true =>
      rw [marked collects, beq_iff_eq.mp collects] at done
      have done : modifyCells id (·.shrink base.length) m = .ok () next := done
      obtain ⟨held, cells, live, content, after⟩ := modifyCells_eq_ok done
      obtain ⟨held', live', cells', content', known⟩ := here
      obtain rfl := Option.some.inj (live.symm.trans live')
      obtain rfl := Content.array.inj (content.symm.trans content')
      have within : base <+: cells.toList := by
        cases more with
        | true => exact known
        | false => exact known ▸ List.prefix_rfl
      refine ⟨_, after, _, rfl, ?_⟩
      rw [if_neg Bool.false_ne_true, Array.toList_shrink]
      exact (List.prefix_iff_eq_take.mp within).symm
  | false =>
      obtain rfl : more = false := Bool.eq_false_iff.mpr fun may => by
        rw [only may] at collects
        cases collects
      cases there : s.collection with
      | none =>
          rw [there] at done
          cases done
          exact here
      | some collection =>
          have other : collection ≠ id := fun same => by
            simp [Subject.collects, there, same] at collects
          rw [there] at done
          cases kept with
          | none =>
              cases done
              exact here
          | some size =>
              exact obeys_of_ok (modifyCells_of id (collecting base false) collection _
                fun same => absurd same other) here done

end Elements

/-! ## Rules -/

/-- Whether a word refers to a variable in a series. -/
def refersTo (c : Cell) (id : SeriesId) : Bool := c.binding == .specific id

/-- A subject that an array has no part in. -/
structure Subject.Apart (s : Subject) (id : SeriesId) : Prop where
  isSeries : s.cell.kind.isAnySeries = true
  elsewhere : s.cell.seriesId? ≠ some id

/-- The next rule is not a word that refers to a variable in a series. -/
def Rules.Aims (rules : Rules) (id : SeriesId) (m : Machine) : Prop :=
  ∀ target next, rules.current? m = .ok (some target) next → target.binding ≠ .specific id

theorem Rules.Aims.takeTarget {rules behind : Rules} {id : SeriesId} {m next : Machine}
    {name : String} {target : Cell} (aims : rules.Aims id m)
    (done : rules.takeTarget name m = .ok (target, behind) next) : target.binding ≠ .specific id := by
  obtain ⟨current?, after, looked, took⟩ := bind_eq_ok.mp (takeTarget_eq_ok done)
  cases current? with
  | none => cases took
  | some c =>
      cases took
      exact aims target _ looked

/-- What is told of a match that may have added to an array. -/
def tells (s : Subject) (id : SeriesId) (result : Match) : Bool := s.collects id && result.hit

theorem tells_of_hit {s : Subject} {id : SeriesId} {result : Match} (hit : result.hit = true) :
    tells s id result = s.collects id := by rw [tells, hit, Bool.and_true]

/-- A parser that leaves an array alone in the code that rules evaluate; and a rule adds to it at
most, and that only if it matches. -/
structure Parser.Tidy (p : Parser) (id : SeriesId) : Prop where
  engine : ∀ base more, p.engine.Keeps (.kept id base more)
  item : ∀ s, s.Apart id → ∀ rules pos,
    Adds id (fun r => tells s id r.1) (p.item s rules pos)
  thrown : ∀ s rules pos m result next, p.item s rules pos m = .ok result next →
    result.1 = .thrown → rejecting next = false

namespace Parser.Tidy

variable {p : Parser} {id : SeriesId} (tidy : p.Tidy id) {s : Subject} (apart : s.Apart id)

include tidy

theorem doGroup_spares (group : Cell) : Spares id (p.doGroup group) :=
  fun base more => Engine.doBlock_keeping (tidy.engine base more) _

include apart

/-- Alternatives that fail leave what there was when they began. -/
theorem alternatives_exact {base : List Cell} {start : Nat} {kept : Option Nat}
    (marked : s.collects id = true → kept = some base.length) {fuel : Nat} {rules : Rules}
    {pos : Nat} {more : Bool} (only : more = true → s.collects id = true) {m next : Machine}
    {result : Match} (here : m.Obeys (.kept id base more))
    (done : p.alternatives s start kept fuel rules pos m = .ok result next) :
    next.Obeys (.kept id base (tells s id result)) ∧
      (result = .thrown → rejecting next = false) := by
  have ended {more : Bool} (only : more = true → s.collects id = true) {m : Machine} {place : Nat}
      (here : m.Obeys (.kept id base more)) :
      m.Obeys (.kept id base (tells s id (.matched place))) ∧
        (Match.matched place = .thrown → rejecting m = false) :=
    ⟨here.mono_kept fun may => by rw [tells_of_hit rfl, only may], fun thrown => by cases thrown⟩
  -- Within an alternative there may be more than at the start; each new alternative begins with
  -- exactly what there was.
  induction fuel generalizing rules pos more m with
  | zero => cases done
  | succ fuel ih =>
      unfold Parser.alternatives at done
      obtain ⟨rule?, middle, looked, done⟩ := bind_eq_ok.mp done
      have here := obeys_of_ok (Protection.current?_of rules) here looked
      cases rule? with
      | none =>
          cases done
          exact ended only here
      | some rule =>
          dsimp only at done
          split at done
          · cases done
            exact ended only here
          · obtain ⟨⟨found, behind⟩, after, ran, done⟩ := bind_eq_ok.mp done
            have there := tidy.item s apart rules pos here ran
            have onward : found.hit = true → after.Obeys (.kept id base (s.collects id)) :=
              fun hit => there.mono_kept fun may => by
                simp only [tells_of_hit hit, Bool.or_eq_true] at may
                exact may.elim only fun collects => collects
            cases found with
            | matched place | accepted place => exact ih (fun collects => collects) (onward rfl) done
            | thrown =>
                cases done
                rw [tells_of_hit rfl]
                exact ⟨onward rfl, fun _ => tidy.thrown s rules pos middle _ _ ran rfl⟩
            | notFound =>
                simp only [tells, Match.hit, Bool.and_false, Bool.or_false] at there
                obtain ⟨_, cut, gaveUp, done⟩ := bind_eq_ok.mp done
                have there := giveUp_kept marked only there gaveUp
                obtain ⟨next?, last, sought, done⟩ := bind_eq_ok.mp done
                have there := obeys_of_ok (Protection.nextAlternative?_of _ behind) there sought
                cases next? with
                | none =>
                    cases done
                    exact ⟨there.mono_kept fun may => absurd may Bool.false_ne_true,
                      fun thrown => by cases thrown⟩
                | some rules => exact ih (fun may => absurd may Bool.false_ne_true) there done

/-- A block of rules that fails keeps nothing. -/
theorem block_adds (rules : Rules) (pos : Nat) : Adds id (tells s id) (p.block s rules pos) := by
  refine .of_exact fun base m result last here done => ?_
  obtain ⟨kept, found, middle, measured, ran, ended⟩ := block_eq_ok done
  have marked (collects : s.collects id = true) : kept = some base.length := by
    obtain ⟨size, answer, rfl⟩ := measured id (beq_iff_eq.mp collects)
    obtain ⟨held, live, cells, content, rfl⟩ := here
    rw [Query.size, Query.bind_ok (Query.series_eq_ok.mpr live), content] at answer
    cases answer
    rfl
  have never (may : false = true) : s.collects id = true := absurd may Bool.false_ne_true
  obtain ⟨there, thrown⟩ := alternatives_exact tidy apart marked never here ran
  rcases ended with ⟨rfl, left⟩ | ⟨-, rfl, rfl⟩
  · rw [tells_of_hit rfl] at there
    have hit : result.hit = true := by
      rcases leaveBlock_cases left with ⟨-, t, -, rfl⟩ | ⟨-, rejects, -⟩ | ⟨-, rfl, -⟩
      · rfl
      · rw [thrown rfl] at rejects
        cases rejects
      · rfl
    rw [tells_of_hit hit]
    exact obeys_of_ok (Protection.leaveBlock_of pos) there left
  · exact there

theorem value_adds (rule : Cell) (pos : Nat) : Adds id (tells s id) (p.value s rule pos) := by
  unfold Parser.value
  refine .ite (.of_spares fun base more => ?quoted) ?_
  case quoted => mvcgen
  cases rule.kind with
  | block =>
      exact .behind (fun base more => lift_keeping (.kept id base more) _) fun rules =>
        tidy.block_adds apart rules pos
  | _ =>
      refine .of_spares fun base more => ?_
      mvcgen

/-- A repetition that a single match satisfies keeps nothing if it fails. -/
theorem repetitions_exact {base : List Cell} {rules : Rules} {least : Nat} (single : least ≤ 1)
    {limit : Option Nat} {fuel count pos : Nat} {more : Bool}
    (early : more = true → s.collects id = true ∧ least ≤ count) {m next : Machine}
    {result : Match} (here : m.Obeys (.kept id base more))
    (done : p.repetitions s rules least limit fuel count pos m = .ok result next) :
    next.Obeys (.kept id base (tells s id result)) := by
  have enough {more : Bool} {count place : Nat} {after : Machine}
      (early : more = true → s.collects id = true ∧ least ≤ count)
      (there : after.Obeys (.kept id base more)) :
      after.Obeys (.kept id base (tells s id (counts least count place))) :=
    there.mono_kept fun may => by
      obtain ⟨collects, reached⟩ := early may
      rw [counts, if_neg (Nat.not_lt.mpr reached), tells_of_hit rfl, collects]
  induction fuel generalizing count pos more m with
  | zero => cases done
  | succ fuel ih =>
      unfold Parser.repetitions at done
      split at done
      · cases done
        exact enough early here
      · obtain ⟨⟨found, behind⟩, after, ran, done⟩ := bind_eq_ok.mp done
        have there := tidy.item s apart rules pos here ran
        have later (hit : found.hit = true) (may : (more || tells s id found) = true) :
            s.collects id = true ∧ least ≤ count + 1 := by
          rw [tells_of_hit hit, Bool.or_eq_true] at may
          exact ⟨may.elim (fun may => (early may).1) fun collects => collects, by omega⟩
        cases found with
        | matched place =>
            dsimp only at done
            split at done
            · cases done
              exact enough (later rfl) there
            · exact ih (later rfl) there done
        | accepted place =>
            cases done
            exact enough (later rfl) there
        | notFound =>
            cases done
            simp only [tells, Match.hit, Bool.and_false, Bool.or_false] at there
            exact enough early there
        | thrown =>
            cases done
            rw [tells_of_hit rfl]
            exact there.mono_kept fun may => (later rfl may).1

theorem repeated_adds (rules : Rules) (pos : Nat) {least : Nat} (single : least ≤ 1)
    (limit : Option Nat) :
    Adds id (fun r => tells s id r.1) (p.repeated s rules pos least limit) := by
  refine .of_exact fun base m result last here done => ?_
  obtain ⟨behind, middle, skipped, done⟩ := bind_eq_ok.mp done
  obtain ⟨found, after, ran, done⟩ := bind_eq_ok.mp done
  have never : false = true → s.collects id = true ∧ least ≤ 0 := nofun
  have here := obeys_of_ok (Protection.skipRule_of _ rules) here skipped
  cases done
  exact repetitions_exact tidy apart single never here ran

/-- What is done behind a match is told of with it. -/
theorem item_adds {f : Match × Rules → Interp (Match × Rules)} (rules : Rules) (pos : Nat)
    (later : ∀ r, Spares id (f r)) (hit : ∀ r, r.1.hit = true → Yields (fun r => r.1.hit = true) (f r)) :
    Adds id (fun r => tells s id r.1) (p.item s rules pos >>= f) := by
  refine .bind (tidy.item s apart rules pos) (fun r => .of_spares (later r)) fun r told => ?_
  rw [tells, Bool.and_eq_true] at told
  intro m a next done
  exact (tells_of_hit (hit r told.2 done)).trans told.1

theorem capture_adds {rules : Rules} {pos : Nat} {name : String} {whole : Bool} {base : List Cell}
    {more : Bool} {m last : Machine} {result : Match × Rules} (aims : rules.Aims id m)
    (here : m.Obeys (.kept id base more))
    (done : p.capture s rules pos name whole m = .ok result last) :
    last.Obeys (.kept id base (more || tells s id result.1)) := by
  obtain ⟨⟨target, rules⟩, middle, took, done⟩ := bind_eq_ok.mp done
  have elsewhere := aims.takeTarget took
  have here := obeys_of_ok (Protection.takeTarget_of _ name) here took
  clear took aims
  have store (captured : Cell) (result : Match × Rules) :
      Spares id (do setVar target none captured; pure result) :=
    .bind (fun _ _ => setVar_elsewhere elsewhere captured) fun _ => .pure result
  refine tidy.item_adds apart rules pos (fun (result, rules) => ?_) (fun (result, rules) hit => ?_)
    here done
  · dsimp only
    cases result.behind? with
    | none => exact .pure _
    | some behind =>
        refine .ite ?_ (.ite ?_ ?_)
        · rw [← bind_assoc]
          exact .bind (fun _ _ => copyPosition_of apart.isSeries pos _ _) fun captured => store _ _
        · exact .bind (fun _ _ => Protection.element?_of s pos) fun found => store _ _
        · exact store _ _
  · dsimp only
    cases result.behind? with
    | none => exact .pure hit
    | some behind =>
        exact .ite (.bind fun _ => .bind fun _ => .bind fun _ => .pure hit)
          (.ite (.bind fun _ => .bind fun _ => .bind fun _ => .pure hit)
            (.bind fun _ => .bind fun _ => .pure hit))

theorem collect_adds {rules : Rules} {pos : Nat} {name : String} {base : List Cell} {more : Bool}
    {m last : Machine} {result : Match × Rules} (aims : rules.Aims id m)
    (here : m.Obeys (.kept id base more)) (done : p.collect s rules pos name m = .ok result last) :
    last.Obeys (.kept id base (more || tells s id result.1)) := by
  obtain ⟨⟨target, rules⟩, middle, took, done⟩ := bind_eq_ok.mp done
  have elsewhere := aims.takeTarget took
  have here := obeys_of_ok (Protection.takeTarget_of _ name) here took
  obtain ⟨collection, after, allocated, done⟩ := bind_eq_ok.mp done
  have made := triple_iff.mp (allocArray_of id (collecting base more) []) middle here
  rw [allocated] at made
  obtain ⟨here, new⟩ := made
  let inner : Subject := { s with collection := some collection }
  have matched : Adds id (fun r => tells inner id r.1) (do
      guard (Cell.series .block collection 0); p.item inner rules pos) :=
    .behind (fun _ _ => guard_keeping _ _) fun _ =>
      tidy.item inner ⟨apart.isSeries, apart.elsewhere⟩ rules pos
  obtain ⟨⟨found, behind⟩, gone, ran, done⟩ := bind_eq_ok.mp done
  have there := matched.guarding here ran
  have aloof : tells inner id found = false := by
    simp [tells, inner, Subject.collects, new]
  rw [aloof, Bool.or_false] at there
  suffices kept : Spares id (do
      if found.behind?.isSome then setVar target none (Cell.series .block collection 0)
      pure (found, behind)) from
    (obeys_of_ok (kept base more) there done).mono_kept fun may => by rw [may, Bool.true_or]
  exact .ite (.bind (fun _ _ => setVar_elsewhere elsewhere _) fun _ => .pure _) (.pure _)

theorem keepMatched_adds {collection : SeriesId} (collects : s.collection = some collection)
    (only : Bool) (rules : Rules) (pos : Nat) :
    Adds id (fun r => tells s id r.1) (p.keepMatched s collection only rules pos) := by
  have tells_eq {result : Match} (hit : result.hit = true) :
      tells s id result = (collection == id) := by
    rw [tells_of_hit hit, Subject.collects, collects]
    rfl
  refine .bind (tidy.item s apart rules pos) (fun (result, rules) => ?_) fun (result, rules) told => ?_
  · dsimp only
    cases matched : result.behind? with
    | none => exact .pure _
    | some behind =>
        have hit : result.hit = true := by cases result <;> first | rfl | cases matched
        have added {x : Interp Unit} (adds : Adds id (fun _ => collection == id) x) :
            Adds id (fun r => tells s id r.1) (do x; pure (result, rules)) :=
          .bind adds (fun _ => .pure _) fun _ told => .pure ((tells_eq hit).trans told)
        refine .ite (.behind (fun _ _ => mapM_keeping _ _ _ fun pos _ => Protection.element?_of s pos)
          fun items => added (keepItems_adds collection _ only)) (.ite ?_ (.pure _))
        rw [← bind_assoc]
        exact .behind (fun _ _ => copyPosition_of apart.isSeries pos _ _) fun span =>
          added (modifyCells_adds collection [span] fun cells => by simp)
  · dsimp only
    cases result.behind? with
    | none => exact .pure told
    | some behind =>
        exact .ite (.bind fun _ => .bind fun _ => .pure told)
          (.ite (.bind fun _ => .bind fun _ => .bind fun _ => .pure told) (.pure told))

theorem keep_adds (rules : Rules) (pos : Nat) (name : String) :
    Adds id (fun r => tells s id r.1) (p.keep s rules pos name) := by
  unfold Parser.keep
  cases collects : s.collection with
  | none => exact fun _ _ _ _ _ _ done => nomatch done
  | some collection =>
      have told {place : Nat} (hit : (collection == id) = true) : tells s id (.matched place) = true :=
        by rw [tells_of_hit rfl, Subject.collects, collects]; exact hit
      refine .behind (fun _ _ => Protection.takeOnly_of rules) fun (only, rules) =>
        .behind (fun _ _ => Protection.current?_of rules) fun rule? => ?_
      dsimp only
      cases rule?.filter (·.is .getBlock) with
      | none => exact tidy.keepMatched_adds apart collects only rules pos
      | some code =>
          have reduced (array : SeriesId) : Spares id
              (p.engine.reduce array code.index (Query.deriveSpecifier code none)) :=
            fun base more => reduce_of id (collecting base more) (tidy.engine base more) _ _ _
          refine .behind (fun _ _ => lift_keeping _ _) fun array => .behind (reduced array) fun
            | none => .pure _
            | some values => .behind (fun _ _ => lift_keeping _ _) fun _ =>
                .behind (fun _ _ => lift_keeping _ _) fun cells =>
                  .bind (keepItems_adds collection cells only) (fun _ => .pure _)
                    fun _ added => .pure (told added)

omit apart in
theorem replacement_spares (rules : Rules) (after : String) : Spares id (p.replacement rules after) := by
  intro base more
  have ran (group : Cell) := tidy.doGroup_spares group base more
  unfold Parser.replacement
  mvcgen [ran]

theorem remove_adds (rules : Rules) (pos : Nat) :
    Adds id (fun r => tells s id r.1) (p.remove s rules pos) := by
  refine tidy.item_adds apart rules pos (fun (result, rules) => ?_) fun (result, rules) hit => ?_
  · dsimp only
    cases result.behind? with
    | none => exact .pure _
    | some behind =>
        exact .bind (fun _ _ => removeSpan_elsewhere apart.elsewhere _ _) fun _ => .pure _
  · dsimp only
    cases result.behind? with
    | none => exact .pure hit
    | some behind => exact .bind fun _ => .pure rfl

theorem insert_adds (rules : Rules) (pos : Nat) (name : String) :
    Adds id (fun r => tells s id r.1) (p.insert s rules pos name) := by
  refine .behind (fun _ _ => Protection.takeOnly_of rules) fun (only, rules) =>
    .behind (tidy.replacement_spares rules name) fun
      | (none, rules) => .pure _
      | (some value, rules) =>
          .behind (fun _ _ => insertAt_elsewhere apart.elsewhere _ _ _ _ _) fun _ => .pure _

theorem change_adds (rules : Rules) (pos : Nat) (name : String) :
    Adds id (fun r => tells s id r.1) (p.change s rules pos name) := by
  refine .behind (fun _ _ => Protection.takeOnly_of rules) fun (only, rules) =>
    tidy.item_adds apart rules pos (fun (result, rules) => ?_) fun (result, rules) hit => ?_
  · refine .bind (tidy.replacement_spares rules name) fun
      | (none, rules) => .pure _
      | (some value, rules) => ?_
    dsimp only
    cases result.behind? with
    | none => exact .pure _
    | some behind =>
        exact .bind (fun _ _ => removeSpan_elsewhere apart.elsewhere _ _) fun _ =>
          .bind (fun _ _ => insertAt_elsewhere apart.elsewhere _ _ _ _ _) fun _ => .pure _
  · refine .bind fun
      | (none, rules) => .pure rfl
      | (some value, rules) => ?_
    dsimp only
    cases result.behind? with
    | none => exact .pure hit
    | some behind => exact .bind fun _ => .bind fun _ => .pure rfl

omit apart in
theorem condition_adds (rules : Rules) (pos : Nat) (name : String) :
    Adds id (fun r => tells s id r.1) (p.condition rules pos name) := by
  refine .of_spares fun base more => ?_
  have ran (group : Cell) := tidy.doGroup_spares group base more
  unfold Parser.condition
  mvcgen [ran]

theorem search_adds (rules : Rules) (thru : Bool) (positions : List Nat) :
    Adds id (tells s id) (p.search s rules thru positions) := by
  induction positions with
  | nil => exact .pure _
  | cons pos rest ih =>
      unfold Parser.search
      refine .bind (tidy.item s apart rules pos) ?_ ?_
      · rintro ⟨result, _⟩
        cases result with
        | matched | accepted | thrown => exact .pure _
        | notFound => exact ih
      · rintro ⟨result, _⟩ told
        rw [tells, Bool.and_eq_true] at told
        have hit (found : Match) (here : found.hit = true) : tells s id found = true :=
          (tells_of_hit here).trans told.1
        cases result with
        | matched | accepted => exact .pure (hit _ rfl)
        | thrown => exact .pure (hit _ rfl)
        | notFound => exact absurd told.2 Bool.false_ne_true

theorem seekRule_adds (rules : Rules) (pos : Nat) (thru : Bool) :
    Adds id (fun r => tells s id r.1) (p.seekRule s rules pos thru) :=
  .behind (fun _ _ => ask_keeping _ _) fun _ =>
    .behind (fun _ _ => Protection.isAt_of rules _) fun _ => .ite (.pure _) <|
      .behind (fun _ _ => Protection.skipRule_of _ rules) fun _ =>
        .bind (tidy.search_adds apart rules thru _) (fun _ => .pure _) fun _ told => .pure told

theorem ahead_adds (rules : Rules) (pos : Nat) :
    Adds id (fun r => tells s id r.1) (do
      let (result, rules) ← p.item s rules pos
      pure (if result.behind?.isSome then .matched pos else result, rules)) := by
  refine tidy.item_adds apart rules pos (fun r => .pure _) fun (result, rules) hit => .pure ?_
  cases result with
  | notFound => exact hit
  | _ => rfl

theorem counted_adds (rule : Cell) (rules : Rules) (pos : Nat) {least : Int} (single : least ≤ 1) :
    Adds id (fun r => tells s id r.1) (p.counted s rule rules pos least) := by
  have refused : Adds id (fun r : Match × Rules => tells s id r.1) (do
      fail (.parseRule (← Query.mold rule))) := .behind (fun _ _ => lift_keeping _ _) fun _ =>
    .of_spares fun _ _ => fail_keeping _ _ _
  have once (limit : Option Nat) := fun rules => tidy.repeated_adds apart rules pos
    (show least.toNat ≤ 1 by omega) limit
  unfold Parser.counted
  refine .behind (fun _ _ => Protection.current?_of rules) fun second? => ?_
  dsimp only
  cases second?.filter (·.is .integer) with
  | none => exact .ite refused (once _ _)
  | some second =>
      exact .behind (fun _ _ => Protection.current?_of _) fun _ =>
        .ite refused (.ite refused (once _ _))

theorem keyword_adds {k : Keyword} (allowed : k ∉ [Keyword.not_, .into, .do_]) (rule : Cell)
    {rules : Rules} {pos : Nat} {base : List Cell} {more : Bool} {m last : Machine}
    {result : Match × Rules} (aims : rules.Aims id m) (here : m.Obeys (.kept id base more))
    (done : p.keyword s k rule rules pos m = .ok result last) :
    last.Obeys (.kept id base (more || tells s id result.1)) := by
  obtain ⟨name, -, done⟩ := lift_bind_eq_ok.mp done
  obtain ⟨size, -, done⟩ := lift_bind_eq_ok.mp done
  cases k with
  | while_ | any | some_ | opt => exact tidy.repeated_adds apart rules pos (by decide) _ here done
  | not_ | into | do_ => simp at allowed
  | ahead => exact tidy.ahead_adds apart rules pos here done
  | copy | set => exact tidy.capture_adds apart aims here done
  | collect => exact tidy.collect_adds apart aims here done
  | keep => exact tidy.keep_adds apart rules pos name here done
  | remove => exact tidy.remove_adds apart rules pos here done
  | insert => exact tidy.insert_adds apart rules pos name here done
  | change => exact tidy.change_adds apart rules pos name here done
  | if_ => exact tidy.condition_adds rules pos name here done
  | to_ | thru => exact tidy.seekRule_adds apart rules pos _ here done
  | mark =>
      obtain ⟨⟨target, behind⟩, middle, took, done⟩ := bind_eq_ok.mp done
      have there := obeys_of_ok (Protection.takeTarget_of _ name) here took
      have marks : Adds id (fun r => tells s id r.1) (do
          setVar target none (← Query.ask (s.position pos))
          pure (.matched pos, behind)) :=
        .behind (fun _ _ => ask_keeping _ _) fun c =>
          .behind (fun _ _ => setVar_elsewhere (aims.takeTarget took) c) fun _ => .pure _
      exact marks there done
  | _ =>
      dsimp only at done
      exact (obeys_of_ok (by mvcgen) here done).mono_kept fun may => by rw [may, Bool.true_or]

end Parser.Tidy

/-! ## Quiet rules -/

/-- Refuses rules that may keep something although they fail: NOT, INTO and DO, counts from two on,
and REJECT.  It also refuses paths, and words that refer to variables in the collection. -/
def quietFence (id : SeriesId) : Fence where
  admits head :=
    !(head.rule.is .path) && !(head.rule.is .integer && 1 < head.rule.asInteger?.getD 0) &&
      !(head.keyword.any ([Keyword.not_, .into, .do_].contains ·)) &&
      !(refersTo head.rule id) && !(head.following.any (refersTo · id))
  passes _ _ _ result next := !(result == .thrown && rejecting next)

theorem rule_adds {p : Parser} {id : SeriesId} (tidy : p.Tidy id) {s : Subject} (apart : s.Apart id)
    {rules : Rules} {pos : Nat} {base : List Cell} {more : Bool} {m last : Machine}
    {head : Head} {result : Match × Rules} (begins : rules.head? m = some head)
    (admitted : (quietFence id).admits head = true) (here : m.Obeys (.kept id base more))
    (done : p.rule s rules pos m = .ok result last) :
    last.Obeys (.kept id base (more || tells s id result.1)) := by
  obtain ⟨rest, middle, after, took, named, looked⟩ := Rules.head?_eq_some begins
  have here := obeys_of_ok (Protection.takeRule_of rules _) here took
  simp only [quietFence, Bool.and_eq_true, Bool.not_eq_true'] at admitted
  obtain ⟨⟨⟨⟨noPath, single⟩, allowed⟩, elsewhere⟩, beyond⟩ := admitted
  have aims : rest.Aims id middle := by
    intro target next found same
    rw [found] at looked
    rw [← (EStateM.Result.ok.inj looked).1] at beyond
    simp [refersTo, same] at beyond
  have valued (item : Cell) : Adds id (fun r => tells s id r.1)
      ((fun result : Match => (result, rest)) <$> p.value s item pos) :=
    .map _ (tidy.value_adds apart item pos) fun _ => rfl
  have grouped (group : Cell) (f : Option Cell → Interp (Match × Rules))
      (later : ∀ value?, Adds id (fun r => tells s id r.1) (f value?)) :
      Adds id (fun r => tells s id r.1) (p.doGroup group >>= f) :=
    .behind (tidy.doGroup_spares group) later
  rw [Parser.rule, bind_ok took] at done
  dsimp only at done
  split at done
  · exact valued head.rule here done
  rename_i unquoted
  have unquoted : head.rule.quote = 0 := by simpa using unquoted
  cases kind : head.rule.kind
  all_goals rw [kind] at done
  case integer =>
    have few : head.rule.asInteger?.getD 0 ≤ 1 := by simpa [Cell.is, kind, unquoted] using single
    exact tidy.counted_adds apart head.rule rest pos few here done
  case setWord =>
    have mine : head.rule.binding ≠ .specific id := fun same => by
      simp [refersTo, same] at elsewhere
    have stored : Adds id (fun r => tells s id r.1) (do
        setVar head.rule none (← Query.ask (s.position pos))
        pure (.matched pos, rest)) :=
      .behind (fun _ _ => ask_keeping _ _) fun c =>
        .behind (fun _ _ => setVar_elsewhere mine c) fun _ => .pure _
    exact stored here done
  case getWord =>
    exact (obeys_of_ok (by mvcgen) here done).mono_kept fun may => by rw [may, Bool.true_or]
  case group =>
    refine grouped head.rule _ ?_ here done
    rintro (_ | _) <;> exact .pure _
  case getGroup =>
    refine grouped head.rule _ ?_ here done
    rintro (_ | value)
    · exact .pure _
    · exact .ite (.pure _) (valued value)
  case word =>
    dsimp only at done
    rw [ask_bind_ok named] at done
    cases keyword : head.keyword with
    | none =>
        rw [keyword] at done
        have found : Adds id (fun r => tells s id r.1) (do
            let value ← Query.getVar head.rule none
            (fun result => (result, rest)) <$> p.value s value pos) :=
          .behind (fun _ _ => lift_keeping _ _) valued
        exact found here done
    | some k =>
        rw [keyword] at done
        exact tidy.keyword_adds apart (by simpa [keyword] using allowed) head.rule aims here done
  case path => simp [Cell.is, kind, unquoted] at noPath
  all_goals exact valued head.rule here done

/-- Code that leaves exact elements alone leaves them alone when there are more. -/
theorem keeps_more {e : Engine} {id : SeriesId} (exact_ : ∀ base, e.Keeps (.kept id base false)) :
    ∀ base more, e.Keeps (.kept id base more) := by
  intro base more f step
  cases more with
  | false => exact exact_ base f step
  | true =>
      refine triple_iff.mpr fun m here => ?_
      obtain ⟨added, here⟩ := Machine.kept_true_iff.mp here
      have done := triple_iff.mp (exact_ (base ++ added) f step) m here
      cases ran : e.run f step m <;> rw [ran] at done <;>
        exact Machine.kept_true_iff.mpr ⟨added, done⟩

/-- Within the fence, matching adds to the collection at most, and that only if it matches. -/
theorem quietFence_tidy {e : Engine} {id : SeriesId}
    (spares : ∀ base more, e.Keeps (.kept id base more)) (depth level : Nat) :
    Parser.Tidy ⟨e, level, (quietFence id).matchItem e depth level⟩ id := by
  induction depth generalizing level with
  | zero =>
      refine ⟨spares, fun s _ rules pos base more m result last _ done => ?_,
        fun s rules pos m result last done => ?_⟩
      · cases done
      · cases done
  | succ depth ih =>
      refine ⟨spares, fun s apart rules pos base more m result last here done => ?_,
        fun s rules pos m result last done thrown => ?_⟩
      · obtain ⟨head, begins, admitted, ran, -⟩ := Fence.item_eq_ok done
        exact rule_adds (ih (level + 1)) apart begins admitted here ran
      · obtain ⟨head, -, -, -, passed⟩ := Fence.item_eq_ok done
        simpa [quietFence, thrown] using passed

theorem kept_false_iff {m : Machine} {id : SeriesId} {base : List Cell} :
    m.Obeys (.kept id base false) ↔ Query.cells id m = .ok base.toArray := by
  constructor
  · rintro ⟨s, live, cells, content, known⟩
    rw [if_neg Bool.false_ne_true] at known
    exact Query.cells_eq_ok.mpr ⟨s, live, by rw [content, ← known, Array.toArray_toList]⟩
  · intro holds
    obtain ⟨s, live, content⟩ := Query.cells_eq_ok.mp holds
    exact ⟨s, live, _, content, rfl⟩

/-- What a rule keeps stands behind what has been kept before, and a rule that fails keeps nothing:
this holds of every rule that needs no NOT, INTO, DO, count from two on or REJECT, if the code that
it evaluates is run by an engine that leaves the collection alone. -/
theorem failing_keeps_nothing {d e : Engine} (refines : d.Refines e) {id : SeriesId}
    (spares : ∀ base, d.Keeps (.kept id base false)) {depth level : Nat} {s : Subject}
    (apart : s.Apart id) {rules behind : Rules} {pos : Nat} {m next : Machine} {result : Match}
    {cells : List Cell} (holds : Query.cells id m = .ok cells.toArray)
    (done : (quietFence id).matchItem d depth level s rules pos m = .ok (result, behind) next) :
    matchItem e depth level s rules pos m = .ok (result, behind) next ∧
      ∃ added, Query.cells id next = .ok (cells ++ added).toArray ∧
        (result = .notFound ∨ s.collection ≠ some id → added = []) := by
  refine ⟨Fence.matchItem_refines refines _ depth level s rules pos m _ next done, ?_⟩
  have tidy := quietFence_tidy (keeps_more spares) depth level
  have there := tidy.item s apart rules pos (kept_false_iff.mpr holds) done
  have there : next.Obeys (.kept id cells (tells s id result)) := there
  cases told : tells s id result with
  | false =>
      rw [told] at there
      exact ⟨[], by rw [List.append_nil]; exact kept_false_iff.mp there, fun _ => rfl⟩
  | true =>
      rw [told] at there
      obtain ⟨added, there⟩ := Machine.kept_true_iff.mp there
      refine ⟨added, kept_false_iff.mp there, fun quiet => ?_⟩
      obtain ⟨collects, hit⟩ := Bool.and_eq_true_iff.mp told
      rcases quiet with rfl | other
      · cases hit
      · exact absurd (beq_iff_eq.mp collects) other

/-- A machine that holds a block of two numbers, a block with the rules `keep skip fail`, and a
collection with one element. -/
def sampleBasket : Machine where
  config := {}
  heap :=
    { slots := #[some (Series.ofCells #[Cell.integer 1, Cell.integer 2]),
        some (Series.ofCells #[Cell.series .block ⟨2⟩ 0]),
        some (Series.ofCells #[Cell.word .word ⟨0⟩, Cell.word .word ⟨1⟩, Cell.word .word ⟨2⟩]),
        some (Series.ofCells #[Cell.integer 7])]
      ballast := 0 }
  symbols :=
    { entries := #[⟨"keep", "keep", ⟨0⟩, ⟨0⟩⟩, ⟨"skip", "skip", ⟨1⟩, ⟨1⟩⟩,
        ⟨"fail", "fail", ⟨2⟩, ⟨2⟩⟩] }
  countdown := 0

/-- The numbers of the sample, of which the rules keep some. -/
def sampleSource : Subject :=
  { cell := Cell.series .block ⟨0⟩ 0, series := ⟨0⟩, specifier := none, strict := true,
    collection := some ⟨3⟩ }

theorem failing_keeps_nothing_sampleBasket :
    matchItem idle 3 0 sampleSource ⟨⟨1⟩, 0, none⟩ 0 sampleBasket =
        .ok (.notFound, ⟨⟨1⟩, 1, none⟩) sampleBasket ∧
      ∃ added, Query.cells ⟨3⟩ sampleBasket = .ok ([Cell.integer 7] ++ added).toArray ∧
        (Match.notFound = .notFound ∨ sampleSource.collection ≠ some ⟨3⟩ → added = []) :=
  failing_keeps_nothing (.refl idle) (fun _ _ _ => obeys_of_fails _ (fun _ => rfl) _)
    ⟨rfl, by decide⟩ rfl rfl

end Parse

end Homoicon
