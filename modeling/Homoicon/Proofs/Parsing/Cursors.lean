import Homoicon.Proofs.Parsing.Extents
import Homoicon.Proofs.Parsing.Fencing

/-!
# Running a rule and skipping it

Running a rule moves the cursor over it, whether the rule matches or not, to where skipping the rule
leads.  A rule may evaluate code that edits the very block of rules, so matching is watched here: it
gives up as soon as the signs in that block are other ones.
-/

set_option mvcgen.warning false

namespace Homoicon

open Interp

/-- Runs while an array is watched: it does not end well if the array has another outline then. -/
def Interp.watching {α : Type} (array : SeriesId) (x : Interp α) : Interp α := fun m =>
  match x m with
  | .ok a next =>
    if next.outline? array = m.outline? array then .ok a next else .error .exhausted m
  | .error failure _ => .error failure m

theorem Interp.watching_eq_ok {α : Type} {array : SeriesId} {x : Interp α} {m next : Machine}
    {a : α} (done : watching array x m = .ok a next) :
    x m = .ok a next ∧ next.outline? array = m.outline? array := by
  unfold watching at done
  split at done
  · split at done
    · rename_i ran same
      cases done
      exact ⟨ran, same⟩
    · cases done
  · cases done

theorem Interp.watching_refines {α : Type} (array : SeriesId) (x : Interp α) :
    Interp.Refines (watching array x) x := fun _ _ _ done => (watching_eq_ok done).1

theorem Interp.watching_keeping {α : Type} (array : SeriesId) (signs : List Parse.Sign)
    (x : Interp α) : Keeping (.outlined array signs) (watching array x) := by
  refine Interp.triple_iff.mpr fun m here => ?_
  unfold watching
  cases x m with
  | error => exact here
  | ok a next =>
      by_cases same : next.outline? array = m.outline? array
      · simp only [if_pos same]
        exact same.trans here
      · simp only [if_neg same]
        exact here

/-- An engine whose runs are watched. -/
def Engine.watching (e : Engine) (array : SeriesId) : Engine :=
  { e with run := fun f step => Interp.watching array (e.run f step) }

theorem Engine.watching_refines (e : Engine) (array : SeriesId) : (e.watching array).Refines e :=
  ⟨fun _ _ => Interp.watching_refines array _, rfl⟩

namespace Parse

/-- Matches the rule under a cursor inside `level` others while an array is watched, after every
evaluation and after every rule. -/
def matchWatching (array : SeriesId) (e : Engine) :
    Nat → (level : Nat) → Subject → Rules → Nat → Interp (Match × Rules)
  | 0, _, _, _, _ => throw .exhausted
  | depth + 1, level, s, rules, pos => watching array <|
    Parser.rule
      { engine := e.watching array, level := level + 1, item := matchWatching array e depth (level + 1) }
      s rules pos

/-- Watched matching is matching, as far as it gets. -/
theorem matchWatching_refines (array : SeriesId) (e : Engine) (depth level : Nat)
    (s : Subject) (rules : Rules) (pos : Nat) :
    Interp.Refines (matchWatching array e depth level s rules pos)
      (matchItem e depth level s rules pos) := by
  induction depth generalizing level s rules pos with
  | zero => exact .refl _
  | succ depth ih =>
      have inner : Parser.Refines
          ⟨e.watching array, level + 1, matchWatching array e depth (level + 1)⟩
          ⟨e, level + 1, matchItem e depth (level + 1)⟩ :=
        ⟨e.watching_refines array, rfl, ih (level + 1)⟩
      intro m result next done
      exact inner.rule s rules pos m result next (watching_eq_ok done).1

/-- A parser that leaves the outline of some rules alone, and whose cursor moves over them rule by
rule. -/
structure Parser.Tracks (p : Parser) (array : SeriesId) (signs : List Sign) : Prop where
  engine : p.engine.Keeps (.outlined array signs)
  item : ∀ {s rules pos m result behind next}, rules.array = array → rules.Outlined signs m →
    p.item s rules pos m = .ok (result, behind) next →
    rules.Outlined signs next ∧ (result ≠ .thrown → rules.Passes signs behind)

/-! ## Where a computation leaves the cursor -/

/-- Behind a computation that begins under a law, the cursor has a property unless there is a
throw. -/
def Leads (law : Law) (goal : Rules → Prop) (x : Interp (Match × Rules)) : Prop :=
  ∀ ⦃m result behind next⦄, m.Obeys law → x m = .ok (result, behind) next → result ≠ .thrown →
    goal behind

namespace Leads

section Steps

variable {α : Type} {law : Law} {goal : Rules → Prop} {x y : Interp (Match × Rules)}
  {f : α → Interp (Match × Rules)}

theorem yields (always : Yields (fun r => r.1 ≠ .thrown → goal r.2) x) : Leads law goal x :=
  fun _ _ _ _ _ done => always done

theorem pure {result : Match} {behind : Rules} (led : result ≠ .thrown → goal behind) :
    Leads law goal (Pure.pure (result, behind)) := .yields (.pure led)

theorem behind {x : Interp α} (kept : Keeping law x) (later : ∀ a, Leads law goal (f a)) :
    Leads law goal (x >>= f) := by
  intro m result behind next here done
  obtain ⟨a, middle, ran, done⟩ := bind_eq_ok.mp done
  exact later a (obeys_of_ok kept here ran) done

theorem ask {q : Query α} (later : ∀ a, Leads law goal (f a)) :
    Leads law goal (q.ask >>= f) := .behind (Law.ask_keeping law q) later

theorem ite {p : Prop} [Decidable p] (first : Leads law goal x) (second : Leads law goal y) :
    Leads law goal (if p then x else y) := by
  split
  · exact first
  · exact second

theorem imp {stronger : Rules → Prop} (led : Leads law stronger x)
    (weaken : ∀ behind, stronger behind → goal behind) : Leads law goal x :=
  fun _ _ _ _ here done going => weaken _ (led here done going)

theorem fails (fails : Fails x) : Leads law goal x :=
  .yields fun _ _ _ done => (fails done).elim

theorem first {x : Interp α} (fails : Fails x) : Leads law goal (x >>= f) := .yields (.first fails)

theorem refused {q : Query α} {cause : α → Cause} : Leads law goal (do fail (cause (← q))) :=
  .fails (.bind fun _ => Fails.fail _)

end Steps

section Cursors

variable {signs : List Sign} {goal : Rules → Prop} (rules : Rules)

theorem take {name : String} {f : Cell × Rules → Interp (Match × Rules)}
    (later : ∀ c sign, signs[rules.index]? = some sign →
      Leads (.outlined rules.array signs) goal (f (c, rules.next))) :
    Leads (.outlined rules.array signs) goal (rules.take name >>= f) := by
  intro m result behind next outlined done
  obtain ⟨⟨c, rest⟩, middle, took, done⟩ := bind_eq_ok.mp done
  obtain ⟨outlined, taken, rfl⟩ := Rules.take_sign outlined took
  exact later c _ taken outlined done

theorem takeTarget {name : String} {f : Cell × Rules → Interp (Match × Rules)}
    (later : ∀ c sign, signs[rules.index]? = some sign →
      Leads (.outlined rules.array signs) goal (f (c, rules.next))) :
    Leads (.outlined rules.array signs) goal (rules.takeTarget name >>= f) := by
  intro m result behind next outlined done
  obtain ⟨⟨c, rest⟩, middle, took, done⟩ := bind_eq_ok.mp done
  obtain ⟨outlined, taken, rfl⟩ := Rules.take_sign outlined (Rules.takeTarget_eq_ok took)
  exact later c _ taken outlined done

theorem takeOnly {f : Bool × Rules → Interp (Match × Rules)}
    (later : ∀ only, Leads (.outlined rules.array signs) goal
      (f (only, rules.moved (behindOnly signs rules.index)))) :
    Leads (.outlined rules.array signs) goal (rules.takeOnly >>= f) := by
  intro m result behind next outlined done
  obtain ⟨⟨only, rest⟩, middle, took, done⟩ := bind_eq_ok.mp done
  obtain ⟨outlined, rfl⟩ := Rules.takeOnly_sign outlined took
  exact later only outlined done

theorem current? {f : Option Cell → Interp (Match × Rules)}
    (later : ∀ c? t, c?.map (Sign.ofCell t) = signs[rules.index]? →
      Leads (.outlined rules.array signs) goal (f c?)) :
    Leads (.outlined rules.array signs) goal (rules.current? >>= f) := by
  intro m result behind next outlined done
  obtain ⟨c?, middle, shown, done⟩ := bind_eq_ok.mp done
  obtain ⟨outlined, sign⟩ := Rules.current?_sign outlined shown
  exact later c? _ sign outlined done

theorem isAt {k : Keyword} {f : Bool → Interp (Match × Rules)}
    (later : Leads (.outlined rules.array signs) goal
      (f (decide (signs[rules.index]? = some (.keyword k))))) :
    Leads (.outlined rules.array signs) goal (rules.isAt k >>= f) := by
  intro m result behind next outlined done
  obtain ⟨here, middle, asked, done⟩ := bind_eq_ok.mp done
  obtain ⟨outlined, rfl⟩ := Rules.isAt_sign outlined asked
  exact later outlined done

theorem skipItem {p : Parser} {f : Rules → Interp (Match × Rules)}
    (later : ∀ behind, rules.Passes signs behind →
      Leads (.outlined rules.array signs) goal (f behind)) :
    Leads (.outlined rules.array signs) goal (p.skipItem rules >>= f) := by
  intro m result behind next outlined done
  obtain ⟨skipped, middle, ran, done⟩ := bind_eq_ok.mp done
  obtain ⟨outlined, passes⟩ := Rules.skipItem_passes outlined ran
  exact later skipped passes outlined done

theorem replacement {p : Parser} {name : String}
    {f : Option Cell × Rules → Interp (Match × Rules)}
    (later : ∀ value? sign, signs[rules.index]? = some sign →
      Yields (fun r => r.1 ≠ .thrown → goal r.2) (f (value?, rules.next))) :
    Leads (.outlined rules.array signs) goal (p.replacement rules name >>= f) := by
  unfold Parser.replacement
  rw [bind_assoc]
  refine .take rules fun item sign taken => .yields ?_
  refine .behind (show Yields (fun r => r.2 = rules.next) _ from ?_) ?_
  · exact .ite (.bind fun _ => .pure rfl) <| .ite (.bind fun _ => .pure rfl) <|
      .ite (.bind fun _ => .pure rfl) (.pure rfl)
  · rintro ⟨value?, _⟩ rfl
    exact later value? sign taken

variable {p : Parser} (tracks : p.Tracks rules.array signs) {s : Subject} {pos : Nat}

include tracks

theorem item {f : Match × Rules → Interp (Match × Rules)}
    (later : ∀ result behind, (result ≠ .thrown → rules.Passes signs behind) →
      Leads (.outlined rules.array signs) goal (f (result, behind))) :
    Leads (.outlined rules.array signs) goal (p.item s rules pos >>= f) := by
  intro m result behind next outlined done
  obtain ⟨⟨found, after⟩, middle, ran, done⟩ := bind_eq_ok.mp done
  obtain ⟨outlined, passes⟩ := tracks.item rfl outlined ran
  exact later found after passes outlined done

theorem guardedItem {c : Cell} {f : Match × Rules → Interp (Match × Rules)}
    (later : ∀ result behind, (result ≠ .thrown → rules.Passes signs behind) →
      Leads (.outlined rules.array signs) goal (f (result, behind))) :
    Leads (.outlined rules.array signs) goal
      (guarding (do Interp.guard c; p.item s rules pos) >>= f) := by
  unfold guarding
  simp only [bind_assoc, pure_bind]
  exact .behind (Law.guardMark_keeping _) fun mark => .behind (Law.guard_keeping _ c) fun _ =>
    .item rules tracks fun result behind passes =>
      .behind (Law.unguardTo_keeping _ mark) fun _ => later result behind passes

end Cursors

end Leads

/-! ## Rule by rule -/

namespace Parser

variable {p : Parser} {s : Subject} {rules : Rules} {signs : List Sign} {pos : Nat}
  {name : String} {k : Keyword}

theorem repeated_passes (p : Parser) (s : Subject) (pos least : Nat) (limit : Option Nat) :
    Leads (.outlined rules.array signs) (rules.Passes signs)
      (p.repeated s rules pos least limit) :=
  .skipItem rules fun _ passes => .yields (.bind fun _ => .pure fun _ => passes)

theorem seekRule_passes (p : Parser) (s : Subject) (pos : Nat) (thru : Bool) :
    Leads (.outlined rules.array signs) (rules.Passes signs) (p.seekRule s rules pos thru) := by
  refine .ask fun size => .isAt rules ?_
  by_cases atEnd : signs[rules.index]? = some (.keyword .end_)
  · rw [decide_eq_true atEnd]
    exact .pure fun _ => ⟨_, .alone atEnd rfl, rfl⟩
  · rw [decide_eq_false atEnd]
    exact .skipItem rules fun _ passes => .yields (.bind fun _ => .pure fun _ => passes)

/-- A rule that begins with one or two counts. -/
theorem counted_passes (p : Parser) (s : Subject) (pos : Nat)
    (here : signs[rules.index]? = some .count) (rule : Cell) (least : Int) :
    Leads (.outlined rules.array signs) (rules.Passes signs)
      (p.counted s rule rules.next pos least) := by
  refine .current? rules.next fun c? t sign => ?_
  dsimp only
  cases second : c?.filter (·.is .integer) with
  | none =>
      have only : signs[rules.index + 1]? ≠ some .count := by
        intro counts
        obtain ⟨c, rfl, counts⟩ := Option.map_eq_some_iff.mp (sign.trans counts)
        simp [(Sign.ofCell_eq_count t c).mp counts] at second
      refine .ite .refused ((repeated_passes p s pos _ _).imp fun behind passes => ?_)
      obtain ⟨place, spans, moved⟩ := passes
      exact ⟨place, .count here only spans, moved⟩
  | some c =>
      obtain ⟨rfl, counts⟩ := Option.filter_eq_some_iff.mp second
      have twice : signs[rules.index + 1]? = some .count :=
        sign.symm.trans (congrArg some ((Sign.ofCell_eq_count t c).mpr counts))
      refine .current? rules.next.next fun _ _ _ => .ite .refused (.ite .refused ?_)
      refine (repeated_passes p s pos _ _).imp fun behind passes => ?_
      obtain ⟨place, spans, moved⟩ := passes
      exact ⟨place, .counts here twice spans, moved⟩

namespace Tracks

section Matching

variable (tracks : p.Tracks rules.array signs)

include tracks

theorem keepMatched_passes (collection : SeriesId) (only : Bool) :
    Leads (.outlined rules.array signs) (rules.Passes signs)
      (p.keepMatched s collection only rules pos) := by
  refine .item rules tracks fun result behind passes => ?_
  dsimp only
  cases result.behind? with
  | none => exact .pure passes
  | some _ =>
      refine .yields (.ite (.bind fun _ => .bind fun _ => .pure passes) (.ite ?_ (.pure passes)))
      exact .bind fun _ => .bind fun _ => .bind fun _ => .pure passes

end Matching

section Keywords

variable (tracks : p.Tracks rules.array signs) (here : signs[rules.index]? = some (.keyword k))

include tracks here

theorem capture_passes (follow : k.follow = .variableRule) (whole : Bool) :
    Leads (.outlined rules.array signs) (rules.Passes signs)
      (p.capture s rules.next pos name whole) := by
  refine .takeTarget rules.next fun target _ taken =>
    .item rules.next.next tracks fun result behind passes => ?_
  have ends (going : result ≠ .thrown) : rules.Passes signs behind :=
    have ⟨place, spans, moved⟩ := passes going
    ⟨place, .variableRule here follow taken spans, moved⟩
  dsimp only
  cases result.behind? with
  | none => exact .pure ends
  | some _ =>
      refine .yields (.ite (.bind fun _ => .bind fun _ => .bind fun _ => .pure ends) ?_)
      exact .ite (.bind fun _ => .bind fun _ => .bind fun _ => .pure ends)
        (.bind fun _ => .bind fun _ => .pure ends)

theorem collect_passes (follow : k.follow = .variableRule) :
    Leads (.outlined rules.array signs) (rules.Passes signs)
      (p.collect s rules.next pos name) := by
  refine .takeTarget rules.next fun target _ taken =>
    .behind (allocArray_outlined []) fun collection =>
      .guardedItem rules.next.next tracks fun result behind passes => ?_
  have ends (going : result ≠ .thrown) : rules.Passes signs behind :=
    have ⟨place, spans, moved⟩ := passes going
    ⟨place, .variableRule here follow taken spans, moved⟩
  exact .ite (.yields (.bind fun _ => .pure ends)) (.pure ends)

theorem keep_passes (follow : k.follow = .kept) :
    Leads (.outlined rules.array signs) (rules.Passes signs) (p.keep s rules.next pos name) := by
  unfold keep
  cases s.collection with
  | none => exact .fails (Fails.fail _)
  | some collection =>
      refine .takeOnly rules.next fun only => ?_
      refine .current? (rules.next.moved (behindOnly signs rules.next.index)) fun c? t sign => ?_
      dsimp only
      cases values : c?.filter (·.is .getBlock) with
      | none =>
          have noBlock : signs[behindOnly signs (rules.index + 1)]? ≠ some .values := by
            intro block
            obtain ⟨c, rfl, block⟩ := Option.map_eq_some_iff.mp (sign.trans block)
            simp [(Sign.ofCell_eq_values t c).mp block] at values
          have inner : p.Tracks (rules.moved (behindOnly signs (rules.index + 1))).array signs :=
            tracks
          refine (inner.keepMatched_passes collection only).imp fun behind passes => ?_
          obtain ⟨place, spans, moved⟩ := passes
          exact ⟨place, .kept here follow noBlock spans, moved⟩
      | some c =>
          obtain ⟨rfl, block⟩ := Option.filter_eq_some_iff.mp values
          have block : signs[behindOnly signs (rules.index + 1)]? = some .values :=
            sign.symm.trans (congrArg some ((Sign.ofCell_eq_values t c).mpr block))
          have ends : rules.Passes signs (rules.moved (behindOnly signs (rules.index + 1))).next :=
            ⟨_, .values here follow block, rfl⟩
          refine .yields (.bind fun _ => .bind fun reduced => ?_)
          cases reduced with
          | none => exact .pure fun _ => ends
          | some _ => exact .bind fun _ => .bind fun _ => .bind fun _ => .pure fun _ => ends

theorem remove_passes (follow : k.follow = .rule) :
    Leads (.outlined rules.array signs) (rules.Passes signs) (p.remove s rules.next pos) := by
  refine .item rules.next tracks fun result behind passes => ?_
  dsimp only
  have ends (going : result ≠ .thrown) : rules.Passes signs behind :=
    have ⟨place, spans, moved⟩ := passes going
    ⟨place, .rule here follow spans, moved⟩
  cases found : result.behind? with
  | none => exact .pure ends
  | some _ => exact .yields (.bind fun _ => .pure fun _ => ends (by rintro rfl; cases found))

theorem change_passes (follow : k.follow = .ruleReplacement) :
    Leads (.outlined rules.array signs) (rules.Passes signs) (p.change s rules.next pos name) := by
  refine .takeOnly rules.next fun only =>
    .item (rules.next.moved (behindOnly signs rules.next.index)) tracks fun result behind passes =>
      ?_
  dsimp only
  by_cases going : result = .thrown
  · subst going
    refine .yields (.bind fun r => ?_)
    obtain ⟨value?, after⟩ := r
    cases value? with
    | none => exact .pure fun going => absurd rfl going
    | some _ => exact .pure fun going => absurd rfl going
  · obtain ⟨place, spans, rfl⟩ := passes going
    refine .replacement (rules.moved place) fun value? sign taken => ?_
    have ends : rules.Passes signs (rules.moved place).next :=
      ⟨_, .ruleReplacement here follow spans taken, rfl⟩
    cases value? with
    | none => exact .pure fun _ => ends
    | some _ =>
        dsimp only
        cases result.behind? with
        | none => exact .pure fun _ => ends
        | some _ => exact .bind fun _ => .bind fun _ => .pure fun _ => ends

theorem expression_passes (follow : k.follow = .rule) :
    Leads (.outlined rules.array signs) (rules.Passes signs) (p.expression s rules.next pos) := by
  have ended : Leads (.outlined rules.array signs) (rules.Passes signs)
      (do return (.notFound, ← p.skipItem rules.next)) :=
    .skipItem rules.next fun behind passes => .pure fun _ =>
      have ⟨place, spans, moved⟩ := passes
      ⟨place, .rule here follow spans, moved⟩
  unfold expression
  dsimp only
  refine .ite (.first (Fails.fail _)) (.ask fun size => .ite ended ?_)
  refine .behind (Engine.evalStepAt_keeping tracks.engine _ _ _) fun
    | none => .pure fun thrown => absurd rfl thrown
    | some (value, place) => .ite ended ?_
  refine .behind (arrayCell_outlined _ _) fun holder => .behind (Law.lift_keeping _ _) fun _ =>
    .guardedItem rules.next tracks fun result behind passes => ?_
  have ends (going : result ≠ .thrown) : rules.Passes signs behind :=
    have ⟨place, spans, moved⟩ := passes going
    ⟨place, .rule here follow spans, moved⟩
  cases result with
  | thrown => exact .pure fun thrown => absurd rfl thrown
  | _ => exact .pure fun _ => ends nofun

end Keywords

end Tracks

/-! ## Keywords with a cell -/

section Cells

variable (here : signs[rules.index]? = some (.keyword k))

include here

theorem condition_passes (follow : k.follow = .cell) :
    Leads (.outlined rules.array signs) (rules.Passes signs) (p.condition rules.next pos name) := by
  refine .take rules.next fun group _ taken => .yields ?_
  have ends : rules.Passes signs rules.next.next := ⟨_, .cell here follow taken, rfl⟩
  refine .ite (.bind fun _ => .first (Fails.fail _)) (.bind fun value? => ?_)
  cases value? with
  | none => exact .pure fun _ => ends
  | some _ => exact .pure fun _ => ends

theorem insert_passes (follow : k.follow = .replacement) :
    Leads (.outlined rules.array signs) (rules.Passes signs) (p.insert s rules.next pos name) := by
  refine .takeOnly rules.next fun only => ?_
  refine .replacement (rules.next.moved (behindOnly signs rules.next.index))
    fun value? _ taken => ?_
  have ends : rules.Passes signs (rules.moved (behindOnly signs (rules.index + 1))).next :=
    ⟨_, .replacement here follow taken, rfl⟩
  cases value? with
  | none => exact .pure fun _ => ends
  | some _ => exact .bind fun _ => .pure fun _ => ends

theorem seek_passes (follow : k.follow = .cell) :
    Leads (.outlined rules.array signs) (rules.Passes signs) (seek s rules.next name) := by
  refine .take rules.next fun group _ taken => .yields ?_
  have ends : rules.Passes signs rules.next.next := ⟨_, .cell here follow taken, rfl⟩
  exact .ite (.bind fun _ => .bind fun _ => .pure fun _ => ends)
    (.bind fun _ => .bind fun _ => .pure fun _ => ends)

theorem into_passes (follow : k.follow = .cell) :
    Leads (.outlined rules.array signs) (rules.Passes signs) (p.into s rules.next pos name) := by
  refine .take rules.next fun item _ taken => .yields ?_
  have ends : rules.Passes signs rules.next.next := ⟨_, .cell here follow taken, rfl⟩
  dsimp only
  refine .ite ?named ?given
  all_goals
    refine .bind fun block => .ite (.bind fun _ => .first (Fails.fail _)) (.bind fun element? => ?_)
    cases element?.filter _ with
    | none => exact .pure fun _ => ends
    | some element =>
        refine .bind fun _ => .bind fun _ => .bind fun _ => .bind fun result => ?_
        cases result <;> exact .pure fun _ => ends

end Cells

/-! ## Rules -/

namespace Tracks

variable (tracks : p.Tracks rules.array signs)

include tracks

/-- A keyword moves the cursor over the rule that it begins. -/
theorem keyword_passes (here : signs[rules.index]? = some (.keyword k)) (rule : Cell) :
    Leads (.outlined rules.array signs) (rules.Passes signs)
      (p.keyword s k rule rules.next pos) := by
  refine .behind (Law.lift_keeping _ _) fun name => .ask fun size => ?_
  have inner {x : Interp (Match × Rules)} (follow : k.follow = .rule)
      (led : Leads (.outlined rules.next.array signs) (rules.next.Passes signs) x) :
      Leads (.outlined rules.array signs) (rules.Passes signs) x :=
    led.imp fun behind ⟨place, spans, moved⟩ => ⟨place, .rule here follow spans, moved⟩
  have alone (follow : k.follow = .nothing) : rules.Passes signs rules.next :=
    ⟨_, .alone here follow, rfl⟩
  cases k with
  | while_ | any | some_ | opt => exact inner rfl (repeated_passes p s pos _ _)
  | not_ =>
      refine inner rfl (.item rules.next tracks fun result behind passes => ?_)
      cases result with
      | thrown => exact .pure fun thrown => absurd rfl thrown
      | _ => exact .pure fun _ => passes nofun
  | ahead =>
      refine inner rfl (.item rules.next tracks fun result behind passes => .pure fun going => ?_)
      exact passes (by rintro rfl; exact going rfl)
  | copy | set => exact tracks.capture_passes here rfl _
  | collect => exact tracks.collect_passes here rfl
  | keep => exact tracks.keep_passes here rfl
  | remove => exact tracks.remove_passes here rfl
  | insert => exact insert_passes here rfl
  | change => exact tracks.change_passes here rfl
  | if_ => exact condition_passes here rfl
  | accept | break_ | reject =>
      exact .yields (.bind fun _ => .bind fun _ => .pure fun _ => alone rfl)
  | mark =>
      refine .takeTarget rules.next fun target _ taken => .yields (.bind fun _ => .bind fun _ => ?_)
      exact .pure fun _ => ⟨_, .cell here rfl taken, rfl⟩
  | seek => exact seek_passes here rfl
  | into => exact into_passes here rfl
  | do_ => exact tracks.expression_passes here rfl
  | lit =>
      refine .take rules.next fun value _ taken => .yields (.bind fun _ => ?_)
      exact .pure fun _ => ⟨_, .cell here rfl taken, rfl⟩
  | to_ | thru => exact inner rfl (seekRule_passes p s pos _)
  | fail | skip | end_ => exact .pure fun _ => alone rfl
  | only => exact .fails (Fails.fail _)

/-- Running a rule moves the cursor over it. -/
theorem rule_passes :
    Leads (.outlined rules.array signs) (rules.Passes signs) (p.rule s rules pos) := by
  intro m result behind last outlined done going
  obtain ⟨⟨rule, rest⟩, middle, took, done⟩ := bind_eq_ok.mp done
  obtain ⟨outlined, here, rfl⟩ := Rules.take_sign outlined took
  have single (uncounted : rule.is .integer ≠ true)
      (unnamed : Keyword.ofCell? middle.symbols rule = none) : rules.Passes signs rules.next :=
    ⟨_, .single here (mt (Sign.ofCell_eq_count _ _).mp uncounted)
      ((Sign.keyword?_ofCell _ _).trans unnamed), rfl⟩
  have plain (uncounted : rule.is .integer ≠ true) (noWord : rule.is .word ≠ true) :
      rules.Passes signs rules.next := single uncounted (if_neg noWord)
  dsimp only at done
  split at done
  · rename_i quoted
    have quoted (kind : Kind) : rule.is kind ≠ true := by
      simp only [bne_iff_ne] at quoted
      simp [Cell.is, quoted]
    have ends := plain (quoted .integer) (quoted .word)
    exact Leads.yields (.bind fun _ => .pure fun _ => ends) outlined done going
  rename_i unquoted
  have unquoted : rule.quote = 0 := by simpa using unquoted
  have noOther {kind : Kind} (here : rule.kind = kind) (other : Kind) (apart : kind ≠ other) :
      rule.is other ≠ true := by simp [Cell.is, here, apart]
  cases kind : rule.kind
  all_goals rw [kind] at done
  case integer =>
    have counts : rule.is .integer = true := by simp [Cell.is, kind, unquoted]
    rw [(Sign.ofCell_eq_count _ _).mpr counts] at here
    exact counted_passes p s pos here rule _ outlined done going
  case word =>
    have uncounted := noOther kind .integer (by decide)
    dsimp only at done
    rw [ask_bind_ok (keyword?_run rule middle)] at done
    cases named : (Sign.ofCell middle.symbols rule).keyword? with
    | none =>
        rw [named] at done
        have ends := single uncounted ((Sign.keyword?_ofCell _ _).symm.trans named)
        exact Leads.yields (.bind fun _ => .map fun _ _ => ends) outlined done going
    | some k =>
        rw [named] at done
        rw [Sign.eq_of_keyword? named] at here
        exact tracks.keyword_passes here rule outlined done going
  all_goals have ends := plain (noOther kind .integer (by decide)) (noOther kind .word (by decide))
  case setWord | getWord =>
    exact Leads.yields (.bind fun _ => .bind fun _ => .pure fun _ => ends) outlined done going
  case group =>
    refine Leads.yields (.bind fun value? => ?_) outlined done going
    cases value? <;> exact .pure fun _ => ends
  case getGroup =>
    refine Leads.yields (.bind fun value? => ?_) outlined done going
    cases value? with
    | none => exact .pure fun _ => ends
    | some _ => exact .ite (.pure fun _ => ends) (.map fun _ _ => ends)
  case path =>
    refine Leads.yields (.bind fun value? => ?_) outlined done going
    cases value? with
    | none => exact .pure fun _ => ends
    | some _ => exact .map fun _ _ => ends
  all_goals exact Leads.yields (.map fun _ _ => ends) outlined done going

end Tracks

end Parser

theorem matchWatching_tracks (array : SeriesId) (signs : List Sign) (e : Engine)
    (depth level : Nat) :
    Parser.Tracks ⟨e.watching array, level, matchWatching array e depth level⟩ array signs := by
  refine ⟨fun f step => watching_keeping array signs _, ?_⟩
  induction depth generalizing level with
  | zero =>
      intro s rules pos m result behind next _ _ done
      cases done
  | succ depth ih =>
      rintro s rules pos m result behind next rfl outlined done
      obtain ⟨ran, same⟩ := watching_eq_ok done
      have inner : Parser.Tracks
          ⟨e.watching rules.array, level + 1, matchWatching rules.array e depth (level + 1)⟩
          rules.array signs := ⟨fun f step => watching_keeping _ signs _, ih (level + 1)⟩
      exact ⟨same.trans outlined, inner.rule_passes outlined ran⟩

/-- Running a rule and skipping it lead the cursor to the same place: if a rule matches or fails,
and no code that it evaluates and no rule in it changes what the cells of its block are, then the
rule can be skipped, and the cursor behind it is the one that skipping gives. -/
theorem skipItem_of_matchItem {e : Engine} {depth level fuel : Nat} {s : Subject}
    {rules behind : Rules}
    {pos : Nat} {m next : Machine} {result : Match} {cells : Array Cell}
    (known : Query.cells rules.array m = .ok cells) (enough : cells.size ≤ rules.index + fuel)
    (tied : ∀ varlist, rules.specifier = some varlist → m.heap.isLive varlist = true)
    (done : matchWatching rules.array e depth level s rules pos m = .ok (result, behind) next)
    (going : result ≠ .thrown) :
    matchItem e depth level s rules pos m = .ok (result, behind) next ∧
      ∃ last, rules.skipItem fuel m = .ok behind last := by
  have outlined : rules.Outlined (cells.toList.map (Sign.ofCell m.symbols)) m :=
    Machine.outline?_eq_some.mpr ⟨cells, known, rfl⟩
  have legible : rules.Legible (cells.toList.map (Sign.ofCell m.symbols)) m := by
    refine ⟨outlined, fun varlist bound => ?_⟩
    obtain ⟨held, live⟩ := Heap.isLive_iff.mp (tied varlist bound)
    exact ⟨held, live, trivial⟩
  have tracks := matchWatching_tracks rules.array (cells.toList.map (Sign.ofCell m.symbols)) e depth
    level
  obtain ⟨place, spans, rfl⟩ := (tracks.item rfl outlined done).2 going
  have within := spans.bounds.2
  rw [List.length_map, Array.length_toList] at within
  obtain ⟨last, skipped, -⟩ := Rules.skipItem_run spans legible rfl fuel (by omega)
  exact ⟨matchWatching_refines _ e depth level s rules pos m _ next done, last, skipped⟩

/-- A machine that holds a block of two numbers, and a block with the rules `ahead 1 2 skip`. -/
def sampleLookahead : Machine where
  config := {}
  heap :=
    { slots := #[some (Series.ofCells #[Cell.integer 1, Cell.integer 2]),
        some (Series.ofCells #[Cell.word .word ⟨0⟩, Cell.integer 1, Cell.integer 2,
          Cell.word .word ⟨1⟩])]
      ballast := 0 }
  symbols := { entries := #[⟨"ahead", "ahead", ⟨0⟩, ⟨0⟩⟩, ⟨"skip", "skip", ⟨1⟩, ⟨1⟩⟩] }
  countdown := 0

theorem skipItem_of_matchItem_sampleLookahead :
    matchItem { idle with rounds := 8 } 3 0 ⟨Cell.series .block ⟨0⟩ 0, ⟨0⟩, none, true, none⟩
        ⟨⟨1⟩, 0, none⟩ 0 sampleLookahead = .ok (.matched 0, ⟨⟨1⟩, 4, none⟩) sampleLookahead ∧
      ∃ last, Rules.skipItem 4 ⟨⟨1⟩, 0, none⟩ sampleLookahead = .ok ⟨⟨1⟩, 4, none⟩ last :=
  skipItem_of_matchItem rfl le_rfl nofun rfl nofun

end Parse

end Homoicon
