import Homoicon.Proofs.Parsing.Adequacy
import Homoicon.Proofs.Parsing.Advancing
import Homoicon.Proofs.Parsing.Fencing

/-!
# Positions move forward

A rule matches from the position where it is tried on, and never beyond the end of the subject.
SEEK and get-words go where they are told, and code may do as it likes: it may shorten the subject,
and DO hands out a position of another series when it is left by ACCEPT.  TO and THRU search
positions that a rule may have cut off meanwhile, and INTO may shorten a subject that contains
itself.  Every other rule moves forward.
-/

open Std.Do

set_option mvcgen.warning false

namespace Homoicon.Parse

open Law Interp Series.Trait

attribute [local spec high] Protection.current?_of Protection.takeRule_of Protection.isAt_of
  Protection.takeOnly_of Protection.skipRule_of Protection.takeTarget_of Protection.element?_of
  Protection.matchLiteral_of Protection.element_of Protection.leave_of

/-! ## Rules -/

/-- A subject that is a series, and does not gather what is kept. -/
structure Subject.Covers (s : Subject) (id : SeriesId) : Prop where
  isSeries : s.cell.kind.isAnySeries = true
  cell : s.cell.seriesId? = some id
  series : s.series = id
  collection : s.collection ≠ some id

section Literals

variable {id : SeriesId} {s : Subject} (covers : s.Covers id) {pos : Nat}

include covers

/-- An element stands before the end of the subject. -/
theorem element?_inside {m next : Machine} {c : Cell} (done : s.element? pos m = .ok (some c) next) :
    next.Obeys (.long id (pos + 1)) := by
  have ours := covers.series
  subst ours
  unfold Subject.element? at done
  split at done
  · obtain ⟨cells, answer, done⟩ := lift_bind_eq_ok.mp done
    obtain ⟨held, live, content⟩ := Query.cells_eq_ok.mp answer
    cases there : cells[pos]? with
    | none =>
        rw [there] at done
        cases done
    | some found =>
        have here : m.Obeys (.long s.series (pos + 1)) :=
          long_of_content live content (Array.getElem?_eq_some_iff.mp there).1
        rw [there] at done
        have done : (some <$> derelativize found s.specifier) m = .ok (some c) next := done
        rw [map_run] at done
        cases ran : derelativize found s.specifier m with
        | error => simp [ran] at done
        | ok a last =>
            rw [ran] at done
            cases done
            exact obeys_of_ok (derelativize_of s.series (.long (pos + 1)) found s.specifier) here ran
  · split at done
    · obtain ⟨bytes, answer, done⟩ := lift_bind_eq_ok.mp done
      obtain ⟨held, live, content⟩ := Query.bytes_eq_ok.mp answer
      obtain ⟨found, rfl⟩ := EStateM.Result.ok.inj done
      obtain ⟨byte, there, -⟩ := Option.map_eq_some_iff.mp found
      exact long_of_content live content (Array.getElem?_eq_some_iff.mp there).1
    · obtain ⟨text, answer, done⟩ := lift_bind_eq_ok.mp done
      obtain ⟨held, live, content⟩ := Query.text_eq_ok.mp answer
      obtain ⟨found, rfl⟩ := EStateM.Result.ok.inj done
      obtain ⟨char, there, -⟩ := Option.map_eq_some_iff.mp found
      exact long_of_content live content (Text.Buffer.lt_size_of_get? there)

/-- A literal text ends before the end of the subject. -/
theorem matchText?_inside {m : Machine} {needle : String} {behind : Nat}
    (found : s.matchText? pos needle m = .ok (some behind)) :
    pos ≤ behind ∧ m.Obeys (.long id behind) := by
  have ours := covers.series
  subst ours
  unfold Subject.matchText? at found
  split at found
  · obtain ⟨bytes, answer, found⟩ := Query.bind_eq_ok.mp found
    obtain ⟨held, live, content⟩ := Query.bytes_eq_ok.mp answer
    have found := Except.ok.inj found
    split at found
    · rename_i same
      cases found
      rw [Bool.and_eq_true, decide_eq_true_eq] at same
      exact ⟨Nat.le_add_right _ _, long_of_content live content same.1⟩
    · cases found
  · obtain ⟨text, answer, found⟩ := Query.bind_eq_ok.mp found
    obtain ⟨held, live, content⟩ := Query.text_eq_ok.mp answer
    dsimp only at found
    split at found
    · cases found
    · rename_i inside
      obtain ⟨rfl⟩ : pos + needle.length = behind := by
        have found := Except.ok.inj found
        exact Option.some.inj (Option.ite_none_right_eq_some.mp found).2
      exact ⟨Nat.le_add_right _ _, long_of_content live content (Nat.not_lt.mp inside)⟩

theorem element?_advances {α : Type} {view : α → Match} {f : Option Cell → Interp α}
    (missing : Advances view id pos pos (f none))
    (there : ∀ c, Advances view id pos (pos + 1) (f (some c))) :
    Advances view id pos pos (s.element? pos >>= f) := by
  intro m result last here done
  obtain ⟨found?, next, looked, done⟩ := bind_eq_ok.mp done
  cases found? with
  | none => exact missing (obeys_of_ok (Protection.element?_of s pos) here looked) done
  | some c => exact there c (element?_inside covers looked) done

theorem element_advances (fits : Cell → Bool) :
    Advances (fun r => r) id pos pos (Parser.element s pos fits) :=
  element?_advances covers (.missed rfl le_rfl) fun _ =>
    .judged rfl (Nat.le_succ pos) (Nat.le_succ pos) fun _ => le_rfl

theorem matchLiteral_advances (value : Cell) :
    Advances (fun r => r) id pos pos (s.matchLiteral value pos) := by
  refine .ite (element?_advances covers (.missed rfl le_rfl) fun c => ?_)
    (.behind (ask_keeping _ _) fun needle => ?_)
  · exact .behind (lift_keeping _ _) fun _ =>
      .judged rfl (Nat.le_succ pos) (Nat.le_succ pos) fun _ => le_rfl
  · intro m result last here done
    obtain ⟨found?, answer, done⟩ := lift_bind_eq_ok.mp done
    cases found? with
    | none =>
        cases done
        exact ⟨.missed here rfl, nofun⟩
    | some behind =>
        obtain ⟨le, there⟩ := matchText?_inside covers answer
        cases done
        exact ⟨.found rfl le there, nofun⟩

end Literals

/-- The position that ACCEPT carries is taken over. -/
theorem leaveBlock_lands {id : SeriesId} {pos : Nat} {m next : Machine} {result : Match}
    (here : m.Obeys (.long id pos)) (carries : Carries id pos m)
    (done : Parser.leaveBlock pos m = .ok result next) : Lands id pos next result := by
  have kept (n : Nat) (here : m.Obeys (.long id n)) : next.Obeys (.long id n) :=
    obeys_of_ok (Protection.leaveBlock_of pos) here done
  obtain ⟨accepts, t, thrown, rfl⟩ | ⟨-, -, rfl⟩ | ⟨-, rfl, -⟩ := leaveBlock_cases done
  · cases value : t.value.asInteger? with
    | none => exact .found rfl le_rfl (kept pos here)
    | some i =>
        obtain ⟨le, there⟩ := carries accepts t thrown i value
        exact .found rfl le (kept _ there)
  · exact .missed (kept pos here) rfl
  · exact .missed (kept pos here) rfl

theorem leave_advances {id : SeriesId} (pos : Nat) (rules : Rules) (label : Machine → Action)
    {value : Cell} (fits : ∀ i, value.asInteger? = some i → i = pos) :
    Advances Prod.fst id pos pos (do pure (← Parser.leave (label (← get)) value, rules)) := by
  intro m result last here done
  obtain ⟨_, _, ⟨⟩, done⟩ := bind_eq_ok.mp done
  cases done
  refine ⟨.missed (here.congr rfl rfl) rfl, fun _ _ t thrown i whole => ?_⟩
  obtain rfl := Option.some.inj thrown
  obtain rfl := fits i whole
  exact ⟨le_rfl, here.congr rfl rfl⟩

theorem mark_advances {id : SeriesId} {s : Subject} (rules : Rules) (pos : Nat) (name : String) :
    Advances Prod.fst id pos pos (do
      let (target, rules) ← rules.takeTarget name
      setVar target none (← Query.ask (s.position pos))
      pure (.matched pos, rules)) :=
  .behind (Protection.takeTarget_of rules name) fun _ => .behind (ask_keeping _ _) fun c =>
    .behind (setVar_long _ none c) fun _ => .found rfl le_rfl le_rfl

section Changing

variable {id : SeriesId} {s : Subject} (covers : s.Covers id)

include covers

theorem giveUp_long (n : Nat) (kept : Option Nat) :
    Keeping (.long id n) (s.giveUp kept) := by
  have other := covers.collection
  unfold Subject.giveUp
  cases collection : s.collection with
  | none => mvcgen
  | some found =>
      cases kept with
      | none => mvcgen
      | some size =>
          refine modifyCells_of id (.long n) found _ fun same => ?_
          rw [collection, same] at other
          exact absurd rfl other

theorem insertAt_advances (value : Cell) (only : Bool) (rules : Rules) (pos : Nat) :
    Advances Prod.fst id pos pos (do
      pure (.matched (← insertAt s.cell pos value only none 1), rules)) := by
  intro m result last here done
  obtain ⟨place, next, inserted, done⟩ := bind_eq_ok.mp done
  obtain ⟨le, there⟩ := insertAt_long covers.cell here inserted
  cases done
  exact ⟨.found rfl le there, nofun⟩

/-- INTO matches one element, if the subject is as long as it was. -/
theorem inner_lands {p : Parser} {block : Cell} {rules : Rules} {pos size : Nat} {m next : Machine}
    {result : Match × Rules} (sized : m.Obeys (.sized id size)) (le : pos ≤ size)
    (after : next.Obeys (.long id size))
    (done : (do
      let inner? := (← s.element? pos).filter fun c => c.quote == 0 && c.kind.isAnySeries
      match inner? with
      | none => pure (.notFound, rules)
      | some inner =>
        let sub ← Subject.ofCell inner s.strict s.collection
        let size ← Query.ask sub.size
        let result ← p.block sub (← Rules.ofBlock block) inner.index
        match result with
        | .thrown => pure (.thrown, rules)
        | _ => pure (if result.behind? == some size then .matched (pos + 1) else .notFound, rules)
      : Interp (Match × Rules)) m = .ok result next) :
    Lands id pos next result.1 ∧ (result.1 = .thrown → Carries id pos next) := by
  have missing : Lands id pos next .notFound := .missed (after.mono_long le) rfl
  obtain ⟨element?, middle, looked, done⟩ := bind_eq_ok.mp done
  have sized := obeys_of_ok (Protection.element?_of s pos) sized looked
  cases element? with
  | none =>
      cases done
      exact ⟨missing, nofun⟩
  | some element =>
      have inside : pos + 1 ≤ size := (long_iff (sized_iff.mp sized)).mp (element?_inside covers looked)
      cases inner : (some element).filter fun c => c.quote == 0 && c.kind.isAnySeries with
      | none =>
          rw [inner] at done
          cases done
          exact ⟨missing, nofun⟩
      | some found =>
          rw [inner] at done
          obtain ⟨sub, -, done⟩ := lift_bind_eq_ok.mp done
          obtain ⟨length, -, done⟩ := lift_bind_eq_ok.mp done
          obtain ⟨rules, -, done⟩ := lift_bind_eq_ok.mp done
          obtain ⟨found, last, ran, done⟩ := bind_eq_ok.mp done
          have judged (found : Match) : Lands id pos next
              (if found.behind? == some length then .matched (pos + 1) else .notFound) := by
            split
            · exact .found rfl (Nat.le_succ pos) (after.mono_long inside)
            · exact missing
          cases found with
          | thrown =>
              cases done
              exact ⟨.missed (after.mono_long le) rfl, fun _ => .of_quiet (block_quiet ran)⟩
          | matched | accepted =>
              cases done
              refine ⟨judged _, fun thrown => ?_⟩
              revert thrown
              dsimp only
              split <;> exact nofun
          | notFound =>
              cases done
              exact ⟨missing, nofun⟩

theorem into_lands {p : Parser} {rules : Rules} {pos size : Nat} {name : String} {m next : Machine}
    {result : Match × Rules} (sized : m.Obeys (.sized id size)) (le : pos ≤ size)
    (after : next.Obeys (.long id size)) (done : p.into s rules pos name m = .ok result next) :
    Lands id pos next result.1 ∧ (result.1 = .thrown → Carries id pos next) := by
  obtain ⟨⟨item, rules⟩, middle, took, done⟩ := bind_eq_ok.mp done
  have sized := obeys_of_ok (Protection.takeRule_of _ name) sized took
  dsimp only at done
  split at done
  all_goals
    obtain ⟨block, middle, asked, done⟩ := bind_eq_ok.mp done
    split at done
    · obtain ⟨_, -, done⟩ := lift_bind_eq_ok.mp done
      obtain ⟨_, _, refused, -⟩ := bind_eq_ok.mp done
      cases refused
  · exact inner_lands covers (obeys_of_ok (ask_keeping _ _) sized asked) le after done
  · cases asked
    exact inner_lands covers sized le after done

theorem lit_advances (rules : Rules) (pos : Nat) (name : String) :
    Advances Prod.fst id pos pos (do
      let (value, rules) ← rules.take name
      pure (← s.matchLiteral value pos, rules)) :=
  .behind (Protection.takeRule_of rules name) fun taken =>
    .map (·, taken.2) (matchLiteral_advances covers taken.1)

end Changing

/-- A parser that evaluates nothing, and whose rules move forward; and a rule that fails does not
shorten the subject. -/
structure Parser.Onward (p : Parser) (id : SeriesId) : Prop where
  halts : p.engine.Halts
  item : ∀ s, s.Covers id → ∀ rules pos, Advances Prod.fst id pos pos (p.item s rules pos)
  fails : ∀ s, s.Covers id → ∀ rules pos n m behind next, m.Obeys (.long id n) →
    p.item s rules pos m = .ok (.notFound, behind) next → next.Obeys (.long id n)

namespace Parser.Onward

variable {p : Parser} {id : SeriesId} (onward : p.Onward id) {s : Subject} (covers : s.Covers id)

include onward

theorem keeps (n : Nat) : p.engine.Keeps (.long id n) := by
  intro f step
  rw [onward.halts f step]
  exact obeys_of_fails _ (fun _ => rfl) _

theorem replacement_long (n : Nat) (rules : Rules) (after : String) :
    Keeping (.long id n) (p.replacement rules after) := by
  have ran (group : Cell) : Keeping (.long id n) (p.doGroup group) :=
    Engine.doBlock_keeping (onward.keeps n) _
  unfold Parser.replacement
  mvcgen [ran]

theorem replacement_quiet (rules : Rules) (after : String) : Quiet id (p.replacement rules after) :=
  .bind (.take rules after) fun _ =>
    .ite (.refuse (.first (onward.halts.doBlock _))) <| .ite (.bind (.ask _) fun _ => .pure _) <|
      .ite (.bind (.ask _) fun _ => .pure _) (.pure _)

theorem replacement_some (rules : Rules) (after : String) :
    Yields (fun r => r.1.isSome = true) (p.replacement rules after) :=
  .bind fun _ => .ite (.first (onward.halts.doBlock _)) <| .ite (.bind fun _ => .pure rfl) <|
    .ite (.bind fun _ => .pure rfl) (.pure rfl)

include covers

/-- Alternatives move forward from where the first of them began. -/
theorem alternatives_advance {start : Nat} {kept : Option Nat} {fuel : Nat} {rules : Rules}
    {pos : Nat} (le : start ≤ pos) :
    Advances (fun r => r) id start pos (p.alternatives s start kept fuel rules pos) := by
  -- The start stays where it is while the position moves on; the subject still reaches to it when
  -- a rule has failed, so that the next alternative may begin there.
  induction fuel generalizing rules pos with
  | zero =>
      intro m result next here done
      cases done
  | succ fuel ih =>
      unfold Parser.alternatives
      refine .behind (Protection.current?_of rules) ?_
      rintro (_ | rule)
      · exact .found rfl le le_rfl
      refine .ite (.found rfl le le_rfl) (.bind le (onward.item s covers rules pos) ?hit ?missed ?left)
      case hit =>
        rintro ⟨result, rules⟩ behind found further
        cases result with
        | matched | accepted =>
            obtain rfl := Option.some.inj found
            exact ih (le.trans further)
        | notFound | thrown => cases found
      case missed =>
        rintro ⟨_, rules⟩ rfl
        refine .weaken (.behind (giveUp_long covers start kept) fun _ =>
          .behind (Protection.nextAlternative?_of _ rules) ?_) le
        rintro (_ | rules)
        · exact .missed rfl le_rfl
        · exact ih le_rfl
      case left =>
        rintro ⟨_, rules⟩ rfl
        exact .pure rfl

theorem block_advances (rules : Rules) (pos : Nat) :
    Advances (fun r => r) id pos pos (p.block s rules pos) := by
  intro m result next here done
  refine ⟨?_, fun (thrown : result = .thrown) => .of_quiet (block_quiet (thrown ▸ done))⟩
  obtain ⟨kept, found, middle, -, ran, ended⟩ := block_eq_ok done
  obtain ⟨lands, carries⟩ := onward.alternatives_advance covers le_rfl here ran
  rcases ended with ⟨rfl, left⟩ | ⟨-, rfl, rfl⟩
  · exact leaveBlock_lands lands.1 (carries rfl) left
  · exact lands

theorem value_advances (rule : Cell) (pos : Nat) :
    Advances (fun r => r) id pos pos (p.value s rule pos) := by
  have literal : Advances (fun r => r) id pos pos (s.matchLiteral rule pos) :=
    matchLiteral_advances covers rule
  have refused : Advances (fun r => r) id pos pos (do fail (.parseRule (← Query.mold rule))) :=
    .behind (lift_keeping _ _) fun _ => .refuse (.fail _)
  refine .ite (.behind (lift_keeping _ _) fun _ => matchLiteral_advances covers _) ?_
  cases rule.kind with
  | blank => exact .found rfl le_rfl le_rfl
  | logic => exact .judged rfl le_rfl le_rfl fun _ => le_rfl
  | block => exact .behind (lift_keeping _ _) fun rules => onward.block_advances covers rules pos
  | datatype | typeset => exact element_advances covers _
  | integer | action | null | void | bar => exact refused
  | _ => exact .ite refused literal

/-- Repetitions move forward from where the first of them began. -/
theorem repetitions_advance {start : Nat} {rules : Rules} {least : Nat} {limit : Option Nat}
    {fuel count pos : Nat} (le : start ≤ pos) :
    Advances (fun r => r) id start pos (p.repetitions s rules least limit fuel count pos) := by
  have ended {pos place count : Nat} (low : start ≤ place) (high : place ≤ pos) :
      Advances (fun r => r) id start pos (pure (counts least count place)) := by
    unfold counts
    split
    · exact .missed rfl (low.trans high)
    · exact .found rfl low high
  induction fuel generalizing count pos with
  | zero =>
      intro m result next here done
      cases done
  | succ fuel ih =>
      unfold Parser.repetitions
      refine .ite (ended le le_rfl) (.bind le (onward.item s covers rules pos) ?hit ?missed ?left)
      case hit =>
        rintro ⟨result, _⟩ behind found further
        cases result with
        | matched =>
            obtain rfl := Option.some.inj found
            exact .ite (ended le further) (ih (le.trans further))
        | accepted =>
            obtain rfl := Option.some.inj found
            exact ended (le.trans further) le_rfl
        | notFound | thrown => cases found
      case missed =>
        rintro ⟨_, _⟩ rfl
        exact ended le le_rfl
      case left =>
        rintro ⟨_, _⟩ rfl
        exact .pure rfl

theorem repeated_advances (rules : Rules) (pos least : Nat) (limit : Option Nat) :
    Advances Prod.fst id pos pos (p.repeated s rules pos least limit) :=
  .behind (Protection.skipRule_of _ rules) fun _ =>
    .map (·, _) (onward.repetitions_advance covers le_rfl)

/-- What is done behind a match that tells where it ends. -/
theorem item_advances {f : Match × Rules → Interp (Match × Rules)} (rules : Rules) (pos : Nat)
    (hit : ∀ result rules behind, result.behind? = some behind → pos ≤ behind →
      Advances Prod.fst id pos behind (f (result, rules)))
    (missed : ∀ rules, Advances Prod.fst id pos pos (f (.notFound, rules)))
    (left : ∀ rules, Relays Prod.fst id (f (.thrown, rules))) :
    Advances Prod.fst id pos pos (p.item s rules pos >>= f) := by
  refine .bind le_rfl (onward.item s covers rules pos) (fun (result, rules) => hit result rules) ?_ ?_
  · rintro ⟨_, rules⟩ rfl
    exact missed rules
  · rintro ⟨_, rules⟩ rfl
    exact left rules

theorem capture_advances (rules : Rules) (pos : Nat) (name : String) (whole : Bool) :
    Advances Prod.fst id pos pos (p.capture s rules pos name whole) := by
  refine .behind (Protection.takeTarget_of rules name) fun (target, rules) =>
    onward.item_advances covers rules pos (fun result rules behind found further => ?_)
      (fun _ => .missed rfl le_rfl) fun _ => .pure rfl
  have stored (captured : Cell) : Advances Prod.fst id pos behind
      (do setVar target none captured; pure (result, rules)) :=
    .behind (setVar_long target none captured) fun _ => .found found further le_rfl
  dsimp only
  rw [found]
  refine .ite ?_ (.ite (.behind (Protection.element?_of s pos) fun _ => stored _) (stored _))
  rw [← bind_assoc]
  exact .behind (copyPosition_of covers.isSeries pos _ _) stored

theorem collect_advances (rules : Rules) (pos : Nat) (name : String) :
    Advances Prod.fst id pos pos (p.collect s rules pos name) := by
  refine .behind (Protection.takeTarget_of rules name) fun (target, rules) => ?_
  intro m result last here done
  obtain ⟨collection, next, allocated, done⟩ := bind_eq_ok.mp done
  have made := triple_iff.mp (allocArray_of id (.long pos) []) m here
  rw [allocated] at made
  obtain ⟨there, new⟩ := made
  let inner : Subject := { s with collection := some collection }
  have inside : inner.Covers id :=
    ⟨covers.isSeries, covers.cell, covers.series, fun same => new (Option.some.inj same)⟩
  have matched : Advances Prod.fst id pos pos (guarding do
      guard (Cell.series .block collection 0); p.item inner rules pos) :=
    .guarding (.behind (guard_keeping _ _) fun _ => onward.item inner inside rules pos)
  refine Advances.bind le_rfl matched ?hit ?missed ?left there done
  case hit =>
    rintro ⟨result, rules⟩ behind found further
    exact .ite (.behind (setVar_long target none _) fun _ => .found found further le_rfl)
      (.found found further le_rfl)
  case missed =>
    rintro ⟨_, rules⟩ rfl
    exact .missed rfl le_rfl
  case left =>
    rintro ⟨_, rules⟩ rfl
    exact .pure rfl

theorem keepMatched_advances (collection : SeriesId) (only : Bool) (rules : Rules) (pos : Nat) :
    Advances Prod.fst id pos pos (p.keepMatched s collection only rules pos) := by
  refine onward.item_advances covers rules pos (fun result rules behind found further => ?_)
    (fun _ => .missed rfl le_rfl) fun _ => .pure rfl
  have ended : Advances Prod.fst id pos behind (pure (result, rules)) :=
    .found found further le_rfl
  dsimp only
  rw [found]
  refine .ite (.behind (mapM_keeping _ _ _ fun pos _ => Protection.element?_of s pos) fun items =>
    .behind (keepItems_long collection _ only) fun _ => ended) (.ite ?_ ended)
  rw [← bind_assoc]
  exact .behind (copyPosition_of covers.isSeries pos _ _) fun span =>
    .behind (push_long collection span) fun _ => ended

theorem keep_advances (rules : Rules) (pos : Nat) (name : String) :
    Advances Prod.fst id pos pos (p.keep s rules pos name) := by
  unfold Parser.keep
  cases s.collection with
  | none => exact .refuse (.fail _)
  | some collection =>
      refine .behind (Protection.takeOnly_of rules) fun (only, rules) =>
        .behind (Protection.current?_of rules) fun rule? => ?_
      dsimp only
      cases rule?.filter (·.is .getBlock) with
      | none => exact onward.keepMatched_advances covers collection only rules pos
      | some code =>
          refine .behind (lift_keeping _ _) fun array => .answered
            (reduce_of id (.long pos) (onward.keeps pos) array _ _) (onward.halts.reduce array _ _) ?_
          rintro (_ | values) reduced
          · cases reduced
          · exact .behind (lift_keeping _ _) fun _ => .behind (lift_keeping _ _) fun cells =>
              .behind (keepItems_long collection cells only) fun _ => .found rfl le_rfl le_rfl

theorem remove_advances (rules : Rules) (pos : Nat) :
    Advances Prod.fst id pos pos (p.remove s rules pos) := by
  refine onward.item_advances covers rules pos (fun result rules behind found further => ?_)
    (fun _ => .missed rfl le_rfl) fun _ => .pure rfl
  dsimp only
  rw [found]
  exact .weaken (.behind (removeSpan_long le_rfl _) fun _ => .found rfl le_rfl le_rfl) further

theorem insert_advances (rules : Rules) (pos : Nat) (name : String) :
    Advances Prod.fst id pos pos (p.insert s rules pos name) := by
  refine .behind (Protection.takeOnly_of rules) fun (only, rules) =>
    .answered (onward.replacement_long pos rules name) (onward.replacement_some rules name) ?_
  rintro ⟨_ | value, rules⟩ some
  · cases some
  · exact insertAt_advances covers value only rules pos

theorem change_advances (rules : Rules) (pos : Nat) (name : String) :
    Advances Prod.fst id pos pos (p.change s rules pos name) := by
  refine .behind (Protection.takeOnly_of rules) fun (only, rules) =>
    onward.item_advances covers rules pos (fun result rules behind found further => ?hit)
      (fun rules => ?missed) fun rules => ?left
  case hit =>
    dsimp only
    rw [found]
    refine .answered (onward.replacement_long _ rules name) (onward.replacement_some rules name) ?_
    rintro ⟨_ | value, rules⟩ some
    · cases some
    · exact .weaken (.behind (removeSpan_long le_rfl _) fun _ =>
        insertAt_advances covers value only rules pos) further
  case missed =>
    refine .answered (onward.replacement_long _ rules name) (onward.replacement_some rules name) ?_
    rintro ⟨_ | value, rules⟩ some
    · cases some
    · exact .missed rfl le_rfl
  case left =>
    refine .behind (onward.replacement_quiet rules name) ?_
    rintro ⟨_ | value, rules⟩ <;> exact .pure rfl

omit covers in
theorem condition_advances (rules : Rules) (pos : Nat) (name : String) :
    Advances Prod.fst id pos pos (p.condition rules pos name) :=
  .behind (Protection.takeRule_of rules name) fun _ =>
    .ite (.behind (lift_keeping _ _) fun _ => .refuse (.first (.fail _)))
      (.refuse (.first (onward.halts.doBlock _)))

theorem search_advances (rules : Rules) (thru : Bool) {size pos : Nat} (le : pos ≤ size)
    {positions : List Nat} (inside : ∀ q ∈ positions, pos ≤ q ∧ q ≤ size) :
    Advances (fun r => r) id pos size (p.search s rules thru positions) := by
  -- The positions were counted before the search, so a rule that fails must not shorten the
  -- subject below those that are still to be tried.
  induction positions with
  | nil => exact .missed rfl le
  | cons q rest ih =>
      obtain ⟨low, high⟩ := inside q (List.mem_cons_self ..)
      intro m result last here done
      unfold Parser.search at done
      obtain ⟨⟨found, behind⟩, next, ran, done⟩ := bind_eq_ok.mp done
      obtain ⟨⟨there, lands⟩, carries⟩ := onward.item s covers rules q (here.mono_long high) ran
      cases found with
      | matched place | accepted place =>
          obtain ⟨further, there⟩ := lands place rfl
          cases done
          refine ⟨.found rfl ?_ ?_, fun thrown => by cases thrown⟩
          all_goals cases thru
          · exact low
          · exact low.trans further
          · exact there.mono_long further
          · exact there
      | thrown =>
          cases done
          exact ⟨.missed (there.mono_long low) rfl, fun _ => (carries rfl).mono low⟩
      | notFound =>
          have there := onward.fails s covers rules q size m behind next here ran
          exact ih (fun q member => inside q (List.mem_cons_of_mem _ member)) there done

theorem seekRule_advances (rules : Rules) (pos : Nat) (thru : Bool) :
    Advances Prod.fst id pos pos (p.seekRule s rules pos thru) := by
  intro m result last here done
  obtain ⟨size, answer, done⟩ := lift_bind_eq_ok.mp done
  have known : Query.size id m = .ok size := covers.series ▸ answer
  have le := (long_iff known).mp here
  have sought : Advances Prod.fst id pos size (do
      if ← rules.isAt .end_ then return (.matched size, rules.next)
      let behind ← p.skipItem rules
      pure (← p.search s rules thru (List.range' pos (size + 1 - pos)), behind)) := by
    refine .behind (Protection.isAt_of rules _) fun _ => .ite (.found rfl le le_rfl) <|
      .behind (Protection.skipRule_of _ rules) fun _ => .map (·, _) <|
        onward.search_advances covers rules thru le fun q member => ?_
    have := List.mem_range'_1.mp member
    omega
  exact sought ((long_iff known).mpr le_rfl) done

omit covers in
theorem expression_advances (rules : Rules) (pos : Nat) :
    Advances Prod.fst id pos pos (p.expression s rules pos) :=
  .ite (.refuse (.first (.fail _))) <| .behind (ask_keeping _ _) fun _ =>
    .ite (.behind (Protection.skipRule_of _ rules) fun _ => .missed rfl le_rfl)
      (.refuse (.first (onward.halts.evalStepAt _ _ _)))

theorem counted_advances (rule : Cell) (rules : Rules) (pos : Nat) (least : Int) :
    Advances Prod.fst id pos pos (p.counted s rule rules pos least) := by
  have refused : Advances Prod.fst id pos pos (do
      fail (.parseRule (← Query.mold rule)) : Interp (Match × Rules)) :=
    .behind (lift_keeping _ _) fun _ => .refuse (.fail _)
  have repeated := fun rules => onward.repeated_advances covers rules pos
  unfold Parser.counted
  refine .behind (Protection.current?_of rules) fun second? => ?_
  dsimp only
  cases second?.filter (·.is .integer) with
  | none => exact .ite refused (repeated _ _ _)
  | some second =>
      exact .behind (Protection.current?_of _) fun _ => .ite refused (.ite refused (repeated _ _ _))

theorem not_advances (rules : Rules) (pos : Nat) : Advances Prod.fst id pos pos (do
    let (result, rules) ← p.item s rules pos
    match result with
    | .matched _ | .accepted _ => pure (.notFound, rules)
    | .notFound => pure (.matched pos, rules)
    | .thrown => pure (.thrown, rules)) := by
  refine onward.item_advances covers rules pos (fun result rules behind found further => ?_)
    (fun _ => .found rfl le_rfl le_rfl) fun _ => .pure rfl
  cases result with
  | matched | accepted => exact .missed rfl further
  | notFound | thrown => cases found

theorem ahead_advances (rules : Rules) (pos : Nat) : Advances Prod.fst id pos pos (do
    let (result, rules) ← p.item s rules pos
    pure (if result.behind?.isSome then .matched pos else result, rules)) := by
  refine onward.item_advances covers rules pos (fun result rules behind found further => ?_)
    (fun _ => .missed rfl le_rfl) fun _ => .pure rfl
  dsimp only
  rw [found]
  exact .found rfl le_rfl further

theorem keyword_lands {k : Keyword} (allowed : k ≠ .seek) (rule : Cell) {rules : Rules} {pos : Nat}
    {m last : Machine} {result : Match × Rules} (here : m.Obeys (.long id pos))
    (settled : k = .into → ∀ n, m.Obeys (.long id n) → last.Obeys (.long id n))
    (done : p.keyword s k rule rules pos m = .ok result last) :
    Lands id pos last result.1 ∧ (result.1 = .thrown → Carries id pos last) := by
  obtain ⟨name, -, done⟩ := lift_bind_eq_ok.mp done
  obtain ⟨size, answer, done⟩ := lift_bind_eq_ok.mp done
  have known : Query.size id m = .ok size := covers.series ▸ answer
  have inside := (long_iff known).mp here
  have full : m.Obeys (.long id size) := (long_iff known).mpr le_rfl
  cases k with
  | while_ | any | some_ | opt => exact onward.repeated_advances covers rules pos _ _ here done
  | not_ => exact onward.not_advances covers rules pos here done
  | ahead => exact onward.ahead_advances covers rules pos here done
  | copy | set => exact onward.capture_advances covers rules pos name _ here done
  | collect => exact onward.collect_advances covers rules pos name here done
  | keep => exact onward.keep_advances covers rules pos name here done
  | remove => exact onward.remove_advances covers rules pos here done
  | insert => exact onward.insert_advances covers rules pos name here done
  | change => exact onward.change_advances covers rules pos name here done
  | if_ => exact onward.condition_advances rules pos name here done
  | accept | break_ =>
      have carried (i : Int) (whole : (Cell.integer pos).asInteger? = some i) : i = pos :=
        (Option.some.inj whole).symm
      exact leave_advances pos rules (·.specials.parseAccept) carried here done
  | reject =>
      have nothing (i : Int) (whole : Cell.null.asInteger? = some i) : i = pos := by
        cases whole
      exact leave_advances pos rules (·.specials.parseReject) nothing here done
  | mark => exact mark_advances rules pos name here done
  | seek => exact absurd rfl allowed
  | into => exact into_lands covers (sized_iff.mpr known) inside (settled rfl size full) done
  | do_ => exact onward.expression_advances rules pos here done
  | lit => exact lit_advances covers rules pos name here done
  | to_ | thru => exact onward.seekRule_advances covers rules pos _ here done
  | skip =>
      have skipped : Advances Prod.fst id pos size
          (pure (if pos < size then .matched (pos + 1) else .notFound, rules)) :=
        .judged rfl inside (Nat.le_succ pos) fun before => before
      exact skipped full done
  | end_ =>
      have ended : Advances Prod.fst id pos pos
          (pure (if size ≤ pos then .matched pos else .notFound, rules)) :=
        .judged rfl le_rfl le_rfl fun _ => le_rfl
      exact ended here done
  | fail =>
      cases done
      exact ⟨.missed here rfl, fun thrown => by cases thrown⟩
  | only => cases done

/-- Matching the rule under a cursor moves forward, if it begins with neither a get-word nor a path
nor SEEK, and INTO does not shorten the subject. -/
theorem rule_lands {rules : Rules} {pos : Nat} {m last : Machine} {head : Head}
    {result : Match × Rules} (begins : rules.head? m = some head)
    (noGetWord : head.rule.is .getWord = false) (noPath : head.rule.is .path = false)
    (noSeek : head.keyword ≠ some .seek) (here : m.Obeys (.long id pos))
    (settled : head.keyword = some .into → ∀ n, m.Obeys (.long id n) → last.Obeys (.long id n))
    (done : p.rule s rules pos m = .ok result last) :
    Lands id pos last result.1 ∧ (result.1 = .thrown → Carries id pos last) := by
  obtain ⟨rest, middle, after, took, named, -⟩ := Rules.head?_eq_some begins
  have there := obeys_of_ok (Protection.takeRule_of rules _) here took
  have valued (item : Cell) : Advances Prod.fst id pos pos
      ((fun result : Match => (result, rest)) <$> p.value s item pos) :=
    .map (·, rest) (onward.value_advances covers item pos)
  have grouped (group : Cell) (f : Option Cell → Interp (Match × Rules)) :
      Advances Prod.fst id pos pos (p.doGroup group >>= f) :=
    .refuse (.first (onward.halts.doBlock _))
  rw [Parser.rule, bind_ok took] at done
  dsimp only at done
  split at done
  · exact valued head.rule there done
  rename_i unquoted
  have unquoted : head.rule.quote = 0 := by simpa using unquoted
  cases kind : head.rule.kind
  all_goals rw [kind] at done
  case integer => exact onward.counted_advances covers head.rule rest pos _ there done
  case setWord =>
    have stored : Advances Prod.fst id pos pos (do
        setVar head.rule none (← Query.ask (s.position pos))
        pure (.matched pos, rest)) :=
      .behind (ask_keeping _ _) fun c => .behind (setVar_long _ none c) fun _ =>
        .found rfl le_rfl le_rfl
    exact stored there done
  case getWord => simp [Cell.is, kind, unquoted] at noGetWord
  case group => exact grouped head.rule _ there done
  case getGroup => exact grouped head.rule _ there done
  case word =>
    dsimp only at done
    rw [ask_bind_ok named] at done
    cases keyword : head.keyword with
    | none =>
        rw [keyword] at done
        have found : Advances Prod.fst id pos pos (do
            let value ← Query.getVar head.rule none
            (fun result => (result, rest)) <$> p.value s value pos) :=
          .behind (lift_keeping _ _) valued
        exact found there done
    | some k =>
        rw [keyword] at done
        refine onward.keyword_lands covers (fun seek => noSeek (keyword.trans (congrArg some seek)))
          head.rule there (fun into n long => ?_) done
        -- Taking the head has not changed the length either way.
        obtain ⟨held, live, -⟩ := here
        have sized : m.Obeys (.sized id held.content.size) := ⟨held, live, rfl⟩
        have same := obeys_of_ok (Protection.takeRule_of rules _) sized took
        have enough := (long_iff (sized_iff.mp same)).mp long
        exact settled (keyword.trans (congrArg some into)) n ((long_iff (sized_iff.mp sized)).mpr enough)
  case path => simp [Cell.is, kind, unquoted] at noPath
  all_goals exact valued head.rule there done

end Parser.Onward

/-! ## Rules that move forward -/

/-- Whether a series is at least as long in a machine as it was in another one. -/
def spans (id : SeriesId) (m next : Machine) : Bool :=
  match Query.size id m, Query.size id next with
  | .ok before, .ok after => before ≤ after
  | _, _ => false

/-- Refuses SEEK, get-words and paths; and that a rule shortens the subject although it fails, or is
INTO. -/
def forwardFence (id : SeriesId) : Fence where
  admits head := !(head.rule.is .getWord) && !(head.rule.is .path) && head.keyword != some .seek
  passes _ head m result next :=
    (result != .notFound && head.keyword != some .into) || spans id m next

theorem long_of_spans {id : SeriesId} {m next : Machine} (spanned : spans id m next = true) {n : Nat}
    (here : m.Obeys (.long id n)) : next.Obeys (.long id n) := by
  unfold spans at spanned
  split at spanned
  · rename_i before after known known'
    exact (long_iff known').mpr (((long_iff known).mp here).trans (of_decide_eq_true spanned))
  · cases spanned

theorem forwardFence_onward {e : Engine} (halts : e.Halts) (id : SeriesId) (depth level : Nat) :
    Parser.Onward ⟨e, level, (forwardFence id).matchItem e depth level⟩ id := by
  induction depth generalizing level with
  | zero =>
      refine ⟨halts, fun s _ rules pos m result next _ done => ?_,
        fun s _ rules pos n m behind next _ done => ?_⟩
      all_goals cases done
  | succ depth ih =>
      refine ⟨halts, fun s covers rules pos m result next here done => ?_,
        fun s covers rules pos n m behind next here done => ?_⟩
      · obtain ⟨head, begins, admitted, ran, passed⟩ := Fence.item_eq_ok done
        simp only [forwardFence, Bool.and_eq_true, Bool.not_eq_true', bne_iff_ne] at admitted
        refine (ih (level + 1)).rule_lands covers begins admitted.1.1 admitted.1.2 admitted.2 here
          (fun into n => long_of_spans ?_) ran
        simpa [forwardFence, into] using passed
      · obtain ⟨head, -, -, -, passed⟩ := Fence.item_eq_ok done
        exact long_of_spans (by simpa [forwardFence] using passed) here

theorem Lands.between {id : SeriesId} {pos : Nat} {m : Machine} {result : Match}
    (lands : Lands id pos m result) :
    ∃ length, Query.size id m = .ok length ∧ pos ≤ length ∧
      ∀ place, result.behind? = some place → pos ≤ place ∧ place ≤ length := by
  obtain ⟨⟨held, live, enough⟩, found⟩ := lands
  have measured : Query.size id m = .ok held.content.size := size_eq_ok.mpr ⟨held, live, rfl⟩
  refine ⟨held.content.size, measured, enough, fun place here => ?_⟩
  exact (found place here).imp_right (long_iff measured).mp

section Results

variable {e : Engine} {id : SeriesId} {depth level : Nat} {s : Subject} (covers : s.Covers id)
  {rules behind : Rules} {pos size : Nat} {m next : Machine} {result : Match}
  (known : Query.size id m = .ok size) (inside : pos ≤ size)

include covers known inside

/-- A block of rules moves forward if its rules do. -/
theorem block_forward
    (done : Parser.block ⟨e.halted, level, (forwardFence id).matchItem e.halted depth level⟩ s rules
      pos m = .ok result next) :
    Parser.block ⟨e, level, matchItem e depth level⟩ s rules pos m = .ok result next ∧
      ∃ length, Query.size id next = .ok length ∧ pos ≤ length ∧
        ∀ place, result.behind? = some place → pos ≤ place ∧ place ≤ length := by
  have refines : Parser.Refines
      ⟨e.halted, level, (forwardFence id).matchItem e.halted depth level⟩
      ⟨e, level, matchItem e depth level⟩ :=
    ⟨.halted e, rfl, Fence.matchItem_refines (.halted e) _ depth level⟩
  have onward := forwardFence_onward e.halted_halts id depth level
  have here : m.Obeys (.long id pos) := (long_iff known).mpr inside
  exact ⟨refines.block s rules pos m _ next done,
    (onward.block_advances covers rules pos here done).1.between⟩

/-- A rule that evaluates no code matches from the position where it is tried on, and not beyond the
end of the subject: this holds of every rule that needs no SEEK, get-word or path, as long as no
rule in it that fails, and no INTO, shortens the subject. -/
theorem positions_forward
    (done : (forwardFence id).matchItem e.halted depth level s rules pos m =
      .ok (result, behind) next) :
    matchItem e depth level s rules pos m = .ok (result, behind) next ∧
      ∃ length, Query.size id next = .ok length ∧ pos ≤ length ∧
        ∀ place, result.behind? = some place → pos ≤ place ∧ place ≤ length := by
  have onward := forwardFence_onward e.halted_halts id depth level
  have here : m.Obeys (.long id pos) := (long_iff known).mpr inside
  exact ⟨Fence.matchItem_refines (.halted e) _ depth level s rules pos m _ next done,
    (onward.item s covers rules pos here done).1.between⟩

end Results

/-- A machine that holds a block of two numbers, and a block with the rules `some skip`. -/
def sampleTrack : Machine where
  config := {}
  heap :=
    { slots := #[some (Series.ofCells #[Cell.integer 1, Cell.integer 2]),
        some (Series.ofCells #[Cell.word .word ⟨0⟩, Cell.word .word ⟨1⟩])]
      ballast := 0 }
  symbols := { entries := #[⟨"some", "some", ⟨0⟩, ⟨0⟩⟩, ⟨"skip", "skip", ⟨1⟩, ⟨1⟩⟩] }
  countdown := 0

/-- The numbers of the sample. -/
def sampleNumbers : Subject :=
  { cell := Cell.series .block ⟨0⟩ 0, series := ⟨0⟩, specifier := none, strict := true }

theorem positions_forward_sampleTrack :
    matchItem idle 3 0 sampleNumbers ⟨⟨1⟩, 0, none⟩ 1 sampleTrack =
        .ok (.matched 2, ⟨⟨1⟩, 2, none⟩) sampleTrack ∧
      ∃ length, Query.size ⟨0⟩ sampleTrack = .ok length ∧ 1 ≤ length ∧
        ∀ place, (Match.matched 2).behind? = some place → 1 ≤ place ∧ place ≤ length :=
  positions_forward ⟨rfl, rfl, rfl, by decide⟩ rfl (by decide : 1 ≤ 2) rfl

end Homoicon.Parse
