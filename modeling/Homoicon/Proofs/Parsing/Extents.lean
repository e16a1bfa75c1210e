import Homoicon.Proofs.Parsing.Adequacy
import Homoicon.Proofs.Parsing.Elsewhere

/-!
# Where a rule ends

The cells that one rule spans can be told without running it: what matters of a cell is whether it
is a count, a keyword, a get-block, or anything else.  Skipping a rule goes by these signs.
-/

set_option mvcgen.warning false

namespace Homoicon

namespace Parse

/-- What a cell is to a cursor over rules. -/
inductive Sign where
  | count
  | bar
  /-- A get-block, whose values KEEP may take. -/
  | values
  | keyword (k : Keyword)
  | other
deriving Repr, DecidableEq, Inhabited

/-- What a rule that begins with a keyword goes on with. -/
inductive Follow where
  | nothing
  | cell
  | rule
  /-- A variable and a rule. -/
  | variableRule
  /-- Perhaps ONLY, and a get-block or a rule. -/
  | kept
  /-- Perhaps ONLY, and a cell. -/
  | replacement
  /-- Perhaps ONLY, a rule and a cell. -/
  | ruleReplacement
deriving Repr, DecidableEq

/-- What a rule that begins with a keyword goes on with. -/
def Keyword.follow : Keyword → Follow
  | while_ | any | some_ | opt | not_ | ahead | remove | to_ | thru | do_ => .rule
  | copy | set | collect => .variableRule
  | keep => .kept
  | insert => .replacement
  | change => .ruleReplacement
  | into | mark | seek | if_ | lit => .cell
  | only | accept | break_ | reject | fail | skip | end_ => .nothing

/-- The keyword that a cell is among some spellings. -/
def Keyword.ofCell? (t : Symbols) (c : Cell) : Option Keyword :=
  if c.is .word then c.wordSymbol?.bind fun symbol => ofName? (t.lower symbol) else none

namespace Sign

/-- What a cell is to a cursor over rules. -/
def ofCell (t : Symbols) (c : Cell) : Sign :=
  if c.is .integer then count
  else if c.isBar then bar
  else if c.is .getBlock then values
  else
    match Keyword.ofCell? t c with
    | some k => keyword k
    | none => other

/-- The keyword that a sign is. -/
def keyword? : Sign → Option Keyword
  | keyword k => some k
  | _ => none

theorem eq_of_keyword? {sign : Sign} {k : Keyword} (named : sign.keyword? = some k) :
    sign = keyword k := by
  cases sign <;> simp_all [keyword?]

variable (t : Symbols) (c : Cell)

theorem ofCell_eq_count : ofCell t c = count ↔ c.is .integer = true := by
  unfold ofCell
  split
  · simp [*]
  · split_ifs <;> cases Keyword.ofCell? t c <;> simp_all

theorem ofCell_eq_values : ofCell t c = values ↔ c.is .getBlock = true := by
  unfold ofCell
  split_ifs with count bar
  · simp [Cell.is_other count]
  · simp [Cell.is_other bar]
  · simp [*]
  · cases Keyword.ofCell? t c <;> simp_all

theorem keyword?_ofCell : (ofCell t c).keyword? = Keyword.ofCell? t c := by
  have plain {k : Kind} (here : c.is k = true) (other : k ≠ .word) :
      Keyword.ofCell? t c = none := if_neg (by simp [Cell.is_other here other])
  unfold ofCell
  split_ifs with count bar values
  · exact (plain count (by decide)).symm
  · exact (plain bar (by decide)).symm
  · exact (plain values (by decide)).symm
  · cases Keyword.ofCell? t c <;> rfl

end Sign

theorem keyword?_run (c : Cell) (m : Machine) :
    keyword? c m = .ok (Sign.ofCell m.symbols c).keyword? := by
  rw [Sign.keyword?_ofCell]
  unfold keyword? Keyword.ofCell?
  cases c.is .word with
  | false => rfl
  | true => cases c.wordSymbol? <;> rfl

end Parse

open Parse

/-- What the cells of an array are to a cursor over them. -/
def Machine.outline? (m : Machine) (array : SeriesId) : Option (List Sign) :=
  match Query.cells array m with
  | .ok cells => some (cells.toList.map (Sign.ofCell m.symbols))
  | .error _ => none

theorem Machine.outline?_eq_some {m : Machine} {array : SeriesId} {signs : List Sign} :
    m.outline? array = some signs ↔
      ∃ cells, Query.cells array m = .ok cells ∧
        cells.toList.map (Sign.ofCell m.symbols) = signs := by
  unfold outline?
  cases Query.cells array m <;> simp

/-- An array has an outline. -/
def Law.outlined (array : SeriesId) (signs : List Sign) : Law where
  holds m := m.outline? array = some signs
  congr heap symbols here := by
    obtain ⟨cells, found, same⟩ := Machine.outline?_eq_some.mp here
    obtain ⟨s, live, content⟩ := Query.cells_eq_ok.mp found
    exact Machine.outline?_eq_some.mpr
      ⟨cells, Query.cells_eq_ok.mpr ⟨s, heap ▸ live, content⟩, symbols ▸ same⟩

/-- Is there, whatever it holds. -/
def Series.Trait.any : Series.Trait where
  holds _ := True
  withFlags _ here := here

namespace Parse

/-- The place behind ONLY, if that comes first. -/
def behindOnly (signs : List Sign) (i : Nat) : Nat :=
  if signs[i]? = some (.keyword .only) then i + 1 else i

/-- The rule that begins at one place ends before another place. -/
inductive Spans (signs : List Sign) : Nat → Nat → Prop where
  | single {i : Nat} {sign : Sign} (here : signs[i]? = some sign) (uncounted : sign ≠ .count)
      (unnamed : sign.keyword? = none) : Spans signs i (i + 1)
  | count {i j : Nat} (here : signs[i]? = some .count) (only : signs[i + 1]? ≠ some .count)
      (inner : Spans signs (i + 1) j) : Spans signs i j
  | counts {i j : Nat} (here : signs[i]? = some .count) (second : signs[i + 1]? = some .count)
      (inner : Spans signs (i + 2) j) : Spans signs i j
  | alone {i : Nat} {k : Keyword} (here : signs[i]? = some (.keyword k))
      (follow : k.follow = .nothing) : Spans signs i (i + 1)
  | cell {i : Nat} {k : Keyword} {sign : Sign} (here : signs[i]? = some (.keyword k))
      (follow : k.follow = .cell) (taken : signs[i + 1]? = some sign) : Spans signs i (i + 2)
  | rule {i j : Nat} {k : Keyword} (here : signs[i]? = some (.keyword k))
      (follow : k.follow = .rule) (inner : Spans signs (i + 1) j) : Spans signs i j
  | variableRule {i j : Nat} {k : Keyword} {sign : Sign} (here : signs[i]? = some (.keyword k))
      (follow : k.follow = .variableRule) (taken : signs[i + 1]? = some sign)
      (inner : Spans signs (i + 2) j) : Spans signs i j
  | values {i : Nat} {k : Keyword} (here : signs[i]? = some (.keyword k))
      (follow : k.follow = .kept) (block : signs[behindOnly signs (i + 1)]? = some .values) :
      Spans signs i (behindOnly signs (i + 1) + 1)
  | kept {i j : Nat} {k : Keyword} (here : signs[i]? = some (.keyword k))
      (follow : k.follow = .kept) (noBlock : signs[behindOnly signs (i + 1)]? ≠ some .values)
      (inner : Spans signs (behindOnly signs (i + 1)) j) : Spans signs i j
  | replacement {i : Nat} {k : Keyword} {sign : Sign} (here : signs[i]? = some (.keyword k))
      (follow : k.follow = .replacement) (taken : signs[behindOnly signs (i + 1)]? = some sign) :
      Spans signs i (behindOnly signs (i + 1) + 1)
  | ruleReplacement {i j : Nat} {k : Keyword} {sign : Sign}
      (here : signs[i]? = some (.keyword k)) (follow : k.follow = .ruleReplacement)
      (inner : Spans signs (behindOnly signs (i + 1)) j) (taken : signs[j]? = some sign) :
      Spans signs i (j + 1)

theorem le_behindOnly (signs : List Sign) (i : Nat) : i ≤ behindOnly signs i := by
  unfold behindOnly
  split <;> omega

/-- A rule has a cell of its own, and all of its cells are there. -/
theorem Spans.bounds {signs : List Sign} {i j : Nat} (spans : Spans signs i j) :
    i < j ∧ j ≤ signs.length := by
  have inside {place : Nat} {sign : Sign} (there : signs[place]? = some sign) :
      place < signs.length := (List.getElem?_eq_some_iff.mp there).1
  have behind (i : Nat) := le_behindOnly signs i
  induction spans with
  | single here | alone here => exact ⟨Nat.lt_succ_self _, inside here⟩
  | cell _ _ taken => exact ⟨by omega, inside taken⟩
  | count _ _ _ ih | counts _ _ _ ih | rule _ _ _ ih | variableRule _ _ _ _ ih => omega
  | @values i => exact ⟨by have := behind (i + 1); omega, inside ‹_›⟩
  | @replacement i => exact ⟨by have := behind (i + 1); omega, inside ‹_›⟩
  | @kept i _ _ _ _ _ _ ih => exact ⟨by have := behind (i + 1); omega, ih.2⟩
  | @ruleReplacement i _ _ _ _ _ _ taken ih =>
      exact ⟨by have := behind (i + 1); omega, inside taken⟩

theorem Spans.fuel_pos {signs : List Sign} {i j : Nat} (spans : Spans signs i j) (fuel : Nat)
    (enough : j ≤ i + fuel) : ∃ left, fuel = left + 1 :=
  Nat.exists_eq_succ_of_ne_zero (by have := spans.bounds; omega)

/-- A rule ends in one place: what its first cell is excludes the other ways to end. -/
theorem Spans.unique {signs : List Sign} {i j k : Nat} (first : Spans signs i j)
    (second : Spans signs i k) : j = k := by
  induction first generalizing k <;> cases second <;> grind [Sign.keyword?]

/-! ## Reading rules -/

section Outlines

open Std.Do Law Interp

variable {array : SeriesId} {signs : List Sign}

theorem outlined_congr {m next : Machine} (here : m.Obeys (.outlined array signs))
    (symbols : next.symbols = m.symbols)
    (same : ∀ s, m.heap.get? array = some s →
      ∃ t, next.heap.get? array = some t ∧ t.content = s.content) :
    next.Obeys (.outlined array signs) := by
  obtain ⟨cells, found, shown⟩ := Machine.outline?_eq_some.mp here
  obtain ⟨s, live, content⟩ := Query.cells_eq_ok.mp found
  obtain ⟨t, live', content'⟩ := same s live
  exact Machine.outline?_eq_some.mpr
    ⟨cells, Query.cells_eq_ok.mpr ⟨t, live', content'.trans content⟩, symbols ▸ shown⟩

@[local spec high]
theorem setFlag_outlined (id : SeriesId) (flags : Flags) :
    Keeping (.outlined array signs) (setFlag id flags) := by
  refine triple_iff.mpr fun m here => ?_
  unfold setFlag modifySeries
  by_cases inUse : m.heap.isLive id = true
  · rw [if_pos inUse]
    refine outlined_congr here rfl fun s live => ?_
    change ∃ t, (m.heap.modify id _).get? array = some t ∧ _
    rw [Heap.get?_modify, live]
    split
    · exact ⟨_, rfl, rfl⟩
    · exact ⟨_, rfl, rfl⟩
  · rw [if_neg inUse]
    exact here

@[local spec high]
theorem alloc_outlined (s : Series) : Keeping (.outlined array signs) (alloc s) := by
  refine triple_iff.mpr fun m here => ?_
  refine outlined_congr here rfl fun held live => ⟨held, ?_, rfl⟩
  refine (Heap.get?_alloc m.heap s array).trans ((if_neg fun same => ?_).trans live)
  have fresh := m.heap.alloc_fresh s
  rw [same, live] at fresh
  cases fresh

@[local spec high]
theorem allocArray_outlined (cells : List Cell) :
    Keeping (.outlined array signs) (allocArray cells) := alloc_outlined _

@[local spec high]
theorem arrayCell_outlined (kind : Kind) (cells : List Cell) :
    Keeping (.outlined array signs) (arrayCell kind cells) := by
  unfold arrayCell
  mvcgen

@[local spec high]
theorem derelativize_outlined (c : Cell) (specifier : Specifier) :
    Keeping (.outlined array signs) (derelativize c specifier) := by
  unfold derelativize ensureManaged
  mvcgen
  rename_i here _
  exact here.congr rfl rfl

@[local spec high]
theorem current?_outlined (rules : Rules) : Keeping (.outlined array signs) rules.current? := by
  unfold Rules.current?
  mvcgen

end Outlines

theorem ensureManaged_live {id : SeriesId} {m : Machine} (live : m.Obeys (.of id .any)) :
    ∃ next, Interp.ensureManaged id m = .ok () next := by
  obtain ⟨s, live, -⟩ := live
  have known : Query.hasFlag id Flags.managed m = .ok (s.has Flags.managed) :=
    Query.hasFlag_eq_ok.mpr ⟨s, live, rfl⟩
  unfold Interp.ensureManaged
  rw [Interp.lift_bind_ok known]
  cases s.has Flags.managed with
  | true => exact ⟨m, rfl⟩
  | false =>
      have set : Interp.setFlag id Flags.managed m =
          .ok () (m.onHeap (·.modify id (·.withFlags Flags.managed))) :=
        if_pos (Heap.isLive_iff.mpr ⟨s, live⟩)
      exact ⟨_, Interp.bind_ok set _⟩

theorem setFlag_symbols {id : SeriesId} {flags : Flags} {m next : Machine}
    (done : Interp.setFlag id flags m = .ok () next) : next.symbols = m.symbols := by
  unfold Interp.setFlag Interp.modifySeries at done
  split at done
  · cases done
    rfl
  · cases done

theorem ensureManaged_symbols {id : SeriesId} {m next : Machine}
    (done : Interp.ensureManaged id m = .ok () next) : next.symbols = m.symbols := by
  obtain ⟨managed, -, done⟩ := Interp.lift_bind_eq_ok.mp done
  split at done
  · obtain ⟨⟨⟩, marked, set, done⟩ := Interp.bind_eq_ok.mp done
    cases done
    have same : marked.symbols = m.symbols := setFlag_symbols set
    exact same
  · cases done
    rfl

/-- Tying a cell to a call changes no spelling. -/
theorem derelativize_ok {c c' : Cell} {specifier : Specifier} {m next : Machine}
    (done : Interp.derelativize c specifier m = .ok c' next) :
    c' = c.resolved specifier ∧ next.symbols = m.symbols := by
  unfold Interp.derelativize at done
  unfold Cell.resolved
  cases bound : c.binding with
  | unbound | specific =>
      rw [bound] at done
      cases done
      exact ⟨rfl, rfl⟩
  | relative =>
      rw [bound] at done
      cases specifier with
      | none =>
          cases done
          exact ⟨rfl, rfl⟩
      | some varlist =>
          obtain ⟨_, middle, managed, done⟩ := Interp.bind_eq_ok.mp done
          cases done
          exact ⟨rfl, ensureManaged_symbols managed⟩

theorem Sign.ofCell_resolved (t : Symbols) (c : Cell) (specifier : Specifier) :
    ofCell t (c.resolved specifier) = ofCell t c := by
  unfold Homoicon.Cell.resolved
  split <;> rfl

theorem Keyword.is_word_of_ofCell? {t : Symbols} {k : Keyword} {c : Cell}
    (named : ofCell? t c = some k) : c.is .word = true :=
  (Option.ite_none_right_eq_some.mp named).1

namespace Rules

open Law Interp

/-- The cursor at another place of the same rules. -/
def moved (rules : Rules) (place : Nat) : Rules := { rules with index := place }

/-- A cursor over rules that have an outline. -/
def Outlined (rules : Rules) (signs : List Sign) (m : Machine) : Prop :=
  m.Obeys (.outlined rules.array signs)

/-- A cursor over rules that have an outline, and whose words can be tied to their call. -/
def Legible (rules : Rules) (signs : List Sign) (m : Machine) : Prop :=
  rules.Outlined signs m ∧ ∀ varlist, rules.specifier = some varlist → m.Obeys (.of varlist .any)

section Places

variable {rules : Rules} {signs : List Sign} {m : Machine}

theorem Outlined.next (outlined : rules.Outlined signs m) : rules.next.Outlined signs m := outlined

theorem Outlined.moved (outlined : rules.Outlined signs m) (place : Nat) :
    (rules.moved place).Outlined signs m := outlined

theorem Legible.outlined (legible : rules.Legible signs m) : rules.Outlined signs m := legible.1

theorem Legible.tied (legible : rules.Legible signs m) {varlist : SeriesId}
    (tied : rules.specifier = some varlist) : m.Obeys (.of varlist .any) := legible.2 varlist tied

theorem Legible.next (legible : rules.Legible signs m) : rules.next.Legible signs m := legible

theorem Legible.moved (legible : rules.Legible signs m) (place : Nat) :
    (rules.moved place).Legible signs m := legible

end Places

variable {rules behind : Rules} {signs : List Sign} {m next : Machine} {c : Cell}

/-- The cell under a cursor has the sign that the outline gives. -/
theorem current?_sign {c? : Option Cell} (outlined : rules.Outlined signs m)
    (done : rules.current? m = .ok c? next) :
    rules.Outlined signs next ∧ c?.map (Sign.ofCell next.symbols) = signs[rules.index]? := by
  refine ⟨obeys_of_ok (current?_outlined rules) outlined done, ?_⟩
  obtain ⟨cells, found, rfl⟩ := Machine.outline?_eq_some.mp outlined
  obtain ⟨held, looked, done⟩ := lift_bind_eq_ok.mp done
  obtain rfl := Except.ok.inj (found.symm.trans looked)
  rw [List.getElem?_map, Array.getElem?_toList]
  cases there : cells[rules.index]? with
  | none =>
      rw [there] at done
      cases done
      rfl
  | some c =>
      rw [there] at done
      dsimp only at done
      rw [map_run] at done
      cases tied : derelativize c rules.specifier m with
      | error => simp [tied] at done
      | ok c' last =>
          rw [tied] at done
          cases done
          obtain ⟨rfl, symbols⟩ := derelativize_ok tied
          rw [Option.map_some, Option.map_some, Sign.ofCell_resolved, symbols]

/-- A cursor over legible rules has a cell to show, or stands behind the last one. -/
theorem Legible.current? (legible : rules.Legible signs m) :
    ∃ c? next, rules.current? m = .ok c? next ∧ rules.Legible signs next ∧
      c?.map (Sign.ofCell next.symbols) = signs[rules.index]? := by
  suffices shown : ∃ c? next, rules.current? m = .ok c? next by
    obtain ⟨c?, next, shown⟩ := shown
    obtain ⟨outlined, sign⟩ := current?_sign legible.outlined shown
    exact ⟨c?, next, shown, ⟨outlined, fun varlist tied =>
      obeys_of_ok (Protection.current?_of rules) (legible.tied tied) shown⟩, sign⟩
  obtain ⟨cells, found, -⟩ := Machine.outline?_eq_some.mp legible.outlined
  unfold Rules.current?
  rw [lift_bind_ok found]
  cases cells[rules.index]? with
  | none => exact ⟨none, m, rfl⟩
  | some c =>
      suffices resolved : ∃ c' next, derelativize c rules.specifier m = .ok c' next by
        obtain ⟨c', next, resolved⟩ := resolved
        exact ⟨some c', next, by dsimp only; rw [map_run, resolved]⟩
      unfold derelativize
      cases bound : c.binding with
      | unbound | specific => exact ⟨c, m, rfl⟩
      | relative =>
          cases tied : rules.specifier with
          | none => exact ⟨c, m, rfl⟩
          | some varlist =>
              obtain ⟨next, managed⟩ := ensureManaged_live (legible.tied tied)
              exact ⟨_, next, bind_ok managed _⟩

/-- One cursor stands where the rule under another one ends. -/
def Passes (signs : List Sign) (rules behind : Rules) : Prop :=
  ∃ place, Spans signs rules.index place ∧ behind = rules.moved place

theorem take_sign {after : String} (outlined : rules.Outlined signs m)
    (done : rules.take after m = .ok (c, behind) next) :
    rules.Outlined signs next ∧ signs[rules.index]? = some (Sign.ofCell next.symbols c) ∧
      behind = rules.next := by
  obtain ⟨c?, middle, shown, done⟩ := bind_eq_ok.mp done
  obtain ⟨outlined, sign⟩ := current?_sign outlined shown
  cases c? with
  | none => cases done
  | some found =>
      cases done
      exact ⟨outlined, sign.symm, rfl⟩

theorem Legible.take (legible : rules.Legible signs m) {sign : Sign}
    (here : signs[rules.index]? = some sign) (after : String) :
    ∃ c next, rules.take after m = .ok (c, rules.next) next ∧ rules.Legible signs next ∧
      Sign.ofCell next.symbols c = sign := by
  obtain ⟨c?, next, shown, legible, found⟩ := legible.current?
  rw [here] at found
  obtain ⟨c, rfl, same⟩ := Option.map_eq_some_iff.mp found
  refine ⟨c, next, ?_, legible, same⟩
  unfold Rules.take
  rw [bind_ok shown]
  rfl

theorem isAt_run {c? : Option Cell} (shown : rules.current? m = .ok c? next)
    (sign : c?.map (Sign.ofCell next.symbols) = signs[rules.index]?) (k : Keyword) :
    rules.isAt k m = .ok (decide (signs[rules.index]? = some (.keyword k))) next := by
  unfold isAt
  rw [bind_ok shown, ← sign]
  cases c? with
  | none => rfl
  | some rule =>
      dsimp only
      rw [ask_bind_ok (keyword?_run rule next), pure_run, Option.map_some]
      congr 1
      rw [Bool.eq_iff_iff]
      generalize Sign.ofCell next.symbols rule = found
      cases found <;> simp [Sign.keyword?]

theorem takeOnly_run {c? : Option Cell} (shown : rules.current? m = .ok c? next)
    (sign : c?.map (Sign.ofCell next.symbols) = signs[rules.index]?) :
    ∃ only, rules.takeOnly m = .ok (only, rules.moved (behindOnly signs rules.index)) next := by
  unfold takeOnly behindOnly
  rw [bind_ok (isAt_run shown sign .only)]
  by_cases only : signs[rules.index]? = some (.keyword .only)
  · exact ⟨true, by simp [only, Rules.next, moved]⟩
  · exact ⟨false, by simp [only, moved]⟩

theorem isAt_sign {k : Keyword} {here : Bool} (outlined : rules.Outlined signs m)
    (done : rules.isAt k m = .ok here next) :
    rules.Outlined signs next ∧ here = decide (signs[rules.index]? = some (.keyword k)) := by
  obtain ⟨c?, middle, shown, -⟩ := bind_eq_ok.mp done
  obtain ⟨outlined, sign⟩ := current?_sign outlined shown
  rw [isAt_run shown sign] at done
  cases done
  exact ⟨outlined, rfl⟩

theorem takeOnly_sign {only : Bool} (outlined : rules.Outlined signs m)
    (done : rules.takeOnly m = .ok (only, behind) next) :
    rules.Outlined signs next ∧ behind = rules.moved (behindOnly signs rules.index) := by
  obtain ⟨_, _, asked, -⟩ := bind_eq_ok.mp done
  obtain ⟨c?, middle, shown, -⟩ := bind_eq_ok.mp asked
  obtain ⟨outlined, sign⟩ := current?_sign outlined shown
  obtain ⟨_, ran⟩ := takeOnly_run shown sign
  rw [ran] at done
  cases done
  exact ⟨outlined, rfl⟩

theorem Legible.takeOnly (legible : rules.Legible signs m) :
    ∃ only next, rules.takeOnly m = .ok (only, rules.moved (behindOnly signs rules.index)) next ∧
      (rules.moved (behindOnly signs rules.index)).Legible signs next := by
  obtain ⟨c?, next, shown, legible, sign⟩ := legible.current?
  obtain ⟨only, ran⟩ := takeOnly_run shown sign
  exact ⟨only, next, ran, legible⟩

/-! ## Skipping a rule -/

/-- Skips what a keyword goes on with. -/
def skipFollow (fuel : Nat) (name : String) (rules : Rules) : Follow → Interp Rules
  | .nothing => pure rules
  | .cell => do pure (← rules.take name).2
  | .rule => skipItem fuel rules
  | .variableRule => do
    let (_, rules) ← rules.take name
    skipItem fuel rules
  | .kept => do
    let (_, rules) ← rules.takeOnly
    match ← rules.current? with
    | some r => if r.is .getBlock then pure rules.next else skipItem fuel rules
    | none => skipItem fuel rules
  | .replacement => do
    let (_, rules) ← rules.takeOnly
    pure (← rules.take name).2
  | .ruleReplacement => do
    let (_, rules) ← rules.takeOnly
    let rules ← skipItem fuel rules
    pure (← rules.take name).2

theorem skipItem_succ (fuel : Nat) (rules : Rules) : skipItem (fuel + 1) rules = (do
    let (rule, rules) ← rules.take "rule"
    if rule.is .integer then
      match ← rules.current? with
      | some second => skipItem fuel (if second.is .integer then rules.next else rules)
      | none => skipItem fuel rules
    else
      match ← Query.ask (keyword? rule) with
      | none => pure rules
      | some k =>
        let name ← Query.mold rule
        skipFollow fuel name rules k.follow) := by
  rw [skipItem]
  refine bind_congr fun taken => ?_
  obtain ⟨rule, rules⟩ := taken
  refine if_congr Iff.rfl rfl (bind_congr fun keyword? => ?_)
  cases keyword? with
  | none => rfl
  | some k => cases k <;> rfl

/-- What a keyword goes on with is skipped up to the place where the rule ends, if rules are. -/
theorem skipFollow_passes {fuel : Nat} {k : Keyword} {name : String}
    (inner : ∀ {rules behind : Rules} {m next : Machine}, rules.Outlined signs m →
      skipItem fuel rules m = .ok behind next →
      rules.Outlined signs next ∧ rules.Passes signs behind)
    (outlined : rules.Outlined signs m) (here : signs[rules.index]? = some (.keyword k))
    (done : skipFollow fuel name rules.next k.follow m = .ok behind next) :
    rules.Outlined signs next ∧ rules.Passes signs behind := by
  have outlined : rules.next.Outlined signs m := outlined
  cases follow : k.follow with
  | nothing =>
      rw [follow] at done
      cases done
      exact ⟨outlined, _, .alone here follow, rfl⟩
  | cell =>
      rw [follow] at done
      obtain ⟨⟨c, rest⟩, middle, took, done⟩ := bind_eq_ok.mp done
      obtain ⟨outlined, taken, rfl⟩ := take_sign outlined took
      cases done
      exact ⟨outlined, _, .cell here follow taken, rfl⟩
  | rule =>
      rw [follow] at done
      obtain ⟨outlined, place, spans, rfl⟩ := inner outlined done
      exact ⟨outlined, place, .rule here follow spans, rfl⟩
  | variableRule =>
      rw [follow] at done
      obtain ⟨⟨c, rest⟩, middle, took, done⟩ := bind_eq_ok.mp done
      obtain ⟨outlined, taken, rfl⟩ := take_sign outlined took
      obtain ⟨outlined, place, spans, rfl⟩ := inner outlined.next done
      exact ⟨outlined, place, .variableRule here follow taken spans, rfl⟩
  | kept =>
      rw [follow] at done
      obtain ⟨⟨only, rest⟩, middle, took, done⟩ := bind_eq_ok.mp done
      obtain ⟨outlined, rfl⟩ := takeOnly_sign outlined took
      obtain ⟨c?, middle, shown, done⟩ := bind_eq_ok.mp done
      obtain ⟨outlined, sign⟩ := current?_sign
        (outlined.moved (behindOnly signs (rules.index + 1))) shown
      have noBlock (other : signs[behindOnly signs (rules.index + 1)]? ≠ some .values)
          (done : skipItem fuel (rules.moved (behindOnly signs (rules.index + 1))) middle =
            .ok behind next) : rules.Outlined signs next ∧ rules.Passes signs behind := by
        obtain ⟨outlined, place, spans, rfl⟩ := inner
          (outlined.moved (behindOnly signs (rules.index + 1))) done
        exact ⟨outlined, place, .kept here follow other spans, rfl⟩
      cases c? with
      | none => exact noBlock (sign ▸ nofun) done
      | some c =>
          dsimp only at done
          split at done
          · rename_i isBlock
            cases done
            refine ⟨outlined, _, .values here follow (sign.symm.trans ?_), rfl⟩
            rw [Option.map_some, (Sign.ofCell_eq_values _ _).mpr isBlock]
          · rename_i other
            refine noBlock (fun same => other ?_) done
            exact (Sign.ofCell_eq_values _ _).mp (Option.some.inj (sign.trans same))
  | replacement =>
      rw [follow] at done
      obtain ⟨⟨only, rest⟩, middle, took, done⟩ := bind_eq_ok.mp done
      obtain ⟨outlined, rfl⟩ := takeOnly_sign outlined took
      obtain ⟨⟨c, rest⟩, middle, took, done⟩ := bind_eq_ok.mp done
      obtain ⟨outlined, taken, rfl⟩ := take_sign
        (outlined.moved (behindOnly signs (rules.index + 1))) took
      cases done
      exact ⟨outlined, _, .replacement here follow taken, rfl⟩
  | ruleReplacement =>
      rw [follow] at done
      obtain ⟨⟨only, rest⟩, middle, took, done⟩ := bind_eq_ok.mp done
      obtain ⟨outlined, rfl⟩ := takeOnly_sign outlined took
      obtain ⟨between, middle, skipped, done⟩ := bind_eq_ok.mp done
      obtain ⟨outlined, place, spans, rfl⟩ := inner
        (outlined.moved (behindOnly signs (rules.index + 1))) skipped
      obtain ⟨⟨c, rest⟩, middle, took, done⟩ := bind_eq_ok.mp done
      obtain ⟨outlined, taken, rfl⟩ := take_sign (outlined.moved place) took
      cases done
      exact ⟨outlined, _, .ruleReplacement here follow spans taken, rfl⟩

/-- A rule is skipped up to the place where it ends. -/
theorem skipItem_passes {fuel : Nat} (outlined : rules.Outlined signs m)
    (done : skipItem fuel rules m = .ok behind next) :
    rules.Outlined signs next ∧ rules.Passes signs behind := by
  induction fuel generalizing rules m behind next with
  | zero => cases done
  | succ fuel ih =>
      rw [skipItem_succ] at done
      obtain ⟨⟨rule, rest⟩, middle, took, done⟩ := bind_eq_ok.mp done
      obtain ⟨outlined, here, rfl⟩ := take_sign outlined took
      dsimp only at done
      split at done
      · rename_i isCount
        rw [(Sign.ofCell_eq_count _ _).mpr isCount] at here
        obtain ⟨c?, middle, shown, done⟩ := bind_eq_ok.mp done
        obtain ⟨outlined, second⟩ := current?_sign outlined.next shown
        have uncounted (single : signs[rules.index + 1]? ≠ some .count)
            (done : skipItem fuel rules.next middle = .ok behind next) :
            rules.Outlined signs next ∧ rules.Passes signs behind := by
          obtain ⟨outlined, place, spans, rfl⟩ := ih outlined done
          exact ⟨outlined, place, .count here single spans, rfl⟩
        cases c? with
        | none => exact uncounted (second ▸ nofun) done
        | some c =>
            dsimp only at done
            split at done
            · rename_i isCount
              obtain ⟨outlined, place, spans, rfl⟩ := ih outlined.next done
              refine ⟨outlined, place, .counts here (second.symm.trans ?_) spans, rfl⟩
              rw [Option.map_some, (Sign.ofCell_eq_count _ _).mpr isCount]
            · rename_i other
              refine uncounted (fun same => other ?_) done
              exact (Sign.ofCell_eq_count _ _).mp (Option.some.inj (second.trans same))
      · rename_i other
        have uncounted := mt (Sign.ofCell_eq_count middle.symbols rule).mp other
        rw [ask_bind_ok (keyword?_run rule middle)] at done
        cases named : (Sign.ofCell middle.symbols rule).keyword? with
        | none =>
            rw [named] at done
            cases done
            exact ⟨outlined, _, .single here uncounted named, rfl⟩
        | some k =>
            rw [named] at done
            rw [Sign.eq_of_keyword? named] at here
            obtain ⟨name, -, done⟩ := lift_bind_eq_ok.mp done
            exact skipFollow_passes ih outlined here done

/-- Skipping a rule that begins with a keyword goes on with what follows the keyword. -/
theorem Legible.skipItem_keyword (legible : rules.Legible signs m) {k : Keyword}
    (here : signs[rules.index]? = some (.keyword k)) :
    ∃ name next, rules.Legible signs next ∧
      ∀ fuel, skipItem (fuel + 1) rules m = skipFollow fuel name rules.next k.follow next := by
  obtain ⟨c, next, took, legible, sign⟩ := legible.take here "rule"
  have named : Keyword.ofCell? next.symbols c = some k := by
    rw [← Sign.keyword?_ofCell, sign]
    rfl
  obtain ⟨name, molded⟩ := mold_run_of_word (Keyword.is_word_of_ofCell? named) next
  refine ⟨name, next, legible, fun fuel => ?_⟩
  have uncounted : c.is .integer = false := by
    rw [← Bool.not_eq_true, ← Sign.ofCell_eq_count next.symbols, sign]
    nofun
  rw [skipItem_succ, bind_ok took]
  dsimp only
  rw [if_neg (by rw [uncounted]; decide), ask_bind_ok (keyword?_run c next), sign]
  exact lift_bind_ok molded _

/-- Skipping a rule that begins with counts goes on behind them. -/
theorem Legible.skipItem_count (legible : rules.Legible signs m)
    (here : signs[rules.index]? = some .count) :
    ∃ next, rules.Legible signs next ∧ ∀ fuel, skipItem (fuel + 1) rules m =
      skipItem fuel
        (if signs[rules.index + 1]? = some .count then rules.next.next else rules.next) next := by
  obtain ⟨c, middle, took, legible, sign⟩ := legible.take here "rule"
  obtain ⟨c?, next, shown, legible, second⟩ := legible.next.current?
  refine ⟨next, legible, fun fuel => ?_⟩
  rw [skipItem_succ, bind_ok took]
  dsimp only
  have second : c?.map (Sign.ofCell next.symbols) = signs[rules.index + 1]? := second
  rw [if_pos ((Sign.ofCell_eq_count _ _).mp sign), bind_ok shown, ← second]
  cases c? with
  | none => rfl
  | some c =>
      rw [Option.map_some]
      dsimp only
      simp only [Option.some.injEq, Sign.ofCell_eq_count]

theorem Legible.skipItem_single (legible : rules.Legible signs m) {sign : Sign}
    (here : signs[rules.index]? = some sign) (uncounted : sign ≠ .count)
    (unnamed : sign.keyword? = none) :
    ∃ next, rules.Legible signs next ∧
      ∀ fuel, skipItem (fuel + 1) rules m = .ok rules.next next := by
  obtain ⟨c, next, took, legible, rfl⟩ := legible.take here "rule"
  refine ⟨next, legible, fun fuel => ?_⟩
  rw [skipItem_succ, bind_ok took]
  dsimp only
  rw [if_neg (mt (Sign.ofCell_eq_count _ _).mpr uncounted), ask_bind_ok (keyword?_run c next),
    unnamed]
  rfl

/-- Skipping a rule in legible rules leads to the place where it ends. -/
theorem skipItem_run {i j : Nat} (spans : Spans signs i j) (legible : rules.Legible signs m)
    (here : rules.index = i) (fuel : Nat) (enough : j ≤ i + fuel) :
    ∃ next, skipItem fuel rules m = .ok (rules.moved j) next ∧ rules.Legible signs next := by
  obtain ⟨fuel, rfl⟩ := spans.fuel_pos fuel enough
  induction spans generalizing rules m fuel with
  | single sign uncounted unnamed =>
      subst here
      obtain ⟨next, legible, ran⟩ := legible.skipItem_single sign uncounted unnamed
      exact ⟨next, ran fuel, legible⟩
  | count sign only inner ih =>
      subst here
      obtain ⟨middle, legible, ran⟩ := legible.skipItem_count sign
      obtain ⟨fuel, rfl⟩ := inner.fuel_pos fuel (by omega)
      rw [ran, if_neg only]
      exact ih legible.next rfl fuel (by omega)
  | counts sign second inner ih =>
      subst here
      obtain ⟨middle, legible, ran⟩ := legible.skipItem_count sign
      obtain ⟨fuel, rfl⟩ := inner.fuel_pos fuel (by omega)
      rw [ran, if_pos second]
      exact ih legible.next.next rfl fuel (by omega)
  | alone sign follow =>
      subst here
      obtain ⟨name, next, legible, ran⟩ := legible.skipItem_keyword sign
      exact ⟨next, by rw [ran, follow]; rfl, legible⟩
  | cell sign follow taken =>
      subst here
      obtain ⟨name, middle, legible, ran⟩ := legible.skipItem_keyword sign
      obtain ⟨c, next, took, legible, -⟩ := legible.next.take taken name
      exact ⟨next, by rw [ran, follow, skipFollow, bind_ok took]; rfl, legible⟩
  | rule sign follow inner ih =>
      subst here
      obtain ⟨name, middle, legible, ran⟩ := legible.skipItem_keyword sign
      obtain ⟨fuel, rfl⟩ := inner.fuel_pos fuel (by omega)
      rw [ran, follow]
      exact ih legible.next rfl fuel (by omega)
  | variableRule sign follow taken inner ih =>
      subst here
      obtain ⟨name, middle, legible, ran⟩ := legible.skipItem_keyword sign
      obtain ⟨c, next, took, legible, -⟩ := legible.next.take taken name
      obtain ⟨fuel, rfl⟩ := inner.fuel_pos fuel (by omega)
      rw [ran, follow, skipFollow, bind_ok took]
      exact ih legible.next rfl fuel (by omega)
  | values sign follow block =>
      subst here
      obtain ⟨name, middle, legible, ran⟩ := legible.skipItem_keyword sign
      obtain ⟨only, middle, took, legible⟩ := legible.next.takeOnly
      obtain ⟨c?, next, shown, legible, sign⟩ := legible.current?
      obtain ⟨c, rfl, isBlock⟩ := Option.map_eq_some_iff.mp (sign.trans block)
      refine ⟨next, ?_, legible⟩
      rw [ran, follow, skipFollow, bind_ok took]
      dsimp only
      rw [bind_ok shown]
      dsimp only
      rw [if_pos ((Sign.ofCell_eq_values _ _).mp isBlock)]
      rfl
  | kept sign follow noBlock inner ih =>
      subst here
      obtain ⟨name, middle, legible, ran⟩ := legible.skipItem_keyword sign
      obtain ⟨only, middle, took, legible⟩ := legible.next.takeOnly
      obtain ⟨c?, middle, shown, legible, sign⟩ := legible.current?
      have further := le_behindOnly signs (rules.index + 1)
      obtain ⟨fuel, rfl⟩ := inner.fuel_pos fuel (by omega)
      rw [ran, follow, skipFollow, bind_ok took]
      dsimp only
      rw [bind_ok shown]
      have skipped := ih (legible.moved (behindOnly signs (rules.index + 1))) rfl
        fuel (by omega)
      cases c? with
      | none => exact skipped
      | some c =>
          have other : ¬c.is .getBlock = true := fun isBlock => noBlock
            (sign.symm.trans (congrArg some ((Sign.ofCell_eq_values _ _).mpr isBlock)))
          dsimp only
          rw [if_neg other]
          exact skipped
  | replacement sign follow taken =>
      subst here
      obtain ⟨name, middle, legible, ran⟩ := legible.skipItem_keyword sign
      obtain ⟨only, middle, took, legible⟩ := legible.next.takeOnly
      obtain ⟨c, next, took', legible, -⟩ := legible.take taken name
      refine ⟨next, ?_, legible⟩
      rw [ran, follow, skipFollow, bind_ok took]
      dsimp only
      rw [bind_ok took']
      rfl
  | @ruleReplacement i j k _ sign follow inner taken ih =>
      subst here
      obtain ⟨name, middle, legible, ran⟩ := legible.skipItem_keyword sign
      obtain ⟨only, middle, took, legible⟩ := legible.next.takeOnly
      have further := le_behindOnly signs (rules.index + 1)
      obtain ⟨fuel, rfl⟩ := inner.fuel_pos fuel (by omega)
      obtain ⟨middle, skipped, legible⟩ := ih legible rfl fuel (by omega)
      obtain ⟨c, next, took', legible, -⟩ := (legible.moved j).take taken name
      refine ⟨next, ?_, legible⟩
      rw [ran, follow, skipFollow, bind_ok took]
      dsimp only
      rw [bind_ok skipped]
      exact bind_ok took' _

end Rules

end Parse

end Homoicon
