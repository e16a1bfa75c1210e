import Homoicon.Proofs.Parsing.Extents

/-!
# Where the next alternative begins

Bars stand between the alternatives of a block, where a rule would begin.  When a rule fails, the
next alternative is found by looking for a bar in one cell after the other, so a bar that some rule
takes as its value, as LIT does, counts as well.  As long as no rule of the alternative that failed
takes a bar, the bar that is found is the one at the end of that alternative.
-/

namespace Homoicon

namespace Parse

open Interp

theorem Sign.ofCell_eq_bar (t : Symbols) (c : Cell) : ofCell t c = bar ↔ c.isBar = true := by
  unfold ofCell
  split_ifs with count bar
  · simp [Cell.isBar, Cell.is_other count]
  · simp [bar]
  · simp [bar]
  · cases Keyword.ofCell? t c <;> simp_all

/-- From one place whole rules that are no bars lead to another one. -/
inductive Walks (signs : List Sign) : Nat → Nat → Prop where
  | here (i : Nat) : Walks signs i i
  | rule {i j k : Nat} (noBar : signs[i]? ≠ some .bar) (spans : Spans signs i j)
      (later : Walks signs j k) : Walks signs i k

/-- The rules from a place on, up to a bar between them, take no bar as one of their values. -/
def Unbarred (signs : List Sign) (i : Nat) : Prop :=
  ∀ j k, Walks signs i j → Spans signs j k → ∀ place, j < place → place < k →
    signs[place]? ≠ some .bar

variable {signs : List Sign} {i k : Nat}

theorem Walks.le (walks : Walks signs i k) : i ≤ k := by
  induction walks with
  | here => exact le_rfl
  | rule _ spans _ ih => exact spans.bounds.1.le.trans ih

/-- The rules up to the next bar between them have no bar in them. -/
theorem Walks.noBar (walks : Walks signs i k) (unbarred : Unbarred signs i) {place : Nat}
    (from_ : i ≤ place) (before : place < k) : signs[place]? ≠ some .bar := by
  induction walks with
  | here => omega
  | @rule i j k noBar spans later ih =>
      by_cases inside : place < j
      · rcases Nat.eq_or_lt_of_le from_ with rfl | behind
        · exact noBar
        · exact unbarred i j (.here i) spans place behind inside
      · exact ih (fun j' k' walks => unbarred j' k' (.rule noBar spans walks)) (by omega) before

theorem Unbarred.rule {j : Nat} (spans : Spans signs i j)
    (clear : ∀ place, i < place → place < j → signs[place]? ≠ some .bar)
    (later : Unbarred signs j) : Unbarred signs i := by
  intro first behind walks inner
  cases walks with
  | here =>
      obtain rfl := spans.unique inner
      exact clear
  | rule _ skipped rest =>
      obtain rfl := spans.unique skipped
      exact later first behind rest inner

theorem unbarred_of_bar (bar : signs[i]? = some .bar) : Unbarred signs i := by
  intro first behind walks inner place further before
  cases walks with
  | rule noBar => exact absurd bar noBar
  | here =>
      have alone : Spans signs i (i + 1) := .single bar nofun rfl
      obtain rfl := alone.unique inner
      omega

/-! ## Looking for a bar -/

namespace Rules.Legible

variable {rules : Rules} {m : Machine} (legible : rules.Legible signs m)

include legible

theorem nextAlternative?_succ :
    ∃ next, rules.Legible signs next ∧ ∀ fuel, Parser.nextAlternative? (fuel + 1) rules m =
      if signs[rules.index]? = none then .ok none next
      else if signs[rules.index]? = some .bar then .ok (some rules.next) next
      else Parser.nextAlternative? fuel rules.next next := by
  obtain ⟨c?, next, shown, legible, sign⟩ := legible.current?
  refine ⟨next, legible, fun fuel => ?_⟩
  rw [Parser.nextAlternative?, bind_ok shown, ← sign]
  cases c? with
  | none => rfl
  | some c =>
      simp only [Option.map_some, reduceCtorEq, if_false, Option.some.injEq, Sign.ofCell_eq_bar]
      split <;> rfl

/-- The bar that is found is the first one. -/
theorem nextAlternative?_found (later : rules.index ≤ k) (bar : signs[k]? = some .bar)
    (first : ∀ place, rules.index ≤ place → place < k → signs[place]? ≠ some .bar) {fuel : Nat}
    (enough : k < rules.index + fuel) :
    ∃ next, Parser.nextAlternative? fuel rules m = .ok (some (rules.moved (k + 1))) next ∧
      rules.Legible signs next := by
  induction fuel generalizing rules m with
  | zero => omega
  | succ fuel ih =>
      obtain ⟨next, legible, ran⟩ := legible.nextAlternative?_succ
      rw [ran]
      rcases Nat.eq_or_lt_of_le later with rfl | further
      · rw [bar, if_neg nofun, if_pos rfl]
        exact ⟨next, rfl, legible⟩
      · have inside : k < signs.length := (List.getElem?_eq_some_iff.mp bar).1
        rw [if_neg (by simp; omega), if_neg (first _ le_rfl further)]
        exact ih legible.next further (fun place from_ => first place (Nat.le_of_succ_le from_))
          (by change k < rules.index + 1 + fuel; omega)

/-- Without a bar there is no other alternative. -/
theorem nextAlternative?_none (inside : rules.index ≤ signs.length)
    (noBar : ∀ place, rules.index ≤ place → place < signs.length → signs[place]? ≠ some .bar)
    {fuel : Nat} (enough : signs.length < rules.index + fuel) :
    ∃ next, Parser.nextAlternative? fuel rules m = .ok none next ∧ rules.Legible signs next := by
  induction fuel generalizing rules m with
  | zero => omega
  | succ fuel ih =>
      obtain ⟨next, legible, ran⟩ := legible.nextAlternative?_succ
      rw [ran]
      rcases Nat.eq_or_lt_of_le inside with behind | further
      · rw [if_pos (by simp [behind])]
        exact ⟨next, rfl, legible⟩
      · rw [if_neg (by simpa using further), if_neg (noBar _ le_rfl further)]
        exact ih legible.next further (fun place from_ => noBar place (Nat.le_of_succ_le from_))
          (by change signs.length < rules.index + 1 + fuel; omega)

end Rules.Legible

/-- When a rule fails, matching goes on behind the bar where the alternative of that rule ends, from
the position where the first alternative began, and fails without such a bar.  The walk leads from
rule to rule as skipping them does.  This holds as long as no rule in between takes a bar. -/
theorem alternatives_resume {p : Parser} {s : Subject} {rules behind : Rules} {rule : Cell}
    {pos : Nat} {kept : Option Nat} {m middle next after : Machine} (start fuel : Nat)
    (shown : rules.current? m = .ok (some rule) middle) (noBar : rule.isBar = false)
    (failed : p.item s rules pos middle = .ok (.notFound, behind) next)
    (gaveUp : s.giveUp kept next = .ok () after) (legible : behind.Legible signs after)
    (enough : signs.length < behind.index + p.engine.rounds)
    (unbarred : Unbarred signs behind.index) (walks : Walks signs behind.index k)
    (ends : signs[k]? = some .bar ∨ k = signs.length) :
    ∃ last, behind.Legible signs last ∧
      p.alternatives s start kept (fuel + 1) rules pos m =
        if signs[k]? = some .bar then p.alternatives s start kept fuel (behind.moved (k + 1)) start last
        else .ok Match.notFound last := by
  have first (place : Nat) (from_ : behind.index ≤ place) (before : place < k) :=
    walks.noBar unbarred from_ before
  have resumed : p.alternatives s start kept (fuel + 1) rules pos m =
      p.resume s start kept fuel behind after := by
    unfold Parser.alternatives
    rw [bind_ok shown]
    dsimp only
    rw [if_neg (by simp [noBar]), bind_ok failed]
    dsimp only
    rw [bind_ok gaveUp]
    rfl
  rw [resumed, Parser.resume]
  rcases ends with bar | rfl
  · have inside : k < signs.length := (List.getElem?_eq_some_iff.mp bar).1
    have within : k < behind.index + p.engine.rounds := by omega
    obtain ⟨last, found, legible⟩ := legible.nextAlternative?_found walks.le bar first within
    refine ⟨last, legible, ?_⟩
    rw [bind_ok found, if_pos bar]
  · obtain ⟨last, found, legible⟩ := legible.nextAlternative?_none walks.le first enough
    refine ⟨last, legible, ?_⟩
    rw [bind_ok found, if_neg (by simp)]
    rfl

/-- A machine that holds a block of one number, and a block with the rules `fail lit x | skip`. -/
def sampleAlternatives : Machine where
  config := {}
  heap :=
    { slots := #[some (Series.ofCells #[Cell.integer 1]),
        some (Series.ofCells #[Cell.word .word ⟨0⟩, Cell.word .word ⟨1⟩, Cell.word .word ⟨2⟩,
          Cell.bar, Cell.word .word ⟨3⟩])]
      ballast := 0 }
  symbols :=
    { entries := #[⟨"fail", "fail", ⟨0⟩, ⟨0⟩⟩, ⟨"lit", "lit", ⟨1⟩, ⟨1⟩⟩, ⟨"x", "x", ⟨2⟩, ⟨2⟩⟩,
        ⟨"skip", "skip", ⟨3⟩, ⟨3⟩⟩] }
  countdown := 0

/-- The number of the sample. -/
def sampleNumber : Subject :=
  { cell := Cell.series .block ⟨0⟩ 0, series := ⟨0⟩, specifier := none, strict := true }

/-- Matches without evaluating anything. -/
def sampleParser : Parser :=
  { engine := { idle with rounds := 8 }, level := 0, item := matchItem { idle with rounds := 8 } 2 0 }

theorem alternatives_resume_sampleAlternatives :
    ∃ last, sampleParser.alternatives sampleNumber 0 none 8 ⟨⟨1⟩, 0, none⟩ 0 sampleAlternatives =
      sampleParser.alternatives sampleNumber 0 none 7 ⟨⟨1⟩, 4, none⟩ 0 last := by
  let signs : List Sign := [.keyword .fail, .keyword .lit, .other, .bar, .keyword .skip]
  have legible : Rules.Legible ⟨⟨1⟩, 1, none⟩ signs sampleAlternatives := ⟨rfl, nofun⟩
  have spans : Spans signs 1 3 := .cell rfl rfl rfl
  have clear (place : Nat) (further : 1 < place) (before : place < 3) :
      signs[place]? ≠ some .bar := by
    obtain rfl : place = 2 := by omega
    nofun
  have unbarred : Unbarred signs 1 := .rule spans clear (unbarred_of_bar rfl)
  have shown : Rules.current? ⟨⟨1⟩, 0, none⟩ sampleAlternatives =
      .ok (some (Cell.word .word ⟨0⟩)) sampleAlternatives := rfl
  have failed : sampleParser.item sampleNumber ⟨⟨1⟩, 0, none⟩ 0 sampleAlternatives =
      .ok (.notFound, ⟨⟨1⟩, 1, none⟩) sampleAlternatives := rfl
  have gaveUp : sampleNumber.giveUp none sampleAlternatives = .ok () sampleAlternatives := rfl
  have resumed := alternatives_resume 0 7 shown rfl failed gaveUp legible (by decide) unbarred
    (.rule nofun spans (.here 3)) (.inl rfl)
  exact resumed.imp fun last both => both.2

end Parse

end Homoicon
