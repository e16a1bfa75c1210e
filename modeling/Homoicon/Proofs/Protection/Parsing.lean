import Homoicon.Library.Parsing
import Homoicon.Proofs.Protection.Walking

/-!
# Parsing a protected series

The rules that change the subject go through the writes that look at its flag first, whatever the
series holds.  Captures write to variables, which a text or binary has none of.
-/

open Std.Do

set_option mvcgen.warning false

namespace Homoicon.Protection

open Law Interp Series.Trait Parse

/-! ## Cursors and subjects -/

section Cursors

variable {id : SeriesId} {trait : Series.Trait}

@[scoped spec high]
theorem current?_of (rules : Rules) : Keeping (.of id trait) rules.current? := by
  unfold Rules.current?
  mvcgen

@[scoped spec high]
theorem takeRule_of (rules : Rules) (after : String) :
    Keeping (.of id trait) (rules.take after) := by
  unfold Rules.take
  mvcgen

@[scoped spec high]
theorem isAt_of (rules : Rules) (keyword : Keyword) :
    Keeping (.of id trait) (rules.isAt keyword) := by
  unfold Rules.isAt
  mvcgen

@[scoped spec high]
theorem takeOnly_of (rules : Rules) : Keeping (.of id trait) rules.takeOnly := by
  unfold Rules.takeOnly
  mvcgen

@[scoped spec high]
theorem skipRule_of (fuel : Nat) (rules : Rules) :
    Keeping (.of id trait) (Rules.skipItem fuel rules) := by
  induction fuel generalizing rules with
  | zero => exact obeys_of_fails _ (fun _ => rfl) _
  | succ fuel ih =>
      unfold Rules.skipItem
      mvcgen [ih, -Rules.skipItem_calm]

@[scoped spec high]
theorem takeTarget_of (rules : Rules) (after : String) :
    Keeping (.of id trait) (rules.takeTarget after) := by
  unfold Rules.takeTarget
  mvcgen

@[scoped spec high]
theorem element?_of (s : Subject) (pos : Nat) : Keeping (.of id trait) (s.element? pos) := by
  unfold Subject.element?
  mvcgen

@[scoped spec high]
theorem matchLiteral_of (s : Subject) (value : Cell) (pos : Nat) :
    Keeping (.of id trait) (s.matchLiteral value pos) := by
  unfold Subject.matchLiteral
  mvcgen

@[scoped spec high]
theorem element_of (s : Subject) (pos : Nat) (fits : Cell → Bool) :
    Keeping (.of id trait) (Parser.element s pos fits) := by
  unfold Parser.element
  mvcgen

@[scoped spec high]
theorem nextAlternative?_of (fuel : Nat) (rules : Rules) :
    Keeping (.of id trait) (Parser.nextAlternative? fuel rules) := by
  induction fuel generalizing rules with
  | zero => exact obeys_of_fails _ (fun _ => rfl) _
  | succ fuel ih =>
      unfold Parser.nextAlternative?
      mvcgen [ih, -Parser.nextAlternative?_calm]

@[scoped spec high]
theorem leaveBlock_of (pos : Nat) : Keeping (.of id trait) (Parser.leaveBlock pos) := by
  unfold Parser.leaveBlock
  mvcgen

@[scoped spec high]
theorem seek_of (s : Subject) (rules : Rules) (name : String) :
    Keeping (.of id trait) (Parser.seek s rules name) := by
  unfold Parser.seek
  mvcgen

@[scoped spec high]
theorem leave_of (label : Action) (value : Cell) :
    Keeping (.of id trait) (Parser.leave label value) := by
  unfold Parser.leave
  mvcgen

end Cursors

/-- A parser that keeps a law, in the code that rules evaluate and in the rules they contain. -/
structure Safe (p : Parser) (law : Law) : Prop where
  engine : p.engine.Keeps law
  item : ∀ s rules pos, Keeping law (p.item s rules pos)

/-! ## Rules that change the subject -/

section Changing

variable {id : SeriesId} {content : Content} {p : Parser} (safe : Safe p (.sealed id content))

include safe

theorem replacement_sealed (rules : Rules) (after : String) :
    Keeping (.sealed id content) (p.replacement rules after) := by
  have ran := Engine.doBlock_keeping safe.engine
  unfold Parser.replacement Parser.doGroup
  mvcgen [ran]

theorem removeRule_sealed (s : Subject) (rules : Rules) (pos : Nat) :
    Keeping (.sealed id content) (p.remove s rules pos) := by
  have matched := safe.item
  unfold Parser.remove
  mvcgen [matched]

theorem insertRule_sealed (s : Subject) (rules : Rules) (pos : Nat) (name : String) :
    Keeping (.sealed id content) (p.insert s rules pos name) := by
  have replaced := replacement_sealed safe
  unfold Parser.insert
  mvcgen [replaced]

theorem changeRule_sealed (s : Subject) (rules : Rules) (pos : Nat) (name : String) :
    Keeping (.sealed id content) (p.change s rules pos name) := by
  have matched := safe.item
  have replaced := replacement_sealed safe
  unfold Parser.change
  mvcgen [matched, replaced]

end Changing

/-! ## All rules -/

section Rules

variable {id : SeriesId} {leaf : Leaf} {p : Parser}

@[scoped spec high]
theorem keepItems_leaf (collection : SeriesId) (items : List Cell) (only : Bool) :
    Keeping (.sealed id leaf.content) (Subject.keepItems collection items only) := by
  unfold Subject.keepItems
  mvcgen

@[scoped spec high]
theorem giveUp_leaf (s : Subject) (kept : Option Nat) :
    Keeping (.sealed id leaf.content) (s.giveUp kept) := by
  unfold Subject.giveUp
  mvcgen

variable (safe : Safe p (.sealed id leaf.content))

include safe

theorem doGroup_leaf (group : Cell) : Keeping (.sealed id leaf.content) (p.doGroup group) :=
  Engine.doBlock_keeping safe.engine _

theorem alternatives_leaf (s : Subject) (start : Nat) (kept : Option Nat) (fuel : Nat)
    (rules : Rules) (pos : Nat) :
    Keeping (.sealed id leaf.content) (Parser.alternatives p s start kept fuel rules pos) := by
  have matched := safe.item
  induction fuel generalizing rules pos with
  | zero => exact obeys_of_fails _ (fun _ => rfl) _
  | succ fuel ih =>
      unfold Parser.alternatives
      mvcgen [matched, ih]

theorem block_leaf (s : Subject) (rules : Rules) (pos : Nat) :
    Keeping (.sealed id leaf.content) (p.block s rules pos) := by
  have matched := alternatives_leaf safe
  unfold Parser.block
  mvcgen [matched]

theorem value_leaf (s : Subject) (rule : Cell) (pos : Nat) :
    Keeping (.sealed id leaf.content) (p.value s rule pos) := by
  have inner := block_leaf safe
  unfold Parser.value
  mvcgen [inner]

theorem repetitions_leaf (s : Subject) (rules : Rules) (least : Nat) (limit : Option Nat)
    (fuel count pos : Nat) :
    Keeping (.sealed id leaf.content)
      (Parser.repetitions p s rules least limit fuel count pos) := by
  have matched := safe.item
  induction fuel generalizing count pos with
  | zero => exact obeys_of_fails _ (fun _ => rfl) _
  | succ fuel ih =>
      unfold Parser.repetitions
      mvcgen [matched, ih]

theorem repeated_leaf (s : Subject) (rules : Rules) (pos least : Nat) (limit : Option Nat) :
    Keeping (.sealed id leaf.content) (p.repeated s rules pos least limit) := by
  have matched := repetitions_leaf safe
  unfold Parser.repeated Parser.skipItem
  mvcgen [matched]

theorem capture_leaf (s : Subject) (rules : Rules) (pos : Nat) (name : String) (whole : Bool) :
    Keeping (.sealed id leaf.content) (p.capture s rules pos name whole) := by
  have matched := safe.item
  unfold Parser.capture
  mvcgen [matched]

theorem collect_leaf (s : Subject) (rules : Rules) (pos : Nat) (name : String) :
    Keeping (.sealed id leaf.content) (p.collect s rules pos name) := by
  have matched := safe.item
  unfold Parser.collect
  mvcgen [matched]
  exact And.left ‹_›

theorem keep_leaf (s : Subject) (rules : Rules) (pos : Nat) (name : String) :
    Keeping (.sealed id leaf.content) (p.keep s rules pos name) := by
  have matched := safe.item
  have reduced := reduce_of id _ safe.engine
  unfold Parser.keep Parser.keepMatched
  mvcgen [matched, reduced]

theorem condition_leaf (rules : Rules) (pos : Nat) (name : String) :
    Keeping (.sealed id leaf.content) (p.condition rules pos name) := by
  have ran := doGroup_leaf safe
  unfold Parser.condition
  mvcgen [ran]

theorem into_leaf (s : Subject) (rules : Rules) (pos : Nat) (name : String) :
    Keeping (.sealed id leaf.content) (p.into s rules pos name) := by
  have inner := block_leaf safe
  unfold Parser.into
  mvcgen [inner]

theorem expression_leaf (s : Subject) (rules : Rules) (pos : Nat) :
    Keeping (.sealed id leaf.content) (p.expression s rules pos) := by
  have matched := safe.item
  have evaluated := Engine.evalStepAt_keeping safe.engine
  unfold Parser.expression Parser.skipItem
  mvcgen [matched, evaluated]

theorem search_leaf (s : Subject) (rules : Rules) (thru : Bool) (positions : List Nat) :
    Keeping (.sealed id leaf.content) (p.search s rules thru positions) := by
  have matched := safe.item
  induction positions with
  | nil =>
      unfold Parser.search
      mvcgen
  | cons pos rest ih =>
      unfold Parser.search
      mvcgen [matched, ih]

theorem seekRule_leaf (s : Subject) (rules : Rules) (pos : Nat) (thru : Bool) :
    Keeping (.sealed id leaf.content) (p.seekRule s rules pos thru) := by
  have searched := search_leaf safe
  unfold Parser.seekRule Parser.skipItem
  mvcgen [searched]

theorem keyword_leaf (s : Subject) (k : Keyword) (rule : Cell) (rules : Rules) (pos : Nat) :
    Keeping (.sealed id leaf.content) (p.keyword s k rule rules pos) := by
  have matched := safe.item
  have many := repeated_leaf safe
  have captured := capture_leaf safe
  have collected := collect_leaf safe
  have kept := keep_leaf safe
  have removed := removeRule_sealed safe
  have inserted := insertRule_sealed safe
  have changed := changeRule_sealed safe
  have tested := condition_leaf safe
  have entered := into_leaf safe
  have evaluated := expression_leaf safe
  have sought := seekRule_leaf safe
  unfold Parser.keyword
  mvcgen [matched, many, captured, collected, kept, removed, inserted, changed, tested, entered,
    evaluated, sought]

theorem counted_leaf (s : Subject) (rule : Cell) (rules : Rules) (pos : Nat) (least : Int) :
    Keeping (.sealed id leaf.content) (p.counted s rule rules pos least) := by
  have many := repeated_leaf safe
  unfold Parser.counted
  mvcgen [many]

theorem rule_leaf (s : Subject) (rules : Rules) (pos : Nat) :
    Keeping (.sealed id leaf.content) (p.rule s rules pos) := by
  have ran := doGroup_leaf safe
  have matched := value_leaf safe
  have many := counted_leaf safe
  have worded := keyword_leaf safe
  have gotten := get_leaf safe.engine
  unfold Parser.rule
  mvcgen [ran, matched, many, worded, gotten]

end Rules

section Running

variable {id : SeriesId} {leaf : Leaf} {e : Engine} (safe : e.Keeps (.sealed id leaf.content))

include safe

/-- Matching a rule leaves a protected text alone, however deep rules may nest. -/
theorem matchItem_leaf (depth level : Nat) (s : Subject) (rules : Rules) (pos : Nat) :
    Keeping (.sealed id leaf.content) (matchItem e depth level s rules pos) := by
  induction depth generalizing level s rules pos with
  | zero => exact obeys_of_fails _ (fun _ => rfl) _
  | succ depth ih =>
      exact rule_leaf (p := ⟨e, level + 1, matchItem e depth (level + 1)⟩) ⟨safe, ih (level + 1)⟩ s
        rules pos

theorem run_leaf (input rules : Cell) (strict : Bool) :
    Keeping (.sealed id leaf.content) (run e input rules strict) := by
  have matched := block_leaf (p := ⟨e, 0, matchItem e e.rounds 0⟩)
    ⟨safe, matchItem_leaf safe e.rounds 0⟩
  unfold run
  mvcgen [matched]

theorem parse_leaf (f : FrameId) : Keeping (.sealed id leaf.content) (Library.parse e f) := by
  have ran := run_leaf safe
  unfold Library.parse
  mvcgen [ran]

end Running

/-! ## Actions -/

/-- The actions that write to variables on their way. -/
def writers : List (Engine → FrameId → Interp Bounce) := [Library.set, Library.parse]

theorem writer_leaf {id : SeriesId} {leaf : Leaf} {action : Engine → FrameId → Interp Bounce}
    (listed : action ∈ writers) {e : Engine} (safe : e.Keeps (.sealed id leaf.content))
    (f : FrameId) : Keeping (.sealed id leaf.content) (action e f) := by
  simp only [writers, List.mem_cons, List.not_mem_nil, or_false] at listed
  obtain rfl | rfl := listed
  · exact set_leaf safe f
  · exact parse_leaf safe f

/-- A protected series has its content behind each action that edits series, whether that succeeds
or fails, if the code that the action evaluates leaves it alone; so has a protected text or binary
behind SET and PARSE.  And a protected variable has its value behind whatever writes to variables by
name. -/
theorem protected_unchanged {m : Machine} :
    (∀ {id : SeriesId} {content : Content} {action : Engine → FrameId → Interp Bounce},
      action ∈ editors ∨ action ∈ writers ∧ (∃ leaf : Leaf, content = leaf.content) →
      ∀ {e : Engine}, e.Keeps (.sealed id content) → ∀ {f : FrameId},
        m.Obeys (.sealed id content) → Apart id f m →
        ((action e f).final m).Obeys (.sealed id content)) ∧
    ∀ {r : VarRef} {value : Cell} {α : Type} {x : Interp α}, Guarding.Writes x →
      m.Obeys (.guarding r value) →
        (x.final m).Obeys (.guarding r value) ∧ Query.varContent r (x.final m) = .ok value := by
  constructor
  · intro id content action covered e safe f here apart
    obtain edits | ⟨writes, leaf, rfl⟩ := covered
    · exact final_of_triple (editor_sealed edits safe f) ⟨here, apart⟩
    · exact final_of_triple (writer_leaf writes safe f) here
  · intro r value α x writes here
    have kept : (x.final m).Obeys (.guarding r value) := final_of_triple writes.guarding here
    exact ⟨kept, Guarding.cell_of_guarding kept⟩

/-- A call with a protected text as its first argument and a character as its second. -/
def sampleVault : Machine :=
  let text := (Heap.empty 100).alloc ((Series.ofText "abc").withFlags Flags.locked)
  let call := text.2.alloc (Series.ofCells
    #[Cell.blank, Cell.series .text text.1 0, Cell.char 'd', Cell.blank, Cell.null, Cell.blank,
      Cell.blank, Cell.null])
  { config := {}, heap := call.2, frames := #[{ feed := 0, varlist := some call.1 }],
    countdown := 1 }

/-- The protected value of a variable. -/
def sampleKept : Cell := { Cell.integer 1 with guarded := true }

/-- An object with a protected variable `count`. -/
def sampleShield : Machine :=
  let keys := (Heap.empty 100).alloc (Series.ofCells
    #[Cell.blank, Cell.typeset (Typeset.param ⟨0⟩ .normal KindSet.anyValue)])
  let object := keys.2.alloc { Series.ofCells #[Cell.context .object ⟨1⟩, sampleKept] with
    link := .keylist keys.1 }
  { config := {}, heap := object.2, symbols := { entries := #[⟨"count", "count", ⟨0⟩, ⟨0⟩⟩] },
    countdown := 1 }

theorem protected_unchanged_sampleVault :
    (∃ next, Library.append idle 0 sampleVault = .error (.error Cause.protectedSeries.error) next) ∧
      ((Library.append idle 0).final sampleVault).Obeys
        (.sealed ⟨0⟩ (.text (Text.Buffer.ofString "abc"))) ∧
      Query.varContent ⟨⟨1⟩, 1⟩ ((Path.contextStep (Cell.context .object ⟨1⟩) (Cell.word .word ⟨0⟩)
        (some (Cell.integer 2))).final sampleShield) = .ok sampleKept := by
  refine ⟨⟨_, rfl⟩, protected_unchanged.1 (.inl List.mem_cons_self) (idle_keeps _)
    ⟨_, rfl, rfl, rfl, rfl⟩ ?_, ?_⟩
  · rintro _ _ _ _ ⟨⟩ ⟨⟩
  · exact (protected_unchanged.2 (.field _ _ _) ⟨_, rfl, rfl, _, rfl, rfl⟩).2

end Homoicon.Protection
