import Homoicon.Parse.Matching
import Homoicon.Proofs.Editing.Silence
import Homoicon.Proofs.Keeping.Series

/-!
# Edits that fail

An edit looks at everything that may be wrong with it before it writes: whether the series may be
changed, whether the place is there, whether the value fits.  So one that raises an error has
changed no series.  CHANGE in rules is two edits, of which the second may be refused when the
first is done; this happens to a binary only.
-/

open Std.Do

set_option mvcgen.warning false

namespace Homoicon

/-- Holds a content. -/
def Series.Trait.holding (content : Content) : Series.Trait where
  holds s := s.content = content
  withFlags _ same := same

/-- A series has a content. -/
abbrev Law.holding (id : SeriesId) (content : Content) : Law := .of id (.holding content)

/-- A computation that leaves a law alone if it raises an error. -/
def Atomic {α : Type} (law : Law) (x : Interp α) : Prop :=
  ∀ ⦃m error next⦄, m.Obeys law → x m = .error (.error error) next → next.Obeys law

namespace Atomic

open Law Interp

variable {α β : Type} {law : Law} {x : Interp α} {f : α → Interp β}

theorem silent (silent : x.Silent) : Atomic law x :=
  fun _ _ _ _ raised => absurd raised (@silent _ _ _)

theorem keeping (kept : Keeping law x) : Atomic law x := by
  intro m error next here raised
  have behind := triple_iff.mp kept m here
  rwa [raised] at behind

theorem of_triple (correct : ⦃fun m => ⌜m.Obeys law⌝⦄ x
    ⦃post⟨fun _ _ => ⌜True⌝, fun _ m => ⌜m.Obeys law⌝⟩⦄) : Atomic law x := by
  intro m error next here raised
  have behind := triple_iff.mp correct m here
  rwa [raised] at behind

/-- What comes before the edit leaves the law alone. -/
theorem behind (kept : Keeping law x) (later : ∀ a, Atomic law (f a)) : Atomic law (x >>= f) := by
  intro m error next here raised
  have first := triple_iff.mp kept m here
  rw [bind_run] at raised
  cases ran : x m with
  | ok a middle =>
      rw [ran] at raised first
      exact later a first raised
  | error fault middle =>
      rw [ran] at raised first
      cases raised
      exact first

/-- What comes behind the edit raises no error. -/
theorem last (edit : Atomic law x) (later : ∀ a, (f a).Silent) : Atomic law (x >>= f) := by
  intro m error next here raised
  rw [bind_run] at raised
  cases ran : x m with
  | ok a middle =>
      rw [ran] at raised
      exact absurd raised (@later a _ _ _)
  | error fault middle =>
      rw [ran] at raised
      cases raised
      exact edit here ran

theorem ite {p : Prop} [Decidable p] {y : Interp α} (first : Atomic law x)
    (second : Atomic law y) : Atomic law (if p then x else y) := by
  split
  · exact first
  · exact second

end Atomic

namespace Interp.Silent

theorem modifySeries (id : SeriesId) (f : Series → Series) : Silent (Interp.modifySeries id f) := by
  intro m error next raised
  unfold Interp.modifySeries at raised
  split at raised <;> cases raised

theorem modifyCells (id : SeriesId) (f : Array Cell → Array Cell) :
    Silent (Interp.modifyCells id f) := by
  have array : (Interp.isArray id).Silent := by
    refine .bind (.series id) fun s => ?_
    cases s.content <;> exact .pure _
  exact .bind (.ask array) fun _ => .ite (.modifySeries id _) .defect

theorem modifyText (id : SeriesId) (f : Text.Buffer → Text.Buffer) :
    Silent (Interp.modifyText id f) :=
  .bind (.ask (.text id)) fun _ => .modifySeries id _

theorem modifyBytes (id : SeriesId) (f : Array UInt8 → Array UInt8) :
    Silent (Interp.modifyBytes id f) :=
  .bind (.ask (.bytes id)) fun _ => .modifySeries id _

theorem alloc (s : Series) : Silent (Interp.alloc s) := fun _ _ _ => nofun

theorem arrayCell (kind : Kind) (cells : List Cell) : Silent (Interp.arrayCell kind cells) :=
  .bind (.alloc _) fun _ => .pure _

theorem give (f : FrameId) (c : Cell) : Silent (Interp.give f c) := by
  refine .bind (fun m error next raised => ?_) fun _ => .pure _
  unfold setOut writeOut modifyFrame at raised
  split at raised <;> cases raised

end Interp.Silent

namespace Editing

open Law Interp Series.Trait

variable {id : SeriesId} {content : Content}

/-! ## Insertion and removal -/

theorem insertAt_atomic (series : Cell) (at_ : Nat) (value : Cell) (only : Bool)
    (part : Option Nat) (times : Nat) :
    Atomic (.holding id content) (insertAt series at_ value only part times) := by
  refine .behind (lift_keeping _ _) fun i => .behind (lift_keeping _ _) fun _ =>
    .behind (lift_keeping _ _) fun size => .ite ?_ (.ite ?_ ?_)
  · exact .behind (insertionItems_of _ _ _ _) fun _ => .silent <|
      .bind (.modifyCells i _) fun _ => .pure _
  · exact .behind (lift_keeping _ _) fun _ => .silent <| .bind (.modifyBytes i _) fun _ => .pure _
  · exact .behind (lift_keeping _ _) fun _ => .behind (repeatedText_of _ _ _ _) fun _ => .silent <|
      .bind (.modifyText i _) fun _ => .pure _

theorem removeSpan_atomic (series : Cell) (at_ count : Nat) :
    Atomic (.holding id content) (removeSpan series at_ count) := by
  refine .behind (lift_keeping _ _) fun i => .behind (lift_keeping _ _) fun _ =>
    .behind (lift_keeping _ _) fun size => .behind (lift_keeping _ _) fun s => .silent ?_
  cases s.content with
  | array cells => exact .bind (.modifyCells i _) fun _ => .arrayCell _ _
  | binary bytes => exact .bind (.modifyBytes i _) fun _ => .bind (.alloc _) fun _ => .pure _
  | text buffer => exact .bind (.modifyText i _) fun _ => .bind (.alloc _) fun _ => .pure _

/-! ## Poking -/

section Steps

variable (current picker value : Cell)

/-- A write that a law holds behind, if it does not come about. -/
abbrev Writes (law : Law) (x : Interp Unit) : Prop :=
  ⦃fun m => ⌜m.Obeys law⌝⦄ x ⦃post⟨fun _ _ => ⌜True⌝, fun _ m => ⌜m.Obeys law⌝⟩⦄

/-- A step that a law holds behind, if nothing is stored. -/
abbrev Stores (law : Law) (x : Interp PathStep) : Prop :=
  ⦃fun m => ⌜m.Obeys law⌝⦄ x
  ⦃post⟨fun step m => ⌜step ≠ .poked → m.Obeys law⌝, fun _ m => ⌜m.Obeys law⌝⟩⦄

@[local spec 20000]
theorem modifySeries_writes (law : Law) (i : SeriesId) (f : Series → Series) :
    Writes law (modifySeries i f) := by
  refine triple_iff.mpr fun m here => ?_
  unfold modifySeries
  by_cases inUse : m.heap.isLive i = true
  · rw [if_pos inUse]
    trivial
  · rw [if_neg inUse]
    exact here

@[local spec 20000]
theorem modifyCells_writes (law : Law) (i : SeriesId) (f : Array Cell → Array Cell) :
    Writes law (modifyCells i f) := by
  unfold modifyCells
  mvcgen

@[local spec 20000]
theorem modifyText_writes (i : SeriesId) (f : Text.Buffer → Text.Buffer) :
    Writes (.holding id content) (modifyText i f) := by
  unfold modifyText
  mvcgen

@[local spec 20000]
theorem modifyBytes_writes (i : SeriesId) (f : Array UInt8 → Array UInt8) :
    Writes (.holding id content) (modifyBytes i f) := by
  unfold modifyBytes
  mvcgen

@[local spec 20000]
theorem moveCell_writes (i : SeriesId) (index : Nat) (c : Cell) :
    Writes (.holding id content) (moveCell i index c) := by
  unfold moveCell storeCell modifyCell
  mvcgen

@[local spec 20000]
theorem arrayStep_stores :
    Stores (.holding id content) (Path.arrayStep current picker (some value)) := by
  unfold Path.arrayStep
  mvcgen
  all_goals first
    | exact fun _ => ‹_›
    | exact fun stored => absurd rfl stored

@[local spec 20000]
theorem stringStep_stores :
    Stores (.holding id content) (Path.stringStep current picker (some value)) := by
  unfold Path.stringStep
  mvcgen
  all_goals first
    | exact fun _ => ‹_›
    | exact fun stored => absurd rfl stored

@[local spec 20000]
theorem binaryStep_stores :
    Stores (.holding id content) (Path.binaryStep current picker (some value)) := by
  unfold Path.binaryStep
  mvcgen
  all_goals first
    | exact fun _ => ‹_›
    | exact fun stored => absurd rfl stored

@[local spec 20000]
theorem contextStep_stores :
    Stores (.holding id content) (Path.contextStep current picker (some value)) := by
  unfold Path.contextStep writeVar
  mvcgen
  all_goals first
    | exact fun _ => ‹_›
    | exact fun stored => absurd rfl stored

@[local spec 20000]
theorem step_stores :
    Stores (.holding id content) (Path.step current picker (some value)) := by
  unfold Path.step Path.pairStep Path.tupleStep Path.dateStep Path.timeStep
  mvcgen
  all_goals exact fun _ => ‹_›

theorem poke_atomic : Atomic (.holding id content) (Path.poke current picker value) := by
  refine .of_triple ?_
  unfold Path.poke
  mvcgen
  rename_i other _ _ _ kept
  exact kept other

theorem pick_of {trait : Series.Trait} : Keeping (.of id trait) (Path.pick current picker) := by
  unfold Path.pick Path.step Path.arrayStep Path.stringStep Path.binaryStep Path.contextStep
    Path.pairStep Path.tupleStep Path.dateStep Path.timeStep
  mvcgen

end Steps

/-! ## Actions -/

theorem insertWith_atomic (place : Cell → Query Nat) (result : Cell → Nat → Nat) (e : Engine)
    (f : FrameId) : Atomic (.holding id content) (Library.insertWith place result e f) := by
  refine .behind (lift_keeping _ _) fun series => .behind (lift_keeping _ _) fun value =>
    .ite (.silent (.give f series)) ?_
  exact .behind (lift_keeping _ _) fun _ => .behind (ask_keeping _ _) fun _ =>
    .behind (ask_keeping _ _) fun _ => .behind (ask_keeping _ _) fun _ =>
      .last (insertAt_atomic _ _ _ _ _ _) fun _ => .give f _

theorem pokeAction_atomic (e : Engine) (f : FrameId) :
    Atomic (.holding id content) (Library.poke e f) :=
  .behind (lift_keeping _ _) fun value => .behind (lift_keeping _ _) fun _ =>
    .behind (lift_keeping _ _) fun _ => .last (poke_atomic _ _ _) fun _ => .give f value

theorem clear_atomic (e : Engine) (f : FrameId) :
    Atomic (.holding id content) (Library.clear e f) :=
  .behind (lift_keeping _ _) fun series => .behind (lift_keeping _ _) fun _ =>
    .last (removeSpan_atomic _ _ _) fun _ => .give f series

theorem remove_atomic (e : Engine) (f : FrameId) :
    Atomic (.holding id content) (Library.remove e f) :=
  .behind (lift_keeping _ _) fun series => .behind (ask_keeping _ _) fun _ =>
    .last (removeSpan_atomic _ _ _) fun _ => .give f series

/-- TAKE from a series; from a variadic argument it evaluates code. -/
theorem take_atomic {e : Engine} {f : FrameId} {m next : Machine} {error : Error}
    (here : m.Obeys (.holding id content))
    (noVarargs : ∀ c varargs, Query.arg f 1 m = .ok c → c.payload ≠ .varargs varargs)
    (raised : Library.take e f m = .error (.error error) next) :
    next.Obeys (.holding id content) := by
  rw [Library.take, bind_run, lift_run] at raised
  cases given : Query.arg f 1 m with
  | error fault =>
      rw [given] at raised
      cases raised
      exact here
  | ok series =>
      rw [given] at raised
      dsimp only at raised
      cases payload : series.payload
      case varargs varargs => exact absurd payload (noVarargs series varargs given)
      all_goals
        rw [payload] at raised
        refine Atomic.behind (lift_keeping _ _) (fun available => ?_) here raised
        refine .behind (lift_keeping _ _) fun fromEnd => .behind (lift_keeping _ _) fun part => ?_
        refine .ite (.behind (lift_keeping _ _) fun _ => ?_) (.ite (.silent (.pure _)) ?_)
        · exact .last (removeSpan_atomic _ _ _) fun _ => .give f _
        · refine .behind (pick_of _ _) fun picked => ?_
          obtain ⟨item, _⟩ := picked
          exact .last (removeSpan_atomic _ _ _) fun _ => .give f item

/-! ## Rules -/

namespace Silent

theorem derelativize (c : Cell) (specifier : Specifier) :
    (Interp.derelativize c specifier).Silent := by
  unfold Interp.derelativize
  split
  · refine .bind (.bind (.ask (.hasFlag _ _)) fun _ => .ite ?_ (.pure _)) fun _ => .pure _
    exact .bind (.modifySeries _ _) fun _ => fun _ _ _ => nofun
  · exact .pure c

theorem insertionItems (value : Cell) (only : Bool) : (Interp.insertionItems value only).Silent :=
  .ite (.bind (.ask (.arrayOf value)) fun _ => .bind (.ask (.cellsFrom _ _)) fun _ =>
    .mapM (fun _ => derelativize _ _) _) (.pure _)

theorem repeatedText (chars : List Char) (times : Nat) :
    (Interp.repeatedText chars times).Silent := .ite .defect (.pure _)

end Silent

theorem checkMutable_eq_ok {i : SeriesId} {m : Machine} :
    Query.checkMutable i m = .ok () ↔
      ∃ s, m.heap.get? i = some s ∧ s.has Flags.locked = false := by
  unfold Query.checkMutable
  rw [Query.bind_eq_ok]
  constructor
  · rintro ⟨flag, asked, checked⟩
    obtain ⟨s, live, rfl⟩ := Query.hasFlag_eq_ok.mp asked
    refine ⟨s, live, Bool.eq_false_iff.mpr fun locked => ?_⟩
    rw [if_pos locked] at checked
    cases checked
  · rintro ⟨s, live, free⟩
    exact ⟨false, Query.hasFlag_eq_ok.mpr ⟨s, live, free⟩, rfl⟩

/-- The series of a value may be changed. -/
def Unlocked (series : Cell) (m : Machine) : Prop :=
  ∃ i s, series.seriesId? = some i ∧ m.heap.get? i = some s ∧ s.has Flags.locked = false

theorem Unlocked.alloc {series : Cell} {m next : Machine} {s : Series} {new : SeriesId}
    (unlocked : Unlocked series m) (done : Interp.alloc s m = .ok new next) :
    Unlocked series next := by
  obtain ⟨i, held, known, live, free⟩ := unlocked
  cases done
  have apart : (m.heap.alloc s).1 ≠ i := by
    intro same
    have fresh := m.heap.alloc_fresh s
    rw [same, live] at fresh
    cases fresh
  exact ⟨i, held, known, (Heap.get?_alloc m.heap s i).trans ((if_neg apart).trans live), free⟩

/-- A series that something was taken out of may be changed again. -/
theorem removeSpan_unlocked {series c : Cell} {at_ count : Nat} {m next : Machine}
    (done : removeSpan series at_ count m = .ok c next) : Unlocked series next := by
  obtain ⟨i, known, done⟩ := lift_bind_eq_ok.mp done
  obtain ⟨_, checked, done⟩ := lift_bind_eq_ok.mp done
  obtain ⟨size, -, done⟩ := lift_bind_eq_ok.mp done
  obtain ⟨held, -, done⟩ := lift_bind_eq_ok.mp done
  obtain ⟨s, live, free⟩ := checkMutable_eq_ok.mp checked
  have cut {content : Content} {middle : Machine}
      (after : middle.heap.get? i = some { s with content }) : Unlocked series middle :=
    ⟨i, { s with content }, Query.arrayOf_eq_ok.mp known, after, free⟩
  dsimp only at done
  cases content : held.content
  all_goals
    rw [content] at done
    obtain ⟨⟨⟩, middle, changed, done⟩ := bind_eq_ok.mp done
    obtain ⟨new, last, allocated, done⟩ := bind_eq_ok.mp done
    cases done
  case array =>
    obtain ⟨s', _, same, -, after⟩ := modifyCells_eq_ok changed
    obtain rfl := Option.some.inj (live.symm.trans same)
    exact (cut after).alloc allocated
  case binary =>
    obtain ⟨s', _, same, -, after⟩ := modifyBytes_eq_ok changed
    obtain rfl := Option.some.inj (live.symm.trans same)
    exact (cut after).alloc allocated
  case text =>
    obtain ⟨s', _, same, -, after⟩ := modifyText_eq_ok changed
    obtain rfl := Option.some.inj (live.symm.trans same)
    exact (cut after).alloc allocated

/-- An insertion into a series that may be changed raises no error, unless it is a binary that the
value does not fit. -/
theorem insertAt_silent {series value : Cell}
    (fits : series.kind = .binary → (Query.insertionBytes value).Silent) {m next : Machine}
    (unlocked : Unlocked series m) {at_ : Nat} {only : Bool} {part : Option Nat} {times : Nat}
    {error : Error} : insertAt series at_ value only part times m ≠ .error (.error error) next := by
  intro raised
  obtain ⟨i, s, known, live, free⟩ := unlocked
  have checked := checkMutable_eq_ok.mpr ⟨s, live, free⟩
  rw [insertAt, lift_bind_ok (Query.arrayOf_eq_ok.mpr known), lift_bind_ok checked] at raised
  refine @Silent.bind _ _ _ _ (.ask (.size i)) (fun size => ?_) m error next raised
  refine .ite ?array ?others
  case array =>
    exact .bind (Silent.insertionItems _ _) fun _ => .bind (.modifyCells i _) fun _ => .pure _
  case others =>
    by_cases binary : series.kind = .binary
    · rw [if_pos binary]
      exact .bind (.ask (fits binary)) fun _ => .bind (.modifyBytes i _) fun _ => .pure _
    · rw [if_neg binary]
      exact .bind (.ask (.insertionText value)) fun _ => .bind (Silent.repeatedText _ _) fun _ =>
        .bind (.modifyText i _) fun _ => .pure _

/-- What CHANGE does to the subject. -/
theorem replace_atomic {s : Parse.Subject} {value : Cell}
    (fits : s.cell.kind = .binary → (Query.insertionBytes value).Silent) (pos count : Nat)
    (only : Bool) (rules : Parse.Rules) :
    Atomic (.holding id content) (do
      let _ ← removeSpan s.cell pos count
      pure (Parse.Match.matched (← insertAt s.cell pos value only none 1), rules)) := by
  intro m error next here raised
  rw [bind_run] at raised
  cases ran : removeSpan s.cell pos count m with
  | error fault middle =>
      rw [ran] at raised
      cases raised
      exact removeSpan_atomic _ _ _ here ran
  | ok c middle =>
      rw [ran] at raised
      dsimp only at raised
      rw [bind_run] at raised
      cases inserted : insertAt s.cell pos value only none 1 middle with
      | ok behind last => simp [inserted] at raised
      | error fault last =>
          rw [inserted] at raised
          cases raised
          exact absurd inserted (insertAt_silent fits (removeSpan_unlocked ran))

end Editing

open Parse in
/-- A run of an action or a rule that edits a series, from a first machine on, begins its edit in a
second one: what a rule evaluates and matches comes before. -/
inductive Edits : {α : Type} → Interp α → Machine → Machine → Prop where
  | action {run : Engine → FrameId → Interp Bounce} {e : Engine} {f : FrameId} {m : Machine}
      (listed : run ∈ editors)
      (noVarargs : ∀ c varargs, Query.arg f 1 m = .ok c → c.payload ≠ .varargs varargs) :
      Edits (run e f) m m
  | insert {p : Parser} {s : Subject} {rules rest behind : Rules} {pos : Nat} {name : String}
      {only : Bool} {value : Cell} {m middle start : Machine}
      (took : rules.takeOnly m = .ok (only, rest) middle)
      (given : p.replacement rest name middle = .ok (some value, behind) start) :
      Edits (p.insert s rules pos name) m start
  | remove {p : Parser} {s : Subject} {rules behind : Rules} {pos : Nat} {result : Match}
      {m start : Machine} (ran : p.item s rules pos m = .ok (result, behind) start) :
      Edits (p.remove s rules pos) m start
  | change {p : Parser} {s : Subject} {rules first rest behind : Rules} {pos : Nat} {name : String}
      {only : Bool} {result : Match} {value : Cell} {m middle matched start : Machine}
      (took : rules.takeOnly m = .ok (only, first) middle)
      (ran : p.item s first pos middle = .ok (result, rest) matched)
      (given : p.replacement rest name matched = .ok (some value, behind) start)
      (fits : s.cell.kind = .binary → (Query.insertionBytes value).Silent) :
      Edits (p.change s rules pos name) m start

open Editing in
/-- An edit that raises an error changes no series. -/
theorem unchanged_of_error {α : Type} {x : Interp α} {m start next : Machine} {error : Error}
    (edits : Edits x m start) (raised : x m = .error (.error error) next) {id : SeriesId}
    {held : Series} (live : start.heap.get? id = some held) :
    ∃ s, next.heap.get? id = some s ∧ s.content = held.content := by
  have here : start.Obeys (.holding id held.content) := ⟨held, live, rfl⟩
  suffices kept : next.Obeys (.holding id held.content) from kept
  cases edits with
  | action listed noVarargs =>
      simp only [editors, List.mem_cons, List.not_mem_nil, or_false] at listed
      obtain rfl | rfl | rfl | rfl | rfl | rfl := listed
      · exact insertWith_atomic _ _ _ _ here raised
      · exact insertWith_atomic _ _ _ _ here raised
      · exact pokeAction_atomic _ _ here raised
      · exact take_atomic here noVarargs raised
      · exact remove_atomic _ _ here raised
      · exact clear_atomic _ _ here raised
  | insert took given =>
      rw [Parse.Parser.insert, Interp.bind_ok took] at raised
      dsimp only at raised
      rw [Interp.bind_ok given] at raised
      exact Atomic.last (insertAt_atomic _ _ _ _ _ _) (fun _ => .pure _) here raised
  | @remove _ _ _ _ _ result _ _ ran =>
      rw [Parse.Parser.remove, Interp.bind_ok ran] at raised
      dsimp only at raised
      cases ended : result.behind? with
      | none =>
          rw [ended] at raised
          cases raised
      | some behind =>
          rw [ended] at raised
          exact Atomic.last (removeSpan_atomic _ _ _) (fun _ => .pure _) here raised
  | @change _ _ _ _ _ _ _ _ _ result _ _ _ _ _ took ran given fits =>
      rw [Parse.Parser.change, Interp.bind_ok took] at raised
      dsimp only at raised
      rw [Interp.bind_ok ran] at raised
      dsimp only at raised
      rw [Interp.bind_ok given] at raised
      dsimp only at raised
      cases ended : result.behind? with
      | none =>
          rw [ended] at raised
          cases raised
      | some behind =>
          rw [ended] at raised
          exact replace_atomic fits _ _ _ _ here raised

/-- A call with the binary `#{01}` as its first argument and 300 as its second. -/
def sampleOverflow : Machine :=
  let binary := (Heap.empty 100).alloc (Series.ofBytes #[1])
  let call := binary.2.alloc (Series.ofCells
    #[Cell.blank, Cell.series .binary binary.1 0, Cell.integer 300, Cell.blank, Cell.null,
      Cell.blank, Cell.blank, Cell.null])
  { config := {}, heap := call.2, frames := #[{ feed := 0, varlist := some call.1 }],
    countdown := 1 }

theorem unchanged_of_error_sampleOverflow :
    ∃ error next, Library.append idle 0 sampleOverflow = .error (.error error) next ∧
      ∃ s, next.heap.get? ⟨0⟩ = some s ∧ s.content = .binary #[1] := by
  refine ⟨_, _, rfl, ?_⟩
  have noVarargs (c : Cell) (varargs : Varargs)
      (given : Query.arg 0 1 sampleOverflow = .ok c) : c.payload ≠ .varargs varargs := by
    cases given
    nofun
  have live : sampleOverflow.heap.get? ⟨0⟩ = some (Series.ofBytes #[1]) := rfl
  have edits : Edits (Library.append idle 0) sampleOverflow sampleOverflow :=
    .action List.mem_cons_self noVarargs
  exact unchanged_of_error edits rfl live

end Homoicon
