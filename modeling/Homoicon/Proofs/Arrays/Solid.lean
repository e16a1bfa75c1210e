import Homoicon.Proofs.Keeping.Series

/-!
# Arrays without gaps

Null and the end marker stand for the absence of a value and are not values that an array holds.
The actions that edit arrays refuse them or leave them out, so an array without them stays so.
-/

open Std.Do

set_option mvcgen.warning false

namespace Homoicon

/-- A value, neither null nor the end marker. -/
def Cell.IsValue (c : Cell) : Prop := c.isNull = false ∧ c.isEnd = false

theorem Cell.IsValue.copied {c : Cell} (value : c.IsValue) : c.copied.IsValue := value

theorem Cell.IsValue.atIndex {c : Cell} (value : c.IsValue) {index : Nat} :
    (c.atIndex index).IsValue := by
  unfold Cell.atIndex
  split <;> exact value

/-- A blank in the place of null is a value. -/
theorem Cell.isValue_collected {c : Cell} (there : ¬(c.isEnd || c.stale) = true) :
    (if c.isNull then Cell.blank else c.copied).IsValue := by
  split
  · exact ⟨rfl, rfl⟩
  · rename_i present
    refine ⟨Bool.eq_false_iff.mpr present, Bool.eq_false_iff.mpr fun ended => there ?_⟩
    rw [show c.isEnd = true from ended, Bool.true_or]

/-- Belongs to no other series and holds values only, if it is an array. -/
def Series.Trait.solid : Series.Trait where
  holds s := s.link = .none ∧ ∀ cells, s.content = .array cells → ∀ c ∈ cells, c.IsValue
  withFlags _ here := here

/-- An array has no gaps. -/
abbrev Law.solid (id : SeriesId) : Law := .of id .solid

/-! ## Elements of edited arrays -/

namespace Interp

variable {α : Type} {a : α}

theorem mem_extract {xs : Array α} {start stop : Nat} (member : a ∈ xs.extract start stop) :
    a ∈ xs := by
  obtain ⟨k, inside, rfl⟩ := Array.mem_extract_iff_getElem.mp member
  exact Array.getElem_mem _

theorem mem_appendList {xs : Array α} {items : List α} (member : a ∈ xs ++ items) :
    a ∈ xs ∨ a ∈ items := by
  rw [← Array.mem_toList_iff, Array.toList_appendList, List.mem_append] at member
  exact member.imp_left Array.mem_toList_iff.mp

theorem mem_splice {xs : Array α} {at_ : Nat} {items : List α} (member : a ∈ splice xs at_ items) :
    a ∈ xs ∨ a ∈ items := by
  unfold splice at member
  simp only [Array.appendList_eq_append] at member
  split at member
  · exact mem_appendList member
  · obtain front | back := Array.mem_append.mp member
    · exact (mem_appendList front).imp_left mem_extract
    · exact .inl (mem_extract back)

theorem mem_cut {xs : Array α} {start stop : Nat} (member : a ∈ cut xs start stop) : a ∈ xs := by
  obtain front | back := Array.mem_append.mp member
  · exact mem_extract front
  · exact mem_extract back

theorem mem_repeated {items : List α} {times : Nat} (member : a ∈ repeated items times) :
    a ∈ items := by
  unfold repeated at member
  split at member
  · cases member
  · obtain ⟨part, listed, inside⟩ := List.mem_flatten.mp member
    exact List.eq_of_mem_replicate listed ▸ inside

theorem mem_bounded {items : List α} {part : Option Nat} (member : a ∈ bounded items part) :
    a ∈ items := by
  cases part with
  | none => exact member
  | some n => exact List.mem_of_mem_take member

end Interp

/-- What a value brings into an array has no gaps: it is no end marker, and if it is an array, that
array holds values only. -/
def Cell.Fits (c : Cell) (m : Machine) : Prop :=
  c.isEnd = false ∧ ∀ array cells, c.seriesId? = some array → Query.cells array m = .ok cells →
    ∀ item ∈ cells, item.IsValue

theorem Cell.fits_of_scalar {c : Cell} {m : Machine} (real : c.isEnd = false)
    (scalar : c.seriesId? = none) : c.Fits m := by
  refine ⟨real, fun array cells there => ?_⟩
  rw [scalar] at there
  cases there

namespace Solid

open Law Interp Series.Trait

variable {id : SeriesId}

theorem allows_mapCells {change : Array Cell → Array Cell}
    (kept : ∀ cells : Array Cell, (∀ c ∈ cells, c.IsValue) → ∀ c ∈ change cells, c.IsValue) :
    Series.Trait.solid.Allows (Series.mapCells change) := by
  rintro ⟨flags, content, link, role⟩ ⟨unlinked, values⟩
  cases content with
  | array cells =>
      refine ⟨unlinked, ?_⟩
      rintro _ ⟨⟩
      exact kept cells (values cells rfl)
  | text buffer => exact ⟨unlinked, values⟩
  | binary bytes => exact ⟨unlinked, values⟩

theorem allows_mapText (change : Text.Buffer → Text.Buffer) :
    Series.Trait.solid.Allows (Series.mapText change) := by
  rintro ⟨flags, content, link, role⟩ ⟨unlinked, values⟩
  cases content with
  | array cells => exact ⟨unlinked, values⟩
  | text buffer => exact ⟨unlinked, nofun⟩
  | binary bytes => exact ⟨unlinked, values⟩

theorem allows_mapBytes (change : Array UInt8 → Array UInt8) :
    Series.Trait.solid.Allows (Series.mapBytes change) := by
  rintro ⟨flags, content, link, role⟩ ⟨unlinked, values⟩
  cases content with
  | array cells => exact ⟨unlinked, values⟩
  | text buffer => exact ⟨unlinked, values⟩
  | binary bytes => exact ⟨unlinked, nofun⟩

theorem allows_store {c : Cell} (value : c.IsValue) (index : Nat) :
    Series.Trait.solid.Allows (Series.mapCells (·.modify index fun _ => c)) := by
  refine allows_mapCells fun cells values item member => ?_
  obtain ⟨place, inside, rfl⟩ := Array.mem_iff_getElem.mp member
  rw [Array.getElem_modify]
  split
  · exact value
  · exact values _ (Array.getElem_mem _)

theorem allows_cut (start stop : Nat) :
    Series.Trait.solid.Allows (Series.mapCells (cut · start stop)) :=
  allows_mapCells fun _ values _ member => values _ (mem_cut member)

theorem allows_splice {items : List Cell} (fresh : ∀ c ∈ items, c.IsValue) (at_ : Nat) :
    Series.Trait.solid.Allows (Series.mapCells (splice · at_ items)) :=
  allows_mapCells fun _ values c member => (mem_splice member).elim (values c) (fresh c)

/-! ## Reading -/

theorem values_of_solid {m : Machine} {cells : Array Cell} (here : m.Obeys (.solid id))
    (found : Query.cells id m = .ok cells) : ∀ c ∈ cells, c.IsValue := by
  obtain ⟨s, live, -, values⟩ := here
  obtain ⟨_, same, content⟩ := Query.cells_eq_ok.mp found
  obtain rfl := Option.some.inj (live.symm.trans same)
  exact values cells content

/-- A cell that is read from the array is a value. -/
theorem cell_solid (array : SeriesId) (index : Nat) :
    ⦃fun m => ⌜m.Obeys (.solid id)⌝⦄
    (MonadLift.monadLift (Query.cell array index) : Interp Cell)
    ⦃post⟨fun c m => ⌜m.Obeys (.solid id) ∧ (array = id → c.IsValue)⌝,
      fun _ m => ⌜m.Obeys (.solid id)⌝⟩⦄ := by
  refine answered _ (fun m c here answer => ⟨here, ?_⟩) fun _ here => here
  rintro rfl
  obtain ⟨held, found, there⟩ := Query.cell_eq_ok.mp answer
  exact values_of_solid here found c (Array.mem_of_getElem? there)

/-! ## Putting values in -/

section

@[local spec 20000]
theorem derelativize_solid (c : Cell) (specifier : Specifier) :
    ⦃fun m => ⌜m.Obeys (.solid id)⌝⦄ derelativize c specifier
    ⦃post⟨fun resolved m => ⌜m.Obeys (.solid id) ∧ (c.IsValue → resolved.IsValue)⌝,
      fun _ m => ⌜m.Obeys (.solid id)⌝⟩⦄ := by
  unfold derelativize
  mvcgen
  · rename_i here
    exact ⟨here, fun value => value⟩
  · rename_i here
    exact ⟨here, fun value => value⟩

theorem mapM_derelativize_solid (cells : List Cell) (specifier : Specifier) :
    ⦃fun m => ⌜m.Obeys (.solid id)⌝⦄ cells.mapM (derelativize · specifier)
    ⦃post⟨fun items m => ⌜m.Obeys (.solid id) ∧
        ((∀ c ∈ cells, c.IsValue) → ∀ c ∈ items, c.IsValue)⌝,
      fun _ m => ⌜m.Obeys (.solid id)⌝⟩⦄ := by
  induction cells with
  | nil =>
      rw [List.mapM_nil]
      mvcgen
      rename_i here
      exact ⟨here, fun _ _ member => absurd member List.not_mem_nil⟩
  | cons cell cells ih =>
      rw [List.mapM_cons]
      mvcgen [-mapM_keeping, -mapM_calm, ih]
      · exact And.left ‹_›
      · rename_i first others _ here
        refine ⟨here.1, fun values => List.forall_mem_cons.mpr ⟨?_, here.2 ?_⟩⟩
        · exact first.2 (values cell List.mem_cons_self)
        · exact fun c member => values c (List.mem_cons_of_mem cell member)

end

theorem values_of_fits {value : Cell} {m : Machine} {array : SeriesId} {index : Nat}
    {cells : List Cell} (fits : value.Fits m) (found : Query.arrayOf value m = .ok array)
    (read : Query.cellsFrom array index m = .ok cells) : ∀ c ∈ cells, c.IsValue := by
  have arrayed : value.seriesId? = some array := by
    cases there : value.seriesId? with
    | none => rw [Query.arrayOf, there] at found; cases found
    | some other => rw [Query.arrayOf, there] at found; exact congrArg some (Except.ok.inj found)
  obtain ⟨held, all, rest⟩ := Query.bind_eq_ok.mp read
  obtain rfl := Except.ok.inj rest
  exact fun c member => fits.2 array held arrayed all c
    (Array.mem_toList_iff.mp (List.mem_of_mem_drop member))

@[scoped spec 20000]
theorem insertionItems_solid (value : Cell) (only : Bool) :
    ⦃fun m => ⌜m.Obeys (.solid id) ∧ value.Fits m⌝⦄ insertionItems value only
    ⦃post⟨fun items m => ⌜m.Obeys (.solid id) ∧ (value.isNull = false → ∀ c ∈ items, c.IsValue)⌝,
      fun _ m => ⌜m.Obeys (.solid id)⌝⟩⦄ := by
  unfold insertionItems
  split
  · refine Triple.bind _ _ (asked (Query.arrayOf value) fun _ before => before.1) fun array => ?_
    refine Triple.bind _ _ (asked (Query.cellsFrom array value.index) fun _ before => before.1.1)
      fun cells => ?_
    mvcgen [-mapM_keeping, -mapM_calm, mapM_derelativize_solid]
    · rename_i before
      exact before.1.1.1
    · rename_i before items _
      have values := values_of_fits before.1.1.2 before.1.2 before.2
      exact fun here resolved => ⟨here, fun _ => resolved values⟩
  · mvcgen
    rename_i before
    refine ⟨before.1, fun given item member => ?_⟩
    obtain rfl := List.mem_singleton.mp member
    exact ⟨given, before.2.1⟩

theorem insertAt_solid (series : Cell) (at_ : Nat) {value : Cell} (given : value.isNull = false)
    (only : Bool) (part : Option Nat) (times : Nat) :
    ⦃fun m => ⌜m.Obeys (.solid id) ∧ value.Fits m⌝⦄ insertAt series at_ value only part times
    ⦃post⟨fun _ m => ⌜m.Obeys (.solid id)⌝, fun _ m => ⌜m.Obeys (.solid id)⌝⟩⦄ := by
  unfold insertAt
  refine Triple.bind _ _ (reading (Query.arrayOf series) fun _ before => before.1) fun array => ?_
  refine Triple.bind _ _ (reading (Query.checkMutable array) fun _ before => before.1) fun _ => ?_
  refine Triple.bind _ _ (reading (Query.size array) fun _ before => before.1) fun size => ?_
  mvcgen
  case vc2 =>
    rename_i items _ _ read
    have fresh : ∀ c ∈ items, c.IsValue := read.2 given
    exact fun _ => allows_splice (fun c member => fresh c (mem_bounded (mem_repeated member))) _
  case vc5 => exact fun _ => allows_mapBytes _
  case vc9 => exact fun _ => allows_mapText _
  all_goals exact And.left ‹_›

/-! ## Taking values out -/

@[scoped spec high]
theorem removeSpan_solid (series : Cell) (at_ count : Nat) :
    Keeping (.solid id) (removeSpan series at_ count) := by
  unfold removeSpan
  mvcgen
  · exact fun _ => allows_cut _ _
  · exact fun _ => allows_mapBytes _
  · exact fun _ => allows_mapText _

/-! ## Poking -/

section Poking

variable (current picker : Cell)

@[scoped spec high]
theorem arrayStep_solid (setval : Option Cell) (real : ∀ value ∈ setval, value.isEnd = false) :
    Keeping (.solid id) (Path.arrayStep current picker setval) := by
  unfold Path.arrayStep
  mvcgen
  all_goals
    rename_i stored _ present _ _ _ _ _
    exact fun _ => allows_store
      (Cell.IsValue.copied ⟨Bool.eq_false_iff.mpr present, real _ stored⟩) _

@[scoped spec high]
theorem stringStep_solid (setval : Option Cell) :
    Keeping (.solid id) (Path.stringStep current picker setval) := by
  unfold Path.stringStep
  mvcgen
  exact fun _ => allows_mapText _

@[scoped spec high]
theorem binaryStep_solid (setval : Option Cell) :
    Keeping (.solid id) (Path.binaryStep current picker setval) := by
  unfold Path.binaryStep
  mvcgen
  exact fun _ => allows_mapBytes _

@[scoped spec high]
theorem contextStep_solid (setval : Option Cell) :
    Keeping (.solid id) (Path.contextStep current picker setval) := by
  refine contextStep_of ?_ current picker setval
  exact fun _ ⟨unlinked, _⟩ => unlinked

@[scoped spec high]
theorem step_solid (setval : Option Cell) (real : ∀ value ∈ setval, value.isEnd = false) :
    Keeping (.solid id) (Path.step current picker setval) := by
  unfold Path.step Path.pairStep Path.tupleStep Path.dateStep Path.timeStep
  mvcgen
  exact fun _ _ => real

@[scoped spec high]
theorem pick_solid : Keeping (.solid id) (Path.pick current picker) := by
  unfold Path.pick
  mvcgen

@[scoped spec high]
theorem poke_solid {value : Cell} (real : value.isEnd = false) :
    Keeping (.solid id) (Path.poke current picker value) := by
  unfold Path.poke
  mvcgen
  exact fun _ member => Option.some.inj member ▸ real

end Poking

/-! ## Actions -/

/-- All arguments of a call bring no gaps into an array. -/
def Given (f : FrameId) (m : Machine) : Prop := ∀ n c, Query.arg f n m = .ok c → c.Fits m

/-- An argument brings no gaps into an array. -/
theorem arg_solid (f : FrameId) (n : Nat) :
    ⦃fun m => ⌜m.Obeys (.solid id) ∧ Given f m⌝⦄
    (MonadLift.monadLift (Query.arg f n) : Interp Cell)
    ⦃post⟨fun c m => ⌜m.Obeys (.solid id) ∧ c.Fits m⌝, fun _ m => ⌜m.Obeys (.solid id)⌝⟩⦄ :=
  answered _ (fun _ c before answer => ⟨before.1, before.2 n c answer⟩) fun _ before => before.1

theorem insertWith_solid (place : Cell → Query Nat) (result : Cell → Nat → Nat) (e : Engine)
    (f : FrameId) :
    ⦃fun m => ⌜m.Obeys (.solid id) ∧ Given f m⌝⦄ Library.insertWith place result e f
    ⦃post⟨fun _ m => ⌜m.Obeys (.solid id)⌝, fun _ m => ⌜m.Obeys (.solid id)⌝⟩⦄ := by
  unfold Library.insertWith
  refine Triple.bind _ _ (reading (Query.arg f 1) fun _ before => before.1) fun series => ?_
  refine Triple.bind _ _ (arg_solid f 2) fun value => ?_
  by_cases absent : value.isNull = true
  · simp only [absent, if_true]
    mvcgen
    exact And.left ‹_›
  · simp only [absent]
    refine Triple.bind _ _ (reading _ fun _ before => before.1) fun only => ?_
    refine Triple.bind _ _ (reading _ fun _ before => before.1) fun part => ?_
    refine Triple.bind _ _ (reading _ fun _ before => before.1) fun times => ?_
    refine Triple.bind _ _ (reading _ fun _ before => before.1) fun at_ => ?_
    have present : value.isNull = false := Bool.eq_false_iff.mpr absent
    refine Triple.bind _ _ (insertAt_solid series at_ present only part times) fun behind => ?_
    mvcgen

theorem pokeAction_solid (e : Engine) (f : FrameId) :
    ⦃fun m => ⌜m.Obeys (.solid id) ∧ Given f m⌝⦄ Library.poke e f
    ⦃post⟨fun _ m => ⌜m.Obeys (.solid id)⌝, fun _ m => ⌜m.Obeys (.solid id)⌝⟩⦄ := by
  unfold Library.poke
  refine Triple.bind _ _ (arg_solid f 3) fun value => ?_
  mvcgen
  · exact And.left ‹_›
  · rename_i fits _ _ _ _ _ _
    exact fits.2.1

theorem clear_solid (e : Engine) (f : FrameId) :
    Keeping (.solid id) (Library.clear e f) := by
  unfold Library.clear
  mvcgen

theorem remove_solid (e : Engine) (f : FrameId) :
    Keeping (.solid id) (Library.remove e f) := by
  unfold Library.remove
  mvcgen

theorem takeFromCall_solid {e : Engine} (safe : e.Keeps (.solid id)) (f : FrameId)
    (p : Typeset) : Keeping (.solid id) (Varargs.takeFromCall e f p) := by
  have ran := Engine.evalSubframe_keeping safe
  unfold Varargs.takeFromCall
  mvcgen [ran]

theorem takeVarargs_solid {e : Engine} (safe : e.Keeps (.solid id)) (varargs : Varargs) :
    Keeping (.solid id) (varargs.take e) := by
  have called := takeFromCall_solid safe
  cases varargs with
  | frame varlist param =>
      unfold Varargs.take
      mvcgen [called]
  | array holder paramlist index =>
      unfold Varargs.take
      refine Triple.bind _ _ (cell_solid holder 0) fun block => ?_
      mvcgen
      · exact And.left ‹_›
      · rename_i read _ _ _ _ _ _ _ _
        exact fun same => allows_store (read.2 same).atIndex _

theorem take_solid {e : Engine} (safe : e.Keeps (.solid id)) (f : FrameId) :
    Keeping (.solid id) (Library.take e f) := by
  have variadic := takeVarargs_solid safe
  unfold Library.take Library.takeVariadic
  mvcgen [variadic]

/-- An action that edits series leaves an array without gaps that has none, if its arguments bring
none in and the code that it evaluates makes none. -/
theorem editor_solid {action : Engine → FrameId → Interp Bounce} (listed : action ∈ editors)
    {e : Engine} (safe : e.Keeps (.solid id)) {f : FrameId} {m : Machine}
    (here : m.Obeys (.solid id)) (given : Given f m) :
    ((action e f).final m).Obeys (.solid id) := by
  simp only [editors, List.mem_cons, List.not_mem_nil, or_false] at listed
  obtain rfl | rfl | rfl | rfl | rfl | rfl := listed
  · exact final_of_triple (insertWith_solid _ _ e f) ⟨here, given⟩
  · exact final_of_triple (insertWith_solid _ _ e f) ⟨here, given⟩
  · exact final_of_triple (pokeAction_solid e f) ⟨here, given⟩
  · exact final_of_triple (take_solid safe f) here
  · exact final_of_triple (remove_solid e f) here
  · exact final_of_triple (clear_solid e f) here

/-! ## Collecting values -/

section

variable {α : Type} {a : α} {m next : Machine}

theorem of_guarding {body : Interp α} (ran : guarding body m = .ok a next) :
    ∃ before after, body before = .ok a after := by
  obtain ⟨_, before, -, ran⟩ := bind_eq_ok.mp ran
  obtain ⟨_, after, inner, ran⟩ := bind_eq_ok.mp ran
  obtain ⟨_, _, -, ran⟩ := bind_eq_ok.mp ran
  cases ran
  exact ⟨before, after, inner⟩

theorem of_withFeed {feed : Feed} {body : FeedId → Interp α}
    (ran : withFeed feed body m = .ok a next) :
    ∃ id before after, body id before = .ok a after := by
  obtain ⟨id, before, -, ran⟩ := bind_eq_ok.mp ran
  obtain ⟨_, after, inner, ran⟩ := bind_eq_ok.mp ran
  obtain ⟨_, _, -, ran⟩ := bind_eq_ok.mp ran
  cases ran
  exact ⟨id, before, after, inner⟩

theorem of_withFrame {frame ended : Frame} {body : FrameId → Interp α}
    (ran : withFrame frame body m = .ok (a, ended) next) :
    ∃ f before after, body f before = .ok a after := by
  obtain ⟨f, before, -, ran⟩ := bind_eq_ok.mp ran
  obtain ⟨_, after, inner, ran⟩ := bind_eq_ok.mp ran
  obtain ⟨_, _, -, ran⟩ := bind_eq_ok.mp ran
  cases ran
  exact ⟨f, before, after, inner⟩

end

/-- What REDUCE collects in a round is a value. -/
theorem reduceRest_values {e : Engine} {f : FrameId} {feed : FeedId} {rounds : Nat}
    {reversed items : List Cell} {m next : Machine} (collected : ∀ c ∈ reversed, c.IsValue)
    (ran : e.reduceRest f feed rounds reversed m = .ok (some items) next) :
    ∀ c ∈ items, c.IsValue := by
  induction rounds generalizing reversed m with
  | zero => cases ran
  | succ rounds ih =>
      unfold Engine.reduceRest at ran
      obtain ⟨input, -, ran⟩ := lift_bind_eq_ok.mp ran
      simp only at ran
      split at ran
      · cases ran
        exact fun c member => collected c (List.mem_reverse.mp member)
      · obtain ⟨_, _, -, ran⟩ := bind_eq_ok.mp ran
        obtain ⟨threw, _, -, ran⟩ := bind_eq_ok.mp ran
        split at ran
        · cases ran
        · obtain ⟨value, -, ran⟩ := lift_bind_eq_ok.mp ran
          split at ran
          · exact ih collected ran
          · obtain ⟨_, _, -, ran⟩ := bind_eq_ok.mp ran
            refine ih (List.forall_mem_cons.mpr ⟨?_, collected⟩) ran
            exact Cell.isValue_collected ‹_›

/-- REDUCE makes a block of values, whatever the expressions of the array come to. -/
theorem reduce_values {e : Engine} {array : SeriesId} {index : Nat} {specifier : Specifier}
    {m next : Machine} {block : Cell}
    (ran : e.reduce array index specifier m = .ok (some block) next) :
    ∃ made cells, block = Cell.series .block made 0 ∧ Query.cells made next = .ok cells ∧
      ∀ c ∈ cells, c.IsValue := by
  unfold Engine.reduce at ran
  obtain ⟨input, -, ran⟩ := lift_bind_eq_ok.mp ran
  obtain ⟨⟨collected, frame⟩, ended, guarded, ran⟩ := bind_eq_ok.mp ran
  obtain ⟨_, _, fed⟩ := of_guarding guarded
  obtain ⟨feed, _, _, framed⟩ := of_withFeed fed
  obtain ⟨f, _, _, rounds⟩ := of_withFrame framed
  cases collected with
  | none => cases ran
  | some items =>
      let new := (Series.ofCells items.toArray).managed
      have made : (some <$> arrayCell .block items) ended =
          .ok (some (Cell.series .block (ended.heap.alloc new).1 0))
            { ended with heap := (ended.heap.alloc new).2 } := rfl
      cases made.symm.trans ran
      refine ⟨_, items.toArray, rfl, Query.cells_eq_ok.mpr ⟨new, ?_, rfl⟩, ?_⟩
      · exact (Heap.get?_alloc ended.heap new _).trans (if_pos rfl)
      · simpa using reduceRest_values (fun _ member => absurd member List.not_mem_nil) rounds

/-! ## Arrays without gaps -/

/-- An action that edits series leaves an array without gaps that has none, if its arguments bring
none in and the code that it evaluates makes none; and the block that REDUCE makes has none. -/
theorem solid_of_editor {e : Engine} {m : Machine} :
    (∀ {action : Engine → FrameId → Interp Bounce}, action ∈ editors →
      ∀ {id : SeriesId}, e.Keeps (.solid id) → ∀ {f : FrameId},
        m.Obeys (.solid id) → Given f m → ((action e f).final m).Obeys (.solid id)) ∧
    ∀ {array : SeriesId} {index : Nat} {specifier : Specifier} {next : Machine} {block : Cell},
      e.reduce array index specifier m = .ok (some block) next →
      ∃ made cells, block = Cell.series .block made 0 ∧ Query.cells made next = .ok cells ∧
        ∀ c ∈ cells, c.IsValue :=
  ⟨fun listed _ safe _ here given => editor_solid listed safe here given, reduce_values⟩

/-- A call with the array `[1]` as its first argument and 2 as its second. -/
def sampleShelving : Machine :=
  let array := (Heap.empty 100).alloc (Series.ofCells #[Cell.integer 1])
  let call := array.2.alloc (Series.ofCells
    #[Cell.blank, Cell.series .block array.1 0, Cell.integer 2, Cell.blank, Cell.null, Cell.blank,
      Cell.blank, Cell.null])
  { config := {}, heap := call.2, frames := #[{ feed := 0, varlist := some call.1 }],
    countdown := 1 }

theorem solid_sampleShelving : sampleShelving.Obeys (.solid ⟨0⟩) := by
  refine ⟨_, rfl, rfl, ?_⟩
  rintro _ ⟨⟩ c member
  obtain rfl := List.mem_singleton.mp (Array.mem_toList_iff.mpr member)
  exact ⟨rfl, rfl⟩

theorem given_sampleShelving : Given 0 sampleShelving := by
  intro n c answer
  have answer : Query.cell ⟨1⟩ n sampleShelving = .ok c := answer
  obtain ⟨held, found, there⟩ := Query.cell_eq_ok.mp answer
  cases found
  have member := Array.mem_toList_iff.mpr (Array.mem_of_getElem? there)
  simp only [List.mem_cons, List.not_mem_nil, or_false] at member
  obtain rfl | rfl | rfl | rfl | rfl | rfl | rfl | rfl := member
  case inr.inl =>
    refine ⟨rfl, ?_⟩
    rintro _ _ ⟨⟩ found
    exact values_of_solid solid_sampleShelving found
  all_goals exact Cell.fits_of_scalar rfl rfl

theorem solid_of_editor_sampleShelving :
    (∃ next, Library.insert idle 0 sampleShelving = .ok .out next) ∧
      ((Library.insert idle 0).final sampleShelving).Obeys (.solid ⟨0⟩) :=
  ⟨⟨_, rfl⟩, solid_of_editor.1 (List.mem_cons_of_mem _ List.mem_cons_self) (idle_keeps _)
    solid_sampleShelving given_sampleShelving⟩

end Solid

end Homoicon
