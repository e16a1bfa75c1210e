import Homoicon.Library.Function
import Homoicon.Library.Loop
import Homoicon.Proofs.Copying.Blocks
import Homoicon.Proofs.Editing.Failing
import Homoicon.Proofs.Refining

/-!
# Making code leaves its source alone

Functions, loops with variables of their own, objects and calls with arguments assigned by name run
a copy of a block whose words are bound anew.  Up to the moment the copy runs, every series that
was there before has its content, but for the arrays that a quoted array in the block leads to.
-/

open Std.Do

set_option mvcgen.warning false

namespace Homoicon

namespace Copying

open Law Interp

variable {α : Type} {old : Machine} {start : Cell → Prop}

/-! ## Loops -/

@[local spec 20000]
theorem pick_fenced (current picker : Cell) :
    Keeping (.fenced old start) (Path.pick current picker) :=
  fenced_of_each fun _ _ => Editing.pick_of current picker

theorem nextRepeat_fenced {context : SeriesId} (new : old.heap.get? context = none) (value : Cell)
    (total count : Int) :
    Keeping (.fenced old start) (Library.nextRepeat context value total count) := by
  unfold Library.nextRepeat
  mvcgen

theorem nextEach_fenced {context : SeriesId} (new : old.heap.get? context = none) (data : Cell)
    (width : Nat) (count : Int) :
    Keeping (.fenced old start) (Library.nextEach context data width count) := by
  unfold Library.nextEach Library.roundItems? Library.itemsAt
  mvcgen
  all_goals exact fun _ _ => new

section Rounds

variable {e : Engine} (safe : e.Keeps (.fenced old start))

include safe

theorem rounds_fenced {advance : Int → Interp (Option Bool)}
    (kept : ∀ count, Keeping (.fenced old start) (advance count)) (body : Cell) (fuel : Nat)
    (count : Int) (last : Cell) :
    Keeping (.fenced old start) (Library.rounds e advance body fuel count last) := by
  have ran := Engine.doBlock_keeping safe
  induction fuel generalizing count last with
  | zero => exact obeys_of_fails _ (fun _ => rfl) _
  | succ fuel ih =>
      unfold Library.rounds Library.runBody Library.bodyThrown
      mvcgen [kept, ran, ih]

end Rounds

theorem withVariables_fenced (whole : old.Whole start) (f : FrameId) (names : List SymbolId)
    {body : Cell} (begins : Begins old start body) (run : SeriesId → Cell → Interp Library.Outcome)
    (kept : ∀ context bound, old.heap.get? context = none →
      Keeping (.fenced old start) (run context bound)) :
    Keeping (.fenced old start) (Library.withVariables f names body run) := by
  unfold Library.withVariables Library.giveOutcome
  mvcgen [kept]
  · exact And.left ‹_›
  · rename_i made _ _ _ _ _ _ _ _
    exact fun _ _ => made.2

/-! ## Arguments -/

/-- A computation that leaves the calls alone if it ends well. -/
def Aside (x : Interp α) : Prop := ∀ ⦃m a next⦄, x m = .ok a next → next.frames = m.frames

namespace Aside

variable {β : Type}

theorem pure (a : α) : Aside (Pure.pure a) := by
  rintro _ _ _ ⟨⟩
  rfl

theorem bind {x : Interp α} {f : α → Interp β} (first : Aside x) (later : ∀ a, Aside (f a)) :
    Aside (x >>= f) := by
  intro m b last done
  obtain ⟨a, next, ran, done⟩ := bind_eq_ok.mp done
  exact (later a done).trans (first ran)

theorem lift (q : Query α) : Aside (liftM q : Interp α) := by
  intro m a next done
  rw [lift_run] at done
  cases answer : q m with
  | ok b =>
      rw [answer] at done
      cases done
      rfl
  | error fault =>
      rw [answer] at done
      cases done

theorem alloc (s : Series) : Aside (Interp.alloc s) := by
  rintro _ _ _ ⟨⟩
  rfl

theorem storeCell (id : SeriesId) (index : Nat) (c : Cell) :
    Aside (Interp.storeCell id index c) := by
  intro m _ next done
  obtain ⟨-, -, -, rfl⟩ := storeCell_eq_ok.mp done
  rfl

theorem makeContext (kind : Kind) (keys : List SymbolId) : Aside (Interp.makeContext kind keys) :=
  .bind (.alloc _) fun _ => .bind (.alloc _) fun _ => .bind (.storeCell _ _ _) fun _ => .pure _

theorem makeExemplar (action : Action) (binding : Binding) :
    Aside (Interp.makeExemplar action binding) := by
  refine .bind (.lift _) fun base => .bind (.lift _) fun count => .bind (.lift _) fun found => ?_
  have filled (padded : Array Cell) : Aside (do
      let ex ← Interp.alloc
        { (Series.ofCells padded).withFlags (Flags.varlist ||| Flags.managed) with
          link := .keylist base }
      Interp.storeCell ex 0 (Cell.frame ex action binding)
      Pure.pure ex) := .bind (.alloc _) fun _ => .bind (.storeCell _ _ _) fun _ => .pure _
  cases found with
  | none => exact .bind (.pure _) fun cells => filled _
  | some ex => exact .bind (.lift _) fun cells => filled _

theorem arrayCell (kind : Kind) (cells : List Cell) : Aside (Interp.arrayCell kind cells) :=
  .bind (.alloc _) fun _ => .pure _

theorem refuseArg_fails (f : FrameId) (n : Nat) : Fails (refuseArg f n : Interp α) := by
  have failing (name : String) : Fails (do
      let c ← liftM (Query.arg f n)
      fail (.expectArg (← liftM (Query.frameLabel f)) name c.typeName) : Interp α) :=
    Yields.bind fun _ => Yields.bind fun _ => Fails.fail _
  refine Yields.bind fun fr => ?_
  cases fr.phase with
  | none => exact Yields.bind fun name => failing name
  | some phase =>
      exact Yields.bind fun _ => Yields.bind fun _ => Yields.bind fun name => failing name

theorem actionArg (f : FrameId) (n : Nat) : Aside (Library.actionArg f n) := by
  refine .bind (.lift _) fun c => ?_
  cases c.asAction? with
  | some action => exact .pure _
  | none =>
      intro m a next done
      exact (refuseArg_fails f n done).elim

end Aside

/-- A series that an action has put on the heap is none of its arguments. -/
theorem arg_behind {m next : Machine} {f : FrameId} {n : Nat} {c : Cell}
    (given : Query.arg f n m = .ok c) (frames : next.frames = m.frames)
    (here : next.Obeys (.fenced m fun _ => False)) : Query.arg f n next = .ok c := by
  have nothing (c : Cell) : ¬ m.Copied (fun _ => False) c := by
    intro copied
    induction copied with
    | start first => exact first
    | inner _ _ _ _ _ ih => exact ih
  obtain ⟨varlist, running, held⟩ := Query.bind_eq_ok.mp given
  obtain ⟨fr, framed, named⟩ := Query.bind_eq_ok.mp running
  obtain ⟨cells, found, there⟩ := Query.cell_eq_ok.mp held
  obtain ⟨s, live, content⟩ := Query.cells_eq_ok.mp found
  obtain ⟨t, live', -, kept⟩ := here ⟨(varlist, s), live⟩
  have same : t.content = s.content :=
    kept (Machine.not_shared_of_plain (fun c copied => absurd copied (nothing c)) varlist)
  have framed : Query.frame f next = .ok fr := by
    rw [Query.frame, frames]
    exact framed
  have named : (expect fr.varlist : Query SeriesId) next = .ok varlist := by
    cases known : fr.varlist with
    | none =>
        rw [known] at named
        cases named
    | some id =>
        rw [known] at named
        exact named
  have running : Query.frameVarlist f next = .ok varlist := by
    rw [Query.frameVarlist, Query.bind_ok framed, named]
  rw [Query.arg, Query.bind_ok running]
  exact Query.cell_eq_ok.mpr ⟨cells, Query.cells_eq_ok.mpr ⟨t, live', same.trans content⟩, there⟩

/-! ## Actions -/

section Final

variable {β : Type} {law : Law} {m : Machine}

theorem final_obeys {x : Interp α} (kept : Keeping law x) (here : m.Obeys law) :
    (x.final m).Obeys law := final_of_triple kept here

theorem final_read {q : Query β} {g : β → Interp α} (here : m.Obeys law)
    (rest : ∀ b, q m = .ok b → ((g b).final m).Obeys law) :
    (((liftM q : Interp β) >>= g).final m).Obeys law := by
  rw [final, bind_run, lift_run]
  cases answer : q m with
  | ok b => exact rest b answer
  | error fault => exact here

theorem of_ok {x : Interp β} {after : β → Machine → Prop} {b : β} {next : Machine}
    (made : ⦃fun m => ⌜m.Obeys law⌝⦄ x
      ⦃post⟨fun b m => ⌜after b m⌝, fun _ m => ⌜m.Obeys law⌝⟩⦄) (here : m.Obeys law)
    (ran : x m = .ok b next) : after b next := by
  have behind := triple_iff.mp made m here
  rwa [ran] at behind

theorem final_behind {x : Interp β} {g : β → Interp α} {after : β → Machine → Prop}
    (made : ⦃fun m => ⌜m.Obeys law⌝⦄ x
      ⦃post⟨fun b m => ⌜after b m⌝, fun _ m => ⌜m.Obeys law⌝⟩⦄) (here : m.Obeys law)
    (rest : ∀ b next, x m = .ok b next → after b next → ((g b).final next).Obeys law) :
    ((x >>= g).final m).Obeys law := by
  have behind := triple_iff.mp made m here
  rw [final, bind_run]
  cases ran : x m with
  | ok b next =>
      rw [ran] at behind
      exact rest b next ran behind
  | error fault next =>
      rw [ran] at behind
      exact behind

end Final

@[local spec 20000]
theorem textCell_fenced (kind : Kind) (text : String) :
    Keeping (.fenced old start) (textCell kind text) :=
  fenced_of_each fun id trait => Series.Trait.textCell_of id trait kind text

@[local spec 20000]
theorem arrayCell_fenced (kind : Kind) (cells : List Cell) :
    Keeping (.fenced old start) (arrayCell kind cells) :=
  fenced_of_each fun id trait => Series.Trait.arrayCell_of id trait kind cells

theorem actionArg_fenced (f : FrameId) (n : Nat) :
    Keeping (.fenced old start) (Library.actionArg f n) := by
  unfold Library.actionArg refuseArg
  mvcgen

theorem makeExemplar_fenced (action : Action) (binding : Binding) :
    Keeping (.fenced old start) (makeExemplar action binding) := by
  unfold makeExemplar
  mvcgen
  all_goals first
    | exact And.left ‹_›
    | exact And.right ‹_›

theorem halted_keeps (e : Engine) (law : Law) : e.halted.Keeps law :=
  fun _ _ => obeys_of_fails law (fun _ => rfl) _

section Actions

variable (whole : old.Whole start) (e : Engine) {f : FrameId} {body : Cell}
  (begins : Begins old start body)

include whole begins

@[local spec 20000]
theorem makeFunction_fenced (spec : Cell) :
    Keeping (.fenced old start) (Library.makeFunction f spec body) :=
  Triple.bind _ _ (makeFunc_fenced whole begins spec) fun _ => give_keeping _ f _

theorem func_fenced (given : Query.arg f 2 old = .ok body) :
    ((Library.func e f).final old).Obeys (.fenced old start) := by
  refine final_read fenced_self fun spec _ => final_read fenced_self fun block answer => ?_
  obtain rfl : body = block := Except.ok.inj (given.symm.trans answer)
  exact final_obeys (makeFunction_fenced whole begins spec) fenced_self

theorem function_fenced (given : Query.arg f 2 old = .ok body) :
    ((Library.function e f).final old).Obeys (.fenced old start) := by
  refine final_read fenced_self fun spec _ => final_read fenced_self fun block answer => ?_
  obtain rfl : body = block := Except.ok.inj (given.symm.trans answer)
  refine final_obeys ?_ fenced_self
  mvcgen
  all_goals first
    | exact fun _ _ => whole
    | exact fun _ _ => begins

theorem does_fenced (given : Query.arg f 1 old = .ok body) :
    ((Library.does e f).final old).Obeys (.fenced old start) := by
  refine final_behind (arrayCell_fenced _ _) fenced_self fun spec next ran here => ?_
  have given := arg_behind given (Aside.arrayCell _ _ ran)
    (obeys_of_ok (arrayCell_fenced _ _) fenced_self ran)
  refine final_read here fun block answer => ?_
  obtain rfl : body = block := Except.ok.inj (given.symm.trans answer)
  exact final_obeys (makeFunction_fenced whole begins spec) here

theorem repeat_fenced (given : Query.arg f 3 old = .ok body) :
    ((Library.repeat_ e.halted f).final old).Obeys (.fenced old start) := by
  refine final_read fenced_self fun word _ => final_read fenced_self fun value _ =>
    final_read fenced_self fun names _ => final_read fenced_self fun block answer => ?_
  obtain rfl : body = block := Except.ok.inj (given.symm.trans answer)
  exact final_obeys (withVariables_fenced whole f names begins _ fun context bound new =>
    rounds_fenced (halted_keeps e _) (nextRepeat_fenced new value _) bound _ _ _) fenced_self

theorem forEach_fenced (given : Query.arg f 3 old = .ok body) :
    ((Library.forEach e.halted f).final old).Obeys (.fenced old start) := by
  refine final_read fenced_self fun data _ => final_read fenced_self fun word _ =>
    final_read fenced_self fun names _ => final_read fenced_self fun block answer => ?_
  obtain rfl : body = block := Except.ok.inj (given.symm.trans answer)
  exact final_obeys (withVariables_fenced whole f names begins _ fun context bound new =>
    rounds_fenced (halted_keeps e _) (nextEach_fenced new data _) bound _ _ _) fenced_self

theorem context_fenced (given : Query.arg f 1 old = .ok body) :
    ((Library.context e.halted f).final old).Obeys (.fenced old start) := by
  refine final_behind (makeContext_fenced .object []) fenced_self
    fun object next ran ⟨here, new⟩ => ?_
  have given := arg_behind given (Aside.makeContext _ _ ran)
    (of_ok (newContext_fenced _ _) fenced_self ran).1
  refine final_read here.1 fun block answer => ?_
  obtain rfl : body = block := Except.ok.inj (given.symm.trans answer)
  have objects : Keeping (.both (.fenced old start) (.of object (owned old))) (do
      if ← Library.runIn e.halted object body then Interp.give f (Cell.context .object object)
      else pure .thrown) := by
    have ran := runIn_fenced whole begins e.halted (halted_keeps e) new
    refine Triple.bind _ _ ran fun ended => ?_
    cases ended <;> mvcgen
  exact (final_obeys objects here).1

theorem assignArgs_fenced (exemplar : SeriesId) (action : Action) (binding : Binding) :
    Keeping (.fenced old start) (Library.assignArgs e.halted exemplar action binding body) := by
  have ran := Engine.doBlock_keeping (halted_keeps e (.fenced old start))
  unfold Library.assignArgs Engine.doGuarded
  mvcgen [ran]

end Actions

theorem assignArgs_fails (e : Engine) (exemplar : SeriesId) (action : Action) (binding : Binding)
    (body : Cell) : Fails (Library.assignArgs e.halted exemplar action binding body) :=
  Yields.bind fun _ => .first <| .guarding <| Yields.bind fun _ => Yields.bind fun _ =>
    e.halted_halts.doBlock _

section Arguments

variable (whole : old.Whole start) (e : Engine) {f : FrameId} {body : Cell}
  (begins : Begins old start body) (given : Query.arg f 2 old = .ok body)

include whole begins given

/-- The block that assigns arguments by name is still the same when its exemplar is made. -/
theorem assigning_fenced {next last : Machine} {action : Action} {binding : Binding}
    {exemplar : SeriesId} (ran : Library.actionArg f 1 old = .ok (action, binding) next)
    (made : makeExemplar action binding next = .ok exemplar last)
    (here : last.Obeys (.fenced old start)) (rest : Bool → Interp Bounce) :
    ((do
      rest (← Library.assignArgs e.halted exemplar action binding (← Query.arg f 2))
        : Interp Bounce).final last).Obeys (.fenced old start) := by
  have given := arg_behind given (Aside.actionArg _ _ ran)
    (obeys_of_ok (actionArg_fenced _ _) fenced_self ran)
  have given := arg_behind given (Aside.makeExemplar _ _ made)
    (obeys_of_ok (makeExemplar_fenced _ _) fenced_self made)
  refine final_read here fun block answer => ?_
  obtain rfl : body = block := Except.ok.inj (given.symm.trans answer)
  have assigned := assignArgs_fenced whole e begins exemplar action binding
  refine final_behind assigned here fun _ _ ran => ?_
  exact (assignArgs_fails e exemplar action binding body ran).elim

theorem specialize_fenced :
    ((Library.specialize_ e.halted f).final old).Obeys (.fenced old start) :=
  final_behind (actionArg_fenced f 1) fenced_self fun (action, binding) _ ran here =>
    final_behind (makeExemplar_fenced action binding) here fun _ _ made here =>
      assigning_fenced whole e begins given ran made here _

theorem apply_fenced : ((Library.apply e.halted f).final old).Obeys (.fenced old start) :=
  final_behind (actionArg_fenced f 1) fenced_self fun (action, binding) _ ran here =>
    final_behind (makeExemplar_fenced action binding) here fun _ _ made here =>
      assigning_fenced whole e begins given ran made here _

end Arguments

/-! ## MAKE -/

theorem makeContextValue_fenced (whole : old.Whole start) (e : Engine) (f : FrameId) (kind : Kind)
    {type spec : Cell}
    (inherits : ∀ parent, type.varlist? = some parent →
      ∃ vars, Query.cells parent old = .ok vars ∧ ∀ c ∈ vars, c.quote = 0 → start c)
    (begins : spec.is .block = true → Begins old start spec) :
    ((Library.makeContextValue e.halted f kind type spec).final old).Obeys (.fenced old start) := by
  have filled {context : SeriesId} (new : old.heap.get? context = none) :
      Keeping (.both (.fenced old start) (.of context (owned old))) (do
        if spec.is .block then
          if !(← Library.runIn e.halted context spec) then return .thrown
        else if !spec.isBlank then fail (.badMake kind.name (← Query.mold spec))
        give f (Cell.context kind context) : Interp Bounce) := by
    by_cases isBlock : spec.is .block = true
    · simp only [isBlock, if_true]
      refine Triple.bind _ _ (runIn_fenced whole (begins isBlock) e.halted (halted_keeps e) new)
        fun ended => ?_
      cases ended <;> mvcgen
    · simp only [isBlock]
      mvcgen
  unfold Library.makeContextValue
  cases inherited : if type.kind.isAnyContext then type.varlist? else none with
  | none =>
      exact final_behind (makeContext_fenced kind []) fenced_self fun context next _ ⟨here, new⟩ =>
        (final_obeys (filled new) here).1
  | some parent =>
      have named : type.varlist? = some parent := by
        split at inherited
        · exact inherited
        · cases inherited
      obtain ⟨vars, found, first⟩ := inherits parent named
      exact final_behind (copyContext_fenced whole found first) fenced_self
        fun context next _ ⟨here, new⟩ => (final_obeys (filled new) here).1

end Copying

/-- The actions that run a copy of a block, each with the place of the block among its arguments. -/
def binders : List ((Engine → FrameId → Interp Bounce) × Nat) :=
  [(Library.func, 2), (Library.function, 2), (Library.does, 1), (Library.repeat_, 3),
    (Library.forEach, 3), (Library.context, 1), (Library.specialize_, 2), (Library.apply, 2)]

/-- An action makes code when it is called in a frame.  The copy begins with the items of a block;
an object made from another one also copies the values of its variables. -/
inductive Makes (m : Machine) (f : FrameId) :
    (Engine → FrameId → Interp Bounce) → (Cell → Prop) → Prop where
  | code {run : Engine → FrameId → Interp Bounce} {place : Nat} {body : Cell} {items : List Cell}
      (listed : (run, place) ∈ binders) (given : Query.arg f place m = .ok body)
      (held : Query.items body m = .ok items) : Makes m f run (· ∈ items)
  | object {kind : Kind} {type spec : Cell} {items : List Cell} {vars : Array Cell}
      (givenType : Query.arg f 1 m = .ok type) (givenSpec : Query.arg f 2 m = .ok spec)
      (wanted : Library.wantedKind type spec m = .ok kind)
      (contextual : kind = .object ∨ kind = .module)
      (held : spec.is .block = true → Query.items spec m = .ok items)
      (inherited : ∀ parent, type.varlist? = some parent → Query.cells parent m = .ok vars) :
      Makes m f Library.make fun c => c ∈ items ∨ c ∈ vars ∧ c.quote = 0

open Copying Law Interp in
/-- Before the code runs that an action makes, every series that was there holds what it held, but
for the arrays that a quoted array in the source leads to. -/
theorem unchanged_before_code {m : Machine} {f : FrameId}
    {run : Engine → FrameId → Interp Bounce} {start : Cell → Prop} (makes : Makes m f run start)
    (whole : m.Whole start) {id : SeriesId} {held : Series} (live : m.heap.get? id = some held)
    (apart : ¬ m.Shared start id) (e : Engine) :
    ∃ s, ((run e.halted f).final m).heap.get? id = some s ∧ s.content = held.content := by
  suffices fence : ((run e.halted f).final m).Obeys (.fenced m start) by
    obtain ⟨s, there, -, kept⟩ := fence ⟨(id, held), live⟩
    exact ⟨s, there, kept apart⟩
  cases makes with
  | @code _ _ body items listed given found =>
      have begins : Begins m (· ∈ items) body := ⟨items, found, fun _ member => member⟩
      simp only [binders, List.mem_cons, Prod.mk.injEq, List.not_mem_nil, or_false] at listed
      obtain ⟨rfl, rfl⟩ | ⟨rfl, rfl⟩ | ⟨rfl, rfl⟩ | ⟨rfl, rfl⟩ | ⟨rfl, rfl⟩ | ⟨rfl, rfl⟩ |
        ⟨rfl, rfl⟩ | ⟨rfl, rfl⟩ := listed
      · exact func_fenced whole e.halted begins given
      · exact function_fenced whole e.halted begins given
      · exact does_fenced whole e.halted begins given
      · exact repeat_fenced whole e begins given
      · exact forEach_fenced whole e begins given
      · exact context_fenced whole e begins given
      · exact specialize_fenced whole e begins given
      · exact apply_fenced whole e begins given
  | @object kind type spec items vars givenType givenSpec wanted contextual found inherited =>
      refine final_read fenced_self fun type' answer =>
        final_read fenced_self fun spec' answer' => ?_
      obtain rfl : type = type' := Except.ok.inj (givenType.symm.trans answer)
      obtain rfl : spec = spec' := Except.ok.inj (givenSpec.symm.trans answer')
      refine final_read fenced_self fun kind' answer => ?_
      obtain rfl : kind = kind' := Except.ok.inj (wanted.symm.trans answer)
      have made := @makeContextValue_fenced m _ whole e f kind type spec
        (fun parent named =>
          ⟨vars, inherited parent named, fun c member plain => .inr ⟨member, plain⟩⟩)
        fun isBlock => ⟨items, found isBlock, fun c member => .inl member⟩
      obtain rfl | rfl := contextual
      · exact made
      · exact made

/-- A call with a word, the number 2 and a block that holds the word and a quoted block of it. -/
def sampleRounds : Machine :=
  let quoted := (Heap.empty 100).alloc (Series.ofCells #[Cell.word .word ⟨0⟩])
  let body := quoted.2.alloc (Series.ofCells
    #[Cell.word .word ⟨0⟩, { Cell.series .block quoted.1 0 with quote := 1 }])
  let call := body.2.alloc (Series.ofCells
    #[Cell.blank, Cell.word .word ⟨0⟩, Cell.integer 2, Cell.series .block body.1 0])
  { config := {}, heap := call.2, frames := #[{ feed := 0, varlist := some call.1 }],
    countdown := 1 }

theorem unchanged_before_code_sampleRounds :
    ∃ s, ((Library.repeat_ idle.halted 0).final sampleRounds).heap.get? ⟨1⟩ = some s ∧
      s.content = .array #[Cell.word .word ⟨0⟩, { Cell.series .block ⟨0⟩ 0 with quote := 1 }] := by
  let items := [Cell.word .word ⟨0⟩, { Cell.series .block ⟨0⟩ 0 with quote := 1 }]
  have makes : Makes sampleRounds 0 Library.repeat_ (· ∈ items) :=
    @Makes.code _ _ _ 3 _ items (by simp [binders]) rfl rfl
  have copied {c : Cell} (copied : sampleRounds.Copied (· ∈ items) c) : c ∈ items := by
    induction copied with
    | start first => exact first
    | inner _ plain leads _ _ ih =>
        simp only [items, List.mem_cons, List.not_mem_nil, or_false] at ih
        obtain rfl | rfl := ih
        · cases leads
        · cases plain
  have leadsToQuoted {c : Cell} {id : SeriesId} (member : c ∈ items) (leads : c.array? = some id) :
      id = ⟨0⟩ := by
    simp only [items, List.mem_cons, List.not_mem_nil, or_false] at member
    obtain rfl | rfl := member
    · cases leads
    · exact (Option.some.inj leads).symm
  have shared {id : SeriesId} (shared : sampleRounds.Shared (· ∈ items) id) : id = ⟨0⟩ := by
    induction shared with
    | quoted first _ leads => exact leadsToQuoted (copied first) leads
    | inner _ found member leads ih =>
        subst ih
        cases found
        cases List.mem_singleton.mp (Array.mem_def.mp member)
        cases leads
  have whole : sampleRounds.Whole (· ∈ items) :=
    ⟨fun c id first leads => ⟨#[Cell.word .word ⟨0⟩], leadsToQuoted (copied first) leads ▸ rfl⟩,
      fun id common => ⟨#[Cell.word .word ⟨0⟩], shared common ▸ rfl⟩⟩
  have live : sampleRounds.heap.get? ⟨1⟩ = some (Series.ofCells items.toArray) := rfl
  exact unchanged_before_code makes whole live (fun common => nomatch shared common) idle

end Homoicon
