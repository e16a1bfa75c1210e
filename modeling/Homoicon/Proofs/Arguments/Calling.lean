import Homoicon.Proofs.Arguments.Ordering
import Homoicon.Proofs.Collection.Writing
import Homoicon.Proofs.Kinds

/-!
# From a path to a call

A word or a path that leads to an action begins a call: the names behind the action are put on the
data stack, the first on top, and slots are made for the arguments.
-/

namespace Homoicon

open Interp (Gives)

/-- A function laid out by a signature. -/
structure Machine.Defines (m : Machine) (action : Action) (sig : Signature) : Prop where
  paramlist : ∃ s first, m.heap.get? action.paramlist = some s ∧ s.link = .none ∧
    s.content = .array (first :: sig.params.map Cell.typeset).toArray
  details : ∃ s, m.heap.get? action.details = some s ∧ s.link = .none

/-- A cell that calls an action: a word that refers to it, or a path from such a word on over the
names of refinements. -/
inductive Machine.Names (m : Machine) (specifier : Specifier) (action : Action) :
    Cell → List SymbolId → Prop where
  | word {c value : Cell} : c.is .word = true → Query.getVar c specifier m = .ok value →
      value.asAction? = some action → value.enfixed = false → Names m specifier action c []
  | path {c head value : Cell} {array : SeriesId} {held : Array Cell} {parts : List Cell}
      {names : List SymbolId} : c.is .path = true → c.seriesId? = some array →
      Query.cells array m = .ok held → held.toList.drop c.index = head :: parts →
      head.is .word = true →
      Query.getVar head (Query.deriveSpecifier c specifier) m = .ok value →
      value.asAction? = some action →
      List.Forall₂ (fun part s => part.is .word = true ∧ part.wordSymbol? = some s) parts names →
      Names m specifier action c names

/-- The innermost frame is about to take cells from its feed, the current one first. -/
structure Machine.Poised (m : Machine) (f : FrameId) (input : List Cell) (frame : Frame)
    (feed : Feed) : Prop where
  unmarked : m.heap.Unmarked
  running : m.signals.halt = false
  top : m.frames.size = f + 1
  room : f + 1 < m.config.frameLimit
  found : m.frames[f]? = some frame
  base : frame.stackBase = m.stack.size
  whole : frame.fulfillOnly = false
  gathers : frame.typecheckOnly = false
  fed : m.feeds[frame.feed]? = some feed
  supplies : feed.Supplies (fun _ => True) m.heap input

/-- The innermost frame is about to evaluate a call of an action, by the names of some refinements
and followed by literals, behind which no operator comes. -/
structure Machine.Calls (m : Machine) (f : FrameId) (action : Action) (names : List SymbolId)
    (literals rest : List Cell) : Prop where
  call : ∃ frame feed c, m.Poised f (c :: literals ++ rest) frame feed ∧
    m.Names feed.specifier action c names
  integers : ∀ c ∈ literals, c.IsInteger
  quiet : (rest.headD Cell.end_).IsQuiet
  space : m.stack.size + names.length ≤ m.config.dataStackLimit

/-! ## Names -/

variable {m : Machine} {names : List SymbolId}

/-- The names of a path are pushed one after the other. -/
theorem Path.pushNames_run (e : Engine) (specifier : Specifier) (noGroups : Bool) (base : Nat)
    {parts : List Cell}
    (named : List.Forall₂ (fun part s => part.is .word = true ∧ part.wordSymbol? = some s)
      parts names)
    (space : m.stack.size + names.length ≤ m.config.dataStackLimit) :
    Path.pushNames e specifier noGroups base parts m =
      .ok false { m with stack := m.stack ++ (names.map (Cell.pushed · 0)).toArray } := by
  induction named generalizing m with
  | nil => simp [Path.pushNames]
  | @cons part s parts names here _ induction =>
      obtain ⟨bare, word⟩ := Cell.is_iff.mp here.1
      have refinement : Path.refinement e part specifier noGroups = pure (some (some s)) := by
        simp [Path.refinement, bare, word, here.2]
      rw [List.length_cons] at space
      have pushed : Interp.pushStack (Cell.word .word s) m =
          .ok () { m with stack := m.stack.push (Cell.pushed s 0) } :=
        if_neg (by omega)
      rw [Path.pushNames, refinement, pure_bind]
      refine (Interp.bind_ok pushed _).trans ?_
      have more : (m.stack.push (Cell.pushed s 0)).size + names.length ≤
          m.config.dataStackLimit := by
        rw [Array.size_push]
        omega
      refine (induction more).trans ?_
      simp

/-- A machine with some names on the data stack, the first on top. -/
def Machine.naming (m : Machine) (names : List SymbolId) : Machine :=
  { m with stack := m.stack ++ (names.map (Cell.pushed · 0)).reverse.toArray }

theorem Path.pushRefinements_run (e : Engine) (specifier : Specifier) (noGroups : Bool)
    {parts : List Cell}
    (named : List.Forall₂ (fun part s => part.is .word = true ∧ part.wordSymbol? = some s)
      parts names)
    (space : m.stack.size + names.length ≤ m.config.dataStackLimit) :
    Path.pushRefinements e parts specifier noGroups m = .ok false (m.naming names) := by
  have height : Interp.stackHeight m = .ok m.stack.size m := rfl
  have ran := Path.pushNames_run e specifier noGroups m.stack.size named space
  rw [Path.pushRefinements, Interp.bind_ok height, Interp.bind_ok ran,
    if_neg Bool.false_ne_true, Interp.bind_ok (Interp.modify_run _ _), Interp.pure_run]
  refine congrArg (fun stack => EStateM.Result.ok false { m with stack }) ?_
  apply Array.toList_inj.mp
  simp [Array.extract_append]

/-- A path walked up to an action calls it, with the names of its other parts. -/
theorem Path.walk_run (e : Engine) (specifier : Specifier) (noGroups : Bool)
    {value previous : Cell} {label : Option SymbolId} {action : Action} {parts : List Cell}
    (calls : value.asAction? = some action)
    (named : List.Forall₂ (fun part s => part.is .word = true ∧ part.wordSymbol? = some s)
      parts names)
    (space : m.stack.size + names.length ≤ m.config.dataStackLimit) :
    Path.walk e specifier noGroups value previous label parts m =
      .ok (.action action value.binding label) (m.naming names) := by
  cases parts with
  | nil =>
      obtain rfl := List.forall₂_nil_left_iff.mp named
      rw [Path.walk, calls, Machine.naming]
      simp
  | cons part parts =>
      rw [Path.walk, calls]
      refine (Interp.bind_ok (Path.pushRefinements_run e specifier noGroups named space) _).trans ?_
      rfl

/-- A cell that calls an action begins the call, with the names on the data stack. -/
theorem Engine.evalCell_call {f : FrameId} {frame : Frame} {feed : Feed} {c : Cell}
    {action : Action} (asked : Query.frame f m = .ok frame)
    (fed : Query.feed frame.feed m = .ok feed) (call : m.Names feed.specifier action c names)
    (space : m.stack.size + names.length ≤ m.config.dataStackLimit) :
    ∃ binding label, ∀ e : Engine, e.evalCell f c none m =
      Engine.runAction f action binding label false (m.naming names) := by
  cases call with
  | @word value word found calls prefixed =>
      have unquoted := Cell.isQuoted_of_is word (by decide)
      have kind := (Cell.is_iff.mp word).2
      refine ⟨value.binding, c.wordSymbol?, fun e => ?_⟩
      have whole : m.naming [] = m := by
        simp [Machine.naming]
      rw [Engine.evalCell, Interp.lift_bind_ok asked, Interp.lift_bind_ok fed, unquoted,
        if_neg Bool.false_ne_true, kind, whole]
      change Engine.evalWord f c none feed.specifier m = _
      rw [Engine.evalWord]
      refine (Interp.ask_bind_ok found _).trans ?_
      simp only [calls, prefixed]
  | @path head value array held parts _ path series listed split word found calls named =>
      have unquoted := Cell.isQuoted_of_is path (by decide)
      have kind := (Cell.is_iff.mp path).2
      have notBlank : head.isBlank = false := Cell.is_other word (by decide)
      have noDivide : Query.isDividePath c m = .ok false := by
        rw [Query.isDividePath, path, series]
        refine (Query.bind_ok listed _).trans ?_
        rw [split]
        rcases parts with _ | ⟨second, _ | ⟨third, rest⟩⟩ <;> simp [notBlank]
      have there : held[c.index]? = some head := by
        rw [← Array.getElem?_toList, ← List.head?_drop, split, List.head?_cons]
      have active : Query.isInertPath c m = .ok false := by
        rw [Query.isInertPath, series]
        refine (Query.bind_ok listed _).trans ?_
        rw [there]
        simp [notBlank]
      have walked (e : Engine) : Path.eval e c feed.specifier false m =
          .ok (.action action value.binding head.wordSymbol?) (m.naming names) := by
        have cells : Query.cellsFrom array c.index m = .ok (head :: parts) :=
          Query.cellsFrom_eq_ok.mpr ⟨_, listed, split⟩
        have own : Query.arrayOf c m = .ok array := by
          rw [Query.arrayOf, series, Query.expect_some_run]
        rw [Path.eval, Interp.lift_bind_ok noDivide, if_neg Bool.false_ne_true]
        refine (Interp.lift_bind_ok own _).trans ((Interp.lift_bind_ok cells _).trans ?_)
        dsimp only
        rw [word, if_pos rfl, Interp.lift_bind_ok found]
        exact Path.walk_run e _ false calls named space
      refine ⟨value.binding, head.wordSymbol?, fun e => ?_⟩
      rw [Engine.evalCell, Interp.lift_bind_ok asked, Interp.lift_bind_ok fed, unquoted,
        if_neg Bool.false_ne_true, kind]
      change Engine.evalPath e f c feed.specifier m = _
      rw [Engine.evalPath, Interp.lift_bind_ok noDivide, if_neg Bool.false_ne_true,
        Interp.lift_bind_ok active, if_neg Bool.false_ne_true, Interp.bind_ok (walked e)]

/-! ## Slots for the arguments -/

/-- The slots of a call before any argument is gathered. -/
def emptySlots (frame : Cell) (params : List Typeset) : List Cell :=
  frame :: List.replicate params.length Cell.null

/-- The series of the arguments of a new call. -/
def newVarlist (base : SeriesId) (f : FrameId) (count : Nat) : Series :=
  { (Series.ofCells ((Array.replicate count Cell.null).setIfInBounds 0 Cell.end_)).withFlags
      Flags.varlist with
    link := .keylist base, role := .frame f }

theorem newVarlist_unmarked (base : SeriesId) (f : FrameId) (count : Nat) :
    (newVarlist base f count).has Flags.marked = false := by
  simp only [newVarlist, Series.ofCells, Series.withFlags, Series.has]
  split <;> decide

namespace Heap

/-- A heap with the slots of a new call, and the series that they are. -/
def slotted (h : Heap) (action : Action) (layout : Layout) (f : FrameId) (binding : Binding) :
    SeriesId × Heap :=
  let (varlist, heap) := h.alloc (newVarlist layout.base f (layout.params.length + 1))
  (varlist, heap.modify varlist (·.storing 0 (Cell.frame varlist action binding)))

variable {h : Heap} (action : Action) (layout : Layout) (f : FrameId) (binding : Binding)

theorem slotted_fresh {id : SeriesId} (live : h.get? id ≠ none) :
    id ≠ (h.slotted action layout f binding).1 :=
  fun same => live (same ▸ h.alloc_fresh _)

/-- All other series stay as they are. -/
theorem get?_slotted {id : SeriesId} (apart : id ≠ (h.slotted action layout f binding).1) :
    (h.slotted action layout f binding).2.get? id = h.get? id := by
  have apart : (h.alloc (newVarlist layout.base f (layout.params.length + 1))).1 ≠ id := apart.symm
  rw [slotted, get?_modify, if_neg apart, get?_alloc, if_neg apart]

theorem cells?_slotted :
    (h.slotted action layout f binding).2.cells? (h.slotted action layout f binding).1 =
      some (emptySlots (Cell.frame (h.slotted action layout f binding).1 action binding)
        layout.params).toArray := by
  rw [cells?, slotted, get?_modify, if_pos rfl, get?_alloc, if_pos rfl, Option.map_some,
    Option.bind_some, Series.storing_array rfl]
  refine congrArg some (Array.toList_inj.mp ?_)
  simp [emptySlots, List.replicate_succ]

theorem Unmarked.slotted (unmarked : h.Unmarked) :
    (h.slotted action layout f binding).2.Unmarked :=
  (unmarked.alloc (newVarlist_unmarked ..)).modify _ fun s => s.has_storing 0 _ _

/-- The slots of a new call are no part of an action. -/
theorem Keeps.slotted {h₀ : Heap} {a : Action} (keeps : h₀.Keeps a h) :
    h₀.Keeps a (h.slotted action layout f binding).2 :=
  keeps.change (.inr (h.alloc_fresh _)) fun _ apart => get?_slotted action layout f binding apart

end Heap

/-- A function is laid out by its signature. -/
theorem Machine.Defines.lays {action : Action} {sig : Signature}
    (defines : m.Defines action sig) :
    m.heap.Lays action { base := action.paramlist, params := sig.params } where
  own := by
    obtain ⟨s, first, found, link, content⟩ := defines.paramlist
    exact ⟨s, found, .inl ⟨link, rfl⟩⟩
  base := by
    obtain ⟨s, first, found, link, content⟩ := defines.paramlist
    exact ⟨s, first, found, content⟩
  details := defines.details
  fixed := nofun

/-- A call has begun: its slots are there, and the names and the literals wait. -/
structure Site.Begins (site : Site) (names : List SymbolId) (literals : List Cell)
    (binding : Binding) (m : Machine) : Prop where
  holds : site.Holds (emptySlots (Cell.frame site.varlist site.phase binding) site.params)
    (names.map (Cell.pushed · 0)) literals [] m
  frame : ∃ frame, Query.frame site.frame m = .ok frame ∧ frame.phase = some site.phase ∧
    frame.varlist = some site.varlist ∧ frame.stackBase = site.below.length ∧
    frame.prefill = site.exemplar.elim .params .exemplar ∧ frame.typecheckOnly = false

/-- The call of an action in the innermost frame of a machine, which takes some literals and goes
on with other input. -/
structure Site.Opens (site : Site) (m : Machine) (f : FrameId) (action : Action) (layout : Layout)
    (takes : Cell → Prop) (rest : List Cell) : Prop where
  frame : site.frame = f
  phase : site.phase = action
  layout : site.toLayout = layout
  kept : m.heap.Keeps action site.heap
  below : site.below = m.stack.toList
  symbols : site.symbols = m.symbols
  ret : site.ret = m.specials.return_
  takes : site.takes = takes
  rest : site.rest = rest

/-- The evaluator fetches a cell that no operator takes. -/
theorem Machine.Poised.look {f : FrameId} {c : Cell} {input : List Cell} {frame : Frame}
    {feed : Feed} (poised : m.Poised f (c :: input) frame feed) (more : c.isEnd = false)
    (quiet : (input.headD Cell.end_).IsQuiet) :
    ∃ feeds next, Engine.lookahead f m = .ok (.reevaluate c none) { m with feeds } ∧
      { m with feeds }.Poised f input frame next ∧ next.specifier = feed.specifier := by
  obtain ⟨feeds, next, fetched, there, supplied, specifier⟩ :=
    Interp.fetchKeepLookback_run poised.fed poised.supplies
  have asked (feeds : Array Feed) : Query.frame f { m with feeds } = .ok frame := by
    rw [Query.frame, poised.found]
  have current : feed.isEnd = false := by
    rw [Feed.isEnd, poised.supplies.value]
    exact more
  have ahead : next.value.IsQuiet := supplied.value ▸ quiet
  refine ⟨feeds, next, ?_, { poised with fed := there, supplies := supplied }, specifier⟩
  exact Engine.lookahead_quiet (asked m.feeds) (by rw [Query.feed, poised.fed]) current fetched
    (asked feeds) (by rw [Query.feed, there]) ahead

/-- A frame whose running call has just begun. -/
def Frame.calling (frame : Frame) (action : Action) (layout : Layout) (varlist : SeriesId)
    (binding : Binding) (label : Option SymbolId) : Frame :=
  { frame with
    called := some action, phase := some action, binding, varlist := some varlist, param := 1,
    prefill := layout.exemplar.elim .params .exemplar, requotes := 0, label,
    runningEnfix := false, nextArgFromOut := false }

/-- A machine in which a call has begun. -/
def Machine.calling (m : Machine) (f : FrameId) (action : Action) (layout : Layout)
    (binding : Binding) (label : Option SymbolId) : Machine :=
  let (varlist, heap) := m.heap.slotted action layout f binding
  { m with
    heap, manuals := m.manuals.push varlist,
    frames := m.frames.modify f (·.calling action layout varlist binding label) }

section

variable {f : FrameId} {action : Action} {layout : Layout}

/-- A call begins with slots for its arguments. -/
theorem Heap.Lays.runAction_run (lays : m.heap.Lays action layout) (inside : f < m.frames.size)
    (binding : Binding) (label : Option SymbolId) :
    Engine.runAction f action binding label false m =
      .ok .processAction (m.calling f action layout binding label) := by
  let slots := newVarlist layout.base f (layout.params.length + 1)
  let varlist := (m.heap.alloc slots).1
  let m₁ : Machine := { m with
    heap := (m.heap.alloc slots).2, manuals := m.manuals.push varlist }
  let m₂ := m₁.stored varlist 0 (Cell.frame varlist action binding)
  have made : Interp.allocManual slots m = .ok varlist m₁ := rfl
  have cells : Query.cells varlist m₁ =
      .ok ((Array.replicate (layout.params.length + 1) Cell.null).setIfInBounds 0 Cell.end_) := by
    refine Query.cells_eq_ok.mpr ⟨slots, ?_, rfl⟩
    exact (Heap.get?_alloc ..).trans (if_pos rfl)
  have stored : Interp.storeCell varlist 0 (Cell.frame varlist action binding) m₁ = .ok () m₂ :=
    Interp.storeCell_run _ cells (by simp)
  have laid : m₂.heap.Lays action layout :=
    lays.keep ((Heap.Keeps.refl m.heap action).slotted action layout f binding)
  have merged (frames : Array Frame) (g h : Frame → Frame) :
      (frames.modify f g).modify f h = frames.modify f (h ∘ g) := by
    refine Array.ext_getElem? fun place => ?_
    simp only [Array.getElem?_modify]
    split <;> simp
  have pushed : Interp.pushAction f action binding m = .ok () { m₂ with
      frames := m.frames.modify f fun fr => { fr with
        called := some action, phase := some action, binding, varlist := some varlist,
        param := 1, prefill := layout.exemplar.elim .params .exemplar, requotes := 0 } } := by
    rw [Interp.pushAction, Interp.lift_bind_ok lays.underlying, Interp.lift_bind_ok lays.count]
    refine (Interp.bind_ok made _).trans ((Interp.bind_ok stored _).trans ?_)
    rw [Interp.lift_bind_ok laid.exemplar_run]
    cases layout.exemplar <;> exact if_pos inside
  have named : Interp.beginAction f label false { m₂ with
      frames := m.frames.modify f fun fr => { fr with
        called := some action, phase := some action, binding, varlist := some varlist,
        param := 1, prefill := layout.exemplar.elim .params .exemplar, requotes := 0 } } =
      .ok () (m.calling f action layout binding label) := by
    refine (if_pos (by simpa using inside)).trans ?_
    rw [merged]
    rfl
  rw [Engine.runAction, Interp.bind_ok pushed, Interp.bind_ok named]
  rfl

/-- Slots are made for the arguments of a call. -/
theorem Machine.Poised.begin {frame : Frame} {feed : Feed} {takes : Cell → Prop}
    {literals rest : List Cell} (binding : Binding) (label : Option SymbolId)
    (poised : m.Poised f (literals ++ rest) frame feed) (lays : m.heap.Lays action layout)
    (means : ∀ c, takes c → ∃ v, c.Means v) (taken : ∀ c ∈ literals, takes c)
    (quiet : (rest.headD Cell.end_).IsQuiet) :
    ∃ site : Site, site.Opens m f action layout takes rest ∧
      Gives (Engine.runAction f action binding label false) (m.naming names) .processAction
        (site.Begins names literals binding) := by
  have inside : f < m.frames.size := by rw [poised.top]; exact Nat.lt_succ_self f
  let varlist := (m.heap.slotted action layout f binding).1
  let m' := (m.naming names).calling f action layout binding label
  have there : m'.frames[f]? = some (frame.calling action layout varlist binding label) := by
    change (m.frames.modify f _)[f]? = _
    rw [Array.getElem?_modify, if_pos rfl, poised.found]
    rfl
  let site : Site :=
    { layout with
      frame := f, phase := action, varlist, heap := m.heap, feed := frame.feed
      below := m.stack.toList, symbols := m.symbols, ret := m.specials.return_, takes, rest
      lays, fresh := m.heap.alloc_fresh _, means, quiet }
  have supplies : feed.Supplies site.intake.allowed m'.heap (literals ++ rest) := by
    refine poised.supplies.transport fun array _ _ _ found => ?_
    have live : m.heap.get? array ≠ none := fun dead => found (by rw [Heap.cells?, dead]; rfl)
    have apart := Heap.slotted_fresh action layout f binding live
    exact ⟨apart, Heap.cells?_congr (Heap.get?_slotted action layout f binding apart)⟩
  have above : m'.frames.toList.drop (f + 1) = [] := by
    refine List.drop_eq_nil_of_le ?_
    change (m.frames.modify f _).toList.length ≤ f + 1
    rw [Array.length_toList, Array.size_modify, poised.top]
  have gathers : site.Gathers (emptySlots (Cell.frame varlist action binding) layout.params)
      (names.map (Cell.pushed · 0)) m' :=
    { symbols := rfl
      ret := rfl
      kept := (Heap.Keeps.refl m.heap action).slotted action layout f binding
      slots := Heap.cells?_slotted ..
      stack := Array.toList_append .. }
  have holds : site.Holds (emptySlots (Cell.frame varlist action binding) layout.params)
      (names.map (Cell.pushed · 0)) literals [] m' :=
    { unmarked := Heap.Unmarked.slotted _ _ _ _ poised.unmarked
      running := poised.running
      room := poised.room
      caller := ⟨_, there, rfl, rfl, rfl, rfl, poised.whole, poised.base⟩
      above
      fed := ⟨feed, poised.fed, supplies⟩
      input := taken
      around := gathers }
  have asked : Query.frame f m' = .ok (frame.calling action layout varlist binding label) := by
    rw [Query.frame, there]
  have laid : (m.naming names).heap.Lays action layout := lays
  refine ⟨site, ⟨rfl, rfl, rfl, .refl _ _, rfl, rfl, rfl, rfl, rfl⟩, m',
    laid.runAction_run inside binding label, holds, _, asked, rfl, rfl, poised.base, rfl, poised.gathers⟩

/-- A call that has begun gets its arguments by filling its slots. -/
theorem Site.Begins.fulfill_run {site : Site} {literals : List Cell} {binding : Binding} {e : Engine}
    (begins : site.Begins names literals binding m) :
    Engine.fulfill e site.frame m =
      (do
        if ← Engine.fillSlots e site.call e.rounds {} then pure true
        else
          Interp.modifyFrame site.frame fun fr =>
            { fr with doingPickups := false, typecheckOnly := false, prefill := .args }
          pure false) m := by
  obtain ⟨frame, asked, phase, varlist, base, prefill, gathers⟩ := begins.frame
  have lays := begins.holds.lays
  rw [Engine.fulfill, Interp.lift_bind_ok asked, phase, varlist]
  refine (Interp.lift_bind_ok lays.underlying _).trans ?_
  refine (Interp.lift_bind_ok lays.count _).trans ?_
  rw [base, prefill, gathers]
  rfl

end

end Homoicon
