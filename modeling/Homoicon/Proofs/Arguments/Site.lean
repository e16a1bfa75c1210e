import Homoicon.Proofs.Arguments.Literal
import Homoicon.Proofs.Arguments.Parts

/-!
# A call under way

What holds while the slots of a call are filled from the cells that follow it: which values the
slots hold, which names wait on the data stack and what is left of the input.  Each operation that
the filling is made of changes one of these.
-/

namespace Homoicon

/-! ## The state of a call -/

/-- A call whose slots are being filled: where it runs, how it is laid out, what lies below its
names on the data stack, and what follows its arguments. -/
structure Site extends Layout where
  frame : FrameId
  phase : Action
  varlist : SeriesId
  /-- The heap in which the call began. -/
  heap : Heap
  feed : FeedId
  below : List Cell
  symbols : Symbols
  /-- The action of RETURN. -/
  ret : Action
  /-- The cells that the call may take. -/
  takes : Cell → Prop
  rest : List Cell
  lays : heap.Lays phase toLayout
  fresh : heap.get? varlist = none
  means : ∀ c, takes c → ∃ v, c.Means v
  quiet : (rest.headD Cell.end_).IsQuiet

namespace Site

/-- The call as the evaluator has it. -/
def call (site : Site) : Call where
  frame := site.frame
  phase := site.phase
  paramlist := site.base
  varlist := site.varlist
  count := site.params.length + 1
  stackBase := site.below.length
  prefill := site.exemplar.elim .params .exemplar
  typecheckOnly := false

/-- A frame that runs the call. -/
structure Runs (site : Site) (frame : Frame) : Prop where
  feed : frame.feed = site.feed
  phase : frame.phase = some site.phase
  varlist : frame.varlist = some site.varlist
  fromInput : frame.nextArgFromOut = false
  whole : frame.fulfillOnly = false
  base : frame.stackBase = site.below.length

/-- The call takes cells from its feed, from elsewhere than its slots. -/
def intake (site : Site) : Intake where
  frame := site.frame
  feed := site.feed
  runs := site.Runs
  allowed := (· ≠ site.varlist)
  takes := site.takes
  rest := site.rest
  fed _ runs := runs.feed
  calm c fits := (site.means c fits).elim fun _ means => means.quiet
  quiet := site.quiet

/-- The slots of a call hold some values, some names wait on the data stack with the top first, and
the action is as it was. -/
structure Gathers (site : Site) (slots pending : List Cell) (m : Machine) : Prop where
  symbols : m.symbols = site.symbols
  ret : m.specials.return_ = site.ret
  kept : site.heap.Keeps site.phase m.heap
  slots : m.heap.cells? site.varlist = some slots.toArray
  stack : m.stack.toList = site.below ++ pending.reverse

theorem Gathers.size_stack {site : Site} {slots pending : List Cell} {m : Machine}
    (gathers : site.Gathers slots pending m) :
    m.stack.size = site.below.length + pending.length := by
  rw [← Array.length_toList, gathers.stack, List.length_append, List.length_reverse]

/-- What the frame of the call refers to is in use. -/
theorem Runs.rooted {site : Site} {m : Machine} {frame : Frame} (runs : site.Runs frame)
    (member : frame ∈ m.frames) :
    m.Rooted site.phase.paramlist ∧ m.Rooted site.phase.details ∧ m.Rooted site.varlist :=
  ⟨.of_frame member (by simp [Frame.references, runs.phase]),
    .of_frame member (by simp [Frame.references, runs.phase]),
    .of_frame member (by simp [Frame.references, runs.varlist])⟩

def around (site : Site) (slots pending : List Cell) : site.intake.Around where
  holds := site.Gathers slots pending
  frames _ _ _ gathers := { gathers with }
  feeds _ _ gathers := { gathers with }
  counted _ _ gathers := { gathers with }
  signalled _ _ gathers := { gathers with }
  recycled m unmarked running gathers := by
    obtain ⟨frame, member, runs⟩ := running
    obtain ⟨paramlist, details, varlist⟩ := Runs.rooted runs member
    have kept := gathers.kept.recycle unmarked paramlist details
    have same := Heap.cells?_congr ((Machine.agree_recycle unmarked).get? _ varlist)
    rw [Machine.recycle_rest]
    exact { gathers with kept, slots := same.trans gathers.slots }
  height m m' gathers gathers' := by rw [gathers.size_stack, gathers'.size_stack]

/-- Some slots are filled, some names wait, some cells are left to be taken, and some frames stand
above that of the call. -/
abbrev Holds (site : Site) (slots pending input : List Cell) (above : List Frame) (m : Machine) :
    Prop :=
  site.intake.Holds (site.around slots pending) input above m

end Site

theorem Heap.Unmarked.modify {h : Heap} (unmarked : h.Unmarked) (id : SeriesId)
    {f : Series → Series} (kept : ∀ s, (f s).has Flags.marked = s.has Flags.marked) :
    (h.modify id f).Unmarked := by
  intro other s found
  rw [get?_modify] at found
  split at found
  · obtain ⟨before, held, rfl⟩ := Option.map_eq_some_iff.mp found
    rw [kept, unmarked other before held]
  · exact unmarked other s found

theorem Series.has_storing (s : Series) (index : Nat) (c : Cell) (flags : Flags) :
    (s.storing index c).has flags = s.has flags := by
  obtain ⟨own, content, link, role⟩ := s
  cases content <;> rfl

namespace Site

variable {site : Site} {slots pending input : List Cell} {above : List Frame} {m m' : Machine}

namespace Holds

theorem gathers (holds : site.Holds slots pending input above m) :
    site.Gathers slots pending m := holds.around

/-! ## The frame and the feed -/

theorem onCaller {g : Frame → Frame} (holds : site.Holds slots pending input above m)
    (kept : ∀ frame, site.Runs frame → site.Runs (g frame)) :
    Interp.Gives (Interp.modifyFrame site.frame g) m () (site.Holds slots pending input above) :=
  Intake.Holds.onCaller holds kept

theorem lookahead (holds : site.Holds slots pending input above m) (noLookahead : Bool) :
    Interp.Gives (Interp.modifyFeed site.feed fun feed => { feed with noLookahead }) m ()
      (site.Holds slots pending input above) :=
  Intake.Holds.lookahead holds noLookahead

/-- The call evaluates the next cell as an argument. -/
theorem evalSubframe (dispatch : Dispatch) (fuel : Nat) {rounds : Nat} {c v : Cell}
    (means : c.Means v) (holds : site.Holds slots pending (c :: input) [] m) :
    Interp.Gives (Engine.evalSubframe ⟨Engine.runSteps dispatch (fuel + 4), rounds⟩ site.frame true)
      m (some { v with unevaluated := true, stale := false })
      (site.Holds slots pending input []) :=
  Intake.Holds.evalSubframe dispatch fuel means true holds

/-! ## The heap -/

theorem lays (holds : site.Holds slots pending input above m) :
    m.heap.Lays site.phase site.toLayout :=
  site.lays.keep holds.gathers.kept

/-- Another heap with the same action and the same input. -/
theorem withHeap {heap : Heap} {slots' : List Cell}
    (holds : site.Holds slots pending input above m) (unmarked : heap.Unmarked)
    (filled : heap.cells? site.varlist = some slots'.toArray)
    (same : ∀ id, id ≠ site.varlist → heap.get? id = m.heap.get? id) :
    site.Holds slots' pending input above { m with heap } := by
  obtain ⟨feed, found, supplies⟩ := holds.fed
  have kept := holds.gathers.kept.change (.inl site.fresh) same
  refine { holds with unmarked, fed := ⟨feed, found, ?_⟩, around := ?_ }
  · exact supplies.transport fun array _ _ apart _ => ⟨apart, Heap.cells?_congr (same array apart)⟩
  · exact { holds.gathers with kept, slots := filled }

theorem store (holds : site.Holds slots pending input above m) {i : Nat} (c : Cell)
    (inside : i < slots.length) :
    Interp.Gives (Interp.storeCell site.varlist i c) m ()
      (site.Holds (slots.set i c) pending input above) := by
  have held := Query.cells_iff.mpr holds.gathers.slots
  obtain ⟨s, live, content⟩ := Query.cells_eq_ok.mp held
  have inside : i < slots.toArray.size := by simpa using inside
  refine ⟨m.stored site.varlist i c, Interp.storeCell_run c held inside, ?_⟩
  rw [Machine.stored_rest]
  refine holds.withHeap ?_ ?_ fun id apart => Machine.get?_stored_of_ne apart
  · exact holds.unmarked.modify _ fun s => s.has_storing i c _
  · rw [Heap.cells?, Machine.get?_stored_self live content, Option.bind_some, List.modify_toArray,
      ← List.set_eq_modify]

theorem settle (holds : site.Holds slots pending input above m) {i : Nat} (value : Cell)
    (inside : i < slots.length) :
    Interp.Gives (Interp.setArgChecked site.varlist i value) m ()
      (site.Holds (slots.set i value.settled) pending input above) :=
  holds.store value.settled inside

theorem move (holds : site.Holds slots pending input above m) {i : Nat} (value : Cell)
    (inside : i < slots.length) :
    Interp.Gives (Interp.moveCell site.varlist i value) m ()
      (site.Holds (slots.set i value.copied) pending input above) :=
  holds.store value.copied inside

theorem cell_run (holds : site.Holds slots pending input above m) {i : Nat} {c : Cell}
    (there : slots[i]? = some c) : Query.cell site.varlist i m = .ok c := by
  refine Query.cell_eq_ok.mpr ⟨slots.toArray, Query.cells_iff.mpr holds.gathers.slots, ?_⟩
  rw [List.getElem?_toArray, there]

theorem check (holds : site.Holds slots pending input above m) {i : Nat} {c : Cell}
    (there : slots[i]? = some c) :
    Interp.Gives (Interp.markChecked site.varlist i) m ()
      (site.Holds (slots.set i { c with checked := true }) pending input above) := by
  have inside : i < slots.length := (List.getElem?_eq_some_iff.mp there).1
  have same := Interp.modifyCell_eq_storeCell (Query.cells_iff.mpr holds.gathers.slots)
    (by rw [List.getElem?_toArray, there]) fun c => { c with checked := true }
  rw [Interp.Gives, Interp.markChecked, same]
  exact holds.store _ inside

theorem manage (holds : site.Holds slots pending input above m) :
    Interp.Gives (Interp.ensureManaged site.varlist) m ()
      (site.Holds slots pending input above) := by
  obtain ⟨s, live, content⟩ := Query.cells_eq_ok.mp (Query.cells_iff.mpr holds.gathers.slots)
  have asked : Query.hasFlag site.varlist Flags.managed m = .ok (s.has Flags.managed) :=
    Query.hasFlag_eq_ok.mpr ⟨s, live, rfl⟩
  unfold Interp.ensureManaged
  refine .asked asked ?_
  cases s.has Flags.managed with
  | true => exact .pure holds
  | false =>
      let heap := m.heap.modify site.varlist (·.withFlags Flags.managed)
      have managed : site.Holds slots pending input above { m with heap } := by
        refine holds.withHeap ?_ ?_ fun id apart => ?_
        · refine holds.unmarked.modify _ fun s => ?_
          exact s.has_withFlags_of_apart (by decide)
        · rw [← holds.gathers.slots, Heap.cells?, Heap.cells?, Heap.get?_modify, if_pos rfl, live]
          rfl
        · rw [Heap.get?_modify, if_neg apart.symm]
      have flagged : Interp.setFlag site.varlist Flags.managed m = .ok () { m with heap } :=
        if_pos (Heap.isLive_iff.mpr ⟨s, live⟩)
      refine .bind ⟨_, flagged, managed⟩ fun m holds => ?_
      exact ⟨_, rfl, { holds with around := { holds.gathers with } }⟩

/-! ## The data stack -/

theorem height (holds : site.Holds slots pending input above m) :
    Interp.stackHeight m = .ok (site.below.length + pending.length) m := by
  rw [← holds.gathers.size_stack]
  rfl

theorem pop {c : Cell} (holds : site.Holds slots (c :: pending) input above m) :
    Interp.Gives Interp.popStack? m (some c) (site.Holds slots pending input above) := by
  have top : m.stack.back? = some c := by
    rw [Array.back?_eq_getElem?, ← Array.getElem?_toList, ← Array.length_toList, holds.gathers.stack]
    simp
  have below : m.stack.pop.toList = site.below ++ pending.reverse := by
    rw [Array.toList_pop, holds.gathers.stack, List.reverse_cons, ← List.append_assoc,
      List.dropLast_concat]
  exact ⟨{ m with stack := m.stack.pop }, by rw [Interp.popStack?, top],
    { holds with around := { holds.gathers with stack := below } }⟩

/-- A name that waits is changed, counted from the top. -/
theorem changeStack (holds : site.Holds slots pending input above m) {back : Nat}
    (inside : back < pending.length) (f : Cell → Cell) :
    site.Holds slots (pending.modify back f) input above
      { m with stack := m.stack.modify (m.stack.size - 1 - back) f } := by
  refine { holds with around := { holds.gathers with stack := ?_ } }
  change (m.stack.modify (m.stack.size - 1 - back) f).toList = _
  rw [Array.toList_modify, holds.gathers.stack, holds.gathers.size_stack]
  refine List.ext_getElem? fun place => ?_
  rw [List.getElem?_modify, List.getElem?_append, List.getElem?_append]
  by_cases low : place < site.below.length
  · have deeper : site.below.length + pending.length - 1 - back ≠ place := by omega
    simp [low, deeper]
  · rw [if_neg low, if_neg low]
    by_cases high : place - site.below.length < pending.length
    · rw [List.getElem?_reverse high, List.getElem?_reverse (by simpa using high),
        List.getElem?_modify, List.length_modify]
      have same : site.below.length + pending.length - 1 - back = place ↔
          back = pending.length - 1 - (place - site.below.length) := by omega
      simp only [same]
    · rw [List.getElem?_eq_none (by simpa using high), List.getElem?_eq_none (by simpa using high)]
      rfl

end Holds

end Site

end Homoicon
