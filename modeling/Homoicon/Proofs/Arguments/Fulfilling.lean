import Homoicon.Library
import Homoicon.Proofs.Arguments.Starting

/-!
# Calls that name refinements in any order

The literals behind a call fill its slots in the order in which its refinements are named.  A call
that names no refinement of the function, or one refinement twice, fails.
-/

namespace Homoicon

open Interp (Gives)

namespace Site

variable {site : Site} {sig : Signature} {names : List SymbolId} {first : Cell}
  {literals : List Cell} {binding : Binding} {m : Machine}

/-! ## All passes over the parameters -/

theorem Settles.bind {α β : Type} {fill : Interp α} {f : α → Interp β} {a : α} {b : β}
    (settles : site.Settles sig first literals names fill a m)
    (next : ∀ m, site.Passing sig first literals names [] sig.refinements [] m →
      Gives (f a) m b (site.Passing sig first literals names [] sig.refinements [])) :
    site.Settles sig first literals names (fill >>= f) b m := by
  rcases settles with filled | ⟨good, s, rest, m', whole, accepted, refused, failed⟩
  · exact .inl (filled.bind next)
  · exact .inr ⟨good, s, rest, m', whole, accepted, refused, Interp.bind_error failed f⟩

theorem Passing.onCaller {g : Frame → Frame}
    (passing : site.Passing sig first literals names [] sig.refinements [] m)
    (kept : ∀ frame, site.Runs frame → site.Runs (g frame)) :
    Gives (Interp.modifyFrame site.frame g) m ()
      (site.Passing sig first literals names [] sig.refinements []) :=
  (passing.holds.onCaller kept).weaken fun _ holds => ⟨passing.single, passing.known, holds⟩

variable (dispatch : Dispatch) (fuel total : Nat)

/-- The parameters before all refinements take the first literals. -/
theorem Holds.fillPlain {pending : List Cell} (task : site.Task sig names literals)
    (holds : site.Holds (emptySlots first site.params) pending literals [] m) :
    site.Leads ⟨Engine.runSteps dispatch (fuel + 4), total⟩ sig.plain.length {} m
      { index := sig.plain.length + 1 }
      (site.Passes sig first literals [] names []
        (List.replicate (Refinement.params sig.refinements).length Cell.null) pending) := by
  have enough : demandIn .ordinary sig.plain ≤ literals.length := by
    have enough := task.enough [] (List.nil_prefix ..) ⟨by simp, by simp⟩
    simpa [Signature.demandAll, demandIn] using enough
  have empty : emptySlots first site.params =
      [first] ++ List.replicate sig.plain.length Cell.null ++
        List.replicate (Refinement.params sig.refinements).length Cell.null := by
    rw [emptySlots, task.params, Signature.params, List.length_append, List.replicate_add]
    rfl
  rw [empty] at holds
  have listed : site.params = [] ++ sig.plain ++ Refinement.params sig.refinements := task.params
  have leads := holds.fillParams dispatch fuel total task.plain .ordinary false listed rfl
    (List.length_replicate ..) sig.ordinary enough
  have index : ([] : List Typeset).length + 1 + sig.plain.length = sig.plain.length + 1 := by
    rw [List.length_nil, Nat.zero_add, Nat.add_comm]
  rw [index] at leads
  refine leads.weaken fun m holds => ⟨List.nodup_nil, by simp, ?_⟩
  have whole : sig.demandAll site.symbols.canon [] = demandIn .ordinary sig.plain := by
    simp [Signature.demandAll, demandIn]
  rw [filled, whole]
  simpa [Signature.refinementCells] using holds

/-- All slots are filled, or a name is refused. -/
theorem Holds.fillSlots (task : site.Task sig names literals) (free : ∀ i, site.fixedAt i = none)
    (holds : site.Holds (emptySlots first site.params) (names.map (Cell.pushed · 0)) literals [] m)
    {rounds : Nat} (long : (names.length + 1) * (sig.params.length + 1) ≤ rounds) :
    site.Settles sig first literals names
      (Engine.fillSlots ⟨Engine.runSteps dispatch (fuel + 4), total⟩ site.call rounds {}) false
      m := by
  rw [← waiting_start (sig.plain.length + 1) []] at holds
  obtain ⟨m₁, plain, passing⟩ := holds.fillPlain dispatch fuel total task
  obtain ⟨taken, left, state, whole, m₂, first, passing⟩ := Passing.pass dispatch fuel total task
    free (List.nil_append _).symm (List.nil_append _).symm (List.length_replicate ..) passing
  obtain ⟨n, few, rest⟩ := passing.finish dispatch fuel total
    (g := { index := site.call.count, refine := state }) task whole (Nat.le_refl _) rfl
  have count : site.call.count = sig.params.length + 1 := congrArg (·.length + 1) task.params
  have fewer : left.length * site.call.count ≤ names.length * (sig.params.length + 1) := by
    rw [count, whole, List.length_append]
    exact Nat.mul_le_mul_right _ (Nat.le_add_left ..)
  have width : sig.params.length = sig.plain.length + (Refinement.params sig.refinements).length :=
    List.length_append
  obtain ⟨k, rfl⟩ : ∃ k, rounds =
      k + 1 + n + (Refinement.params sig.refinements).length + sig.plain.length := by
    rw [Nat.succ_mul] at long
    exact ⟨rounds - (1 + n + sig.params.length), by omega⟩
  have ran : Engine.fillSlots ⟨Engine.runSteps dispatch (fuel + 4), total⟩ site.call
      (k + 1 + n + (Refinement.params sig.refinements).length + sig.plain.length) {} m =
        Engine.fillSlots ⟨Engine.runSteps dispatch (fuel + 4), total⟩ site.call (k + 1 + n)
          { index := site.call.count, refine := state } m₂ := (plain _).trans (first _)
  rw [Settles, Gives, ran]
  exact rest k

variable {e : Engine} {pushed : List SymbolId}

/-- A call that has begun gets its arguments. -/
theorem Begins.fulfill (begins : site.Begins pushed literals binding m)
    (filled : site.Settles sig first literals names (e.fillSlots site.call e.rounds {}) false m) :
    site.Settles sig first literals names (e.fulfill site.frame) false m := by
  rw [Settles, Gives, begins.fulfill_run]
  refine filled.bind fun m passing => ?_
  refine .bind (passing.onCaller fun frame runs => ?_) fun m passing => .pure passing
  exact ⟨runs.feed, runs.phase, runs.varlist, runs.fromInput, runs.whole, runs.base⟩

theorem Begins.processAction (begins : site.Begins pushed literals binding m)
    (filled : site.Settles sig first literals names (e.fillSlots site.call e.rounds {}) false m) :
    site.Settles sig first literals names (e.processAction site.frame) .dispatch m := by
  refine (begins.fulfill filled).bind fun m passing => ?_
  obtain ⟨frame, asked, runs⟩ := passing.holds.caller_run
  rw [if_neg Bool.false_ne_true]
  refine .asked asked ?_
  rw [runs.whole, if_neg Bool.false_ne_true]
  exact .pure passing

end Site

/-! ## Whole calls -/

variable {m m' : Machine} {f : FrameId} {action : Action} {sig : Signature}
  {names : List SymbolId} {literals rest : List Cell}

/-- A call has its arguments: its slots are filled in the order of the names, the data stack is
back where it was before the call, and what no parameter takes is left in the input. -/
structure Machine.Filled (before : Machine) (f : FrameId) (action : Action) (sig : Signature)
    (names : List SymbolId) (literals rest : List Cell) (m : Machine) : Prop where
  slots : ∃ varlist binding, Query.frameVarlist f m = .ok varlist ∧
    Query.cells varlist m = .ok (Cell.frame varlist action binding ::
      sig.cells before.symbols.canon (Cell.action before.specials.return_ (.specific varlist))
        names literals).toArray
  stack : m.stack = before.stack
  frame : ∃ frame feed, Query.frame f m = .ok frame ∧ frame.phase = some action ∧
    frame.stackBase = m.stack.size ∧ Query.feed frame.feed m = .ok feed ∧
    feed.Supplies (fun _ => True) m.heap
      (literals.drop (sig.demandAll before.symbols.canon names) ++ rest)

theorem Signature.Accepts.of_isPrefix {canon : SymbolId → SymbolId} {good : List SymbolId}
    (accepts : sig.Accepts canon names) (first : good <+: names) : sig.Accepts canon good :=
  ⟨fun s member => accepts.1 s (first.subset member),
    accepts.2.sublist (first.sublist.map canon)⟩

/-- Where all names are taken the call has its arguments. -/
theorem Site.Passing.machine {site : Site} {binding : Binding} {layout : Layout}
    {takes : Cell → Prop} (opens : site.Opens m f action layout takes rest)
    (passing : site.Passing sig (Cell.frame site.varlist site.phase binding) literals names []
      sig.refinements [] m') : m.Filled f action sig names literals rest m' := by
  obtain ⟨rfl, rfl, -, -, below, symbols, ret, -, rfl⟩ := opens
  obtain ⟨frame, asked, runs⟩ := passing.holds.caller_run
  obtain ⟨feed, fed, supplies⟩ := passing.holds.feed_run
  have stack : m'.stack = m.stack := by
    have left := passing.holds.gathers.stack
    rw [below] at left
    exact Array.toList_inj.mp (left.trans (List.append_nil _))
  have varlist : Query.frameVarlist site.frame m' = .ok site.varlist := by
    rw [Query.frameVarlist]
    refine (Query.bind_ok asked _).trans ?_
    rw [runs.varlist]
    rfl
  have cells := Query.cells_iff.mpr passing.holds.gathers.slots
  rw [List.append_nil, Site.filled, Site.retCell, symbols, ret] at cells
  refine ⟨⟨site.varlist, binding, varlist, cells⟩, stack, frame, feed, asked, runs.phase, ?_, ?_,
    ?_⟩
  · rw [runs.base, below, stack, Array.length_toList]
  · rw [runs.feed]
    exact fed
  · rw [← symbols]
    exact supplies.transport fun _ _ _ _ _ => ⟨trivial, rfl⟩

/-- A call gets its arguments in the order of the names, or the first name that is wrong is
refused. -/
theorem Machine.Calls.settles (dispatch : Dispatch) {fuel : Nat} (defines : m.Defines action sig)
    (distinct : Refinement.Distinct m.symbols.canon sig.refinements)
    (calls : m.Calls f action names literals rest)
    (enough : sig.Suffices m.symbols.canon names literals)
    (long : (names.length + 1) * (sig.params.length + 1) + 4 ≤ fuel) :
    (sig.Accepts m.symbols.canon names ∧ ∃ m', m.Filled f action sig names literals rest m' ∧
      Engine.runSteps dispatch (fuel + 4) f .start m =
        Engine.runSteps dispatch fuel f .dispatch m') ∨
    ∃ good s others m', names = good ++ s :: others ∧
      sig.Accepts m.symbols.canon good ∧ ¬ sig.Accepts m.symbols.canon (good ++ [s]) ∧
      Engine.runSteps dispatch (fuel + 4) f .start m =
        .error (.error (Cause.badRefine (m.symbols.spelling s)).error) m' := by
  obtain ⟨site, opens, binding, m₁, begins, ran⟩ := calls.expects.begin defines.lays
    (fun c integer => ⟨c, integer.isLiteral.means⟩) calls.integers
  obtain ⟨k, rfl⟩ : ∃ k, fuel = k + 4 := ⟨fuel - 4, by omega⟩
  have free := site.fixedAt_of_none (congrArg Layout.exemplar opens.layout)
  have plain : site.Plain := ⟨fun i _ _ _ => free i, fun c fits => (congrFun opens.takes c).mp fits⟩
  have task : site.Task sig names literals :=
    ⟨plain, congrArg Layout.params opens.layout, opens.symbols ▸ distinct, opens.symbols ▸ enough⟩
  have long : (names.length + 1) * (sig.params.length + 1) ≤ k + 4 := by omega
  have settles := begins.processAction (begins.holds.fillSlots dispatch k (k + 4) task free long)
  rw [opens.frame] at settles
  rcases settles with ⟨m₂, filled, passing⟩ |
    ⟨good, s, others, m₂, whole, accepted, refused, failed⟩
  · have settled : Engine.step dispatch ⟨Engine.runSteps dispatch (k + 4), k + 4⟩ f .processAction
        m₁ = .ok .dispatch m₂ := filled
    refine .inl ⟨opens.symbols ▸ ⟨passing.known, passing.single⟩, m₂, passing.machine opens, ?_⟩
    rw [ran, Engine.runSteps_step settled (by simp)]
  · rw [opens.symbols] at accepted refused failed
    refine .inr ⟨good, s, others, m₂, whole, accepted, refused, ?_⟩
    rw [ran, Engine.runSteps]
    exact Interp.bind_error failed _

/-- Refinements may be named in any order.  The parameters before all refinements take the first
literals, then those of each refinement in the order of the names.  The first name that is unknown
or repeats another is refused. -/
theorem Engine.runSteps_call (dispatch : Dispatch) {fuel : Nat} (defines : m.Defines action sig)
    (distinct : Refinement.Distinct m.symbols.canon sig.refinements)
    (calls : m.Calls f action names literals rest)
    (enough : sig.Suffices m.symbols.canon names literals)
    (long : (names.length + 1) * (sig.params.length + 1) + 4 ≤ fuel) :
    (sig.Accepts m.symbols.canon names → ∃ m', m.Filled f action sig names literals rest m' ∧
      runSteps dispatch (fuel + 4) f .start m = runSteps dispatch fuel f .dispatch m') ∧
    (¬ sig.Accepts m.symbols.canon names → ∃ good s others m', names = good ++ s :: others ∧
      sig.Accepts m.symbols.canon good ∧ ¬ sig.Accepts m.symbols.canon (good ++ [s]) ∧
      runSteps dispatch (fuel + 4) f .start m =
        .error (.error (Cause.badRefine (m.symbols.spelling s)).error) m') := by
  rcases calls.settles dispatch defines distinct enough long with
    ⟨accepts, filled⟩ | ⟨good, s, others, m', whole, accepted, refused, failed⟩
  · exact ⟨fun _ => filled, fun refused => absurd accepts refused⟩
  · have wrong : ¬ sig.Accepts m.symbols.canon names := fun accepts => refused <|
      accepts.of_isPrefix ⟨others, by rw [whole, ← List.append_cons]⟩
    exact ⟨fun accepts => absurd accepts wrong,
      fun _ => ⟨good, s, others, m', whole, accepted, refused, failed⟩⟩

/-! ## A sample -/

/-- A parameter as FUNC makes it of a word. -/
def sampleParam (s : Nat) : Typeset := .param ⟨s⟩ .normal .paramDefault

theorem ordinary_sampleParam (s : Nat) : (sampleParam s).Ordinary := 
  .taking rfl rfl (by decide : KindSet.paramDefault.contains .integer = true)

/-- A refinement with one parameter behind it. -/
def sampleRefinement (s : Nat) : Refinement where
  param := .param ⟨s⟩ .refinement (.ofList [.logic, .blank])
  symbol := ⟨s⟩
  args := [sampleParam (s + 1)]
  isRefinement := rfl
  named := rfl
  ordinary := by simp [ordinary_sampleParam]

/-- The parameters `a /x xa /y ya`. -/
def sampleSignature : Signature where
  plain := [sampleParam 1]
  refinements := [sampleRefinement 2, sampleRefinement 4]
  ordinary := by simp [ordinary_sampleParam]

def sampleAction : Action := ⟨⟨0⟩, ⟨1⟩⟩

/-- A machine about to evaluate `f/y/x 1 2 3`, where `f` is an action with the sample parameters. -/
def sampleCall : Machine :=
  let params := Cell.action sampleAction .unbound :: sampleSignature.params.map Cell.typeset
  let path := [Cell.boundWord .word ⟨0⟩ (.specific ⟨3⟩) 1, .word .word ⟨4⟩, .word .word ⟨2⟩]
  let heap := ((Heap.empty 100000).alloc (Series.ofCells params.toArray).managed).2
  let heap := (heap.alloc (Series.ofCells #[]).managed).2
  let heap := (heap.alloc (Series.ofCells path.toArray).managed).2
  let heap := (heap.alloc (Series.ofCells #[Cell.context .object ⟨3⟩,
    Cell.action sampleAction .unbound]).managed).2
  let names := ["f", "a", "x", "xa", "y", "ya"]
  { config := {}, heap, countdown := 1
    symbols := names.foldl (fun t name => t.push name name ⟨t.size⟩ ⟨t.size⟩) .empty
    frames := #[{ feed := 0 }]
    feeds := #[{ source := .cells [.integer 1, .integer 2, .integer 3],
                 value := .series .path ⟨2⟩ 0 }] }

theorem defines_sampleCall : sampleCall.Defines sampleAction sampleSignature where
  paramlist := ⟨_, _, rfl, rfl, rfl⟩
  details := ⟨_, rfl, rfl⟩

theorem distinct_sampleCall :
    Refinement.Distinct sampleCall.symbols.canon sampleSignature.refinements :=
  .cons (by simp [sampleRefinement]; decide) (List.pairwise_singleton ..)

theorem calls_sampleCall : sampleCall.Calls 0 sampleAction [⟨4⟩, ⟨2⟩]
    [.integer 1, .integer 2, .integer 3] [] where
  call := by
    refine ⟨_, _, .series .path ⟨2⟩ 0, ⟨?_, rfl, rfl, Config.lt_frameLimit_iff.mpr (by decide), rfl, rfl, rfl,
      rfl, rfl, ?_⟩, ?_⟩
    · exact (((Heap.Unmarked.empty 100000).alloc rfl |>.alloc rfl).alloc rfl).alloc rfl
    · exact ⟨rfl, .inl rfl, rfl, rfl⟩
    · exact .path rfl rfl rfl rfl rfl rfl rfl (.cons ⟨rfl, rfl⟩ (.cons ⟨rfl, rfl⟩ .nil))
  integers := by
    intro c member
    simp only [List.mem_cons, List.not_mem_nil, or_false] at member
    rcases member with rfl | rfl | rfl
    all_goals exact ⟨_, false, rfl⟩
  quiet := ⟨rfl, rfl⟩
  space := by decide

theorem Engine.runSteps_call_sample :
    sampleSignature.Accepts sampleCall.symbols.canon [⟨4⟩, ⟨2⟩] ∧
      ∃ m', sampleCall.Filled 0 sampleAction sampleSignature [⟨4⟩, ⟨2⟩]
          [.integer 1, .integer 2, .integer 3] [] m' ∧
        runSteps Library.dispatch 26 0 .start sampleCall =
          runSteps Library.dispatch 22 0 .dispatch m' := by
  have accepts : sampleSignature.Accepts sampleCall.symbols.canon [⟨4⟩, ⟨2⟩] := by
    refine ⟨?_, by decide⟩
    simp only [List.forall_mem_cons]
    refine ⟨⟨sampleRefinement 4, ?_, rfl⟩, ⟨sampleRefinement 2, ?_, rfl⟩, by simp⟩
    all_goals simp [sampleSignature]
  exact ⟨accepts, (runSteps_call Library.dispatch defines_sampleCall distinct_sampleCall
    calls_sampleCall (Signature.suffices_of_le (by decide)) (by decide)).1 accepts⟩

end Homoicon
