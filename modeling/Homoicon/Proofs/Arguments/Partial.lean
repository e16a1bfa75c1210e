import Homoicon.Proofs.Arguments.Passes
import Homoicon.Proofs.Arguments.Starting

/-!
# Calls with some arguments fixed

A call that names no refinement goes once over its parameters.  Those before all refinements take
what a specialization has fixed for them, else the next value, else, if they may be missing at the
end, the null that stands for that; all refinements stay unused.
-/

namespace Homoicon

open Interp (Gives)

namespace Site

variable {site : Site} {slots pending input rest : List Cell} {m : Machine} {e : Engine}

/-- What some parameters from a place on take: the cells there are before and after, and what the
slots hold. -/
inductive Fills (site : Site) : Nat → List Typeset → List Cell → List Cell → List Cell → Prop where
  | nil {i : Nat} {input : List Cell} : Fills site i [] input input []
  | idle {i : Nat} {p : Typeset} {params : List Typeset} {input rest cells : List Cell} :
      p.paramClass = .local ∨ p.paramClass = .return → Fills site (i + 1) params input rest cells →
      Fills site i (p :: params) input rest (slotCell site.retCell .ordinary p [] :: cells)
  | fixed {i : Nat} {p : Typeset} {params : List Typeset} {input rest cells : List Cell} {c : Cell} :
      p.paramClass = .normal → site.fixedAt i = some c →
      Fills site (i + 1) params input rest cells →
      Fills site i (p :: params) input rest (c.settled :: cells)
  | given {i : Nat} {p : Typeset} {params : List Typeset} {input rest cells : List Cell}
      {c v : Cell} : c.Means v → p.Accepts v → site.fixedAt i = none →
      Fills site (i + 1) params input rest cells →
      Fills site i (p :: params) (c :: input) rest (v.copied.argument :: cells)
  | ended {i : Nat} {p : Typeset} {params : List Typeset} {rest cells : List Cell} :
      p.paramClass = .normal → p.flags.variadic = false → p.flags.endable = true →
      site.fixedAt i = none → site.rest = [] → Fills site (i + 1) params [] rest cells →
      Fills site i (p :: params) [] rest (Cell.endishNull.settled :: cells)

theorem Fills.length {i : Nat} {params : List Typeset} {input rest cells : List Cell}
    (fills : site.Fills i params input rest cells) : cells.length = params.length := by
  induction fills <;> simp_all

namespace Holds

/-- A parameter takes what is fixed for it. -/
theorem fillFixed {i : Nat} {again : Bool} {p : Typeset} {c : Cell}
    (holds : site.Holds slots pending input [] m) (inside : i < slots.length) :
    Gives (e.fillOrdinary site.call { index := i, refine := .ordinary, pickups := again } p
        (some c)) m
      (some { index := i + 1, refine := .ordinary, pickups := again })
      (site.Holds (slots.set i c.settled) pending input []) := by
  unfold Engine.fillOrdinary
  exact .bind (holds.settle _ inside) fun m holds => .pure holds

/-- A parameter that may be missing is null at the end of the input. -/
theorem fillEnded {i : Nat} {again : Bool} {p : Typeset}
    (holds : site.Holds slots pending [] [] m) (single : p.flags.variadic = false)
    (endable : p.flags.endable = true) (last : site.rest = []) (inside : i < slots.length) :
    Gives (e.fillOrdinary site.call { index := i, refine := .ordinary, pickups := again } p none) m
      (some { index := i + 1, refine := .ordinary, pickups := again })
      (site.Holds (slots.set i Cell.endishNull.settled) pending [] []) := by
  obtain ⟨frame, asked, runs⟩ := holds.caller_run
  obtain ⟨feed, run, supplies⟩ := holds.feed_run
  have ended : feed.atBarrier = true := by
    have value : feed.value = Cell.end_ := by
      rw [supplies.value]
      change (([] : List Cell) ++ site.rest).headD Cell.end_ = _
      rw [last]
      rfl
    rw [Feed.atBarrier, value]
    rfl
  unfold Engine.fillOrdinary
  refine .asked asked ?_
  rw [runs.fromInput, single]
  change Gives (Engine.argFromFeed e site.call _ p) m _ _
  unfold Engine.argFromFeed
  refine .asked asked ?_
  rw [runs.feed]
  refine .asked run ?_
  rw [supplies.ready, if_neg Bool.false_ne_true]
  refine .bind (holds.onCaller fun frame runs =>
    ⟨runs.feed, runs.phase, runs.varlist, runs.fromInput, runs.whole, runs.base⟩) fun m holds => ?_
  refine .bind (holds.lookahead false) fun m holds => ?_
  rw [ended, if_pos rfl, endable]
  refine .bind (holds.lookahead false) fun m holds => ?_
  exact .bind (holds.settle _ inside) fun m holds => .pure holds

/-- A refinement that is not named and what is behind it take nothing. -/
theorem fillAbsent {i : Nat} {state : RefineState} {p : Typeset}
    (holds : site.Holds slots [] input [] m) (refinement : p.paramClass = .refinement)
    (inside : i < slots.length) :
    Gives (Engine.fillSpecial site.call { index := i, refine := state, pickups := false } p none) m
      (some { index := i + 1, refine := .unused, pickups := false })
      (site.Holds (slots.set i Cell.blank.settled) [] input []) := by
  have absent : Interp.takeRefinement? site.call.stackBase p i m = .ok none m := by
    unfold Interp.takeRefinement?
    cases p.symbol with
    | none => rfl
    | some symbol =>
        have nothing : m.stack.toList.drop site.call.stackBase = [] := by
          rw [holds.gathers.stack]
          exact List.drop_left
        refine (Interp.bind_ok (Interp.get_run m) _).trans ?_
        rw [nothing]
        rfl
  unfold Engine.fillSpecial
  rw [refinement]
  change Gives (Interp.takeRefinement? site.call.stackBase p i >>= _) m _ _
  rw [Gives, Interp.bind_ok absent]
  exact Gives.bind (holds.settle _ inside) fun m holds => .pure holds

end Holds

/-- The slot of the first of some parameters is filled. -/
theorem Fills.step (dispatch : Dispatch) (fuel total : Nat) {i : Nat} {p : Typeset}
    {params : List Typeset} {input rest cells : List Cell}
    (fills : site.Fills i (p :: params) input rest cells) :
    ∃ c left others, cells = c :: others ∧ site.Fills (i + 1) params left rest others ∧
      ∀ slots m, site.Holds slots [] input [] m → site.params[i]? = some p → i + 1 < slots.length →
        Gives (Engine.fillSlot ⟨Engine.runSteps dispatch (fuel + 4), total⟩ site.call
            { index := i + 1 }) m (some { index := i + 2 })
          (site.Holds (slots.set (i + 1) c) [] left []) := by
  cases fills with
  | idle idle others =>
      refine ⟨_, _, _, rfl, others, fun slots m holds there inside => ?_⟩
      refine holds.fillSlot there rfl fun m holds => ?_
      have same : slotCell site.retCell .ordinary p [] = slotCell site.retCell .ordinary p input := by
        rcases idle with idle | idle <;> simp [slotCell, idle]
      rw [same]
      exact .bind (holds.fillIdle _ idle inside) fun m holds => .pure holds
  | fixed normal fixed others =>
      refine ⟨_, _, _, rfl, others, fun slots m holds there inside => ?_⟩
      refine holds.fillSlot there rfl fun m holds => ?_
      rw [Holds.fillSpecial_normal normal, fixed]
      exact .bind (.pure holds) fun m holds => holds.fillFixed inside
  | given means accepts open_ others =>
      refine ⟨_, _, _, rfl, others, fun slots m holds there inside => ?_⟩
      refine holds.fillSlot there rfl fun m holds => ?_
      rw [Holds.fillSpecial_normal accepts.normal, open_]
      exact .bind (.pure holds) fun m holds =>
        holds.fillOpen dispatch fuel means accepts inside
  | ended normal single endable open_ last others =>
      refine ⟨_, _, _, rfl, others, fun slots m holds there inside => ?_⟩
      refine holds.fillSlot there rfl fun m holds => ?_
      rw [Holds.fillSpecial_normal normal, open_]
      exact .bind (.pure holds) fun m holds => holds.fillEnded single endable last inside

/-! ## All slots -/

/-- One slot is filled, and then those behind it. -/
theorem Leads.cons {state next last : RefineState} {p : Typeset} {before params : List Typeset}
    {middle post : Machine → Prop} (behind : List Typeset)
    (listed : site.params = before ++ (p :: params) ++ behind)
    (one : Gives (e.fillSlot site.call { index := before.length + 1, refine := state }) m
      (some { index := before.length + 2, refine := next }) middle)
    (others : ∀ m, middle m → site.Leads e params.length
      { index := (before ++ [p]).length + 1, refine := next } m
      { index := (before ++ [p]).length + 1 + params.length, refine := last } post) :
    site.Leads e (p :: params).length { index := before.length + 1, refine := state } m
      { index := before.length + 1 + (p :: params).length, refine := last } post := by
  have more : before.length + 1 < site.call.count := by
    change before.length + 1 < site.params.length + 1
    rw [listed, List.length_append, List.length_append, List.length_cons]
    omega
  have leads := (Leads.slot more one).trans fun m holds => by
    simpa only [List.length_append, List.length_singleton] using others m holds
  rw [List.length_cons, Nat.add_comm params.length 1, ← Nat.add_assoc]
  exact leads

variable {before params behind : List Typeset} {front old back cells : List Cell}

theorem inside_slots (here : front.length = before.length + 1) (o : Cell) (old back : List Cell) :
    before.length + 1 < (front ++ o :: old ++ back).length := by
  simp only [List.length_append, List.length_cons]
  omega

/-- The parameters before all refinements are filled one after the other. -/
theorem Holds.fill (before behind : List Typeset) (dispatch : Dispatch) (fuel total : Nat)
    (fills : site.Fills before.length params input rest cells)
    (holds : site.Holds (front ++ old ++ back) [] input [] m)
    (listed : site.params = before ++ params ++ behind)
    (here : front.length = before.length + 1) (filling : old.length = params.length) :
    site.Leads ⟨Engine.runSteps dispatch (fuel + 4), total⟩ params.length
      { index := before.length + 1 } m { index := before.length + 1 + params.length }
      (site.Holds (front ++ cells ++ back) [] rest []) := by
  induction params generalizing before front old input cells m with
  | nil =>
      obtain rfl : old = [] := List.eq_nil_of_length_eq_zero filling
      cases fills
      exact .refl holds
  | cons p params ih =>
      obtain ⟨o, old, rfl⟩ := List.exists_cons_of_length_eq_add_one filling
      obtain ⟨c, left, others, rfl, behindIt, one⟩ := fills.step dispatch fuel total
      refine Leads.cons behind listed (one _ m holds (by simp [listed]) (inside_slots here o old back))
        fun m holds => ?_
      rw [set_behind here old back o c] at holds
      rw [List.append_cons front]
      exact ih (before ++ [p]) (by simpa using behindIt) holds (by simp [listed]) (by simp [here])
        (Nat.succ.inj filling)

/-- What the slot of a refinement holds that is not named, or of a parameter behind it. -/
def unusedCell (site : Site) (p : Typeset) : Cell :=
  if p.paramClass = .refinement then Cell.blank.settled else slotCell site.retCell .unused p []

/-- A parameter behind a refinement takes nothing, or it is a refinement itself. -/
theorem Holds.fillSkipped {i : Nat} {state : RefineState} {p : Typeset}
    (holds : site.Holds slots [] input [] m) (there : site.params[i]? = some p)
    (begun : p.paramClass = .refinement ∨ state = .unused) (free : site.fixedAt i = none)
    (inside : i + 1 < slots.length) :
    Gives (e.fillSlot site.call { index := i + 1, refine := state }) m
      (some { index := i + 2, refine := .unused })
      (site.Holds (slots.set (i + 1) (site.unusedCell p)) [] input []) := by
  refine holds.fillSlot there rfl fun m holds => ?_
  rw [free]
  by_cases refinement : p.paramClass = .refinement
  · rw [unusedCell, if_pos refinement]
    exact .bind (holds.fillAbsent refinement inside) fun m holds => .pure holds
  · obtain rfl := begun.resolve_left refinement
    rw [unusedCell, if_neg refinement]
    by_cases idle : p.paramClass = .local ∨ p.paramClass = .return
    · have same : slotCell site.retCell .unused p [] = slotCell site.retCell .unused p input := by
        rcases idle with idle | idle <;> simp [slotCell, idle]
      rw [same]
      exact .bind (holds.fillIdle _ idle inside) fun m holds => .pure holds
    · obtain ⟨noLocal, noReturn⟩ := not_or.mp idle
      have special : Engine.fillSpecial site.call { index := i + 1, refine := .unused } p none =
          pure none := by
        cases c : p.paramClass <;> simp_all [Engine.fillSpecial]
      have null : slotCell site.retCell .unused p [] = Cell.null.settled := by
        cases c : p.paramClass <;> simp_all [slotCell]
      rw [special, null]
      exact .bind (.pure holds) fun m holds => holds.fillUnused none inside

/-- The slots of some parameters that take nothing, of which the first is a refinement or behind
one. -/
theorem Holds.fillBehind {state : RefineState} {p : Typeset}
    (holds : site.Holds (front ++ old) [] input [] m) (listed : site.params = before ++ p :: params)
    (begun : p.paramClass = .refinement ∨ state = .unused)
    (free : ∀ i, before.length ≤ i → site.fixedAt i = none)
    (here : front.length = before.length + 1) (filling : old.length = params.length + 1) :
    site.Leads e (p :: params).length { index := before.length + 1, refine := state } m
      { index := before.length + 1 + (p :: params).length, refine := .unused }
      (site.Holds (front ++ (p :: params).map site.unusedCell) [] input []) := by
  induction params generalizing before front old state p m with
  | nil =>
      obtain ⟨o, rfl⟩ := List.length_eq_one_iff.mp filling
      have there : site.params[before.length]? = some p := by simp [listed]
      refine Leads.cons [] (by simp [listed]) (holds.fillSkipped there begun
        (free _ (Nat.le_refl _)) (by simp [here])) fun m holds => .refl ?_
      have behindIt := set_behind here [] [] o (site.unusedCell p)
      rw [List.append_nil, List.append_nil, List.append_nil] at behindIt
      rwa [behindIt] at holds
  | cons q params ih =>
      obtain ⟨o, old, rfl⟩ := List.exists_cons_of_length_eq_add_one filling
      have inside := inside_slots here o old []
      rw [List.append_nil] at inside
      have there : site.params[before.length]? = some p := by simp [listed]
      refine Leads.cons [] (by simp [listed]) (holds.fillSkipped there begun
        (free _ (Nat.le_refl _)) inside) fun m holds => ?_
      have behindIt := set_behind here old [] o (site.unusedCell p)
      rw [List.append_nil, List.append_nil] at behindIt
      rw [behindIt] at holds
      rw [List.map_cons, List.append_cons front]
      refine ih holds (by simp [listed]) (.inr rfl) (fun i later => free i ?_) (by simp [here])
        (Nat.succ.inj filling)
      rw [List.length_append] at later
      omega

/-- The slots of the refinements and of what is behind them. -/
theorem Holds.fillTail (holds : site.Holds (front ++ old) [] input [] m)
    (listed : site.params = before ++ params)
    (begun : ∀ p ∈ params.head?, p.paramClass = .refinement)
    (free : ∀ i, before.length ≤ i → site.fixedAt i = none)
    (here : front.length = before.length + 1) (filling : old.length = params.length) :
    ∃ last, site.Leads e params.length { index := before.length + 1 } m
      { index := before.length + 1 + params.length, refine := last }
      (site.Holds (front ++ params.map site.unusedCell) [] input []) := by
  cases params with
  | nil =>
      obtain rfl : old = [] := List.eq_nil_of_length_eq_zero filling
      exact ⟨.ordinary, .refl holds⟩
  | cons p params => exact ⟨.unused, holds.fillBehind listed (.inl (begun p rfl)) free here filling⟩

/-- A call that names no refinement gets its arguments. -/
theorem Begins.gather (dispatch : Dispatch) (fuel total : Nat) {literals : List Cell}
    {binding : Binding} (begins : site.Begins [] literals binding m)
    (listed : site.params = before ++ behind)
    (fills : site.Fills 0 before literals [] cells)
    (begun : ∀ p ∈ behind.head?, p.paramClass = .refinement)
    (free : ∀ i, before.length ≤ i → site.fixedAt i = none)
    (long : site.params.length + 1 ≤ total) :
    Gives (Engine.processAction ⟨Engine.runSteps dispatch (fuel + 4), total⟩ site.frame) m .dispatch
      (site.Holds (Cell.frame site.varlist site.phase binding :: cells ++
        behind.map site.unusedCell) [] [] []) := by
  let first := Cell.frame site.varlist site.phase binding
  have empty : emptySlots first site.params =
      [first] ++ List.replicate before.length Cell.null ++
        List.replicate behind.length Cell.null := by
    rw [emptySlots, listed, List.length_append, List.replicate_add]
    rfl
  have holds := begins.holds
  rw [empty] at holds
  obtain ⟨m₁, plain, holds⟩ := holds.fill [] behind dispatch fuel total fills
    (by simpa using listed) rfl (List.length_replicate ..)
  have width : ([first] ++ cells).length = before.length + 1 := by
    simp [fills.length]
  obtain ⟨last, m₂, skipped, holds⟩ :=
    holds.fillTail (e := ⟨Engine.runSteps dispatch (fuel + 4), total⟩) listed begun free width
      (List.length_replicate ..)
  have done : Engine.nextPickup site.call m₂ = .ok none m₂ := by
    rw [Engine.nextPickup, Interp.bind_ok holds.height]
    exact congrFun (if_pos (Nat.le_refl site.below.length)) m₂
  have ran : Engine.fillSlots ⟨Engine.runSteps dispatch (fuel + 4), total⟩ site.call total {} m =
      .ok false m₂ := by
    obtain ⟨k, rfl⟩ : ∃ k, total = k + 1 + behind.length + before.length := by
      rw [listed, List.length_append] at long
      exact ⟨total - (behind.length + before.length + 1), by omega⟩
    have start : ([] : List Typeset).length + 1 + before.length = before.length + 1 := by
      rw [List.length_nil]; omega
    rw [start] at plain
    refine (plain _).trans ((skipped _).trans ?_)
    have past : site.call.count ≤ before.length + 1 + behind.length := by
      change site.params.length + 1 ≤ _
      rw [listed, List.length_append]
      omega
    rw [Engine.fillSlots, if_pos past, Interp.bind_ok done]
    rfl
  have fulfilled : Gives (Engine.fulfill ⟨Engine.runSteps dispatch (fuel + 4), total⟩ site.frame) m
      false (site.Holds ([first] ++ cells ++ behind.map site.unusedCell) [] [] []) := by
    rw [Gives, begins.fulfill_run, Interp.bind_ok ran, if_neg Bool.false_ne_true]
    refine Gives.bind (holds.onCaller fun frame runs => ?_) fun m holds => .pure holds
    exact ⟨runs.feed, runs.phase, runs.varlist, runs.fromInput, runs.whole, runs.base⟩
  unfold Engine.processAction
  refine .bind fulfilled fun m holds => ?_
  obtain ⟨frame, asked, runs⟩ := holds.caller_run
  rw [if_neg Bool.false_ne_true]
  refine .asked asked ?_
  rw [runs.whole, if_neg Bool.false_ne_true]
  exact .pure holds

end Site

end Homoicon
