import Homoicon.Proofs.Arguments.Site
import Homoicon.Proofs.Arguments.Naming

/-!
# Filling one slot

What happens at one parameter of a call: an argument is evaluated, a slot is left null, or a
refinement is looked for among the names on the data stack.
-/

namespace Homoicon

open Interp (Gives)

/-- How a refinement stands after the search for its name: on top, deeper, or nowhere. -/
def RefineState.searched : Option Bool → RefineState
  | some true => .ordinary
  | some false => .pickup
  | none => .unused

theorem Typeset.Ordinary.noRefinement {p : Typeset} (ordinary : p.Ordinary) :
    p.paramClass ≠ .refinement := by
  cases ordinary with
  | taking normal => simp [normal]
  | idle idle => rcases idle with idle | idle <;> simp [idle]

/-- A parameter takes a value as it stands. -/
structure Typeset.Accepts (p : Typeset) (v : Cell) : Prop where
  normal : p.paramClass = .normal
  single : p.flags.variadic = false
  bare : (p.flags.requote && v.isQuoted) = false
  whole : (p.flags.noopIfBlank && v.isBlank) = false
  fits : Query.typeMatches p v.copied = true

namespace Site

variable {site : Site} {slots pending input : List Cell} {m : Machine} {e : Engine}

/-- The RETURN of the call. -/
def retCell (site : Site) : Cell := Cell.action site.ret (.specific site.varlist)

/-- The argument that a specialization has fixed for a parameter, if it has. -/
def fixedAt (site : Site) (i : Nat) : Option Cell :=
  site.exemplar.bind fun _ => site.fixed[i]?.filter (·.checked)

/-- A call that is followed by integers, of which nothing is fixed but refinements. -/
structure Plain (site : Site) : Prop where
  free : ∀ (i : Nat) (p : Typeset), site.params[i]? = some p → p.paramClass ≠ .refinement →
    site.fixedAt i = none
  integers : ∀ c, site.takes c → c.IsInteger

/-- Nothing is fixed in a call of a function as it was made. -/
theorem fixedAt_of_none (own : site.exemplar = none) (i : Nat) : site.fixedAt i = none := by
  rw [fixedAt, own, Option.bind_none]

theorem Runs.withParam {frame : Frame} (runs : site.Runs frame) (param : Nat) :
    site.Runs { frame with param } :=
  ⟨runs.feed, runs.phase, runs.varlist, runs.fromInput, runs.whole, runs.base⟩

namespace Holds

/-- The parameter is looked up, and what a specialization has fixed for it. -/
theorem fillSlot {g : Gathering} {i : Nat} {p : Typeset} {result : Option Gathering}
    {post : Machine → Prop} (holds : site.Holds slots pending input [] m)
    (there : site.params[i]? = some p) (place : g.index = i + 1)
    (filled : ∀ m, site.Holds slots pending input [] m →
      Gives (do match ← Engine.fillSpecial site.call g p (site.fixedAt i) with
        | some g => pure (some g)
        | none => e.fillOrdinary site.call g p (site.fixedAt i)) m result post) :
    Gives (e.fillSlot site.call g) m result post := by
  have asked : Query.param site.call.paramlist g.index m = .ok p := by
    rw [place]
    exact holds.lays.param_run there
  unfold Engine.fillSlot
  refine .asked asked ?_
  refine .bind (holds.onCaller fun frame runs => runs.withParam _) fun m holds => ?_
  have filled := filled m holds
  cases fixes : site.exemplar with
  | none =>
      have prefill : site.call.prefill = .params := by rw [call, fixes]; rfl
      have none : site.fixedAt i = none := by rw [fixedAt, fixes, Option.bind_none]
      rw [prefill]
      rwa [none] at filled
  | some ex =>
      have prefill : site.call.prefill = .exemplar ex := by rw [call, fixes]; rfl
      obtain ⟨first, cells⟩ := holds.lays.fixed_run fixes
      have held : (first :: site.fixed).toArray[i + 1]? = site.fixed[i]? := by
        rw [List.getElem?_toArray, List.getElem?_cons_succ]
      have checked : Query.isSpecialized ex (i + 1) m =
          .ok ((site.fixed[i]?).any (·.checked)) := by
        rw [Query.isSpecialized, Query.bind_ok cells, held]
        cases site.fixed[i]? <;> rfl
      rw [prefill, place]
      refine .asked checked ?_
      rw [fixedAt, fixes, Option.bind_some] at filled
      cases there : site.fixed[i]? with
      | none =>
          rw [there] at filled
          exact filled
      | some c =>
          have value : Query.cell ex (i + 1) m = .ok c :=
            Query.cell_eq_ok.mpr ⟨_, cells, held.trans there⟩
          rw [there, Option.filter_some] at filled
          cases mark : c.checked with
          | false =>
              rw [mark, if_neg Bool.false_ne_true] at filled
              rw [Option.any_some, mark, if_neg Bool.false_ne_true]
              exact filled
          | true =>
              rw [mark, if_pos rfl] at filled
              rw [Option.any_some, mark, if_pos rfl]
              exact .asked value filled

/-- An argument passes the check of a parameter whose types it fits. -/
theorem finalize {i : Nat} {p : Typeset} {c : Cell} (holds : site.Holds slots pending input [] m)
    (single : p.flags.variadic = false) (present : c.isEnd = false)
    (bare : (p.flags.requote && c.isQuoted) = false)
    (whole : (p.flags.noopIfBlank && c.isBlank) = false) (fits : Query.typeMatches p c = true)
    (there : slots[i]? = some c) :
    Gives (Interp.finalizeArg site.frame site.varlist i p) m ()
      (site.Holds (slots.set i { c with checked := true }) pending input []) := by
  unfold Interp.finalizeArg
  refine .asked (holds.cell_run there) ?_
  rw [present, single, bare]
  change Gives (if (p.flags.noopIfBlank && c.isBlank) = true then _ else _) m () _
  rw [whole, fits]
  exact holds.check there

theorem evalArgument (dispatch : Dispatch) (fuel : Nat) {rounds : Nat} {c v : Cell}
    (means : c.Means v) (holds : site.Holds slots pending (c :: input) [] m) :
    Gives (Engine.evalArgument ⟨Engine.runSteps dispatch (fuel + 4), rounds⟩ site.frame site.feed)
      m (some { v with unevaluated := true, stale := false })
      (site.Holds slots pending input []) := by
  refine .bind (holds.evalSubframe dispatch fuel means) fun m holds => ?_
  exact .bind (holds.lookahead false) fun m holds => .pure holds

/-- A parameter takes the next cell as its argument. -/
theorem take (dispatch : Dispatch) (fuel : Nat) {rounds i : Nat} {state : RefineState}
    {again : Bool} {p : Typeset} {c v : Cell} (means : c.Means v)
    (holds : site.Holds slots pending (c :: input) [] m) (accepts : p.Accepts v)
    (inside : i < slots.length) :
    Gives (Engine.argFromFeed ⟨Engine.runSteps dispatch (fuel + 4), rounds⟩ site.call
        { index := i, refine := state, pickups := again } p) m
      (some { index := i + 1, refine := state, pickups := again })
      (site.Holds (slots.set i v.copied.argument) pending input []) := by
  obtain ⟨frame, asked, runs⟩ := holds.caller_run
  obtain ⟨feed, run, supplies⟩ := holds.feed_run
  have passable : feed.atBarrier = false := by
    rw [Feed.atBarrier, supplies.passing, supplies.value, List.cons_append, List.headD_cons,
      means.isEnd]
    rfl
  unfold Engine.argFromFeed
  refine .asked asked ?_
  rw [runs.feed]
  refine .asked run ?_
  rw [supplies.ready, if_neg Bool.false_ne_true]
  refine .bind (holds.onCaller fun frame runs =>
    ⟨runs.feed, runs.phase, runs.varlist, runs.fromInput, runs.whole, runs.base⟩) fun m holds => ?_
  refine .bind (holds.lookahead false) fun m holds => ?_
  rw [passable, if_neg Bool.false_ne_true, accepts.normal]
  refine .bind (holds.evalArgument dispatch fuel means) fun m holds => ?_
  refine .bind (holds.move _ inside) fun m holds => ?_
  have kept : Gives (Interp.finalizeArg site.frame site.varlist i p) m () _ :=
    holds.finalize (c := { v.copied with unevaluated := true }) accepts.single means.isEnd_value
      accepts.bare accepts.whole accepts.fits (List.getElem?_set_self inside)
  refine .bind kept fun m holds => .pure ?_
  rwa [List.set_set] at holds

/-- The slot of a local or a return takes nothing. -/
theorem fillIdle {i : Nat} {state : RefineState} {again : Bool} {p : Typeset}
    (specialized : Option Cell) (holds : site.Holds slots pending input [] m)
    (idle : p.paramClass = .local ∨ p.paramClass = .return) (inside : i < slots.length) :
    Gives (Engine.fillSpecial site.call { index := i, refine := state, pickups := again } p
        specialized) m
      (some { index := i + 1, refine := state, pickups := again })
      (site.Holds (slots.set i (slotCell site.retCell state p input)) pending input []) := by
  unfold Engine.fillSpecial
  rcases idle with idle | idle <;> rw [idle]
  · have null : slotCell site.retCell state p input = Cell.null.settled := by
      simp [slotCell, idle]
    rw [null]
    exact .bind (holds.settle _ inside) fun m holds => .pure holds
  · have ret : slotCell site.retCell state p input = site.retCell.settled := by
      simp [slotCell, idle]
    rw [ret]
    refine .bind holds.manage fun m holds => ?_
    have own := holds.gathers.ret
    refine .bind ⟨m, Interp.get_run m, holds⟩ fun m' holds => ?_
    rw [own]
    exact .bind (holds.settle _ inside) fun m holds => .pure holds

/-- A parameter behind a refinement that is not in use takes nothing. -/
theorem fillUnused {i : Nat} {again : Bool} {p : Typeset} (specialized : Option Cell)
    (holds : site.Holds slots pending input [] m) (inside : i < slots.length) :
    Gives (e.fillOrdinary site.call { index := i, refine := .unused, pickups := again } p
        specialized) m
      (some { index := i + 1, refine := .unused, pickups := again })
      (site.Holds (slots.set i Cell.null.settled) pending input []) := by
  unfold Engine.fillOrdinary
  exact .bind (holds.settle _ inside) fun m holds => .pure holds

/-- A parameter that is not fixed takes the next cell. -/
theorem fillOpen (dispatch : Dispatch) (fuel : Nat) {rounds i : Nat} {again : Bool} {p : Typeset}
    {c v : Cell} (means : c.Means v) (holds : site.Holds slots pending (c :: input) [] m)
    (accepts : p.Accepts v) (inside : i < slots.length) :
    Gives (Engine.fillOrdinary ⟨Engine.runSteps dispatch (fuel + 4), rounds⟩ site.call
        { index := i, refine := .ordinary, pickups := again } p none) m
      (some { index := i + 1, refine := .ordinary, pickups := again })
      (site.Holds (slots.set i v.copied.argument) pending input []) := by
  obtain ⟨frame, asked, runs⟩ := holds.caller_run
  unfold Engine.fillOrdinary
  refine .asked asked ?_
  rw [runs.fromInput, accepts.single]
  exact holds.take dispatch fuel means accepts inside

theorem fillSpecial_normal {g : Gathering} {p : Typeset} (normal : p.paramClass = .normal)
    (specialized : Option Cell) :
    Engine.fillSpecial site.call g p specialized = pure none := by
  rw [Engine.fillSpecial, normal]

/-- The slot of a parameter that is no refinement is filled by the state of the refinement before
it. -/
theorem fillParam (dispatch : Dispatch) (fuel : Nat) {rounds i : Nat} {state : RefineState}
    {again : Bool} {p : Typeset} (plain : site.Plain)
    (holds : site.Holds slots pending input [] m)
    (there : site.params[i]? = some p) (ordinary : p.Ordinary) (inside : i + 1 < slots.length)
    (enough : demandIn state [p] ≤ input.length) :
    Gives (Engine.fillSlot ⟨Engine.runSteps dispatch (fuel + 4), rounds⟩ site.call
        { index := i + 1, refine := state, pickups := again }) m
      (some { index := i + 2, refine := state, pickups := again })
      (site.Holds (slots.set (i + 1) (slotCell site.retCell state p input)) pending
        (input.drop (demandIn state [p])) []) := by
  refine holds.fillSlot there rfl fun m holds => ?_
  rw [plain.free i p there ordinary.noRefinement]
  cases ordinary with
  | idle idle =>
      have nothing : demandIn state [p] = 0 := by
        rcases idle with idle | idle <;> simp [demandIn, demand, idle]
      rw [nothing, List.drop_zero]
      exact .bind (holds.fillIdle none idle inside) fun m holds => .pure holds
  | taking normal single allowed =>
      rw [fillSpecial_normal normal]
      refine .bind (.pure holds) fun m holds => ?_
      cases state with
      | unused =>
          have null : slotCell site.retCell .unused p input = Cell.null.settled := by
            simp [slotCell, normal]
          rw [null]
          exact holds.fillUnused none inside
      | pickup =>
          have null : slotCell site.retCell .pickup p input = Cell.null := by
            simp [slotCell, normal]
          rw [null]
          unfold Engine.fillOrdinary
          exact .bind (holds.store _ inside) fun m holds => .pure holds
      | ordinary =>
          have one : demandIn .ordinary [p] = 1 := by simp [demandIn, demand, normal]
          rw [one] at enough ⊢
          obtain ⟨c, rest, rfl⟩ := List.exists_cons_of_length_pos enough
          have value : slotCell site.retCell .ordinary p (c :: rest) = c.argument := by
            simp [slotCell, normal]
          rw [value]
          have integer := plain.integers c (holds.input c (List.mem_cons_self ..))
          have kind := integer.kind
          have literal := integer.isLiteral
          have bare := literal.isQuoted
          have quote := literal.quote
          have fits : Query.typeMatches p c = true := by
            simp [Query.typeMatches, Cell.isNull, Cell.typeKind, bare, kind, quote, allowed]
          have accepts : p.Accepts c :=
            { normal, single, bare := by rw [bare, Bool.and_false]
              whole := by simp [Cell.isBlank, Cell.is, kind]
              fits := literal.copied.symm ▸ fits }
          have same : c.argument = c.copied.argument := by rw [literal.copied]
          rw [same]
          exact holds.fillOpen dispatch fuel literal.means accepts inside

/-! ## Refinements -/

section

variable {r : Refinement} {place : Nat}

/-- The names on the data stack are searched from the top. -/
theorem search (holds : site.Holds slots pending input [] m) :
    Interp.takeRefinement? site.below.length r.param place m =
      (match pending.findIdx? (r.isWanted site.symbols.canon) with
        | none => pure none
        | some 0 => do
          let _ ← Interp.popStack?
          pure (some true)
        | some back => do
          modify fun m => { m with
            stack := m.stack.modify (m.stack.size - 1 - back) (Cell.withSlot place) }
          pure (some false) : Interp (Option Bool)) m := by
  have names : (m.stack.toList.drop site.below.length).reverse = pending := by
    rw [holds.gathers.stack, List.drop_left, List.reverse_reverse]
  unfold Interp.takeRefinement? Refinement.isWanted
  rw [r.named, ← names, ← holds.gathers.symbols]
  rfl

theorem search_none (holds : site.Holds slots pending input [] m)
    (absent : pending.findIdx? (r.isWanted site.symbols.canon) = none) :
    Gives (Interp.takeRefinement? site.below.length r.param place) m none
      (site.Holds slots pending input []) := by
  rw [Gives, holds.search, absent]
  exact Gives.pure holds

theorem search_top {c : Cell} (holds : site.Holds slots (c :: pending) input [] m)
    (top : (c :: pending).findIdx? (r.isWanted site.symbols.canon) = some 0) :
    Gives (Interp.takeRefinement? site.below.length r.param place) m (some true)
      (site.Holds slots pending input []) := by
  rw [Gives, holds.search, top]
  exact Gives.bind holds.pop fun m holds => .pure holds

theorem search_deeper {back : Nat} (holds : site.Holds slots pending input [] m)
    (deeper : pending.findIdx? (r.isWanted site.symbols.canon) = some (back + 1)) :
    Gives (Interp.takeRefinement? site.below.length r.param place) m (some false)
      (site.Holds slots (pending.modify (back + 1) (Cell.withSlot place)) input []) := by
  have inside : back + 1 < pending.length := (List.findIdx?_eq_some_iff_getElem.mp deeper).1
  rw [Gives, holds.search, deeper]
  exact Gives.bind ⟨_, Interp.modify_run _ _, holds.changeStack inside _⟩
    fun m holds => .pure holds

/-- The slot of a refinement in the first pass. -/
theorem fillRefinement {i : Nat} {state : RefineState} {found : Option Bool}
    {pending' : List Cell} (holds : site.Holds slots pending input [] m)
    (free : site.fixedAt i = none) (there : site.params[i]? = some r.param)
    (inside : i + 1 < slots.length)
    (searched : ∀ m, site.Holds slots pending input [] m →
      Gives (Interp.takeRefinement? site.below.length r.param (i + 1)) m found
        (site.Holds slots pending' input [])) :
    Gives (e.fillSlot site.call { index := i + 1, refine := state, pickups := false }) m
      (some { index := i + 2, refine := .searched found, pickups := false })
      (site.Holds (slots.set (i + 1) (ownCell (.searched found))) pending' input []) := by
  refine holds.fillSlot there rfl fun m holds => ?_
  rw [free]
  suffices special : Gives (Engine.fillSpecial site.call
      { index := i + 1, refine := state, pickups := false } r.param none) m
      (some { index := i + 2, refine := .searched found, pickups := false })
      (site.Holds (slots.set (i + 1) (ownCell (.searched found))) pending' input []) from
    .bind special fun m filled => .pure filled
  unfold Engine.fillSpecial
  rw [r.isRefinement]
  refine .bind (searched m holds) fun m holds => ?_
  rcases found with _ | _ | _
  · exact .bind (holds.settle _ inside) fun m holds => .pure holds
  · exact .bind (holds.settle _ inside) fun m holds => .pure holds
  · exact .bind (holds.settle _ inside) fun m holds => .pure holds

/-- A refinement that a specialization has put in use. -/
theorem fillUsed {i : Nat} {state : RefineState} {v : Cell}
    (holds : site.Holds slots pending input [] m) (fixes : site.fixedAt i = some v)
    (used : v.isTruthy = true) (there : site.params[i]? = some r.param)
    (inside : i + 1 < slots.length) :
    Gives (e.fillSlot site.call { index := i + 1, refine := state, pickups := false }) m
      (some { index := i + 2, refine := .ordinary, pickups := false })
      (site.Holds (slots.set (i + 1) (ownCell .ordinary)) pending input []) := by
  refine holds.fillSlot there rfl fun m holds => ?_
  rw [fixes]
  suffices special : Gives (Engine.fillSpecial site.call
      { index := i + 1, refine := state, pickups := false } r.param (some v)) m
      (some { index := i + 2, refine := .ordinary, pickups := false })
      (site.Holds (slots.set (i + 1) (ownCell .ordinary)) pending input []) from
    .bind special fun m filled => .pure filled
  unfold Engine.fillSpecial
  rw [r.isRefinement]
  simp only [used, if_true]
  exact .bind (holds.settle _ inside) fun m holds => .pure holds

/-- A later pass ends at the next refinement. -/
theorem passRefinement {i : Nat} {state : RefineState} (holds : site.Holds slots pending input [] m)
    (there : site.params[i]? = some r.param) :
    Gives (e.fillSlot site.call { index := i + 1, refine := state, pickups := true }) m
      (some { index := site.params.length + 1, refine := state, pickups := true })
      (site.Holds slots pending input []) := by
  refine holds.fillSlot there rfl fun m holds => ?_
  have ended : Engine.fillSpecial site.call { index := i + 1, refine := state, pickups := true }
      r.param (site.fixedAt i) = pure
        (some { index := site.params.length + 1, refine := state, pickups := true }) := by
    rw [Engine.fillSpecial, r.isRefinement]
    rfl
  rw [ended]
  exact .bind (.pure holds) fun m holds => .pure holds

end

end Holds

end Site

end Homoicon
