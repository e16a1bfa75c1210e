import Homoicon.Proofs.Arguments.Passes

/-!
# Arguments in the order of the names

However the first pass takes some names and puts others off, the literals go to the refinements in
the order of the names: what is taken is always a first part of them.
-/

namespace Homoicon

open Interp (Gives)

namespace Site

/-- A call with some names and literals, of which there are enough. -/
structure Task (site : Site) (sig : Signature) (names : List SymbolId) (literals : List Cell) :
    Prop where
  plain : site.Plain
  params : site.params = sig.params
  distinct : Refinement.Distinct site.symbols.canon sig.refinements
  enough : sig.Suffices site.symbols.canon names literals

/-- The slots up to some refinement when some names are taken and others wait. -/
def filled (site : Site) (sig : Signature) (first : Cell) (literals : List Cell)
    (taken left : List SymbolId) (passed : List Refinement) : List Cell :=
  first :: slotCells site.retCell .ordinary sig.plain literals ++
    sig.refinementCells site.symbols.canon site.retCell taken left literals passed

/-- The names on the data stack when some refinements are passed. -/
def names (site : Site) (sig : Signature) (taken left : List SymbolId)
    (passed : List Refinement) : List Cell :=
  waiting site.symbols.canon (slotIn site.symbols.canon (sig.plain.length + 1) passed) taken left

/-- Some refinements are passed: those whose names are taken have their arguments. -/
structure Passes (site : Site) (sig : Signature) (first : Cell) (literals : List Cell)
    (taken left : List SymbolId) (passed : List Refinement) (raw pending : List Cell) (m : Machine) :
    Prop where
  single : (taken.map site.symbols.canon).Nodup
  known : ∀ s ∈ taken, ∃ v ∈ passed, v.isNamed site.symbols.canon s = true
  holds : site.Holds (site.filled sig first literals taken left passed ++ raw) pending
    (literals.drop (sig.demandAll site.symbols.canon taken)) [] m

/-- Some refinements are passed, and the names that are not taken wait on the data stack. -/
abbrev Passing (site : Site) (sig : Signature) (first : Cell) (literals : List Cell)
    (taken left : List SymbolId) (passed : List Refinement) (raw : List Cell) : Machine → Prop :=
  site.Passes sig first literals taken left passed raw (site.names sig taken left passed)

variable {site : Site} {sig : Signature} {first : Cell} {literals raw old : List Cell}
  {all taken left : List SymbolId} {passed behind : List Refinement} {r : Refinement}
  {m : Machine}

theorem length_filled :
    (site.filled sig first literals taken left passed).length =
      sig.plain.length + (Refinement.params passed).length + 1 := by
  rw [filled, List.length_append, List.length_cons, length_slotCells,
    Signature.length_refinementCells]
  omega

theorem filled_append :
    site.filled sig first literals taken left (passed ++ [r]) =
      site.filled sig first literals taken left passed ++
        r.cells site.retCell (r.state site.symbols.canon taken left)
          (literals.drop (sig.offset site.symbols.canon (taken ++ left) r)) := by
  rw [filled, filled, Signature.refinementCells_append, ← List.append_assoc]
  exact congrArg (_ ++ ·) (List.flatMap_singleton _ _)

theorem filled_split :
    site.filled sig first literals taken left (passed ++ r :: behind) =
      site.filled sig first literals taken left passed ++
        r.cells site.retCell (r.state site.symbols.canon taken left)
          (literals.drop (sig.offset site.symbols.canon (taken ++ left) r)) ++
        sig.refinementCells site.symbols.canon site.retCell taken left literals behind := by
  simp only [filled, Signature.refinementCells, List.flatMap_append, List.flatMap_cons,
    List.append_assoc]

theorem filled_of_others {s : SymbolId}
    (others : ∀ v ∈ passed, v.isNamed site.symbols.canon s = false) :
    site.filled sig first literals (taken ++ [s]) left passed =
      site.filled sig first literals taken (s :: left) passed := by
  rw [filled, filled, Signature.refinementCells_of_others others]

/-- A refinement that is not passed is not among the names taken. -/
theorem Task.fresh (task : site.Task sig all literals)
    (split : sig.refinements = passed ++ r :: behind)
    (known : ∀ s ∈ taken, ∃ v ∈ passed, v.isNamed site.symbols.canon s = true) :
    taken.any (r.isNamed site.symbols.canon) = false := by
  refine List.any_eq_false.mpr fun s member same => ?_
  obtain ⟨v, earlier, named⟩ := known s member
  have absent := (split ▸ task.distinct).before same v earlier
  rw [named] at absent
  cases absent

theorem Task.demandAll_taken {s : SymbolId} (task : site.Task sig all literals)
    (split : sig.refinements = passed ++ r :: behind)
    (named : r.isNamed site.symbols.canon s = true) :
    sig.demandAll site.symbols.canon (taken ++ [s]) =
      sig.demandAll site.symbols.canon taken + demandIn .ordinary r.args := by
  rw [Signature.demandAll_concat,
    Signature.demandOf_named split ((split ▸ task.distinct).before named) named]
  rfl

theorem Task.listed (task : site.Task sig all literals)
    (split : sig.refinements = passed ++ r :: behind) :
    site.params = sig.plain ++ Refinement.params passed ++ [r.param] ++ r.args ++
      Refinement.params behind := by
  rw [task.params, Signature.params, split, Refinement.params_append]
  simp [Refinement.params]

theorem Task.there (task : site.Task sig all literals)
    (split : sig.refinements = passed ++ r :: behind) :
    site.params[sig.plain.length + (Refinement.params passed).length]? = some r.param := by
  rw [task.listed split, ← List.length_append]
  simp

theorem inside_filled (size : old.length = r.args.length + 1) :
    sig.plain.length + (Refinement.params passed).length + 1 <
      (site.filled sig first literals taken left passed ++ (old ++ raw)).length := by
  rw [List.length_append, List.length_append, length_filled, size]
  omega

/-- There are literals left for the refinement that is named next. -/
theorem Task.enough_left {s : SymbolId} (task : site.Task sig all literals)
    (split : sig.refinements = passed ++ r :: behind) (whole : all = taken ++ s :: left)
    (named : r.isNamed site.symbols.canon s = true)
    (accepted : sig.Accepts site.symbols.canon (taken ++ [s])) :
    demandIn .ordinary r.args ≤
      (literals.drop (sig.demandAll site.symbols.canon taken)).length := by
  have enough := task.enough (taken ++ [s]) ⟨left, by rw [whole, ← List.append_cons]⟩ accepted
  rw [task.demandAll_taken split named] at enough
  rw [List.length_drop]
  omega

/-- The name of a refinement that is not taken yet can be taken. -/
theorem accepts_taken {s : SymbolId} (single : (taken.map site.symbols.canon).Nodup)
    (known : ∀ t ∈ taken, ∃ v ∈ sig.refinements, v.isNamed site.symbols.canon t = true)
    (split : sig.refinements = passed ++ r :: behind)
    (fresh : taken.any (r.isNamed site.symbols.canon) = false)
    (named : r.isNamed site.symbols.canon s = true) :
    sig.Accepts site.symbols.canon (taken ++ [s]) := by
  refine ⟨List.forall_mem_append.mpr ⟨known, fun t member => ?_⟩, ?_⟩
  · obtain rfl := List.mem_singleton.mp member
    exact ⟨r, by simp [split], named⟩
  · rw [List.map_append, List.map_singleton]
    refine single.append (List.nodup_singleton _) (List.disjoint_singleton.mpr fun member => ?_)
    obtain ⟨t, earlier, same⟩ := List.mem_map.mp member
    refine List.any_eq_false.mp fresh t earlier ?_
    exact Refinement.isNamed_iff.mpr (same.trans (Refinement.isNamed_iff.mp named))

theorem slotIn_passed (task : site.Task sig all literals)
    (split : sig.refinements = passed ++ r :: behind) {s : SymbolId}
    (named : r.isNamed site.symbols.canon s = true) :
    slotIn site.symbols.canon (sig.plain.length + 1) passed s = 0 ∧
      slotIn site.symbols.canon (sig.plain.length + 1) (passed ++ [r]) s =
        sig.plain.length + (Refinement.params passed).length + 1 := by
  have absent := (split ▸ task.distinct).before named
  constructor
  · exact slotIn_absent _ absent
  · rw [slotIn_named _ _ absent named]
    omega

variable (dispatch : Dispatch) (fuel total : Nat)

/-- The first pass behind some refinements. -/
def reached (sig : Signature) (passed : List Refinement) (state : RefineState) : Gathering where
  index := sig.plain.length + (Refinement.params passed).length + 1
  refine := state
  pickups := false

/-- Once its own slot is filled a refinement is passed. -/
theorem Task.group {state next : RefineState} {pending input : List Cell}
    (task : site.Task sig all literals) (split : sig.refinements = passed ++ r :: behind)
    (size : old.length = r.args.length + 1)
    (own : Gives (Engine.fillSlot ⟨Engine.runSteps dispatch (fuel + 4), total⟩ site.call
        (reached sig passed state)) m
      (some { index := sig.plain.length + (Refinement.params passed).length + 2, refine := next })
      (site.Holds ((site.filled sig first literals taken left passed ++ (old ++ raw)).set
        (sig.plain.length + (Refinement.params passed).length + 1) (ownCell next)) pending input []))
    (enough : demandIn next r.args ≤ input.length) :
    site.Leads ⟨Engine.runSteps dispatch (fuel + 4), total⟩ (r.args.length + 1)
      (reached sig passed state) m (reached sig (passed ++ [r]) next)
      (site.Holds (site.filled sig first literals taken left passed ++
          r.cells site.retCell next input ++ raw) pending (input.drop (demandIn next r.args)) []) := by
  have listed : site.params = sig.plain ++ Refinement.params passed ++ (r.param :: r.args) ++
      Refinement.params behind := by
    rw [task.listed split, ← List.append_cons]
  have width : sig.plain.length + (Refinement.params passed).length =
      (sig.plain ++ Refinement.params passed).length := List.length_append.symm
  rw [reached, width, ← List.append_assoc] at own
  have leads := Holds.fillGroup dispatch fuel total task.plain own listed
    (by rw [length_filled, width]) size enough
  rw [← width] at leads
  rw [reached, reached, Refinement.params_append, Refinement.params_singleton,
    List.length_append, List.length_cons]
  convert leads using 2
  omega

theorem known_append (known : ∀ s ∈ taken, ∃ v ∈ passed, v.isNamed site.symbols.canon s = true) :
    ∀ s ∈ taken, ∃ v ∈ passed ++ [r], v.isNamed site.symbols.canon s = true := by
  intro s member
  obtain ⟨v, earlier, named⟩ := known s member
  exact ⟨v, List.mem_append_left _ earlier, named⟩

section

variable {state : RefineState} {pending pending' : List Cell}

/-- A refinement whose own slot says that it is unused is passed. -/
theorem Passes.skip (task : site.Task sig all literals)
    (split : sig.refinements = passed ++ r :: behind) (size : old.length = r.args.length + 1)
    (passing : site.Passes sig first literals taken left passed (old ++ raw) pending m)
    (absent : ∀ s ∈ left, r.isNamed site.symbols.canon s = false)
    (own : Gives (Engine.fillSlot ⟨Engine.runSteps dispatch (fuel + 4), total⟩ site.call
        (reached sig passed state)) m
      (some { index := sig.plain.length + (Refinement.params passed).length + 2, refine := .unused })
      (site.Holds ((site.filled sig first literals taken left passed ++ (old ++ raw)).set
        (sig.plain.length + (Refinement.params passed).length + 1) (ownCell .unused)) pending'
        (literals.drop (sig.demandAll site.symbols.canon taken)) [])) :
    site.Leads ⟨Engine.runSteps dispatch (fuel + 4), total⟩ (r.args.length + 1)
      (reached sig passed state) m (reached sig (passed ++ [r]) .unused)
      (site.Passes sig first literals taken left (passed ++ [r]) raw pending') := by
  have none : left.any (r.isNamed site.symbols.canon) = false :=
    List.any_eq_false.mpr fun s member => by simp [absent s member]
  refine (task.group dispatch fuel total split size own (Nat.zero_le _)).weaken
    fun m holds => ⟨passing.single, known_append passing.known, ?_⟩
  rw [filled_append, Refinement.state_unused (task.fresh split passing.known) none,
    r.cells_idle _ (by decide)]
  exact holds

/-- A refinement whose own slot says that it is in use takes its arguments. -/
theorem Passes.take {s : SymbolId} (task : site.Task sig all literals)
    (split : sig.refinements = passed ++ r :: behind) (whole : all = taken ++ s :: left)
    (size : old.length = r.args.length + 1)
    (passing : site.Passes sig first literals taken (s :: left) passed (old ++ raw) pending m)
    (named : r.isNamed site.symbols.canon s = true)
    (own : Gives (Engine.fillSlot ⟨Engine.runSteps dispatch (fuel + 4), total⟩ site.call
        (reached sig passed state)) m
      (some { index := sig.plain.length + (Refinement.params passed).length + 2, refine := .ordinary })
      (site.Holds ((site.filled sig first literals taken (s :: left) passed ++ (old ++ raw)).set
        (sig.plain.length + (Refinement.params passed).length + 1) (ownCell .ordinary)) pending'
        (literals.drop (sig.demandAll site.symbols.canon taken)) [])) :
    site.Leads ⟨Engine.runSteps dispatch (fuel + 4), total⟩ (r.args.length + 1)
      (reached sig passed state) m (reached sig (passed ++ [r]) .ordinary)
      (site.Passes sig first literals (taken ++ [s]) left (passed ++ [r]) raw pending') := by
  have fresh := task.fresh split passing.known
  have accepted : sig.Accepts site.symbols.canon (taken ++ [s]) := by
    refine accepts_taken passing.single (fun t member => ?_) split fresh named
    obtain ⟨v, earlier, same⟩ := passing.known t member
    exact ⟨v, by simp [split, earlier], same⟩
  refine (task.group dispatch fuel total split size own
    (task.enough_left split whole named accepted)).weaken fun m holds => ⟨accepted.2, ?_, ?_⟩
  · refine List.forall_mem_append.mpr ⟨known_append passing.known, fun t member => ?_⟩
    obtain rfl := List.mem_singleton.mp member
    exact ⟨r, List.mem_append_right _ (List.mem_cons_self ..), named⟩
  · rw [filled_append, filled_of_others ((split ▸ task.distinct).before named),
      Refinement.state_taken named, task.demandAll_taken split named, ← List.drop_drop,
      List.append_assoc taken, List.singleton_append, Signature.offset_named fresh named]
    exact holds

end

theorem find_names (task : site.Task sig all literals)
    (split : sig.refinements = passed ++ r :: behind)
    (fresh : taken.any (r.isNamed site.symbols.canon) = false) :
    (site.names sig taken left passed).findIdx? (r.isWanted site.symbols.canon) =
      left.findIdx? (r.isNamed site.symbols.canon) :=
  findIdx?_waiting (fun _ named => (slotIn_passed task split named).1) fresh

/-- A refinement that is not named is passed unused. -/
theorem Passing.skip {state : RefineState} (task : site.Task sig all literals)
    (split : sig.refinements = passed ++ r :: behind) (size : old.length = r.args.length + 1)
    (passing : site.Passing sig first literals taken left passed (old ++ raw) m)
    (free : site.fixedAt (sig.plain.length + (Refinement.params passed).length) = none)
    (absent : ∀ s ∈ left, r.isNamed site.symbols.canon s = false) :
    site.Leads ⟨Engine.runSteps dispatch (fuel + 4), total⟩ (r.args.length + 1)
      (reached sig passed state) m (reached sig (passed ++ [r]) .unused)
      (site.Passing sig first literals taken left (passed ++ [r]) raw) := by
  have search := (find_names task split (task.fresh split passing.known)).trans
    (List.findIdx?_eq_none_iff.mpr absent)
  rw [Passing, names, ← waiting_unnamed (fun _ => slotIn_append_of_not_named _ passed) absent]
  exact Passes.skip dispatch fuel total task split size passing absent
    (passing.holds.fillRefinement free (task.there split) (inside_filled size)
      fun m holds => holds.search_none search)

/-- A refinement that is named next takes its arguments when it is passed. -/
theorem Passing.take {state : RefineState} {s : SymbolId} (task : site.Task sig all literals)
    (split : sig.refinements = passed ++ r :: behind) (whole : all = taken ++ s :: left)
    (size : old.length = r.args.length + 1)
    (passing : site.Passing sig first literals taken (s :: left) passed (old ++ raw) m)
    (free : site.fixedAt (sig.plain.length + (Refinement.params passed).length) = none)
    (named : r.isNamed site.symbols.canon s = true) :
    site.Leads ⟨Engine.runSteps dispatch (fuel + 4), total⟩ (r.args.length + 1)
      (reached sig passed state) m (reached sig (passed ++ [r]) .ordinary)
      (site.Passing sig first literals (taken ++ [s]) left (passed ++ [r]) raw) := by
  have search : (site.names sig taken (s :: left) passed).findIdx?
      (r.isWanted site.symbols.canon) = some 0 := by
    rw [find_names task split (task.fresh split passing.known), List.findIdx?_cons, named, if_pos rfl]
  rw [Passing, names, ← waiting_taken (fun _ => slotIn_append_of_not_named _ passed) named]
  exact Passes.take dispatch fuel total task split whole size passing named
    (passing.holds.fillRefinement free (task.there split) (inside_filled size)
      fun m holds => holds.search_top search)

/-- A refinement that is named later is put off when it is passed. -/
theorem Passing.putOff {state : RefineState} {back : Nat} (task : site.Task sig all literals)
    (split : sig.refinements = passed ++ r :: behind) (size : old.length = r.args.length + 1)
    (passing : site.Passing sig first literals taken left passed (old ++ raw) m)
    (free : site.fixedAt (sig.plain.length + (Refinement.params passed).length) = none)
    (found : left.findIdx? (r.isNamed site.symbols.canon) = some (back + 1)) :
    site.Leads ⟨Engine.runSteps dispatch (fuel + 4), total⟩ (r.args.length + 1)
      (reached sig passed state) m (reached sig (passed ++ [r]) .pickup)
      (site.Passing sig first literals taken left (passed ++ [r]) raw) := by
  have fresh := task.fresh split passing.known
  have search := (find_names task split fresh).trans found
  have waits : left.any (r.isNamed site.symbols.canon) = true :=
    List.findIdx?_isSome.symm.trans (by rw [found]; rfl)
  have own : Gives (Engine.fillSlot ⟨Engine.runSteps dispatch (fuel + 4), total⟩ site.call
      (reached sig passed state)) m _ _ :=
    passing.holds.fillRefinement free (task.there split) (inside_filled size)
      fun m holds => holds.search_deeper search
  refine (task.group dispatch fuel total split size own (Nat.zero_le _)).weaken
    fun m holds => ⟨passing.single, known_append passing.known, ?_⟩
  rw [filled_append, Refinement.state_waiting fresh waits, names,
    ← waiting_passed (fun _ named => (slotIn_passed task split named).2)
      (fun _ => slotIn_append_of_not_named _ passed) fresh found, r.cells_idle _ (by decide)]
  exact holds

/-- Passing a refinement: its name is taken from the top, or it is put off, or it is unused. -/
theorem Passing.next {state : RefineState} (task : site.Task sig all literals)
    (split : sig.refinements = passed ++ r :: behind) (whole : all = taken ++ left)
    (size : old.length = r.args.length + 1)
    (passing : site.Passing sig first literals taken left passed (old ++ raw) m)
    (free : site.fixedAt (sig.plain.length + (Refinement.params passed).length) = none) :
    ∃ taken' left' state', all = taken' ++ left' ∧
      site.Leads ⟨Engine.runSteps dispatch (fuel + 4), total⟩ (r.args.length + 1)
        (reached sig passed state) m (reached sig (passed ++ [r]) state')
        (site.Passing sig first literals taken' left' (passed ++ [r]) raw) := by
  cases found : left.findIdx? (r.isNamed site.symbols.canon) with
  | none =>
      have absent := List.findIdx?_eq_none_iff.mp found
      exact ⟨taken, left, .unused, whole,
        Passing.skip dispatch fuel total task split size passing free absent⟩
  | some back =>
      cases back with
      | zero =>
          cases left with
          | nil => cases found
          | cons s left =>
              have named : r.isNamed site.symbols.canon s = true := by
                by_contra other
                simp [List.findIdx?_cons, other] at found
              exact ⟨taken ++ [s], left, .ordinary, by simp [whole],
                Passing.take dispatch fuel total task split whole size passing free named⟩
      | succ back =>
          exact ⟨taken, left, .pickup, whole,
            passing.putOff dispatch fuel total task split size free found⟩

/-- The first pass goes over all refinements. -/
theorem Passing.pass {state : RefineState} (task : site.Task sig all literals)
    (free : ∀ i, site.fixedAt i = none)
    (split : sig.refinements = passed ++ behind) (whole : all = taken ++ left)
    (size : raw.length = (Refinement.params behind).length)
    (passing : site.Passing sig first literals taken left passed raw m) :
    ∃ taken' left' state', all = taken' ++ left' ∧
      site.Leads ⟨Engine.runSteps dispatch (fuel + 4), total⟩ (Refinement.params behind).length
        (reached sig passed state) m
        { index := site.call.count, refine := state', pickups := false }
        (site.Passing sig first literals taken' left' sig.refinements []) := by
  induction behind generalizing passed taken left raw state m with
  | nil =>
      obtain rfl : raw = [] := List.eq_nil_of_length_eq_zero size
      obtain rfl : sig.refinements = passed := by rw [split, List.append_nil]
      have count : sig.plain.length + (Refinement.params sig.refinements).length + 1 =
          site.call.count := by
        change _ = site.params.length + 1
        rw [task.params, Signature.params, List.length_append]
      rw [← count]
      exact ⟨taken, left, state, whole, .refl passing⟩
  | cons r behind induction =>
      have length : (Refinement.params (r :: behind)).length =
          r.args.length + 1 + (Refinement.params behind).length := by
        simp only [Refinement.params, List.flatMap_cons, List.length_append, List.length_cons]
      rw [length] at size
      have parts : raw.take (r.args.length + 1) ++ raw.drop (r.args.length + 1) = raw :=
        List.take_append_drop ..
      rw [← parts] at passing
      obtain ⟨taken, left, state, whole, m₁, ran, passing⟩ := passing.next dispatch fuel total task
        split whole (by rw [List.length_take]; omega) (free _)
      obtain ⟨taken, left, state, whole, rest⟩ := induction
        (by rw [split, List.append_cons]) whole (by rw [List.length_drop]; omega) passing
      rw [length]
      refine ⟨taken, left, state, whole, ?_⟩
      exact .trans ⟨m₁, ran, rfl⟩ fun m (same : m₁ = m) => same ▸ rest

/-! ## Later passes -/

/-- The name on top of the data stack has a slot: its refinement was put off. -/
theorem Holds.pickup {slots pending input : List Cell} {s : SymbolId} {place : Nat}
    (holds : site.Holds slots (Cell.pushed s place :: pending) input [] m) (off : place ≠ 0) :
    Gives (Engine.nextPickup site.call) m (some { index := place + 1, pickups := true })
      (site.Holds slots pending input []) := by
  have some : ¬ site.below.length + (pending.length + 1) ≤ site.call.stackBase :=
    Nat.not_le_of_lt (Nat.lt_add_of_pos_right (Nat.succ_pos _))
  have slotted : ((Cell.pushed s place).wordIndex == 0) = false := beq_eq_false_iff_ne.mpr off
  unfold Engine.nextPickup
  refine .bind ⟨m, holds.height, holds⟩ fun m holds => ?_
  rw [List.length_cons, if_neg some]
  refine .bind holds.pop fun m holds => ?_
  change Gives (if ((Cell.pushed s place).wordIndex == 0) = true then _ else _) m _ _
  rw [slotted, if_neg Bool.false_ne_true]
  refine .bind (holds.onCaller fun frame runs => ?_) fun m holds => .pure holds
  exact ⟨runs.feed, runs.phase, runs.varlist, runs.fromInput, runs.whole, runs.base⟩

/-- The name on top of the data stack never got a slot. -/
theorem Holds.refuse {slots pending input : List Cell} {s : SymbolId}
    (holds : site.Holds slots (Cell.pushed s 0 :: pending) input [] m) :
    ∃ m', Engine.nextPickup site.call m =
      .error (.error (Cause.badRefine (site.symbols.spelling s)).error) m' := by
  have some : ¬ site.below.length + (pending.length + 1) ≤ site.call.stackBase :=
    Nat.not_le_of_lt (Nat.lt_add_of_pos_right (Nat.succ_pos _))
  obtain ⟨m', popped, left⟩ := holds.pop
  refine ⟨m', ?_⟩
  unfold Engine.nextPickup
  rw [Interp.bind_ok holds.height, List.length_cons, if_neg some, Interp.bind_ok popped,
    ← left.gathers.symbols]
  rfl

/-- A refinement that was put off is named on top of the data stack. -/
theorem names_top {s : SymbolId} (task : site.Task sig all literals)
    (split : sig.refinements = passed ++ r :: behind)
    (named : r.isNamed site.symbols.canon s = true)
    (fresh : taken.any (r.isNamed site.symbols.canon) = false) :
    site.names sig taken (s :: left) sig.refinements =
      Cell.pushed s (sig.plain.length + (Refinement.params passed).length + 1) ::
        site.names sig (taken ++ [s]) left sig.refinements := by
  have place : slotIn site.symbols.canon (sig.plain.length + 1) sig.refinements s =
      sig.plain.length + (Refinement.params passed).length + 1 := by
    rw [split, slotIn_named _ _ ((split ▸ task.distinct).before named) named]
    omega
  rw [names, waiting, any_canon named, fresh, if_neg Bool.false_ne_true, place]
  rfl

/-- The slots behind a refinement that was put off still wait. -/
theorem filled_waiting {s : SymbolId} (split : sig.refinements = passed ++ r :: behind)
    (named : r.isNamed site.symbols.canon s = true)
    (fresh : taken.any (r.isNamed site.symbols.canon) = false) :
    site.filled sig first literals taken (s :: left) sig.refinements ++ [] =
      site.filled sig first literals taken (s :: left) passed ++ [ownCell .ordinary] ++
        slotCells site.retCell .pickup r.args
          (literals.drop (sig.offset site.symbols.canon (taken ++ s :: left) r)) ++
        sig.refinementCells site.symbols.canon site.retCell taken (s :: left) literals behind := by
  have put : r.state site.symbols.canon taken (s :: left) = .pickup :=
    Refinement.state_waiting fresh (by simp [named])
  rw [List.append_nil, split, filled_split, put, Refinement.cells, List.append_cons]
  rfl

/-- Once the slots behind a refinement have their arguments its name is taken. -/
theorem filled_taken {s : SymbolId} (task : site.Task sig all literals)
    (split : sig.refinements = passed ++ r :: behind)
    (named : r.isNamed site.symbols.canon s = true)
    (fresh : taken.any (r.isNamed site.symbols.canon) = false) :
    site.filled sig first literals taken (s :: left) passed ++ [ownCell .ordinary] ++
        slotCells site.retCell .ordinary r.args
          (literals.drop (sig.demandAll site.symbols.canon taken)) ++
        sig.refinementCells site.symbols.canon site.retCell taken (s :: left) literals behind =
      site.filled sig first literals (taken ++ [s]) left sig.refinements ++ [] := by
  have before := (split ▸ task.distinct).before named
  have after := (split ▸ task.distinct).behind named
  rw [List.append_nil, split, filled_split, Refinement.state_taken named,
    filled_of_others before, Signature.refinementCells_of_others after, Refinement.cells,
    ← List.append_cons, List.append_assoc taken, List.singleton_append,
    Signature.offset_named fresh named]

/-- The refinement on top of the data stack gets its arguments. -/
theorem Passing.gather {g : Gathering} {s : SymbolId} (task : site.Task sig all literals)
    (split : sig.refinements = passed ++ r :: behind) (whole : all = taken ++ s :: left)
    (named : r.isNamed site.symbols.canon s = true)
    (fresh : taken.any (r.isNamed site.symbols.canon) = false)
    (past : site.call.count ≤ g.index) (loose : g.tight = false)
    (passing : site.Passing sig first literals taken (s :: left) sig.refinements [] m) :
    site.Leads ⟨Engine.runSteps dispatch (fuel + 4), total⟩ (1 + r.args.length) g m
      { index := sig.plain.length + (Refinement.params passed).length + 1 + r.args.length + 1,
        pickups := true }
      (site.Passing sig first literals (taken ++ [s]) left sig.refinements []) := by
  have width : (sig.plain ++ Refinement.params passed ++ [r.param]).length + 1 =
      sig.plain.length + (Refinement.params passed).length + 1 + 1 := by
    simp only [List.length_append, List.length_singleton]
  have front : (site.filled sig first literals taken (s :: left) passed ++
      [ownCell .ordinary]).length =
        (sig.plain ++ Refinement.params passed ++ [r.param]).length + 1 := by
    rw [width, List.length_append, length_filled, List.length_singleton]
  have accepted := accepts_taken passing.single passing.known split fresh named
  have holds := passing.holds
  rw [names_top task split named fresh] at holds
  have picked := Leads.pickup (e := ⟨Engine.runSteps dispatch (fuel + 4), total⟩) past
    (holds.pickup (Nat.succ_ne_zero _))
  rw [loose, filled_waiting split named fresh] at picked
  have gathered := picked.trans fun m holds => width ▸ holds.fillParams dispatch fuel total
    task.plain .ordinary true (task.listed split) front (length_slotCells ..) r.ordinary
    (task.enough_left split whole named accepted)
  rw [filled_taken task split named fresh, List.drop_drop, ← task.demandAll_taken split named,
    Nat.add_right_comm (_ + 1) 1] at gathered
  exact gathered.weaken fun m holds => ⟨accepted.2, accepted.1, holds⟩

/-- Behind its arguments a later pass ends, or the next refinement ends it. -/
theorem Passing.leave (task : site.Task sig all literals)
    (split : sig.refinements = passed ++ r :: behind)
    (passing : site.Passing sig first literals taken left sig.refinements [] m) :
    ∃ n ≤ 1, ∃ g', site.call.count ≤ g'.index ∧ g'.tight = false ∧
      site.Leads ⟨Engine.runSteps dispatch (fuel + 4), total⟩ n
        { index := sig.plain.length + (Refinement.params passed).length + 1 + r.args.length + 1,
          pickups := true } m g'
        (site.Passing sig first literals taken left sig.refinements []) := by
  have count : site.call.count = sig.plain.length + (Refinement.params passed).length + 1 +
      r.args.length + 1 + (Refinement.params behind).length := by
    change site.params.length + 1 = _
    simp only [task.listed split, List.length_append, List.length_singleton]
    omega
  cases behind with
  | nil => exact ⟨0, Nat.zero_le _, _, Nat.le_of_eq count, rfl, .refl passing⟩
  | cons v behind =>
      have there : site.params[sig.plain.length + (Refinement.params passed).length + 1 +
          r.args.length]? = some v.param := by
        have earlier : (sig.plain ++ Refinement.params passed ++ [r.param] ++ r.args).length =
            sig.plain.length + (Refinement.params passed).length + 1 + r.args.length := by
          simp only [List.length_append, List.length_singleton]
        rw [← earlier, task.listed split, List.getElem?_append_right (Nat.le_refl _), Nat.sub_self]
        rfl
      have more : sig.plain.length + (Refinement.params passed).length + 1 + r.args.length + 1 <
          site.call.count := by
        rw [count]
        exact Nat.lt_add_of_pos_right (Nat.succ_pos _)
      refine ⟨1, Nat.le_refl _, { index := site.call.count, pickups := true }, Nat.le_refl _, rfl,
        .slot more ?_⟩
      exact (passing.holds.passRefinement there).weaken fun m holds =>
        ⟨passing.single, passing.known, holds⟩

/-- A later pass takes the name on top of the data stack. -/
theorem Passing.later {g : Gathering} {s : SymbolId} (task : site.Task sig all literals)
    (split : sig.refinements = passed ++ r :: behind) (whole : all = taken ++ s :: left)
    (named : r.isNamed site.symbols.canon s = true)
    (fresh : taken.any (r.isNamed site.symbols.canon) = false)
    (past : site.call.count ≤ g.index) (loose : g.tight = false)
    (passing : site.Passing sig first literals taken (s :: left) sig.refinements [] m) :
    ∃ n ≤ r.args.length + 2, ∃ g', site.call.count ≤ g'.index ∧ g'.tight = false ∧
      site.Leads ⟨Engine.runSteps dispatch (fuel + 4), total⟩ n g m g'
        (site.Passing sig first literals (taken ++ [s]) left sig.refinements []) := by
  obtain ⟨m₁, gathered, passing⟩ :=
    passing.gather dispatch fuel total task split whole named fresh past loose
  obtain ⟨n, few, g', past', loose', left⟩ := passing.leave dispatch fuel total task split
  refine ⟨1 + r.args.length + n, by omega, g', past', loose', ?_⟩
  exact .trans ⟨m₁, gathered, rfl⟩ fun m (same : m₁ = m) => same ▸ left

/-- What names come to: all are taken, or one of them is refused. -/
def Settles {α : Type} (site : Site) (sig : Signature) (first : Cell) (literals : List Cell)
    (all : List SymbolId) (fill : Interp α) (a : α) (m : Machine) : Prop :=
  Gives fill m a (site.Passing sig first literals all [] sig.refinements []) ∨
    ∃ good s rest m', all = good ++ s :: rest ∧ sig.Accepts site.symbols.canon good ∧
      ¬ sig.Accepts site.symbols.canon (good ++ [s]) ∧
      fill m = .error (.error (Cause.badRefine (site.symbols.spelling s)).error) m'

/-- A name that is no refinement's, or only that of one that is taken, never gets a slot. -/
theorem names_wrong {s : SymbolId}
    (wrong : ¬ ∃ r ∈ sig.refinements, r.isNamed site.symbols.canon s = true ∧
      taken.any (r.isNamed site.symbols.canon) = false) :
    site.names sig taken (s :: left) sig.refinements =
      Cell.pushed s 0 :: site.names sig (taken ++ [s]) left sig.refinements := by
  rw [names, waiting]
  split
  · rfl
  · rename_i new
    have unknown : ∀ v ∈ sig.refinements, v.isNamed site.symbols.canon s = false := by
      refine fun v member => Bool.eq_false_iff.mpr fun named => wrong ⟨v, member, named, ?_⟩
      rw [← any_canon named]
      exact Bool.eq_false_iff.mpr new
    rw [slotIn_absent _ unknown]
    rfl

theorem not_accepts_wrong {s : SymbolId}
    (wrong : ¬ ∃ r ∈ sig.refinements, r.isNamed site.symbols.canon s = true ∧
      taken.any (r.isNamed site.symbols.canon) = false) :
    ¬ sig.Accepts site.symbols.canon (taken ++ [s]) := by
  intro accepted
  obtain ⟨r, member, named⟩ := accepted.1 s (by simp)
  refine wrong ⟨r, member, named, ?_⟩
  rw [← any_canon named]
  refine List.any_eq_false.mpr fun t earlier same => ?_
  have single := accepted.2
  rw [List.map_append, List.nodup_append] at single
  exact single.2.2 _ (List.mem_map_of_mem earlier) _ (by simp) (beq_iff_eq.mp same)

/-- The later passes go over the names that are left. -/
theorem Passing.finish {g : Gathering} (task : site.Task sig all literals)
    (whole : all = taken ++ left) (past : site.call.count ≤ g.index) (loose : g.tight = false)
    (passing : site.Passing sig first literals taken left sig.refinements [] m) :
    ∃ n ≤ left.length * site.call.count, ∀ rounds,
      site.Settles sig first literals all
        (Engine.fillSlots ⟨Engine.runSteps dispatch (fuel + 4), total⟩ site.call
          (rounds + 1 + n) g) false m := by
  induction left generalizing taken g m with
  | nil =>
      refine ⟨0, Nat.zero_le _, fun rounds => .inl ⟨m, ?_, ?_⟩⟩
      · have none : Engine.nextPickup site.call m = .ok none m := by
          rw [Engine.nextPickup, Interp.bind_ok passing.holds.height]
          exact congrFun (if_pos (Nat.le_refl _)) m
        rw [Engine.fillSlots, if_pos past, Interp.bind_ok none]
        rfl
      · rwa [whole, List.append_nil]
  | cons s left induction =>
      by_cases next : ∃ r ∈ sig.refinements, r.isNamed site.symbols.canon s = true ∧
          taken.any (r.isNamed site.symbols.canon) = false
      · obtain ⟨r, member, named, fresh⟩ := next
        obtain ⟨passed, behind, split⟩ := List.append_of_mem member
        obtain ⟨n, few, g', past', loose', m₁, ran, passing⟩ := passing.later dispatch fuel total
          task split whole named fresh past loose
        obtain ⟨k, few', rest⟩ := induction (by rw [whole, List.append_cons]) past' loose' passing
        have within : r.args.length + 1 ≤ site.params.length := by
          simp only [task.listed split, List.length_append, List.length_singleton]
          omega
        have count : site.call.count = site.params.length + 1 := rfl
        refine ⟨k + n, ?_, fun rounds => ?_⟩
        · rw [List.length_cons, Nat.succ_mul]
          omega
        · rw [← Nat.add_assoc, Settles, Gives, ran]
          exact rest rounds
      · have holds := passing.holds
        rw [names_wrong next] at holds
        obtain ⟨m', refused⟩ := holds.refuse
        refine ⟨0, Nat.zero_le _, fun rounds => .inr ⟨taken, s, left, m', whole,
          ⟨passing.known, passing.single⟩, not_accepts_wrong next, ?_⟩⟩
        rw [Engine.fillSlots, if_pos past, Interp.bind_error refused]

end Site

end Homoicon
