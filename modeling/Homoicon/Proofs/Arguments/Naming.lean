import Homoicon.Proofs.Arguments.Signature

/-!
# Names that wait

How the names on the data stack change while the refinements are passed: the first one that names
the refinement at hand is taken from the top, or it gets the slot of the refinement.
-/

namespace Homoicon

theorem length_slotCells (ret : Cell) (state : RefineState) (params : List Typeset)
    (literals : List Cell) : (slotCells ret state params literals).length = params.length := by
  induction params generalizing literals with
  | nil => rfl
  | cons p params induction => rw [slotCells, List.length_cons, List.length_cons, induction]

theorem Refinement.length_cells (ret : Cell) (state : RefineState) (literals : List Cell)
    (r : Refinement) : (r.cells ret state literals).length = r.args.length + 1 := by
  rw [cells, List.length_cons, length_slotCells]

variable {canon : SymbolId → SymbolId}

/-- The refinements differ in their names. -/
def Refinement.Distinct (canon : SymbolId → SymbolId) (refinements : List Refinement) : Prop :=
  refinements.Pairwise fun r other => canon r.symbol ≠ canon other.symbol

namespace Refinement

variable {r v : Refinement} {s : SymbolId}

theorem isNamed_iff : r.isNamed canon s = true ↔ canon s = canon r.symbol := beq_iff_eq

theorem isNamed_of_ne (named : r.isNamed canon s = true)
    (apart : canon v.symbol ≠ canon r.symbol) : v.isNamed canon s = false := by
  refine beq_eq_false_iff_ne.mpr fun same => apart ?_
  rw [← same, isNamed_iff.mp named]

theorem Distinct.before {before behind : List Refinement}
    (distinct : Distinct canon (before ++ r :: behind)) (named : r.isNamed canon s = true) :
    ∀ v ∈ before, v.isNamed canon s = false := by
  intro v member
  have apart := (List.pairwise_append.mp distinct).2.2 v member r (List.mem_cons_self ..)
  exact isNamed_of_ne named apart

theorem Distinct.behind {before behind : List Refinement}
    (distinct : Distinct canon (before ++ r :: behind)) (named : r.isNamed canon s = true) :
    ∀ v ∈ behind, v.isNamed canon s = false := by
  intro v member
  have tail := (List.pairwise_append.mp distinct).2.1
  exact isNamed_of_ne named ((List.pairwise_cons.mp tail).1 v member).symm

end Refinement

/-! ## Slots -/

section

variable {r : Refinement} {s : SymbolId}

theorem slotIn_absent (start : Nat) {refinements : List Refinement}
    (absent : ∀ v ∈ refinements, v.isNamed canon s = false) :
    slotIn canon start refinements s = 0 := by
  induction refinements generalizing start with
  | nil => rfl
  | cons v rest induction =>
      obtain ⟨first, others⟩ := List.forall_mem_cons.mp absent
      rw [slotIn, first, if_neg Bool.false_ne_true, induction _ others]

theorem slotIn_named (start : Nat) {before : List Refinement} (behind : List Refinement)
    (absent : ∀ v ∈ before, v.isNamed canon s = false) (named : r.isNamed canon s = true) :
    slotIn canon start (before ++ r :: behind) s = start + (Refinement.params before).length := by
  induction before generalizing start with
  | nil => rw [List.nil_append, slotIn, if_pos named]; rfl
  | cons v rest induction =>
      obtain ⟨first, others⟩ := List.forall_mem_cons.mp absent
      rw [List.cons_append, slotIn, first, if_neg Bool.false_ne_true, induction _ others]
      simp only [Refinement.params, List.flatMap_cons, List.length_append, List.length_cons]
      omega

theorem slotIn_append_of_not_named (start : Nat) (before : List Refinement)
    (other : r.isNamed canon s = false) :
    slotIn canon start (before ++ [r]) s = slotIn canon start before s := by
  induction before generalizing start with
  | nil => rw [List.nil_append, slotIn_absent start (by simpa using other)]; rfl
  | cons v rest induction => rw [List.cons_append, slotIn, slotIn, induction]

end

/-! ## The data stack -/

section

variable {slot slot' : SymbolId → Nat} {r : Refinement}

theorem waiting_congr {taken left : List SymbolId}
    (same : ∀ s, taken.any (canon · == canon s) = false → slot s = slot' s) :
    waiting canon slot taken left = waiting canon slot' taken left := by
  induction left generalizing taken with
  | nil => rfl
  | cons s left induction =>
      have further : ∀ t, (taken ++ [s]).any (canon · == canon t) = false → slot t = slot' t := by
        intro t absent
        rw [List.any_append, Bool.or_eq_false_iff] at absent
        exact same t absent.1
      rw [waiting, waiting, induction further]
      split
      · rfl
      · rename_i absent
        rw [same s (Bool.eq_false_iff.mpr absent)]

/-- Before any refinement is passed no name has a slot. -/
theorem waiting_start (start : Nat) (taken left : List SymbolId) :
    waiting canon (slotIn canon start []) taken left = left.map (Cell.pushed · 0) := by
  induction left generalizing taken with
  | nil => rfl
  | cons s left induction =>
      rw [waiting, induction, slotIn, ite_self]
      rfl

/-- Whether a cell on the data stack is a name that may be taken for a refinement. -/
def Refinement.isWanted (canon : SymbolId → SymbolId) (r : Refinement) (c : Cell) : Bool :=
  c.wordIndex == 0 && c.wordSymbol?.map canon == some (canon r.symbol)

theorem Refinement.isWanted_pushed (s : SymbolId) (slot : Nat) :
    r.isWanted canon (Cell.pushed s slot) = (slot == 0 && r.isNamed canon s) := rfl

theorem any_append_of_not_named {taken : List SymbolId} {s : SymbolId}
    (fresh : taken.any (r.isNamed canon) = false) (other : r.isNamed canon s = false) :
    (taken ++ [s]).any (r.isNamed canon) = false := by
  rw [List.any_append, fresh, List.any_cons, other]
  rfl

/-- A name is among those taken if its refinement is. -/
theorem any_canon {taken : List SymbolId} {s : SymbolId} (named : r.isNamed canon s = true) :
    taken.any (canon · == canon s) = taken.any (r.isNamed canon) := by
  refine congrArg (taken.any ·) (funext fun t => ?_)
  rw [Refinement.isNamed, Refinement.isNamed_iff.mp named]

/-- A refinement that is not passed yet is found where it is named first. -/
theorem findIdx?_waiting {taken left : List SymbolId}
    (unpassed : ∀ s, r.isNamed canon s = true → slot s = 0)
    (fresh : taken.any (r.isNamed canon) = false) :
    (waiting canon slot taken left).findIdx? (r.isWanted canon) =
      left.findIdx? (r.isNamed canon) := by
  induction left generalizing taken with
  | nil => rfl
  | cons s left induction =>
      rw [waiting, List.findIdx?_cons, List.findIdx?_cons, Refinement.isWanted_pushed]
      cases named : r.isNamed canon s with
      | true =>
          rw [unpassed s named, ite_self]
          rfl
      | false =>
          rw [Bool.and_false, if_neg Bool.false_ne_true, if_neg Bool.false_ne_true,
            induction (any_append_of_not_named fresh named)]

/-- The slot that a name gets when its refinement is passed. -/
def Cell.withSlot (slot : Nat) (c : Cell) : Cell :=
  match c.payload with
  | .word symbol _ => { c with payload := .word symbol slot }
  | _ => c

/-- Once its name is taken it makes no difference which slot a refinement has. -/
theorem waiting_taken {taken left : List SymbolId} {s : SymbolId}
    (others : ∀ t, r.isNamed canon t = false → slot' t = slot t)
    (named : r.isNamed canon s = true) :
    waiting canon slot (taken ++ [s]) left = waiting canon slot' (taken ++ [s]) left := by
  refine waiting_congr fun t absent => (others t ?_).symm
  refine Bool.eq_false_iff.mpr fun same => ?_
  rw [List.any_append, List.any_cons, Refinement.isNamed_iff.mp named,
    Refinement.isNamed_iff.mp same] at absent
  simp at absent

theorem waiting_passed {taken left : List SymbolId} {place back : Nat}
    (unpassed : ∀ s, r.isNamed canon s = true → slot' s = place)
    (others : ∀ s, r.isNamed canon s = false → slot' s = slot s)
    (fresh : taken.any (r.isNamed canon) = false)
    (found : left.findIdx? (r.isNamed canon) = some back) :
    (waiting canon slot taken left).modify back (Cell.withSlot place) =
      waiting canon slot' taken left := by
  induction left generalizing taken back with
  | nil => cases found
  | cons s left induction =>
      rw [List.findIdx?_cons] at found
      rw [waiting, waiting]
      cases named : r.isNamed canon s with
      | true =>
          obtain rfl : 0 = back := by simpa [named] using found
          rw [List.modify_zero_cons, any_canon named, fresh, waiting_taken others named,
            if_neg Bool.false_ne_true, if_neg Bool.false_ne_true, unpassed s named]
          rfl
      | false =>
          rw [named, if_neg Bool.false_ne_true, Option.map_eq_some_iff] at found
          obtain ⟨back, found, rfl⟩ := found
          rw [List.modify_succ_cons, others s named,
            induction (any_append_of_not_named fresh named) found]

theorem waiting_unnamed {taken left : List SymbolId}
    (others : ∀ s, r.isNamed canon s = false → slot' s = slot s)
    (absent : ∀ s ∈ left, r.isNamed canon s = false) :
    waiting canon slot taken left = waiting canon slot' taken left := by
  induction left generalizing taken with
  | nil => rfl
  | cons s left induction =>
      obtain ⟨first, rest⟩ := List.forall_mem_cons.mp absent
      rw [waiting, waiting, others s first, induction rest]

end

/-! ## What is taken -/

theorem demandIn_cons (state : RefineState) (p : Typeset) (params : List Typeset) :
    demandIn state (p :: params) = demandIn state [p] + demandIn state params := by
  unfold demandIn demand
  split
  · rw [List.countP_cons, List.countP_cons, List.countP_nil, Nat.zero_add, Nat.add_comm]
  · rfl

/-- Only a refinement that is filled at once looks at the literals. -/
theorem slotCells_idle (ret : Cell) {state : RefineState} (idle : state ≠ .ordinary)
    (params : List Typeset) (literals literals' : List Cell) :
    slotCells ret state params literals = slotCells ret state params literals' := by
  induction params generalizing literals literals' with
  | nil => rfl
  | cons p params induction =>
      have same : slotCell ret state p literals = slotCell ret state p literals' := by
        unfold slotCell
        cases p.paramClass <;> cases state <;> first | rfl | exact absurd rfl idle
      rw [slotCells, slotCells, same, induction]

namespace Refinement

variable {r v : Refinement} {s : SymbolId} {taken left : List SymbolId}

theorem cells_idle (ret : Cell) {state : RefineState} (idle : state ≠ .ordinary) (r : Refinement)
    (literals literals' : List Cell) :
    r.cells ret state literals = r.cells ret state literals' := by
  rw [cells, cells, slotCells_idle ret idle]

theorem params_append (before behind : List Refinement) :
    params (before ++ behind) = params before ++ params behind := List.flatMap_append

theorem params_singleton (r : Refinement) : params [r] = r.param :: r.args :=
  List.flatMap_singleton _ _

theorem state_of_other (other : v.isNamed canon s = false) :
    v.state canon (taken ++ [s]) left = v.state canon taken (s :: left) := by
  simp [state, other]

theorem state_taken (named : r.isNamed canon s = true) :
    r.state canon (taken ++ [s]) left = .ordinary := by
  simp [state, named]

theorem state_waiting (fresh : taken.any (r.isNamed canon) = false)
    (waits : left.any (r.isNamed canon) = true) : r.state canon taken left = .pickup := by
  simp only [state, fresh, waits, if_neg Bool.false_ne_true, if_pos]

theorem state_unused (fresh : taken.any (r.isNamed canon) = false)
    (absent : left.any (r.isNamed canon) = false) : r.state canon taken left = .unused := by
  simp only [state, fresh, absent, if_neg Bool.false_ne_true]

end Refinement

namespace Signature

variable {sig : Signature} {r : Refinement} {s : SymbolId} {taken left : List SymbolId}
  {ret : Cell} {literals : List Cell}

theorem demandAll_concat (names : List SymbolId) (s : SymbolId) :
    sig.demandAll canon (names ++ [s]) = sig.demandAll canon names + sig.demandOf canon s := by
  rw [demandAll, List.foldl_append, List.foldl_cons, List.foldl_nil, demandAll]

theorem demandAll_le_append (names others : List SymbolId) :
    sig.demandAll canon names ≤ sig.demandAll canon (names ++ others) := by
  induction others generalizing names with
  | nil => exact Nat.le_of_eq (congrArg (sig.demandAll canon) (List.append_nil names).symm)
  | cons s others induction =>
      have one : sig.demandAll canon names ≤ sig.demandAll canon (names ++ [s]) := by
        rw [demandAll_concat]
        exact Nat.le_add_right ..
      rw [List.append_cons]
      exact Nat.le_trans one (induction _)

/-- Enough literals for all names are enough up to the first wrong one. -/
theorem suffices_of_le {names : List SymbolId} {literals : List Cell}
    (enough : sig.demandAll canon names ≤ literals.length) :
    sig.Suffices canon names literals := by
  rintro good ⟨others, rfl⟩ -
  exact Nat.le_trans (demandAll_le_append good others) enough

theorem demandOf_named {before behind : List Refinement}
    (listed : sig.refinements = before ++ r :: behind)
    (absent : ∀ v ∈ before, v.isNamed canon s = false) (named : r.isNamed canon s = true) :
    sig.demandOf canon s = demand r.args := by
  have first : before.find? (·.isNamed canon s) = none :=
    List.find?_eq_none.mpr fun v member => by simp [absent v member]
  rw [demandOf, listed, List.find?_append, first, Option.none_or]
  simp only [List.find?_cons, named, Option.map_some, Option.getD_some]

theorem offset_named (fresh : taken.any (r.isNamed canon) = false)
    (named : r.isNamed canon s = true) :
    sig.offset canon (taken ++ s :: left) r = sig.demandAll canon taken := by
  have passed : ∀ t ∈ taken, (!r.isNamed canon t) = true := by
    simpa using fresh
  rw [offset, List.takeWhile_append_of_pos passed, List.takeWhile_cons, named]
  simp

/-- Taking a name changes nothing for other refinements. -/
theorem refinementCells_of_others {refinements : List Refinement}
    (others : ∀ v ∈ refinements, v.isNamed canon s = false) :
    sig.refinementCells canon ret (taken ++ [s]) left literals refinements =
      sig.refinementCells canon ret taken (s :: left) literals refinements := by
  rw [refinementCells, refinementCells, List.append_assoc, List.singleton_append]
  refine congrArg List.flatten (List.map_congr_left fun v member => ?_)
  rw [Refinement.state_of_other (others v member)]

theorem refinementCells_append (before behind : List Refinement) :
    sig.refinementCells canon ret taken left literals (before ++ behind) =
      sig.refinementCells canon ret taken left literals before ++
        sig.refinementCells canon ret taken left literals behind :=
  List.flatMap_append

theorem length_refinementCells (refinements : List Refinement) :
    (sig.refinementCells canon ret taken left literals refinements).length =
      (Refinement.params refinements).length := by
  rw [refinementCells, Refinement.params, List.length_flatMap, List.length_flatMap]
  refine congrArg List.sum (List.map_congr_left fun r _ => ?_)
  rw [Refinement.length_cells, List.length_cons]

end Signature

end Homoicon
