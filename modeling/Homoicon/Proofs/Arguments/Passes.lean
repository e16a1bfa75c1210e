import Homoicon.Proofs.Arguments.Slots

/-!
# The passes over the parameters

The first pass goes over all parameters.  A refinement whose name is on top of the data stack takes
its arguments at once; one that is named deeper is put off.  Each later pass fills the parameters
behind one refinement that was put off, in the order of the names.
-/

namespace Homoicon

open Interp (Gives)

namespace Site

variable {site : Site} {e : Engine} {m : Machine}

/-! ## Rounds -/

/-- Some rounds lead from one state of the gathering to another. -/
def Leads (site : Site) (e : Engine) (n : Nat) (g : Gathering) (m : Machine) (g' : Gathering)
    (post : Machine → Prop) : Prop :=
  ∃ m', (∀ rounds, e.fillSlots site.call (rounds + n) g m = e.fillSlots site.call rounds g' m') ∧
    post m'

namespace Leads

variable {n k : Nat} {g g' g'' : Gathering} {middle post : Machine → Prop}

theorem refl (holds : post m) : site.Leads e 0 g m g post := ⟨m, fun _ => rfl, holds⟩

theorem trans (first : site.Leads e n g m g' middle)
    (second : ∀ m, middle m → site.Leads e k g' m g'' post) :
    site.Leads e (n + k) g m g'' post := by
  obtain ⟨m₁, ran, holds⟩ := first
  obtain ⟨m₂, onward, reached⟩ := second m₁ holds
  refine ⟨m₂, fun rounds => ?_, reached⟩
  rw [Nat.add_comm n, ← Nat.add_assoc, ran, onward]

theorem weaken (leads : site.Leads e n g m g' middle) (entails : ∀ m, middle m → post m) :
    site.Leads e n g m g' post := by
  obtain ⟨m', ran, holds⟩ := leads
  exact ⟨m', ran, entails m' holds⟩

theorem slot (inside : g.index < site.call.count)
    (filled : Gives (e.fillSlot site.call g) m (some g') post) :
    site.Leads e 1 g m g' post := by
  obtain ⟨m', ran, holds⟩ := filled
  refine ⟨m', fun rounds => ?_, holds⟩
  rw [Engine.fillSlots, if_neg (Nat.not_le_of_lt inside), Interp.bind_ok ran]

theorem pickup (past : site.call.count ≤ g.index)
    (next : Gives (Engine.nextPickup site.call) m (some g') post) :
    site.Leads e 1 g m { g' with tight := g.tight } post := by
  obtain ⟨m', ran, holds⟩ := next
  refine ⟨m', fun rounds => ?_, holds⟩
  rw [Engine.fillSlots, if_pos past, Interp.bind_ok ran]

end Leads

/-! ## The parameters behind a refinement -/

theorem set_behind {front : List Cell} {n : Nat} (here : front.length = n) (old back : List Cell)
    (o c : Cell) : (front ++ o :: old ++ back).set n c = front ++ [c] ++ old ++ back := by
  rw [← here, List.append_assoc, List.set_append_right _ _ (Nat.le_refl _), Nat.sub_self]
  simp

variable {pending : List Cell} (dispatch : Dispatch) (fuel total : Nat)

/-- The parameters behind a refinement are filled one after the other. -/
theorem Holds.fillParams (plain : site.Plain) (state : RefineState) (again : Bool)
    {params before behind : List Typeset} {front old back input : List Cell}
    (holds : site.Holds (front ++ old ++ back) pending input [] m)
    (listed : site.params = before ++ params ++ behind) (here : front.length = before.length + 1)
    (filling : old.length = params.length) (ordinary : ∀ p ∈ params, p.Ordinary)
    (enough : demandIn state params ≤ input.length) :
    site.Leads ⟨Engine.runSteps dispatch (fuel + 4), total⟩ params.length
      { index := before.length + 1, refine := state, pickups := again } m
      { index := before.length + 1 + params.length, refine := state, pickups := again }
      (site.Holds (front ++ slotCells site.retCell state params input ++ back) pending
        (input.drop (demandIn state params)) []) := by
  induction params generalizing before front old input m with
  | nil =>
      obtain rfl : old = [] := List.eq_nil_of_length_eq_zero filling
      exact .refl (by simpa [slotCells, demandIn, demand] using holds)
  | cons p params induction =>
      obtain ⟨o, old, rfl⟩ := List.exists_cons_of_length_eq_add_one filling
      obtain ⟨first, others⟩ := List.forall_mem_cons.mp ordinary
      rw [demandIn_cons] at enough ⊢
      have there : site.params[before.length]? = some p := by simp [listed]
      have inside : before.length + 1 < (front ++ o :: old ++ back).length := by
        simp only [List.length_append, List.length_cons]
        omega
      have more : before.length + 1 < site.call.count := by
        change before.length + 1 < site.params.length + 1
        rw [listed, List.length_append, List.length_append, List.length_cons]
        omega
      have one : Gives (Engine.fillSlot ⟨Engine.runSteps dispatch (fuel + 4), total⟩ site.call
          { index := before.length + 1, refine := state, pickups := again }) m
          (some { index := before.length + 2, refine := state, pickups := again })
          (site.Holds (front ++ [slotCell site.retCell state p input] ++ old ++ back) pending
            (input.drop (demandIn state [p])) []) := by
        rw [← set_behind here old back o]
        exact holds.fillParam dispatch fuel plain there first inside (by omega)
      have listed' : site.params = before ++ [p] ++ params ++ behind := by simp [listed]
      have fewer : demandIn state params ≤ (input.drop (demandIn state [p])).length := by
        rw [List.length_drop]
        omega
      rw [List.length_cons, Nat.add_comm params.length 1]
      refine (Leads.slot more one).trans fun m holds => ?_
      have rest := induction holds listed' (by simp [here]) (Nat.succ.inj filling) others fewer
      rw [List.drop_drop, List.length_append, List.length_singleton] at rest
      rw [slotCells, List.append_cons front, ← Nat.add_assoc]
      exact rest

/-- The slots of a refinement and of the parameters behind it are filled in the first pass: its own
slot tells whether it is in use. -/
theorem Holds.fillGroup {r : Refinement} (plain : site.Plain) {state next : RefineState}
    {before behind : List Typeset} {front old back input : List Cell}
    (own : Gives (Engine.fillSlot ⟨Engine.runSteps dispatch (fuel + 4), total⟩ site.call
        { index := before.length + 1, refine := state, pickups := false }) m
      (some { index := before.length + 2, refine := next, pickups := false })
      (site.Holds ((front ++ old ++ back).set (before.length + 1) (ownCell next)) pending input []))
    (listed : site.params = before ++ (r.param :: r.args) ++ behind)
    (here : front.length = before.length + 1) (filling : old.length = r.args.length + 1)
    (enough : demandIn next r.args ≤ input.length) :
    site.Leads ⟨Engine.runSteps dispatch (fuel + 4), total⟩ (r.args.length + 1)
      { index := before.length + 1, refine := state, pickups := false } m
      { index := before.length + 1 + (r.args.length + 1), refine := next, pickups := false }
      (site.Holds (front ++ r.cells site.retCell next input ++ back) pending
        (input.drop (demandIn next r.args)) []) := by
  obtain ⟨o, old, rfl⟩ := List.exists_cons_of_length_eq_add_one filling
  have more : before.length + 1 < site.call.count := by
    change before.length + 1 < site.params.length + 1
    rw [listed, List.length_append, List.length_append, List.length_cons]
    omega
  have listed' : site.params = before ++ [r.param] ++ r.args ++ behind := by simp [listed]
  rw [Nat.add_comm r.args.length 1]
  refine (Leads.slot more own).trans fun m holds => ?_
  rw [set_behind here old back o] at holds
  have rest := holds.fillParams dispatch fuel total plain _ false listed' (by simp [here])
    (Nat.succ.inj filling) r.ordinary enough
  rw [List.length_append, List.length_singleton] at rest
  rw [Refinement.cells, List.append_cons front, ← Nat.add_assoc]
  exact rest

end Site

end Homoicon
