import Homoicon.Proofs.Arguments.Partial
import Homoicon.Proofs.Arguments.Parts
import Homoicon.Proofs.Arguments.Stacking
import Homoicon.Proofs.Contexts.Resolving
import Homoicon.Proofs.Keeping.Laws
import Homoicon.Proofs.Keeping.Series

/-!
# Partial application

The paramlist and the details of a new function are series of their own without links, so its calls
are laid out by its own parameters, of which none is fixed.  However the arguments that are fixed
are split into specializations, and in whichever order these are made, a call with the arguments
that are left gives the function the same arguments as a call with all of them.
-/

namespace Homoicon

/-! ## How functions are laid out -/

section

open Std.Do

set_option mvcgen.warning false

namespace Series.Trait

open Interp Law

/-- A series has no link. -/
def unlinked : Series.Trait where
  holds s := s.link = .none
  withFlags _ link := link

variable (id : SeriesId)

theorem unlinked_mapCells (f : Array Cell → Array Cell) : unlinked.Allows (Series.mapCells f) := by
  intro s link
  obtain ⟨flags, content, _, role⟩ := s
  cases content <;> exact link

@[scoped spec high]
theorem modifyCell_unlinked (i : SeriesId) (index : Nat) (f : Cell → Cell) :
    Keeping (.of id unlinked) (modifyCell i index f) := by
  unfold modifyCell
  mvcgen
  exact fun _ _ _ => unlinked_mapCells _

theorem relativizeIn_unlinked (paramlist : SeriesId) (depth : Nat) (array : SeriesId) :
    Keeping (.of id unlinked) (relativizeIn paramlist depth array) := by
  induction depth generalizing array with
  | zero => exact obeys_of_fails _ (fun _ => rfl) _
  | succ depth ih =>
      unfold relativizeIn
      refine forCells_keeping _ _ _ fun i c => ?_
      mvcgen [ih]

end Series.Trait

namespace Interp

open Series.Trait

theorem ok_of_keeping {α : Type} {law : Law} {x : Interp α} {a : α} {m m' : Machine}
    (keeping : Keeping law x) (here : m.Obeys law) (ran : x m = .ok a m') : m'.Obeys law := by
  have after := triple_iff.mp keeping m here
  rwa [ran] at after

theorem ok_of_another {law : Law} {x : Interp SeriesId} {id new : SeriesId} {m m' : Machine}
    (keeping : Another id law x) (here : m.Obeys law) (ran : x m = .ok new m') : m'.Obeys law := by
  have after := triple_iff.mp keeping m here
  rw [ran] at after
  exact after.1

variable {m m' : Machine} {spec body : Cell} {action : Action}

/-- A new paramlist has no link. -/
theorem makeParamlist_unlinked {source id : SeriesId} {index : Nat} {ownReturn : Bool}
    (made : makeParamlist source index ownReturn m = .ok id m') : m'.Obeys (.of id unlinked) := by
  unfold makeParamlist at made
  obtain ⟨items, -, made⟩ := lift_bind_eq_ok.mp made
  obtain ⟨r, -, made⟩ := lift_bind_eq_ok.mp made
  simp only at made
  split at made
  · obtain ⟨symbol, between, -, made⟩ := bind_eq_ok.mp made
    exact ⟨_, get?_of_alloc made, rfl⟩
  · exact ⟨_, get?_of_alloc made, rfl⟩

/-- The parameters and the details of a new action have no link. -/
theorem makeAction_unlinked {paramlist : SeriesId} {dispatcher : Dispatcher} {details : List Cell}
    (own : m.Obeys (.of paramlist unlinked))
    (made : makeAction paramlist dispatcher details none m = .ok action m') :
    m'.Obeys (.of action.paramlist unlinked) ∧ m'.Obeys (.of action.details unlinked) := by
  obtain ⟨id, m₁, allocated, made⟩ := bind_eq_ok.mp made
  have code : m₁.Obeys (.of id unlinked) := ⟨_, get?_of_alloc allocated, rfl⟩
  have own := ok_of_another (alloc_of paramlist unlinked _) own allocated
  obtain ⟨_, m₂, stored, made⟩ := bind_eq_ok.mp made
  obtain ⟨_, m₃, flagged, made⟩ := bind_eq_ok.mp made
  cases made
  have kept {id : SeriesId} (here : m₁.Obeys (.of id unlinked)) : m'.Obeys (.of id unlinked) := by
    have here := ok_of_keeping (storeCell_of id unlinked _ _ _ fun _ => unlinked_mapCells _) here
      stored
    obtain ⟨flags, -, flagged⟩ := lift_bind_eq_ok.mp flagged
    exact ok_of_keeping (setFlag_of id unlinked _ _) here flagged
  exact ⟨kept own, kept code⟩

/-- A function is laid out by its own parameters. -/
theorem makeFunc_lays (made : makeFunc spec body m = .ok action m') :
    ∃ params, m'.heap.Lays action { base := action.paramlist, params } := by
  obtain ⟨_, _, _, _, cells, -, coded⟩ := makeFunc_coded made
  obtain ⟨params, rfl⟩ := coded.typesets
  obtain ⟨source, -, made⟩ := lift_bind_eq_ok.mp made
  obtain ⟨paramlist, m₁, listed, made⟩ := bind_eq_ok.mp made
  obtain ⟨source', -, made⟩ := lift_bind_eq_ok.mp made
  obtain ⟨copy, m₂, copied, made⟩ := bind_eq_ok.mp made
  obtain ⟨_, m₃, bound, made⟩ := bind_eq_ok.mp made
  have own := ok_of_another (copyArrayDeep_of _ unlinked source' body.index _)
    (makeParamlist_unlinked listed) copied
  have own : m₃.Obeys (.of paramlist unlinked) :=
    ok_of_keeping (relativizeIn_unlinked paramlist paramlist _ copy) own bound
  obtain ⟨⟨s, found, link⟩, t, found', link'⟩ := makeAction_unlinked own made
  obtain ⟨s', live, content⟩ := Query.cells_eq_ok.mp coded.filled
  obtain rfl := Option.some.inj (found.symm.trans live)
  refine ⟨params, ⟨s, found, .inl ⟨link, rfl⟩⟩, ⟨s, Cell.action action .unbound, found, ?_⟩,
    ⟨t, found', link'⟩, nofun⟩
  rw [content]
  simp

end Interp

end

open Interp (Gives)

/-! ## Arguments that are left -/

/-- The code of the arguments that are not fixed, in the order of the parameters from a place on. -/
def remaining (code : Nat → Cell) (fixed : List Nat) (i : Nat) (params : List Typeset) :
    List Cell :=
  ((params.zipIdx i).filter fun (p, i) => p.paramClass = .normal ∧ i ∉ fixed).map fun (_, i) =>
    code i

/-- The value that belongs in the slot of a parameter. -/
def slotValue (ret : Cell) (arg : Nat → Cell) (i : Nat) (p : Typeset) : Cell :=
  match p.paramClass with
  | .normal => arg i
  | .return => ret
  | _ => Cell.null

/-- The slots of the parameters from a place on have the values that belong in them. -/
def HaveValues (ret : Cell) (arg : Nat → Cell) (i : Nat) (params : List Typeset)
    (cells : List Cell) : Prop :=
  List.Forall₂ (fun (pi : Typeset × Nat) (c : Cell) => c.SameValue (slotValue ret arg pi.2 pi.1))
    (params.zipIdx i) cells

section

variable {code arg : Nat → Cell} {fixed : List Nat} {i : Nat} {p : Typeset} {params : List Typeset}

theorem remaining_left (normal : p.paramClass = .normal) (left : i ∉ fixed) :
    remaining code fixed i (p :: params) = code i :: remaining code fixed (i + 1) params := by
  simp [remaining, List.zipIdx_cons, normal, left]

theorem remaining_fixed (done : i ∈ fixed) :
    remaining code fixed i (p :: params) = remaining code fixed (i + 1) params := by
  simp [remaining, List.zipIdx_cons, done]

theorem remaining_idle (idle : p.paramClass ≠ .normal) :
    remaining code fixed i (p :: params) = remaining code fixed (i + 1) params := by
  simp [remaining, List.zipIdx_cons, idle]

theorem mem_remaining {c : Cell} (member : c ∈ remaining code fixed 0 params) :
    ∃ i p, params[i]? = some p ∧ p.paramClass = .normal ∧ c = code i := by
  obtain ⟨⟨p, i⟩, here, rfl⟩ := List.mem_map.mp member
  obtain ⟨here, wanted⟩ := List.mem_filter.mp here
  exact ⟨i, p, List.mem_zipIdx_iff_getElem?.mp here, (of_decide_eq_true wanted).1, rfl⟩

end

/-! ## Calls of what some steps have made -/

namespace Site

variable {site : Site} {code arg : Nat → Cell} {fixed : List Nat} {params : List Typeset}

/-- How a call gets the value for the slot of a parameter: it needs none, it is fixed, or it is
given. -/
inductive Provides (site : Site) (code arg : Nat → Cell) (fixed : List Nat) (p : Typeset)
    (i : Nat) : Prop where
  | idle : p.paramClass = .local ∨ p.paramClass = .return → Provides site code arg fixed p i
  | fixed {c : Cell} : p.paramClass = .normal → i ∈ fixed → site.fixedAt i = some c →
      c.SameValue (arg i) → Provides site code arg fixed p i
  | given : p.Accepts (arg i) → i ∉ fixed → site.fixedAt i = none → (code i).Means (arg i) →
      Provides site code arg fixed p i

/-- The parameters get their values. -/
theorem fills_remaining {i : Nat}
    (provides : ∀ pi ∈ params.zipIdx i, site.Provides code arg fixed pi.1 pi.2) :
    ∃ cells, site.Fills i params (remaining code fixed i params) [] cells ∧
      HaveValues site.retCell arg i params cells := by
  unfold HaveValues
  induction params generalizing i with
  | nil => exact ⟨[], .nil, .nil⟩
  | cons p params ih =>
      rw [List.zipIdx_cons] at provides ⊢
      obtain ⟨first, others⟩ := List.forall_mem_cons.mp provides
      obtain ⟨cells, fills, same⟩ := ih others
      change site.Provides code arg fixed p i at first
      cases first with
      | idle idle =>
          have apart : p.paramClass ≠ .normal := by
            rcases idle with idle | idle <;> simp [idle]
          rw [remaining_idle apart]
          refine ⟨_, .idle idle fills, .cons ?_ same⟩
          rcases idle with idle | idle
          all_goals
            simp only [slotValue, slotCell, idle]
            exact ⟨rfl, rfl, rfl, rfl⟩
      | fixed normal done fixes value =>
          rw [remaining_fixed done]
          refine ⟨_, .fixed normal fixes fills, .cons ?_ same⟩
          rw [slotValue, normal]
          exact ⟨value.kind, value.quote, value.binding, value.payload⟩
      | given accepts left free means =>
          rw [remaining_left accepts.normal left]
          refine ⟨_, .given means accepts free fills, .cons ?_ same⟩
          rw [slotValue, accepts.normal]
          exact ⟨rfl, rfl, rfl, rfl⟩

/-- What is fixed for a parameter is what its slot in the exemplar holds, if that is checked. -/
theorem fixedAt_eq (i : Nat) : site.fixedAt i = site.toLayout.slots[i]?.filter (·.checked) := by
  rw [fixedAt, Layout.slots]
  cases site.exemplar with
  | none =>
      rw [Option.bind_none, Option.elim_none, List.getElem?_replicate]
      split <;> rfl
  | some ex => rfl

end Site

/-- The call of a frame is at an action, and its slots have the values of the arguments. -/
structure Machine.Given (m : Machine) (fr : FrameId) (f : Action) (params : List Typeset)
    (arg : Nat → Cell) : Prop where
  slots : ∃ args first cells, m.Performs fr f args ∧
    Query.cells args m = .ok (first :: cells).toArray ∧
    HaveValues (Cell.action m.specials.return_ (.specific args)) arg 0 params cells

/-- The parameters of a function that takes its arguments one after the other. -/
def Typeset.Positional (p : Typeset) : Prop :=
  p.paramClass = .normal ∨ p.paramClass = .local ∨ p.paramClass = .return

/-- The code of the arguments of a function gives them values that it accepts. -/
def Supplies (code arg : Nat → Cell) (params : List Typeset) : Prop :=
  ∀ (i : Nat) (p : Typeset), params[i]? = some p → p.paramClass = .normal →
    (code i).Means (arg i) ∧ p.Accepts (arg i)

/-- What some steps have made of a function runs it with all arguments. -/
theorem Heap.PartialOf.call {m : Machine} {fr : FrameId} {f g : Action} {params : List Typeset}
    {code arg : Nat → Cell} {fixed : List Nat} {n fuel : Nat} {rest : List Cell}
    (part : m.heap.PartialOf f params [] arg fixed n g) (positional : ∀ p ∈ params, p.Positional)
    (supplies : Supplies code arg params)
    (expects : m.Expects fr g [] (remaining code fixed 0 params) rest)
    (long : params.length + 4 ≤ fuel) :
    ∃ m', Engine.runSteps Library.dispatch (fuel + n + 4) fr .start m =
      Engine.runSteps Library.dispatch fuel fr .dispatch m' ∧ m'.Given fr f params arg := by
  obtain ⟨layout, lays, -, listed, slots, held, width, fixes⟩ := part.lays
  rw [List.append_nil] at listed
  let takes : Cell → Prop := fun c => ∃ v, c.Means v
  have evaluates : ∀ c, takes c → ∃ v, c.Means v := fun _ means => means
  obtain ⟨site, opens, binding, m₁, begins, ran⟩ :=
    expects.begin lays evaluates fun c member => by
      obtain ⟨i, p, there, normal, rfl⟩ := mem_remaining member
      exact ⟨_, (supplies i p there normal).1⟩
  have params' : site.params = params := (congrArg Layout.params opens.layout).trans listed
  have slots' : site.toLayout.slots = slots := by simpa [opens.layout] using held
  have provides : ∀ pi ∈ params.zipIdx 0, site.Provides code arg fixed pi.1 pi.2 := by
    rintro ⟨p, i⟩ member
    have there : params[i]? = some p := List.mem_zipIdx_iff_getElem?.mp member
    obtain ⟨inside, -⟩ := List.getElem?_eq_some_iff.mp there
    have slot := List.getElem?_eq_getElem (width ▸ inside)
    have is_held := fixes i _ slot
    have taken := site.fixedAt_eq i
    rw [slots', slot, Option.filter_some] at taken
    rcases positional p (List.mem_of_getElem? there) with normal | idle
    · obtain ⟨means, accepts⟩ := supplies i p there normal
      unfold Cell.Held at is_held
      split at is_held
      · rename_i done
        rw [if_pos is_held.1] at taken
        exact .fixed normal done taken is_held.2
      · rename_i left
        rw [is_held] at taken
        exact .given accepts left taken means
    · exact .idle idle
  obtain ⟨cells, fills, same⟩ := Site.fills_remaining provides
  obtain ⟨k, rfl⟩ : ∃ k, fuel = k + 4 := ⟨fuel - 4, by omega⟩
  have free : ∀ i, params.length ≤ i → site.fixedAt i = none := by
    intro i beyond
    rw [site.fixedAt_eq, slots', List.getElem?_eq_none (by rw [width]; exact beyond)]
    rfl
  obtain ⟨m₂, settled, holds⟩ := begins.gather Library.dispatch (k + n) (k + n + 4)
    (params'.trans (List.append_nil _).symm) fills (by simp) free (by rw [params']; omega)
  obtain ⟨frame, found, runs⟩ := holds.caller
  obtain ⟨rfl, rfl, -, kept, -, -, ret, -, -⟩ := opens
  have gathers := holds.gathers
  obtain ⟨m₃, ended, rest, here⟩ := (part.runs.keep (kept.trans gathers.kept)).run
    ⟨frame, found, runs.phase, runs.varlist⟩ (k + 4)
  refine ⟨m₃, ?_, site.varlist, Cell.frame site.varlist site.phase binding, cells, here, ?_, ?_⟩
  · have gathering : Engine.step Library.dispatch
        ⟨Engine.runSteps Library.dispatch (k + n + 4), k + n + 4⟩ site.frame .processAction m₁ =
          .ok .dispatch m₂ := settled
    have swap : k + 4 + n = k + n + 4 := by omega
    rw [swap] at ended ⊢
    exact (ran ..).trans ((Engine.runSteps_step gathering (by simp)).trans ended)
  · have slots := gathers.slots
    rw [List.map_nil, List.append_nil] at slots
    rw [Query.cells_iff, rest]
    exact slots
  · have return_ : m₃.specials.return_ = site.ret := by
      rw [rest]
      exact gathers.ret
    rw [return_]
    exact same

/-! ## Successive specializations -/

/-- An action that successive specializations have made of another one, with what each of them
assigns, last first.  What happens in between leaves the actions as they are. -/
inductive Heap.Specialized (h : Heap) (f : Action) :
    List (List (Nat × Cell)) → Heap → Action → Prop where
  | none {h' : Heap} : h.Keeps f h' → Specialized h f [] h' f
  | step {done : List (List (Nat × Cell))} {m m' : Machine} {g g' : Action} {fr : FrameId}
      {pairs : List (Nat × Cell)} {fuel rounds : Nat} {frame : Frame} {h' : Heap} :
      Specialized h f done m.heap g → m.Specializes fr g f.paramlist pairs →
      Library.specialize_
        ⟨Engine.runSteps Library.dispatch (fuel + 4 * pairs.length + 4), rounds⟩ fr m =
          .ok .out m' →
      m'.frames[fr]? = some frame → frame.out = Cell.action g' .unbound →
      m'.heap.Keeps g' h' → Specialized h f (pairs :: done) h' g'

/-- What is assigned are literal arguments, none of them twice. -/
structure Chosen (params : List Typeset) (arg : Nat → Cell) (pairs : List (Nat × Cell)) : Prop where
  once : (pairs.map (·.1)).Nodup
  literal : ∀ pair ∈ pairs, pair.2.SameValue (arg pair.1) ∧ (arg pair.1).IsLiteral
  normal : ∀ pair ∈ pairs, ∃ p, params[pair.1]? = some p ∧ p.paramClass = .normal

theorem Chosen.behind {params : List Typeset} {arg : Nat → Cell} {pairs others : List (Nat × Cell)}
    (chosen : Chosen params arg (pairs ++ others)) : Chosen params arg others where
  once := by
    have once := chosen.once
    rw [List.map_append] at once
    exact (List.nodup_append.mp once).2.1
  literal pair member := chosen.literal pair (List.mem_append_right _ member)
  normal pair member := chosen.normal pair (List.mem_append_right _ member)

section

variable {h h' : Heap} {m : Machine} {fr : FrameId} {f g : Action} {params : List Typeset}
  {code arg : Nat → Cell} {pairs : List (Nat × Cell)} {done : List (List (Nat × Cell))} {n : Nat}

theorem Typeset.Positional.ordinary {p : Typeset} (positional : p.Positional) :
    p.paramClass ≠ .refinement := by
  rcases positional with same | same | same <;> simp [same]

/-- A specialization of what some steps have made fixes what it assigns too. -/
theorem Heap.PartialOf.next (fuel rounds : Nat)
    (part : m.heap.PartialOf f params [] arg (done.flatten.map (·.1)) n g)
    (specializes : m.Specializes fr g f.paramlist pairs)
    (chosen : Chosen params arg (pairs :: done).flatten) (supplies : Supplies code arg params)
    (positional : ∀ p ∈ params, p.Positional) :
    ∃ g', Gives (Library.specialize_
      ⟨Engine.runSteps Library.dispatch (fuel + 4 * pairs.length + 4), rounds⟩ fr) m .out
      fun m' => (∃ frame, m'.frames[fr]? = some frame ∧ frame.out = Cell.action g' .unbound) ∧
        m'.heap.PartialOf f params [] arg ((pairs :: done).flatten.map (·.1)) (n + 1) g' := by
  have split : (pairs :: done).flatten.map (·.1) = pairs.map (·.1) ++ done.flatten.map (·.1) := by
    rw [List.flatten_cons, List.map_append]
  have ready := part.specialize Library.dispatch fuel rounds specializes
    (fun pair member => (chosen.literal pair (List.mem_append_left _ member)).1)
    (split ▸ chosen.once) ?_ fun p member => (positional p member).ordinary
  · rwa [← split] at ready
  · intro i member
    rw [← split] at member
    obtain ⟨pair, here, rfl⟩ := List.mem_map.mp member
    obtain ⟨p, there, normal⟩ := chosen.normal pair here
    exact ⟨(chosen.literal pair here).2, p, there, (supplies _ p there normal).2⟩

/-- A function is what no step has made of it. -/
theorem Heap.PartialOf.self (lays : h.Lays f { base := f.paramlist, params }) :
    h.PartialOf f params [] arg [] 0 f where
  lays := by
    refine ⟨_, lays, rfl, (List.append_nil _).symm, List.replicate params.length Cell.null,
      (List.append_nil _).symm, List.length_replicate .., fun i c found => ?_⟩
    rw [Cell.Held, if_neg List.not_mem_nil]
    exact (List.mem_replicate.mp (List.mem_of_getElem? found)).2
  runs := .self

/-- Successive specializations make what has all that they assign fixed. -/
theorem Heap.Specialized.partialOf (lays : h.Lays f { base := f.paramlist, params })
    (supplies : Supplies code arg params) (positional : ∀ p ∈ params, p.Positional)
    (specialized : h.Specialized f done h' g) (chosen : Chosen params arg done.flatten) :
    h'.PartialOf f params [] arg (done.flatten.map (·.1)) done.length g := by
  induction specialized with
  | none keeps => exact (PartialOf.self lays).keep keeps
  | step _ specializes ran there out keeps ih =>
      obtain ⟨g', m', ran', ⟨frame, found, out'⟩, part⟩ :=
        (ih chosen.behind).next _ _ specializes chosen supplies positional
      obtain ⟨-, rfl⟩ := EStateM.Result.ok.inj (ran.symm.trans ran')
      obtain rfl := Option.some.inj (there.symm.trans found)
      have same := Payload.action.inj (congrArg Cell.payload (out.symm.trans out'))
      exact (same ▸ part).keep keeps

end

namespace Engine

/-- Specializing is partial application, in whichever steps.  A specialization of what some have
made of a function succeeds as long as it fixes arguments that are free, and a call of what all
have made, with the code of the arguments that are left, gives the function the same arguments as
a call of the function with all of them. -/
theorem runSteps_specialized {m₀ m₁ : Machine} {spec body first : Cell} {f g : Action}
    {params : List Typeset} {code arg : Nat → Cell} {done : List (List (Nat × Cell))} {h : Heap}
    (made : Interp.makeFunc spec body m₀ = .ok f m₁)
    (listed : Query.cells f.paramlist m₁ = .ok (first :: params.map Cell.typeset).toArray)
    (positional : ∀ p ∈ params, p.Positional) (supplies : Supplies code arg params)
    (specialized : m₁.heap.Specialized f done h g) (chosen : Chosen params arg done.flatten) :
    (∀ (m : Machine) (fr : FrameId) (pairs : List (Nat × Cell)) (fuel rounds : Nat),
      m.heap = h → m.Specializes fr g f.paramlist pairs →
      Chosen params arg (pairs :: done).flatten →
      ∃ g' m' frame, Library.specialize_
        ⟨runSteps Library.dispatch (fuel + 4 * pairs.length + 4), rounds⟩ fr m = .ok .out m' ∧
        m'.frames[fr]? = some frame ∧ frame.out = Cell.action g' .unbound) ∧
    ∀ (m m' : Machine) (fr fr' : FrameId) (rest rest' : List Cell) (fuel : Nat),
      m.heap = h → m.Expects fr g [] (remaining code (done.flatten.map (·.1)) 0 params) rest →
      m₁.heap.Keeps f m'.heap → m'.Expects fr' f [] (remaining code [] 0 params) rest' →
      params.length + 4 ≤ fuel →
      ∃ n n', runSteps Library.dispatch (fuel + done.length + 4) fr .start m =
          runSteps Library.dispatch fuel fr .dispatch n ∧ n.Given fr f params arg ∧
        runSteps Library.dispatch (fuel + 4) fr' .start m' =
          runSteps Library.dispatch fuel fr' .dispatch n' ∧ n'.Given fr' f params arg := by
  obtain ⟨params', lays⟩ := Interp.makeFunc_lays made
  obtain ⟨first', listed'⟩ := lays.cells_run
  have same : params' = params := by
    have whole := (Except.ok.inj (listed'.symm.trans listed))
    have typesets := (List.cons.inj (congrArg Array.toList whole)).2
    exact List.map_injective_iff.mpr
      (fun p q equal => Payload.typeset.inj (congrArg Cell.payload equal)) typesets
  subst same
  have part := specialized.partialOf lays supplies positional chosen
  refine ⟨fun m fr pairs fuel rounds heap specializes more => ?_,
    fun m m' fr fr' rest rest' fuel heap call kept whole long => ?_⟩
  · obtain ⟨g', m', ran, ⟨frame, there, out⟩, -⟩ :=
      (heap ▸ part).next fuel rounds specializes more supplies positional
    exact ⟨g', m', frame, ran, there, out⟩
  · obtain ⟨n, ran, given⟩ := (heap ▸ part).call positional supplies call long
    obtain ⟨n', ran', given'⟩ :=
      ((Heap.PartialOf.self lays).keep kept).call positional supplies whole long
    exact ⟨n, n', ran, given, ran', given'⟩

end Engine

/-! ## A sample -/

/-- The code of a function with the parameters `a b`, and a block that assigns 2 to `b`. -/
def sampleSpec : Machine where
  config := {}
  heap :=
    { slots := #[
        some (Series.ofCells #[Cell.word .word ⟨0⟩, Cell.word .word ⟨1⟩]),
        some (Series.ofCells #[]),
        some (Series.ofCells #[Cell.word .setWord ⟨1⟩, Cell.integer 2])]
      ballast := 100 }
  symbols := { entries := #[⟨"a", "a", ⟨0⟩, ⟨0⟩⟩, ⟨"b", "b", ⟨1⟩, ⟨1⟩⟩] }
  countdown := 1

/-- The parameters of the function. -/
def sampleParams : List Typeset :=
  [.param ⟨0⟩ .normal .paramDefault, .param ⟨1⟩ .normal .paramDefault,
    .param ⟨2⟩ .return .anyValue]

/-- The function. -/
def sampleFunc : Action := ⟨⟨3⟩, ⟨5⟩⟩

/-- The machine in which the function has been made. -/
def sampleMade : Machine :=
  match Interp.makeFunc (Cell.series .block ⟨0⟩ 0) (Cell.series .block ⟨1⟩ 0) sampleSpec with
  | .ok _ m => m
  | .error _ m => m

/-- SPECIALIZE is about to run for the function and the block. -/
def sampleStep : Machine :=
  { sampleMade with
    heap := (sampleMade.heap.alloc (Series.ofCells
      #[Cell.blank, Cell.action sampleFunc .unbound, Cell.series .block ⟨2⟩ 0]).managed).2
    frames := #[{ feed := 0, varlist := some ⟨6⟩ }] }

/-- A context in which a word refers to an action. -/
def sampleContext (g : Action) : Series :=
  { (Series.ofCells #[Cell.blank, Cell.action g .unbound]).managed with link := .keylist ⟨0⟩ }

/-- An action is about to be called by a word, before some cells. -/
def sampleCalled (h : Heap) (g : Action) (literals : List Cell) : Machine where
  config := {}
  heap := (h.alloc (sampleContext g)).2
  symbols := sampleSpec.symbols
  countdown := 1
  frames := #[{ feed := 0 }]
  feeds := #[{ source := .cells literals,
               value := .boundWord .word ⟨0⟩ (.specific (h.alloc (sampleContext g)).1) 1 }]

/-- The word calls the action. -/
theorem getVar_sampleContext {m : Machine} {h : Heap} {g : Action}
    (heap : m.heap = (h.alloc (sampleContext g)).2) :
    Query.getVar (.boundWord .word ⟨0⟩ (.specific (h.alloc (sampleContext g)).1) 1) none m =
      .ok (Cell.action g .unbound) := by
  have live : m.heap.get? (h.alloc (sampleContext g)).1 = some (sampleContext g) := by
    rw [heap]
    exact (Heap.get?_alloc ..).trans (if_pos rfl)
  have serves : m.Serves (h.alloc (sampleContext g)).1 ⟨0⟩ 2 := .of_live live (by cbv) rfl
  rw [Query.getVar, Query.bind_ok (serves.resolveWord rfl (.inl rfl) Nat.one_ne_zero (by decide))]
  exact Query.cell_eq_ok.mpr ⟨_, Query.cells_eq_ok.mpr ⟨_, live, rfl⟩, rfl⟩

theorem expects_sampleCalled {h : Heap} {g : Action} {literals : List Cell}
    (unmarked : h.Unmarked) (means : ∀ c ∈ literals, ∃ v, c.Means v) :
    (sampleCalled h g literals).Expects 0 g [] literals [] where
  call := by
    have plain : (sampleContext g).has Flags.marked = false := by cbv
    have room : 0 + 1 < ({} : Config).frameLimit := Config.lt_frameLimit_iff.mpr (by decide)
    refine ⟨_, _, _, ⟨unmarked.alloc plain, rfl, rfl, room, rfl, rfl, rfl, rfl, rfl,
      ⟨rfl, .inl ?_, rfl, rfl⟩⟩, .word rfl (getVar_sampleContext rfl) rfl rfl⟩
    exact congrArg FeedSource.cells (List.append_nil _).symm
  literals := means
  quiet := ⟨rfl, rfl⟩
  space := Nat.zero_le _

theorem made_sampleFunc :
    Interp.makeFunc (Cell.series .block ⟨0⟩ 0) (Cell.series .block ⟨1⟩ 0) sampleSpec =
      .ok sampleFunc sampleMade := by cbv

theorem specializes_sampleStep :
    sampleStep.Specializes 0 sampleFunc sampleFunc.paramlist [(1, Cell.integer 2)] where
  unmarked := Heap.unmarked_of_all (by cbv)
  running := by cbv
  top := by cbv
  room := Config.lt_frameLimit_iff.mpr (by decide)
  call := by
    have cells : Query.cells ⟨6⟩ sampleStep =
        .ok #[Cell.blank, Cell.action sampleFunc .unbound, Cell.series .block ⟨2⟩ 0] := by cbv
    have names : Query.cells sampleFunc.paramlist sampleStep =
        .ok (Cell.action sampleFunc .unbound :: sampleParams.map Cell.typeset).toArray := by cbv
    have code : Query.cells ⟨2⟩ sampleStep = .ok #[Cell.word .setWord ⟨1⟩, Cell.integer 2] := by cbv
    refine ⟨{ feed := 0, varlist := some ⟨6⟩ }, ⟨6⟩, _, Cell.action sampleFunc .unbound,
      Cell.series .block ⟨2⟩ 0, rfl, rfl, cells, rfl, rfl, rfl, fun symbol =>
        sampleStep.symbols.findName? (Cell.action sampleFunc .unbound ::
          sampleParams.map Cell.typeset).toArray (sampleStep.symbols.canon symbol), fun symbol => ?_,
      ⟨⟨2⟩, _, rfl, code, .cons rfl ⟨⟨1⟩, rfl, ?_⟩ ⟨rfl, rfl⟩ .nil⟩, ?_⟩
    · rw [Query.findParam?, Query.bind_ok names]
      rfl
    · cbv
    · exact fun _ none => absurd none (by simp [Query.deriveSpecifier, Cell.series])

/-- The arguments of the function. -/
def sampleArg : Nat → Cell
  | 0 => Cell.integer 1
  | _ => Cell.integer 2

theorem listed_sampleMade : Query.cells sampleFunc.paramlist sampleMade =
    .ok (Cell.action sampleFunc .unbound :: sampleParams.map Cell.typeset).toArray := by cbv

theorem unmarked_sampleMade :
    sampleMade.heap.slots.all (fun s => s.all fun s => !s.has Flags.marked) = true := by cbv

theorem positional_sampleParams : ∀ p ∈ sampleParams, p.Positional := by
  simp [sampleParams, Typeset.Positional, Typeset.param]

theorem literal_sampleArg : ∀ i, (sampleArg i).IsLiteral
  | 0 => ⟨rfl, rfl⟩
  | _ + 1 => ⟨rfl, rfl⟩

theorem supplies_sampleArg : Supplies sampleArg sampleArg sampleParams := by
  intro i p there normal
  refine ⟨(literal_sampleArg i).means, ?_⟩
  match i, there with
  | 0, there =>
      obtain rfl := Option.some.inj there
      exact ⟨rfl, rfl, rfl, rfl, by decide⟩
  | 1, there =>
      obtain rfl := Option.some.inj there
      exact ⟨rfl, rfl, rfl, rfl, by decide⟩
  | 2, there =>
      obtain rfl := Option.some.inj there
      cases normal

theorem chosen_nil : Chosen sampleParams sampleArg [] where
  once := List.nodup_nil
  literal := by simp
  normal := by simp

theorem chosen_sampleArg : Chosen sampleParams sampleArg [(1, Cell.integer 2)] where
  once := List.nodup_singleton 1
  literal := by simpa using ⟨Cell.SameValue.refl _, literal_sampleArg 1⟩
  normal := by simpa using ⟨_, rfl, rfl⟩

-- The machine is known by the lemmas above, and no step below may compute it again.
attribute [irreducible] sampleMade

theorem specialized_sampleStep :
    sampleMade.heap.Specialized sampleFunc [] sampleStep.heap sampleFunc :=
  .none ((Heap.Keeps.refl _ _).alloc _)

theorem Engine.runSteps_specialized_sample : ∃ g m₂ n n',
    Library.specialize_ ⟨runSteps Library.dispatch 9, 9⟩ 0 sampleStep = .ok .out m₂ ∧
      runSteps Library.dispatch 12 0 .start (sampleCalled m₂.heap g [Cell.integer 1]) =
        runSteps Library.dispatch 7 0 .dispatch n ∧
      n.Given 0 sampleFunc sampleParams sampleArg ∧
      runSteps Library.dispatch 11 0 .start
          (sampleCalled sampleMade.heap sampleFunc [Cell.integer 1, Cell.integer 2]) =
        runSteps Library.dispatch 7 0 .dispatch n' ∧
      n'.Given 0 sampleFunc sampleParams sampleArg := by
  have runs : ((Library.specialize_ ⟨runSteps Library.dispatch 9, 9⟩ 0).final
      sampleStep).heap.slots.all (fun s => s.all fun s => !s.has Flags.marked) = true := by cbv
  obtain ⟨g, m₂, frame, ran, there, out⟩ :=
    (runSteps_specialized made_sampleFunc listed_sampleMade positional_sampleParams
      supplies_sampleArg specialized_sampleStep chosen_nil).1 sampleStep 0 [(1, Cell.integer 2)]
        1 9 rfl specializes_sampleStep chosen_sampleArg
  have ran : Library.specialize_ ⟨runSteps Library.dispatch 9, 9⟩ 0 sampleStep = .ok .out m₂ := ran
  rw [Interp.final, ran] at runs
  have step : sampleMade.heap.Specialized sampleFunc [[(1, Cell.integer 2)]]
      (sampleCalled m₂.heap g [Cell.integer 1]).heap g :=
    .step specialized_sampleStep specializes_sampleStep ran there out ((Heap.Keeps.refl _ _).alloc _)
  have means : ∀ c ∈ [Cell.integer 1, Cell.integer 2], ∃ v, c.Means v := by
    simpa using ⟨⟨_, (literal_sampleArg 0).means⟩, ⟨_, (literal_sampleArg 1).means⟩⟩
  have special := expects_sampleCalled (g := g) (Heap.unmarked_of_all runs) fun c member =>
    means c (List.mem_cons.mpr (.inl (List.mem_singleton.mp member)))
  have whole := expects_sampleCalled (g := sampleFunc) (Heap.unmarked_of_all unmarked_sampleMade)
    means
  obtain ⟨-, calls⟩ := runSteps_specialized made_sampleFunc listed_sampleMade
    positional_sampleParams supplies_sampleArg step chosen_sampleArg
  obtain ⟨n, n', first, given, second, given'⟩ := calls _ _ 0 0 [] [] 7 rfl special
    ((Heap.Keeps.refl _ _).alloc _) whole (by decide)
  exact ⟨g, m₂, n, n', ran, first, given, second, given'⟩

end Homoicon
