import Homoicon.Library.Function
import Homoicon.Proofs.Arguments.Intake
import Homoicon.Proofs.Arguments.Parts

/-!
# How specializations are made

A specialization is made of new series: an exemplar that has the arguments fixed so far, the
parameters, and the details with the action that it runs.  Each step of the making changes one of
them.
-/

namespace Homoicon

open Interp (Gives)

/-! ## One series at a time -/

/-- Of a machine only one series of the heap becomes another. -/
structure Machine.Becomes (m : Machine) (id : SeriesId) (s : Series) (m' : Machine) : Prop where
  rest : m' = { m with heap := m'.heap }
  self : m'.heap.get? id = some s
  others : ∀ other, other ≠ id → m'.heap.get? other = m.heap.get? other

namespace Machine.Becomes

variable {m m' m'' : Machine} {id : SeriesId} {s s' : Series}

theorem trans (first : m.Becomes id s m') (second : m'.Becomes id s' m'') :
    m.Becomes id s' m'' where
  rest := by rw [second.rest, first.rest]
  self := second.self
  others other apart := (second.others other apart).trans (first.others other apart)

theorem unmarked (becomes : m.Becomes id s m') (before : m.heap.Unmarked)
    (plain : s.has Flags.marked = false) : m'.heap.Unmarked := by
  intro other t found
  by_cases same : other = id
  · subst same
    rw [becomes.self] at found
    exact Option.some.inj found ▸ plain
  · rw [becomes.others other same] at found
    exact before other t found

/-- A series that an action is not made of may become anything. -/
theorem keeps {h : Heap} {a : Action} (becomes : m.Becomes id s m') (kept : h.Keeps a m.heap)
    (fresh : h.get? id = none ∨ m.heap.get? id = none) : h.Keeps a m'.heap :=
  kept.change fresh becomes.others

end Machine.Becomes

namespace Interp

variable {m : Machine} {id : SeriesId} {s : Series}

theorem alloc_becomes (m : Machine) (s : Series) :
    ∃ id, m.heap.get? id = none ∧ Gives (alloc s) m id (m.Becomes id s) := by
  refine ⟨(m.heap.alloc s).1, m.heap.alloc_fresh s, _, rfl, rfl, ?_, fun other apart => ?_⟩
  · exact (Heap.get?_alloc ..).trans (if_pos rfl)
  · exact (Heap.get?_alloc ..).trans (if_neg apart.symm)

theorem storeCell_becomes {held : Array Cell} {i : Nat} (found : m.heap.get? id = some s)
    (content : s.content = .array held) (inside : i < held.size) (c : Cell) :
    Gives (storeCell id i c) m () (m.Becomes id (s.storing i c)) := by
  have cells := Query.cells_eq_ok.mpr ⟨s, found, content⟩
  refine ⟨_, storeCell_run c cells inside, Machine.stored_rest, ?_, fun other apart => ?_⟩
  · rw [Machine.heap_stored, Heap.get?_modify, if_pos rfl, found]
    rfl
  · exact Machine.get?_stored_of_ne apart

theorem setFlag_becomes (found : m.heap.get? id = some s) (flags : Flags) :
    Gives (setFlag id flags) m () (m.Becomes id (s.withFlags flags)) := by
  refine ⟨_, if_pos (Heap.isLive_iff.mpr ⟨s, found⟩), rfl, ?_, fun other apart => ?_⟩
  · exact (Heap.get?_modify ..).trans (by rw [if_pos rfl, found]; rfl)
  · exact (Heap.get?_modify ..).trans (if_neg apart.symm)

end Interp

/-! ## Exemplars -/

/-- What the slots of a new exemplar hold: the arguments that are fixed already. -/
def Layout.slots (layout : Layout) : List Cell :=
  layout.exemplar.elim (List.replicate layout.params.length Cell.null) fun _ => layout.fixed

/-- The series of an exemplar. -/
def exemplarSeries (base : SeriesId) (first : Cell) (slots : List Cell) : Series :=
  { (Series.ofCells (first :: slots).toArray).withFlags (Flags.varlist ||| Flags.managed) with
    link := .keylist base }

section

variable {base : SeriesId} {first : Cell} {slots : List Cell}

theorem exemplarSeries_content :
    (exemplarSeries base first slots).content = .array (first :: slots).toArray := rfl

theorem exemplarSeries_unmarked :
    (exemplarSeries base first slots).has Flags.marked = false := by
  simp only [exemplarSeries, Series.ofCells, Series.withFlags, Series.has]
  split <;> decide

theorem exemplarSeries_accessible :
    (exemplarSeries base first slots).has Flags.inaccessible = false := by
  simp only [exemplarSeries, Series.ofCells, Series.withFlags, Series.has]
  split <;> decide

theorem exemplarSeries_storing (i : Nat) (c : Cell) :
    (exemplarSeries base first slots).storing (i + 1) c =
      exemplarSeries base first (slots.set i c) := by
  rw [Series.storing_array exemplarSeries_content]
  have cells : (first :: slots).toArray.modify (i + 1) (fun _ => c) =
      (first :: slots.set i c).toArray := by
    rw [List.modify_toArray, ← List.set_eq_modify]
    rfl
  rw [cells]
  simp [exemplarSeries, Series.ofCells, Series.withFlags]

end

namespace Interp

variable {m : Machine} {action : Action} {layout : Layout}

/-- The exemplar of a specialization begins as that of the action that it is made from. -/
theorem makeExemplar_becomes (lays : m.heap.Lays action layout)
    (full : layout.slots.length = layout.params.length) (binding : Binding) :
    ∃ ex, m.heap.get? ex = none ∧ Gives (makeExemplar action binding) m ex
      (m.Becomes ex (exemplarSeries layout.base (Cell.frame ex action binding) layout.slots)) := by
  have filling (cells : Array Cell) (last : Cell)
      (padded : cells.extract 0 (layout.params.length + 1) ++
        Array.replicate (layout.params.length + 1 - cells.size) Cell.null =
          (last :: layout.slots).toArray) :
      ∃ ex, m.heap.get? ex = none ∧ Gives (do
        let ex ← alloc { (Series.ofCells (cells.extract 0 (layout.params.length + 1) ++
          Array.replicate (layout.params.length + 1 - cells.size) Cell.null)).withFlags
            (Flags.varlist ||| Flags.managed) with link := .keylist layout.base }
        storeCell ex 0 (Cell.frame ex action binding)
        pure ex) m ex
        (m.Becomes ex (exemplarSeries layout.base (Cell.frame ex action binding) layout.slots)) := by
    rw [padded]
    obtain ⟨ex, fresh, made⟩ := alloc_becomes m (exemplarSeries layout.base last layout.slots)
    refine ⟨ex, fresh, .bind made fun m₁ becomes => ?_⟩
    refine .bind (storeCell_becomes becomes.self exemplarSeries_content (by simp) _)
      fun m₂ stored => .pure ?_
    have first : (exemplarSeries layout.base last layout.slots).storing 0
        (Cell.frame ex action binding) =
          exemplarSeries layout.base (Cell.frame ex action binding) layout.slots := by
      rw [Series.storing_array exemplarSeries_content]
      simp [exemplarSeries, Series.ofCells, Series.withFlags]
    exact first ▸ becomes.trans stored
  unfold makeExemplar
  cases fixes : layout.exemplar with
  | none =>
      have empty : layout.slots = List.replicate layout.params.length Cell.null := by
        rw [Layout.slots, fixes]
        rfl
      have padded : Array.replicate (layout.params.length + 1) Cell.null =
          (Cell.null :: layout.slots).toArray := by
        rw [empty]
        exact Array.toList_inj.mp (by simp [List.replicate_succ])
      obtain ⟨ex, fresh, made⟩ := filling #[] Cell.null (by simpa using padded)
      refine ⟨ex, fresh, .asked lays.underlying (.asked lays.count (.asked lays.exemplar_run ?_))⟩
      rw [fixes]
      exact made
  | some old =>
      obtain ⟨last, found⟩ := lays.fixed_run fixes
      have held : layout.slots = layout.fixed := by rw [Layout.slots, fixes]; rfl
      rw [held] at full
      obtain ⟨ex, fresh, made⟩ := filling (last :: layout.fixed).toArray last (by simp [held, full])
      refine ⟨ex, fresh, .asked lays.underlying (.asked lays.count (.asked lays.exemplar_run ?_))⟩
      rw [fixes]
      change Gives (Query.ask (Query.cells old) >>= _) m _ _
      rw [Gives, ask_bind_ok found]
      exact made

end Interp

/-! ## Fixing what was assigned -/

/-- An argument that was assigned is fixed. -/
def Cell.fixed (c : Cell) : Cell :=
  if c.checked || c.isNull then c else { c.copied with checked := true }

/-- What an exemplar may hold for a parameter before all refinements. -/
inductive Typeset.MayHold (p : Typeset) (c : Cell) : Prop where
  | free : p.paramClass ≠ .refinement → c = Cell.null → MayHold p c
  | given : p.paramClass = .normal → c.isNull = false → Query.typeMatches p c = true → MayHold p c

namespace Library

variable {m : Machine} {ex base : SeriesId}

theorem fixSlots_idle {slots : List Nat} (refinement : Option Nat)
    (each : ∀ i ∈ slots, (∃ p, Query.param base i m = .ok p) ∧
      Query.cell ex i m = .ok Cell.null) :
    fixSlots ex base slots refinement m = .ok () m := by
  induction slots generalizing refinement with
  | nil => rfl
  | cons i slots ih =>
      obtain ⟨⟨p, param⟩, empty⟩ := each i (List.mem_cons_self ..)
      have rest := fun refinement => ih refinement fun j member => each j (List.mem_cons_of_mem i member)
      obtain ⟨held, found, there⟩ := Query.cell_eq_ok.mp empty
      have special : Query.isSpecialized ex i m = .ok false := by
        rw [Query.isSpecialized, Query.bind_ok found, there]
        rfl
      rw [fixSlots, Interp.lift_bind_ok param]
      cases c : p.paramClass with
      | «local» => exact rest refinement
      | «return» => exact rest refinement
      | _ =>
          refine (Interp.lift_bind_ok empty _).trans ((Interp.lift_bind_ok special _).trans ?_)
          exact rest _

/-- The slots that were assigned are fixed. -/
theorem fixSlots_becomes {params after : List Typeset} {link : SeriesId} {first last : Cell}
    {before : List Typeset} {done todo : List Cell}
    (live : m.heap.get? ex = some (exemplarSeries link first
      (done ++ todo ++ List.replicate after.length Cell.null)))
    (listed : Query.cells base m =
      .ok (last :: (before ++ params ++ after).map Cell.typeset).toArray)
    (apart : base ≠ ex) (place : done.length = before.length)
    (holds : List.Forall₂ Typeset.MayHold params todo) :
    Gives (fixSlots ex base (List.range' (before.length + 1) (params.length + after.length)) none) m
      () (m.Becomes ex (exemplarSeries link first
        (done ++ todo.map Cell.fixed ++ List.replicate after.length Cell.null))) := by
  have found := Query.cells_eq_ok.mpr ⟨_, live, exemplarSeries_content⟩
  induction holds generalizing m before done with
  | nil =>
      refine ⟨m, fixSlots_idle none fun i member => ?_, rfl, by simpa using live, fun _ _ => rfl⟩
      obtain ⟨low, high⟩ := List.mem_range'_1.mp member
      simp only [List.length_nil, Nat.zero_add] at high
      obtain ⟨k, rfl⟩ := Nat.exists_eq_add_of_le low
      have inside : k < after.length := by omega
      constructor
      · refine ⟨after[k], ?_⟩
        have cell : Query.cell base (before.length + 1 + k) m = .ok (Cell.typeset after[k]) := by
          refine Query.cell_eq_ok.mpr ⟨_, listed, ?_⟩
          simp [Nat.add_right_comm _ 1 k, inside]
        rw [Query.param, Query.bind_ok cell]
        rfl
      · refine Query.cell_eq_ok.mpr ⟨_, found, ?_⟩
        simp [Nat.add_right_comm _ 1 k, inside, ← place]
  | @cons p c params todo here holds ih =>
      have param : Query.param base (before.length + 1) m = .ok p := by
        have cell : Query.cell base (before.length + 1) m = .ok (Cell.typeset p) := by
          refine Query.cell_eq_ok.mpr ⟨_, listed, ?_⟩
          simp
        rw [Query.param, Query.bind_ok cell]
        rfl
      have there : (first :: (done ++ c :: todo ++
          List.replicate after.length Cell.null)).toArray[before.length + 1]? = some c := by
        simp [← place]
      have value : Query.cell ex (before.length + 1) m = .ok c :=
        Query.cell_eq_ok.mpr ⟨_, found, there⟩
      have special : Query.isSpecialized ex (before.length + 1) m = .ok c.checked := by
        rw [Query.isSpecialized, Query.bind_ok found, there]
        rfl
      have others (m' : Machine) (becomes : m.Becomes ex (exemplarSeries link first
          (done ++ c.fixed :: todo ++ List.replicate after.length Cell.null)) m') :
          Gives (fixSlots ex base (List.range' (before.length + 2) (params.length + after.length))
            none) m' () (m.Becomes ex (exemplarSeries link first
              (done ++ (c :: todo).map Cell.fixed ++ List.replicate after.length Cell.null))) := by
        have live' : m'.heap.get? ex = some (exemplarSeries link first
            (done ++ [c.fixed] ++ todo ++ List.replicate after.length Cell.null)) := by
          simpa using becomes.self
        have listed' : Query.cells base m' =
            .ok (last :: (before ++ [p] ++ params ++ after).map Cell.typeset).toArray := by
          obtain ⟨s, live, content⟩ := Query.cells_eq_ok.mp listed
          refine Query.cells_eq_ok.mpr ⟨s, (becomes.others base apart).trans live, ?_⟩
          simpa using content
        have fixes := ih live' listed' (by simp [place])
          (Query.cells_eq_ok.mpr ⟨_, live', exemplarSeries_content⟩)
        rw [List.length_append, List.length_singleton] at fixes
        refine fixes.weaken fun last reached => ?_
        simpa using becomes.trans reached
      have idle (same : c.fixed = c) : Gives (fixSlots ex base
          (List.range' (before.length + 2) (params.length + after.length)) none) m () _ :=
        others m ⟨rfl, by rw [same]; exact live, fun _ _ => rfl⟩
      rw [List.length_cons, Nat.add_right_comm, List.range'_succ, fixSlots]
      refine .asked param ?_
      cases here with
      | free other null =>
          subst null
          cases c : p.paramClass with
          | «local» => exact idle rfl
          | «return» => exact idle rfl
          | refinement => exact absurd c other
          | _ => exact .asked value (.asked special (idle rfl))
      | given normal notNull fits =>
          rw [normal]
          refine .asked value (.asked special ?_)
          cases checked : c.checked with
          | true => exact idle (by simp [Cell.fixed, checked])
          | false =>
              have fixed : c.fixed = { c.copied with checked := true } := by
                simp [Cell.fixed, checked, notNull]
              rw [notNull, fits]
              refine .bind (Interp.storeCell_becomes live exemplarSeries_content ?_ _)
                fun m' becomes => others m' ?_
              · simp [place]
              · rw [exemplarSeries_storing, ← place, List.append_assoc,
                  List.set_append_right _ _ (Nat.le_refl _), Nat.sub_self] at becomes
                rw [fixed, List.append_assoc]
                exact becomes

end Library

/-! ## Specializations -/

namespace Query

variable {m : Machine} {id ex : SeriesId}

theorem mapM_ok {α β : Type} {f : α → Query β} {items : List α}
    (each : ∀ a ∈ items, ∃ b, f a m = .ok b) : ∃ results, items.mapM f m = .ok results := by
  induction items with
  | nil => exact ⟨[], rfl⟩
  | cons a items ih =>
      obtain ⟨b, first⟩ := each a (List.mem_cons_self ..)
      obtain ⟨results, rest⟩ := ih fun other member => each other (List.mem_cons_of_mem a member)
      refine ⟨b :: results, ?_⟩
      rw [List.mapM_cons, bind_ok first, bind_ok rest]
      rfl

/-- The conventions of an action can be told from its parameters. -/
theorem conventions_ok {params : List Typeset} {first : Cell} {held : Array Cell}
    (listed : cells id m = .ok (first :: params.map Cell.typeset).toArray)
    (fixes : cells ex m = .ok held) : ∃ flags, conventions id (some ex) m = .ok flags := by
  have slots : slotsOf id m = .ok (List.range' 1 params.length) := by
    obtain ⟨s, live, content⟩ := cells_eq_ok.mp listed
    rw [slotsOf, size, bind_ok (by rw [bind_ok (series_eq_ok.mpr live), content]; rfl)]
    simp [Content.size]
  have each : ∀ i ∈ List.range' 1 params.length, ∃ p, param id i m = .ok p := by
    intro i member
    obtain ⟨low, high⟩ := List.mem_range'_1.mp member
    obtain ⟨k, rfl⟩ := Nat.exists_eq_add_of_le' low
    have inside : k < params.length := by omega
    refine ⟨params[k], ?_⟩
    have cell : cell id (k + 1) m = .ok (Cell.typeset params[k]) :=
      cell_eq_ok.mpr ⟨_, listed, by simp [inside]⟩
    rw [param, bind_ok cell]
    rfl
  have first (items : List Nat) (each : ∀ i ∈ items, ∃ p, param id i m = .ok p) :
      ∃ flags, firstParamFlags id (some ex) items m = .ok flags := by
    induction items with
    | nil => exact ⟨0, rfl⟩
    | cons i items ih =>
        obtain ⟨p, here⟩ := each i (List.mem_cons_self ..)
        have rest := ih fun other member => each other (List.mem_cons_of_mem i member)
        have fixed : isFixed (some ex) i m = .ok ((held[i]?).any (·.checked)) := by
          change isSpecialized ex i m = _
          rw [isSpecialized, bind_ok fixes]
          cases held[i]? <;> rfl
        rw [firstParamFlags, bind_ok here]
        split
        · exact rest
        · rw [bind_ok fixed]
          split
          · exact rest
          · exact ⟨_, rfl⟩
  obtain ⟨flags, begins⟩ := first _ each
  obtain ⟨ps, all⟩ := mapM_ok each
  exact ⟨_, by rw [conventions, bind_ok slots, bind_ok begins, bind_ok all]; rfl⟩

end Query

/-- An action has been made of new series, which runs another one with what an exemplar fixes. -/
structure Machine.Specialized (m : Machine) (action : Action) (binding : Binding) (base ex : SeriesId)
    (special : Action) (m' : Machine) : Prop where
  rest : m' = { m with heap := m'.heap }
  paramlist : ∃ s, m'.heap.get? special.paramlist = some s ∧ s.link = .keylist base
  details : ∃ s, m'.heap.get? special.details = some s ∧ s.link = .exemplar ex ∧
    s.role = .dispatcher .specialization ∧ s.content = .array #[Cell.action action binding]
  others : ∀ id, m.heap.get? id ≠ none → m'.heap.get? id = m.heap.get? id

namespace Interp

variable {m : Machine} {action : Action} {layout : Layout} {ex : SeriesId} {held : Array Cell}

theorem makeSpecialization_run (lays : m.heap.Lays action layout)
    (fixes : Query.cells ex m = .ok held) (binding : Binding) :
    ∃ special, Gives (makeSpecialization action binding ex) m special
      (m.Specialized action binding layout.base ex special) := by
  obtain ⟨own, found, -⟩ := lays.own
  obtain ⟨first, listed⟩ := lays.cells_run
  obtain ⟨s, live, content⟩ := Query.cells_eq_ok.mp fixes
  obtain ⟨paramlist, fresh, m₁, shared, becomes⟩ := alloc_becomes m
    { (Series.ofCells (first :: layout.params.map Cell.typeset).toArray).withFlags
        (Flags.paramlist ||| Flags.managed |||
          (own.flags &&& (Flags.defersLookback ||| Flags.postpones))) with
      link := .keylist layout.base }
  obtain ⟨details, fresh₁, m₂, allocated, becomes₁⟩ := alloc_becomes m₁
    { (Series.ofCells [Cell.action action binding].toArray).withFlags
        (Flags.details ||| Flags.managed) with
      role := .dispatcher .specialization, link := .exemplar ex }
  have series : Query.series action.paramlist m = .ok own := Query.series_eq_ok.mpr found
  have sharing : sharedParamlist action m = .ok paramlist m₁ := by
    rw [sharedParamlist, lift_bind_ok lays.underlying, lift_bind_ok listed, lift_bind_ok series]
    exact shared
  have apart : paramlist ≠ details := by
    rintro rfl
    rw [becomes.self] at fresh₁
    cases fresh₁
  have live₂ := (becomes₁.others paramlist apart).trans becomes.self
  obtain ⟨m₃, stored, becomes₂⟩ := storeCell_becomes live₂ rfl (Nat.zero_lt_succ _)
    (Cell.action ⟨paramlist, details⟩ .unbound)
  have kept {id : SeriesId} (old : m.heap.get? id ≠ none) :
      id ≠ paramlist ∧ m₃.heap.get? id = m.heap.get? id := by
    have other : id ≠ paramlist := fun same => old (same ▸ fresh)
    have same := becomes.others id other
    have other₁ : id ≠ details := fun here => old (by rw [← same, here, fresh₁])
    exact ⟨other, (becomes₂.others id other).trans ((becomes₁.others id other₁).trans same)⟩
  have named : Query.cells paramlist m₃ = .ok (Cell.action ⟨paramlist, details⟩ .unbound ::
      layout.params.map Cell.typeset).toArray := by
    refine Query.cells_eq_ok.mpr ⟨_, becomes₂.self, ?_⟩
    rw [Series.storing_array rfl, List.modify_toArray]
    rfl
  obtain ⟨flags, conventions⟩ := Query.conventions_ok named
    (Query.cells_eq_ok.mpr ⟨s, (kept (by simp [live])).2.trans live, content⟩)
  obtain ⟨m₄, flagged, becomes₃⟩ := setFlag_becomes becomes₂.self flags
  have code := (becomes₃.others details apart.symm).trans
    ((becomes₂.others details apart.symm).trans becomes₁.self)
  refine ⟨⟨paramlist, details⟩, m₄, ?_, ?_, ⟨_, becomes₃.self, rfl⟩, ⟨_, code, rfl, rfl, rfl⟩, ?_⟩
  · rw [makeSpecialization, bind_ok sharing, makeAction]
    refine (bind_ok allocated _).trans ((bind_ok stored _).trans ?_)
    rw [setConventions, bind_ok ((lift_bind_ok conventions _).trans flagged)]
    rfl
  · rw [becomes₃.rest, becomes₂.rest, becomes₁.rest, becomes.rest]
  · intro id old
    obtain ⟨other, same⟩ := kept old
    exact (becomes₃.others id other).trans same

end Interp

end Homoicon
