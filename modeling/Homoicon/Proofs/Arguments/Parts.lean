import Homoicon.Param
import Homoicon.Proofs.Collection.Writing

/-!
# What an action is made of

An action has its parameters and its details; a specialization shares the parameters that calls of
it are laid out by, has an exemplar with the arguments that are fixed, and runs another action.  As
long as the series of all these are as they were, a call of the action is.
-/

namespace Homoicon

/-- The series that an action is made of, those of the actions it runs included. -/
inductive Heap.Parts (h : Heap) : Action → SeriesId → Prop where
  | paramlist {a : Action} : Parts h a a.paramlist
  | details {a : Action} : Parts h a a.details
  | keylist {a : Action} {s : Series} {id : SeriesId} :
      h.get? a.paramlist = some s → s.link = .keylist id → Parts h a id
  | exemplar {a : Action} {s : Series} {id : SeriesId} :
      h.get? a.details = some s → s.link = .exemplar id → Parts h a id
  | inner {a b : Action} {s : Series} {held : Array Cell} {c : Cell} {id : SeriesId} :
      h.get? a.details = some s → s.content = .array held → held[0]? = some c →
      c.asAction? = some b → Parts h b id → Parts h a id

/-- Another heap has the series that an action is made of as they are. -/
def Heap.Keeps (h : Heap) (a : Action) (h' : Heap) : Prop :=
  ∀ id s, h.Parts a id → h.get? id = some s → h'.get? id = some s

/-! ## Series that are kept -/

namespace Heap

variable {h h' h'' : Heap} {a b : Action} {id : SeriesId}

namespace Keeps

theorem refl (h : Heap) (a : Action) : h.Keeps a h := fun _ _ _ found => found

/-- The action that an action runs is kept with it. -/
theorem inner (keeps : h.Keeps a h') {s : Series} {held : Array Cell} {c : Cell}
    (details : h.get? a.details = some s) (content : s.content = .array held)
    (first : held[0]? = some c) (runs : c.asAction? = some b) : h.Keeps b h' :=
  fun id s part found => keeps id s (.inner details content first runs part) found

theorem parts (keeps : h.Keeps a h') (part : h.Parts a id) : h'.Parts a id := by
  induction part with
  | paramlist => exact .paramlist
  | details => exact .details
  | keylist found link => exact .keylist (keeps _ _ .paramlist found) link
  | exemplar found link => exact .exemplar (keeps _ _ .details found) link
  | inner found content first runs _ ih =>
      exact .inner (keeps _ _ .details found) content first runs
        (ih (keeps.inner found content first runs))

theorem trans (first : h.Keeps a h') (second : h'.Keeps a h'') : h.Keeps a h'' :=
  fun id s part found => second id s (first.parts part) (first id s part found)

/-- What happens to a series that is not in use, or was not, is no change of an action. -/
theorem change (keeps : h.Keeps a h') {other : SeriesId}
    (fresh : h.get? other = none ∨ h'.get? other = none)
    (same : ∀ id, id ≠ other → h''.get? id = h'.get? id) : h.Keeps a h'' := by
  intro id s part found
  have kept := keeps id s part found
  rw [same id ?_, kept]
  rintro rfl
  rcases fresh with fresh | fresh
  · simp [found] at fresh
  · simp [kept] at fresh

theorem alloc (keeps : h.Keeps a h') (s : Series) : h.Keeps a (h'.alloc s).2 :=
  keeps.change (.inr (h'.alloc_fresh s)) fun id other => by rw [get?_alloc, if_neg other.symm]

end Keeps

end Heap

theorem Cell.Within.of_action {kept : SeriesId → Prop} {c : Cell} {a : Action}
    (within : c.Within kept) (calls : c.asAction? = some a) :
    kept a.paramlist ∧ kept a.details := by
  have payload : c.payload = .action a := by
    unfold Cell.asAction? at calls
    split at calls
    · rename_i action payload
      split at calls
      · rw [payload, Option.some.inj calls]
      · cases calls
    · cases calls
  have node (id : SeriesId) (member : id ∈ c.payload.nodes) : kept id :=
    within id (List.mem_append_left _ member)
  exact ⟨node _ (by simp [payload, Payload.nodes]), node _ (by simp [payload, Payload.nodes])⟩

/-- What keeps an action in use keeps all of its parts. -/
theorem Heap.Parts.rooted {m : Machine} {a : Action} {id : SeriesId} (part : m.heap.Parts a id)
    (paramlist : m.Rooted a.paramlist) (details : m.Rooted a.details) : m.Rooted id := by
  induction part with
  | paramlist => exact paramlist
  | details => exact details
  | keylist found link => exact paramlist.next found (by simp [Series.references, link])
  | exemplar found link => exact details.next found (by simp [Series.references, link])
  | @inner a b s held c id found content first runs _ ih =>
      have member : c ∈ held.toList := by
        rw [← Array.getElem?_toList] at first
        exact List.mem_of_getElem? first
      have within : c.Within m.Rooted := fun id reference => details.next found <|
        List.mem_append_right _ <| by
          rw [content]
          exact List.mem_flatMap.mpr ⟨c, member, reference⟩
      obtain ⟨paramlist, details⟩ := within.of_action runs
      exact ih paramlist details

/-- A collection leaves an action in use as it was. -/
theorem Heap.Keeps.recycle {h : Heap} {m : Machine} {a : Action} (keeps : h.Keeps a m.heap)
    (unmarked : m.heap.Unmarked) (paramlist : m.Rooted a.paramlist) (details : m.Rooted a.details) :
    h.Keeps a m.recycle.heap := by
  intro id s part found
  have rooted := (keeps.parts part).rooted paramlist details
  rw [(Machine.agree_recycle unmarked).get? id rooted]
  exact keeps id s part found

/-! ## How calls are laid out -/

/-- How the calls of an action are laid out: where its parameters are, and what of them a
specialization has fixed, namely the arguments that are checked. -/
structure Layout where
  base : SeriesId
  params : List Typeset
  exemplar : Option SeriesId := none
  fixed : List Cell := []

/-- Calls of an action are laid out in some way. -/
structure Heap.Lays (h : Heap) (a : Action) (layout : Layout) : Prop where
  own : ∃ s, h.get? a.paramlist = some s ∧
    (s.link = .none ∧ layout.base = a.paramlist ∨ s.link = .keylist layout.base)
  base : ∃ s first, h.get? layout.base = some s ∧
    s.content = .array (first :: layout.params.map Cell.typeset).toArray
  details : ∃ s, h.get? a.details = some s ∧ s.link = layout.exemplar.elim .none .exemplar
  fixed : ∀ ex, layout.exemplar = some ex → ∃ s first, h.get? ex = some s ∧
    s.content = .array (first :: layout.fixed).toArray

namespace Heap.Lays

variable {h h' : Heap} {m : Machine} {a : Action} {layout : Layout}

theorem part_base (lays : h.Lays a layout) : h.Parts a layout.base := by
  obtain ⟨s, found, ⟨-, same⟩ | link⟩ := lays.own
  · exact same ▸ .paramlist
  · exact .keylist found link

theorem part_exemplar (lays : h.Lays a layout) {ex : SeriesId} (fixes : layout.exemplar = some ex) :
    h.Parts a ex := by
  obtain ⟨s, found, link⟩ := lays.details
  exact .exemplar found (by rw [link, fixes]; rfl)

theorem keep (lays : h.Lays a layout) (keeps : h.Keeps a h') : h'.Lays a layout where
  own := by
    obtain ⟨s, found, link⟩ := lays.own
    exact ⟨s, keeps _ _ .paramlist found, link⟩
  base := by
    obtain ⟨s, first, found, content⟩ := lays.base
    exact ⟨s, first, keeps _ _ lays.part_base found, content⟩
  details := by
    obtain ⟨s, found, link⟩ := lays.details
    exact ⟨s, keeps _ _ .details found, link⟩
  fixed ex fixes := by
    obtain ⟨s, first, found, content⟩ := lays.fixed ex fixes
    exact ⟨s, first, keeps _ _ (lays.part_exemplar fixes) found, content⟩

theorem underlying (lays : m.heap.Lays a layout) :
    Query.underlyingParamlist a m = .ok layout.base := by
  obtain ⟨s, found, ⟨link, same⟩ | link⟩ := lays.own
  · rw [Query.underlyingParamlist, Query.bind_ok (Query.series_eq_ok.mpr found), link, same]
    rfl
  · rw [Query.underlyingParamlist, Query.bind_ok (Query.series_eq_ok.mpr found), link]
    rfl

theorem cells_run (lays : m.heap.Lays a layout) :
    ∃ first, Query.cells layout.base m =
      .ok (first :: layout.params.map Cell.typeset).toArray := by
  obtain ⟨s, first, found, content⟩ := lays.base
  exact ⟨first, Query.cells_eq_ok.mpr ⟨s, found, content⟩⟩

theorem count (lays : m.heap.Lays a layout) :
    Query.size layout.base m = .ok (layout.params.length + 1) := by
  obtain ⟨s, first, found, content⟩ := lays.base
  rw [Query.size, Query.bind_ok (Query.series_eq_ok.mpr found), content]
  simp [Content.size]

theorem param_run (lays : m.heap.Lays a layout) {i : Nat} {p : Typeset}
    (there : layout.params[i]? = some p) : Query.param layout.base (i + 1) m = .ok p := by
  obtain ⟨first, listed⟩ := lays.cells_run
  have cell : Query.cell layout.base (i + 1) m = .ok (Cell.typeset p) := by
    refine Query.cell_eq_ok.mpr ⟨_, listed, ?_⟩
    rw [List.getElem?_toArray, List.getElem?_cons_succ, List.getElem?_map, there]
    rfl
  rw [Query.param, Query.bind_ok cell]
  rfl

theorem exemplar_run (lays : m.heap.Lays a layout) :
    Query.exemplar? a m = .ok layout.exemplar := by
  obtain ⟨s, found, link⟩ := lays.details
  rw [Query.exemplar?, Query.bind_ok (Query.series_eq_ok.mpr found), link]
  cases layout.exemplar <;> rfl

theorem fixed_run (lays : m.heap.Lays a layout) {ex : SeriesId}
    (fixes : layout.exemplar = some ex) :
    ∃ first, Query.cells ex m = .ok (first :: layout.fixed).toArray := by
  obtain ⟨s, first, found, content⟩ := lays.fixed ex fixes
  exact ⟨first, Query.cells_eq_ok.mpr ⟨s, found, content⟩⟩

end Heap.Lays

end Homoicon
