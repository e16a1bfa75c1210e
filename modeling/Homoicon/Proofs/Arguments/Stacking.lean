import Homoicon.Library
import Homoicon.Proofs.Arguments.Assigning
import Homoicon.Proofs.Arguments.Slots
import Homoicon.Proofs.Natives

/-!
# Specializations of specializations

Each step of a specialization fixes the arguments that it assigns, along with those that the steps
before it have fixed, and a call of what the last step gives runs the first action in the end.
-/

namespace Homoicon

open Interp (Gives)
open Assignment (assigned)

/-! ## Values -/

namespace Cell

variable {c d : Cell}

theorem SameValue.fixed (same : c.SameValue d) : c.fixed.SameValue d := by
  unfold Cell.fixed
  split
  · exact same
  · exact ⟨same.kind, same.quote, same.binding, same.payload⟩

theorem SameValue.isNull (same : c.SameValue d) : c.isNull = d.isNull := by
  rw [Cell.isNull, Cell.isNull, same.kind]

theorem checked_fixed (present : c.isNull = false) : c.fixed.checked = true := by
  unfold fixed
  cases checked : c.checked with
  | true => simpa using checked
  | false => simp [present]

theorem fixed_of_checked (checked : c.checked = true) : c.fixed = c := by
  simp [fixed, checked]

end Cell

/-- Whether a value fits some types does not depend on its marks. -/
theorem Query.typeMatches_congr {c d : Cell} {p : Typeset} (same : c.SameValue d)
    (present : c.isNull = false) : typeMatches p c = typeMatches p d := by
  have present' : d.isNull = false := same.isNull ▸ present
  simp only [typeMatches, present, present', same.kind, same.quote, Cell.typeKind, Cell.isQuoted,
    if_neg Bool.false_ne_true]
  rfl

/-! ## Which arguments are fixed -/

/-- What the slot of a parameter holds in an exemplar that fixes the arguments at some places. -/
def Cell.Held (arg : Nat → Cell) (fixed : List Nat) (i : Nat) (c : Cell) : Prop :=
  if i ∈ fixed then c.checked = true ∧ c.SameValue (arg i) else c = Cell.null

section

variable {slots back : List Cell} {pairs : List (Nat × Cell)}

theorem length_assigned : (assigned slots pairs).length = slots.length := by
  induction pairs generalizing slots with
  | nil => rfl
  | cons pair pairs ih => exact ih.trans List.length_set

theorem assigned_append (inside : ∀ pair ∈ pairs, pair.1 < slots.length) :
    assigned (slots ++ back) pairs = assigned slots pairs ++ back := by
  induction pairs generalizing slots with
  | nil => rfl
  | cons pair pairs ih =>
      have first := inside pair (List.mem_cons_self ..)
      have rest : ∀ other ∈ pairs, other.1 < (slots.set pair.1 pair.2).length :=
        fun other member => by
          rw [List.length_set]
          exact inside other (List.mem_cons_of_mem _ member)
      change assigned ((slots ++ back).set pair.1 pair.2) pairs = _
      rw [List.set_append_left _ _ first]
      exact ih rest

/-- A slot that is not assigned to is as it was. -/
theorem getElem?_assigned_of_notMem {i : Nat} (other : i ∉ pairs.map (·.1)) :
    (assigned slots pairs)[i]? = slots[i]? := by
  induction pairs generalizing slots with
  | nil => rfl
  | cons pair pairs ih =>
      obtain ⟨apart, rest⟩ := List.ne_and_not_mem_of_not_mem_cons other
      exact (ih rest).trans (List.getElem?_set_ne apart.symm)

/-- A slot that is assigned to once holds the value. -/
theorem getElem?_assigned_of_mem {i : Nat} {c : Cell} (member : (i, c) ∈ pairs)
    (once : (pairs.map (·.1)).Nodup) (inside : i < slots.length) :
    (assigned slots pairs)[i]? = some c := by
  induction pairs generalizing slots with
  | nil => cases member
  | cons pair pairs ih =>
      obtain ⟨first, rest⟩ := List.nodup_cons.mp once
      have inside' : i < (slots.set pair.1 pair.2).length := by rwa [List.length_set]
      rcases List.mem_cons.mp member with rfl | member
      · exact (getElem?_assigned_of_notMem first).trans (List.getElem?_set_self inside)
      · exact ih member rest inside'

variable {arg : Nat → Cell} {fixed : List Nat}

/-- What is assigned is fixed along with what was. -/
theorem Cell.Held.assign (held : ∀ (i : Nat) (c : Cell), slots[i]? = some c → c.Held arg fixed i)
    (values : ∀ pair ∈ pairs, pair.2.SameValue (arg pair.1))
    (present : ∀ pair ∈ pairs, pair.2.isNull = false) (once : (pairs.map (·.1)).Nodup) {i : Nat}
    {c : Cell}
    (found : ((assigned slots pairs).map Cell.fixed)[i]? = some c) :
    c.Held arg (pairs.map (·.1) ++ fixed) i := by
  rw [List.getElem?_map, Option.map_eq_some_iff] at found
  obtain ⟨d, found, rfl⟩ := found
  have inside : i < slots.length := by
    have := (List.getElem?_eq_some_iff.mp found).1
    rwa [length_assigned] at this
  unfold Held
  by_cases here : i ∈ pairs.map (·.1)
  · rw [if_pos (List.mem_append_left _ here)]
    obtain ⟨⟨_, value⟩, member, rfl⟩ := List.mem_map.mp here
    rw [getElem?_assigned_of_mem member once inside] at found
    obtain rfl := Option.some.inj found
    exact ⟨checked_fixed (present _ member), (values _ member).fixed⟩
  · rw [getElem?_assigned_of_notMem here] at found
    have before := held i d found
    unfold Held at before
    by_cases old : i ∈ fixed
    · rw [if_pos old] at before
      rw [if_pos (List.mem_append_right _ old), fixed_of_checked before.1]
      exact before
    · rw [if_neg old] at before
      rw [if_neg (fun member => (List.mem_append.mp member).elim here old), before]
      rfl

/-- What is assigned may be fixed. -/
theorem Cell.Held.mayHold {plain : List Typeset}
    (held : ∀ (i : Nat) (c : Cell), slots[i]? = some c → c.Held arg fixed i)
    (values : ∀ pair ∈ pairs, pair.2.SameValue (arg pair.1))
    (once : (pairs.map (·.1)).Nodup) (same : slots.length = plain.length)
    (accepted : ∀ (i : Nat) (p : Typeset), i ∈ pairs.map (·.1) ++ fixed → plain[i]? = some p →
      p.paramClass = .normal ∧ (arg i).isNull = false ∧ Query.typeMatches p (arg i) = true)
    (ordinary : ∀ p ∈ plain, p.paramClass ≠ .refinement) :
    List.Forall₂ Typeset.MayHold plain (Assignment.assigned slots pairs) := by
  refine List.forall₂_iff_get.mpr ⟨by rw [length_assigned, same], fun i inside inside' => ?_⟩
  have there : plain[i]? = some (plain.get ⟨i, inside⟩) := List.getElem?_eq_getElem inside
  have found : (Assignment.assigned slots pairs)[i]? =
      some ((Assignment.assigned slots pairs).get ⟨i, inside'⟩) := List.getElem?_eq_getElem inside'
  generalize plain.get ⟨i, inside⟩ = p at there
  generalize (Assignment.assigned slots pairs).get ⟨i, inside'⟩ = c at found
  have given (chosen : i ∈ pairs.map (·.1) ++ fixed) (value : c.SameValue (arg i)) :
      p.MayHold c := by
    obtain ⟨normal, present, fits⟩ := accepted i p chosen there
    have present : c.isNull = false := value.isNull.trans present
    exact .given normal present ((Query.typeMatches_congr value present).trans fits)
  by_cases here : i ∈ pairs.map (·.1)
  · obtain ⟨⟨_, value⟩, member, rfl⟩ := List.mem_map.mp here
    rw [getElem?_assigned_of_mem member once (same ▸ inside)] at found
    obtain rfl := Option.some.inj found
    exact given (List.mem_append_left _ here) (values _ member)
  · rw [getElem?_assigned_of_notMem here] at found
    have before := held i c found
    unfold Held at before
    by_cases old : i ∈ fixed
    · rw [if_pos old] at before
      exact given (List.mem_append_right _ old) before.2
    · rw [if_neg old] at before
      exact .free (ordinary p (List.mem_of_getElem? there)) before

end

/-! ## Which action runs in the end -/

/-- An action runs another one in the end: it is that action, or a specialization of one that runs
it, made so many times. -/
inductive Heap.RunsAs (h : Heap) (f : Action) : Nat → Action → Prop where
  | self : RunsAs h f 0 f
  | special {n : Nat} {a b : Action} {binding : Binding} {own code : Series} :
      h.get? a.paramlist = some own → h.get? a.details = some code →
      code.role = .dispatcher .specialization →
      code.content = .array #[Cell.action b binding] → RunsAs h f n b → RunsAs h f (n + 1) a

theorem Heap.RunsAs.keep {h h' : Heap} {f g : Action} {n : Nat} (runs : h.RunsAs f n g)
    (keeps : h.Keeps g h') : h'.RunsAs f n g := by
  induction runs with
  | self => exact .self
  | special own code role content _ ih =>
      exact .special (keeps _ _ .paramlist own) (keeps _ _ .details code) role content
        (ih (keeps.inner code content rfl rfl))

/-- What is kept of a specialization is kept of the action that it runs in the end. -/
theorem Heap.RunsAs.keeps {h h' : Heap} {f g : Action} {n : Nat} (runs : h.RunsAs f n g)
    (keeps : h.Keeps g h') : h.Keeps f h' := by
  induction runs with
  | self => exact keeps
  | special _ code _ content _ ih => exact ih (keeps.inner code content rfl rfl)

/-- The call of a frame is at an action, with some slots. -/
structure Machine.Performs (m : Machine) (fr : FrameId) (a : Action) (args : SeriesId) : Prop where
  frame : ∃ frame, m.frames[fr]? = some frame ∧ frame.phase = some a ∧ frame.varlist = some args

theorem Machine.Performs.change {m : Machine} {fr : FrameId} {a b : Action} {args : SeriesId}
    {g : Frame → Frame} (here : m.Performs fr a args)
    (kept : ∀ frame, frame.phase = some a → frame.varlist = some args →
      (g frame).phase = some b ∧ (g frame).varlist = some args) :
    Gives (Interp.modifyFrame fr g) m ()
      fun m' => m' = { m with frames := m'.frames } ∧ m'.Performs fr b args := by
  obtain ⟨frame, found, phase, varlist⟩ := here.frame
  obtain ⟨frames, done, there, -⟩ := Interp.modifyFrame_run found g
  exact ⟨_, done, rfl, _, there, kept frame phase varlist⟩

/-- A specialization puts the action that it is made from in its place. -/
theorem Engine.step_specialization {m : Machine} {fr : FrameId} {a b : Action} {args : SeriesId}
    {binding : Binding} {own code : Series} (e : Engine) (here : m.Performs fr a args)
    (listed : m.heap.get? a.paramlist = some own) (live : m.heap.get? a.details = some code)
    (role : code.role = .dispatcher .specialization)
    (content : code.content = .array #[Cell.action b binding]) :
    Gives (Engine.step Library.dispatch e fr .dispatch) m .dispatch
      fun m' => m' = { m with frames := m'.frames } ∧ m'.Performs fr b args := by
  have become {m' : Machine} {next : Bounce → Interp Step}
      (again : next (.redo false) = pure .dispatch) (rest : m' = { m with frames := m'.frames })
      (here : m'.Performs fr a args) :
      Gives (do next (← Library.dispatch e (← Query.dispatcher a) fr)) m' .dispatch
        fun m' => m' = { m with frames := m'.frames } ∧ m'.Performs fr b args := by
    have heap : m'.heap = m.heap := by rw [rest]
    obtain ⟨frame, found, phase, -⟩ := here.frame
    have asked : Query.frame fr m' = .ok frame := by rw [Query.frame, found]
    have live : m'.heap.get? a.details = some code := by rw [heap, live]
    have dispatcher : Query.dispatcher a m' = .ok .specialization := by
      rw [Query.dispatcher, Query.bind_ok (Query.series_eq_ok.mpr live), role]
      rfl
    have inner : Query.cell a.details 0 m' = .ok (Cell.action b binding) :=
      Query.cell_eq_ok.mpr ⟨_, Query.cells_eq_ok.mpr ⟨_, live, content⟩, rfl⟩
    have done : Gives (Library.dispatch e .specialization fr) m' (.redo false)
        fun m' => m' = { m with frames := m'.frames } ∧ m'.Performs fr b args := by
      change Gives (Interp.runSpecialization fr) m' _ _
      unfold Interp.runSpecialization
      refine .asked asked ?_
      rw [phase]
      refine .asked inner (.bind (here.change fun _ _ varlist => ⟨rfl, varlist⟩) ?_)
      rintro m'' ⟨same, there⟩
      exact .pure ⟨by rw [same, rest], there⟩
    refine .asked dispatcher (.bind done fun m' reached => ?_)
    rw [again]
    exact .pure reached
  obtain ⟨frame, found, phase, -⟩ := here.frame
  have asked : Query.frame fr m = .ok frame := by rw [Query.frame, found]
  have flag : Query.actionHas a Flags.invisible m = .ok (own.has Flags.invisible) :=
    Query.hasFlag_eq_ok.mpr ⟨own, listed, rfl⟩
  change Gives (Engine.dispatchAction Library.dispatch e fr) m .dispatch _
  unfold Engine.dispatchAction
  refine .asked asked ?_
  rw [phase]
  change Gives ((liftM (Query.actionHas a Flags.invisible) : Interp Bool) >>= _) m _ _
  refine .asked flag ?_
  cases own.has Flags.invisible with
  | true => exact become rfl rfl here
  | false =>
      refine .bind (here.change fun _ phase varlist => ⟨phase, varlist⟩) ?_
      rintro m₁ ⟨rest, here⟩
      exact become rfl rest here

/-- A call of a specialization gets to the action that it runs in the end. -/
theorem Heap.RunsAs.run {m : Machine} {fr : FrameId} {f g : Action} {args : SeriesId} {n : Nat}
    (runs : m.heap.RunsAs f n g) (here : m.Performs fr g args) (fuel : Nat) :
    ∃ m', Engine.runSteps Library.dispatch (fuel + n) fr .dispatch m =
      Engine.runSteps Library.dispatch fuel fr .dispatch m' ∧
      m' = { m with frames := m'.frames } ∧ m'.Performs fr f args := by
  obtain ⟨h, heap⟩ : ∃ h, m.heap = h := ⟨_, rfl⟩
  rw [heap] at runs
  induction runs generalizing m with
  | self => exact ⟨m, rfl, rfl, here⟩
  | @special n a b binding own code listed live role content _ ih =>
      subst heap
      obtain ⟨m₁, stepped, rest₁, here₁⟩ := Engine.step_specialization
        ⟨Engine.runSteps Library.dispatch (fuel + n), fuel + n⟩ here listed live role content
      obtain ⟨m', ran, rest', here'⟩ := ih here₁ (by rw [rest₁])
      refine ⟨m', (Engine.runSteps_step stepped (by simp)).trans ran, ?_, here'⟩
      rw [rest', rest₁]

/-! ## One step -/

/-- An action is what some steps have made of another one: it is laid out by the parameters of that
one, of which those before all refinements are fixed at some places, and runs it in the end. -/
structure Heap.PartialOf (h : Heap) (f : Action) (plain behind : List Typeset) (arg : Nat → Cell)
    (fixed : List Nat) (n : Nat) (g : Action) : Prop where
  lays : ∃ layout, h.Lays g layout ∧ layout.base = f.paramlist ∧ layout.params = plain ++ behind ∧
    ∃ slots, layout.slots = slots ++ List.replicate behind.length Cell.null ∧
      slots.length = plain.length ∧ ∀ (i : Nat) (c : Cell), slots[i]? = some c → c.Held arg fixed i
  runs : h.RunsAs f n g

theorem Heap.PartialOf.keep {h h' : Heap} {f g : Action} {plain behind : List Typeset}
    {arg : Nat → Cell} {fixed : List Nat} {n : Nat} (part : h.PartialOf f plain behind arg fixed n g)
    (keeps : h.Keeps g h') : h'.PartialOf f plain behind arg fixed n g where
  lays := by
    obtain ⟨layout, lays, rest⟩ := part.lays
    exact ⟨layout, lays.keep keeps, rest⟩
  runs := part.runs.keep keeps

/-- SPECIALIZE runs in the innermost frame, for an action and a block in which literals are assigned
to the names of its parameters. -/
structure Machine.Specializes (m : Machine) (fr : FrameId) (g : Action) (base : SeriesId)
    (pairs : List (Nat × Cell)) : Prop where
  unmarked : m.heap.Unmarked
  running : m.signals.halt = false
  top : m.frames.size = fr + 1
  room : fr + 2 < m.config.frameLimit
  call : ∃ frame args held c block, m.frames[fr]? = some frame ∧ frame.varlist = some args ∧
    Query.cells args m = .ok held ∧ held[1]? = some c ∧ c.asAction? = some g ∧
    held[2]? = some block ∧ ∃ slot?,
      (∀ symbol, Query.findParam? base symbol m = .ok (slot? symbol)) ∧
        m.AssignsIn slot? block pairs

/-- What is allocated does not change the blocks there are. -/
theorem Machine.AssignsIn.grow {m m' : Machine} {slot? : SymbolId → Option Nat} {block : Cell}
    {pairs : List (Nat × Cell)} (assigns : m.AssignsIn slot? block pairs)
    (kept : ∀ id s, m.heap.get? id = some s → m'.heap.get? id = some s) :
    m'.AssignsIn slot? block pairs where
  items := by
    obtain ⟨source, held, array, cells, assigns⟩ := assigns.items
    obtain ⟨s, live, content⟩ := Query.cells_eq_ok.mp cells
    exact ⟨source, held, array, Query.cells_eq_ok.mpr ⟨s, kept _ _ live, content⟩, assigns⟩
  settled varlist same := by
    obtain ⟨s, live, managed⟩ := Query.hasFlag_eq_ok.mp (assigns.settled varlist same)
    exact Query.hasFlag_eq_ok.mpr ⟨s, kept _ _ live, managed⟩

theorem Machine.Becomes.kept {m m' : Machine} {id : SeriesId} {s : Series}
    (becomes : m.Becomes id s m') (fresh : m.heap.get? id = none) :
    ∀ other t, m.heap.get? other = some t → m'.heap.get? other = some t := by
  intro other t found
  have apart : other ≠ id := by
    rintro rfl
    rw [fresh] at found
    cases found
  exact (becomes.others other apart).trans found

namespace Assignment

variable {a : Assignment} {slots : List Cell} {m m' : Machine} {id : SeriesId} {s : Series}

theorem Fills.grow (fills : a.Fills slots m) (becomes : m.Becomes id s m')
    (fresh : m.heap.get? id = none) : a.Fills slots m' := by
  have kept := becomes.kept fresh
  have keeps := becomes.keeps fills.kept (.inr fresh)
  obtain ⟨held, c, cells, here, calls⟩ := fills.args
  obtain ⟨t, live, content⟩ := Query.cells_eq_ok.mp (Query.cells_iff.mpr cells)
  have args : m'.heap.cells? a.args = some held :=
    Query.cells_iff.mp (Query.cells_eq_ok.mpr ⟨t, kept _ _ live, content⟩)
  have exemplar := kept _ _ fills.exemplar
  rw [becomes.rest]
  exact { fills with kept := keeps, exemplar, args := ⟨held, c, args, here, calls⟩ }

/-- The exemplar gets the values that a block assigns. -/
theorem Fills.assignArgs (dispatch : Dispatch) (fuel rounds : Nat) {names : Array Cell}
    {block : Cell} {pairs : List (Nat × Cell)} (fills : a.Fills slots m)
    (unmarked : m.heap.Unmarked) (running : m.signals.halt = false)
    (top : m.frames.size = a.caller + 1) (room : a.caller + 2 < m.config.frameLimit)
    (feed : a.feed = m.feeds.size) (listed : Query.cells a.base m = .ok names)
    (assigns : m.AssignsIn (fun symbol => m.symbols.findName? names (m.symbols.canon symbol)) block
      pairs)
    (empty : ∀ pair ∈ pairs, slots[pair.1]? = some Cell.null) (once : (pairs.map (·.1)).Nodup) :
    Gives (Library.assignArgs
      ⟨Engine.runSteps dispatch (fuel + 4 * pairs.length + 4), rounds⟩ a.exemplar a.action a.binding
        block) m true
      fun m' => a.Fills (assigned slots pairs) m' ∧ m'.frames.size = a.caller + 1 := by
  have linked : Query.keylist a.exemplar m = .ok a.base :=
    Law.keylist_eq_ok.mpr ⟨_, fills.exemplar, rfl⟩
  obtain ⟨copy, bound, fresh, refers, m₁, copied, becomes⟩ :=
    Interp.copyBoundTo_assigns linked listed assigns
  have apart : copy ≠ a.exemplar := by
    rintro rfl
    rw [fills.exemplar] at fresh
    cases fresh
  have fills₁ := fills.grow becomes fresh
  have unmarked₁ := becomes.unmarked unmarked blockSeries_unmarked
  have live := becomes.self
  rw [becomes.rest] at copied fills₁ unmarked₁ live
  obtain ⟨value, ran⟩ := fills₁.doGuarded dispatch fuel rounds unmarked₁ running top room feed live
    apart refers empty once
  unfold Library.assignArgs
  exact .bind ⟨_, copied, rfl⟩ fun _ same => by
    subst same
    exact .bind ran fun m' reached => .pure reached

end Assignment

variable {m : Machine} {fr : FrameId} {f g : Action} {plain behind : List Typeset}
  {arg : Nat → Cell} {fixed : List Nat} {n : Nat} {pairs : List (Nat × Cell)}

/-- What a name stands for among the parameters does not depend on how it is asked for. -/
theorem Query.findParam_unique {base : SeriesId} {names : Array Cell}
    {slot? : SymbolId → Option Nat} (parameters : Query.cells base m = .ok names)
    (found : ∀ symbol, Query.findParam? base symbol m = .ok (slot? symbol)) :
    slot? = fun symbol => m.symbols.findName? names (m.symbols.canon symbol) := by
  funext symbol
  have here := found symbol
  rw [Query.findParam?, Query.bind_ok parameters, Query.bind_ok (Query.read_run m)] at here
  exact (Except.ok.inj here).symm

/-- A slot that is to be assigned is free. -/
theorem Cell.Held.free {slots : List Cell}
    (fixes : ∀ (i : Nat) (c : Cell), slots[i]? = some c → c.Held arg fixed i)
    (once : (pairs.map (·.1) ++ fixed).Nodup) {pair : Nat × Cell} (member : pair ∈ pairs)
    (inside : pair.1 < slots.length) : slots[pair.1]? = some Cell.null := by
  have named : pair.1 ∈ pairs.map (·.1) := List.mem_map_of_mem member
  have there := List.getElem?_eq_getElem inside
  have empty := fixes _ _ there
  rw [Cell.Held, if_neg fun old => (List.nodup_append.mp once).2.2 _ named _ old rfl] at empty
  rw [there, empty]

/-- What was assigned in the exemplar is fixed. -/
theorem Assignment.Fills.fixSlots {a : Assignment} {slots : List Cell} {last : Cell}
    (fills : a.Fills (assigned (slots ++ List.replicate behind.length Cell.null) pairs) m)
    (parameters : Query.cells a.base m = .ok (last :: (plain ++ behind).map Cell.typeset).toArray)
    (other : a.base ≠ a.exemplar) (width : slots.length = plain.length)
    (inside : ∀ pair ∈ pairs, pair.1 < slots.length)
    (fixes : ∀ (i : Nat) (c : Cell), slots[i]? = some c → c.Held arg fixed i)
    (values : ∀ pair ∈ pairs, pair.2.SameValue (arg pair.1)) (once : (pairs.map (·.1)).Nodup)
    (chosen : ∀ i ∈ pairs.map (·.1) ++ fixed, (arg i).IsLiteral ∧
      ∃ p, plain[i]? = some p ∧ p.Accepts (arg i))
    (ordinary : ∀ p ∈ plain, p.paramClass ≠ .refinement) :
    Gives (Library.fixSlots a.exemplar a.base (List.range' 1 (plain ++ behind).length) none) m ()
      (m.Becomes a.exemplar (exemplarSeries a.base a.cell ((assigned slots pairs).map Cell.fixed ++
        List.replicate behind.length Cell.null))) := by
  have live := fills.exemplar
  rw [assigned_append inside] at live
  rw [List.length_append]
  refine @Library.fixSlots_becomes m a.exemplar a.base plain behind a.base a.cell last [] []
    _ live parameters other rfl ?_
  refine Cell.Held.mayHold fixes values once width ?_ ordinary
  intro i p member there
  obtain ⟨literal, _, there', accepts⟩ := chosen i member
  obtain rfl := Option.some.inj (there.symm.trans there')
  exact ⟨accepts.normal, literal.isNull, literal.copied ▸ accepts.fits⟩

/-- An action that is made for an exemplar is a step further. -/
theorem Heap.PartialOf.special {h : Heap} {m' : Machine} {g' : Action} {binding : Binding}
    {ex link : SeriesId} {first : Cell} {cells : List Cell} {fixed' : List Nat}
    (part : h.PartialOf f plain behind arg fixed n g) (keeps : h.Keeps g m.heap)
    (specialized : m.Specialized g binding f.paramlist ex g' m')
    (exemplar : m.heap.get? ex =
      some (exemplarSeries link first (cells ++ List.replicate behind.length Cell.null)))
    (width : cells.length = plain.length)
    (fixes : ∀ (i : Nat) (c : Cell), cells[i]? = some c → c.Held arg fixed' i) :
    m'.heap.PartialOf f plain behind arg fixed' (n + 1) g' := by
  obtain ⟨layout, lays, base, params, -⟩ := part.lays
  have kept : h.Keeps g m'.heap := fun id s part found => by
    rw [specialized.others id (by rw [keeps id s part found]; simp)]
    exact keeps id s part found
  have grown {id : SeriesId} {s : Series} (live : m.heap.get? id = some s) :
      m'.heap.get? id = some s := (specialized.others id (by simp [live])).trans live
  obtain ⟨own, paramlist, link⟩ := specialized.paramlist
  obtain ⟨code, details, shared, role, run⟩ := specialized.details
  obtain ⟨s, last, live, parameters⟩ := (lays.keep keeps).base
  refine ⟨⟨{ layout with exemplar := some ex, fixed := _ }, ?_, base, params, cells, rfl, width,
    fixes⟩, .special paramlist details role run (part.runs.keep kept)⟩
  exact
    { own := ⟨own, paramlist, .inr (base ▸ link)⟩
      base := ⟨s, last, grown live, parameters⟩
      details := ⟨code, details, shared⟩
      fixed := fun _ same => ⟨_, _, Option.some.inj same ▸ grown exemplar, rfl⟩ }

/-- SPECIALIZE gives an action with what is assigned fixed too. -/
theorem Heap.PartialOf.specialize (dispatch : Dispatch) (fuel rounds : Nat)
    (part : m.heap.PartialOf f plain behind arg fixed n g)
    (specializes : m.Specializes fr g f.paramlist pairs)
    (values : ∀ pair ∈ pairs, pair.2.SameValue (arg pair.1))
    (once : (pairs.map (·.1) ++ fixed).Nodup)
    (chosen : ∀ i ∈ pairs.map (·.1) ++ fixed, (arg i).IsLiteral ∧
      ∃ p, plain[i]? = some p ∧ p.Accepts (arg i))
    (ordinary : ∀ p ∈ plain, p.paramClass ≠ .refinement) :
    ∃ g', Gives (Library.specialize_
      ⟨Engine.runSteps dispatch (fuel + 4 * pairs.length + 4), rounds⟩ fr) m .out
      fun m' => (∃ frame, m'.frames[fr]? = some frame ∧ frame.out = Cell.action g' .unbound) ∧
        m'.heap.PartialOf f plain behind arg (pairs.map (·.1) ++ fixed) (n + 1) g' := by
  obtain ⟨layout, lays, base, params, slots, held, width, fixes⟩ := part.lays
  obtain ⟨frame, args, cells, c, block, found, varlist, listed, callee, calls, given, slot?, names,
    assigns⟩ := specializes.call
  obtain ⟨s, live, content⟩ := Query.cells_eq_ok.mp listed
  have full : layout.slots.length = layout.params.length := by
    rw [held, params, List.length_append, List.length_append, width, List.length_replicate]
  have inside : ∀ pair ∈ pairs, pair.1 < slots.length := fun pair member => by
    obtain ⟨-, p, there, -⟩ := chosen _ (List.mem_append_left _ (List.mem_map_of_mem member))
    exact width ▸ (List.getElem?_eq_some_iff.mp there).1
  -- the exemplar begins with what is fixed already
  obtain ⟨ex, fresh, m₁, made, becomes⟩ := Interp.makeExemplar_becomes lays full c.binding
  have kept := becomes.kept fresh
  have rest := becomes.rest
  have apart : args ≠ ex := by
    rintro rfl
    rw [live] at fresh
    cases fresh
  let a : Assignment :=
    { caller := fr, feed := m.feeds.size, action := g, binding := c.binding, args
      base := layout.base, exemplar := ex, heap := m.heap, symbols := m.symbols
      specials := m.specials, stack := m.stack, fresh, apart }
  have listed₁ : Query.cells args m₁ = .ok cells :=
    Query.cells_eq_ok.mpr ⟨s, kept _ _ live, content⟩
  have keeps₁ : m.heap.Keeps g m₁.heap := becomes.keeps (.refl _ _) (.inl fresh)
  have fills : a.Fills layout.slots m₁ :=
    { symbols := by rw [rest]
      specials := by rw [rest]
      stack := by rw [rest]
      caller := ⟨frame, by rw [rest]; exact found, varlist⟩
      args := ⟨cells, c, Query.cells_iff.mp listed₁, callee, calls⟩
      kept := keeps₁
      exemplar := becomes.self }
  have present : ∀ pair ∈ pairs, pair.2.isNull = false := fun pair member => by
    have named : pair.1 ∈ pairs.map (·.1) := List.mem_map_of_mem member
    rw [(values pair member).isNull]
    exact (chosen _ (List.mem_append_left _ named)).1.isNull
  -- the block is run
  obtain ⟨m₂, ran, fills₂, -⟩ : Gives (Library.assignArgs
      ⟨Engine.runSteps dispatch (fuel + 4 * pairs.length + 4), rounds⟩ ex g c.binding block) m₁ true
      fun m' => a.Fills (assigned layout.slots pairs) m' ∧ m'.frames.size = fr + 1 := by
    obtain ⟨first, parameters⟩ := lays.cells_run
    obtain ⟨t, live, content⟩ := Query.cells_eq_ok.mp parameters
    have known : slot? = fun symbol => m₁.symbols.findName?
        (first :: layout.params.map Cell.typeset).toArray (m₁.symbols.canon symbol) := by
      have symbols : m₁.symbols = m.symbols := by rw [rest]
      rw [symbols]
      exact Query.findParam_unique parameters (base ▸ names)
    refine fills.assignArgs dispatch fuel rounds ?_ ?_ ?_ ?_ ?_
      (Query.cells_eq_ok.mpr ⟨t, kept _ _ live, content⟩) (known ▸ assigns.grow kept) ?_
      (List.nodup_append.mp once).1
    · exact becomes.unmarked specializes.unmarked exemplarSeries_unmarked
    · rw [rest]
      exact specializes.running
    · rw [rest]
      exact specializes.top
    · rw [rest]
      exact specializes.room
    · rw [rest]
    · intro pair member
      rw [held, List.getElem?_append_left (inside pair member)]
      exact Cell.Held.free fixes once member (inside pair member)
  have lays₂ := lays.keep fills₂.kept
  -- what was assigned is fixed
  obtain ⟨m₃, fixed₃, becomes₃⟩ : Gives (Library.fixSlots ex layout.base
      (List.range' 1 layout.params.length) none) m₂ ()
      (m₂.Becomes ex (exemplarSeries layout.base a.cell ((assigned slots pairs).map Cell.fixed ++
        List.replicate behind.length Cell.null))) := by
    obtain ⟨last, parameters⟩ := lays₂.cells_run
    have other : layout.base ≠ ex := by
      rintro same
      obtain ⟨t, _, live, -⟩ := lays.base
      rw [same, fresh] at live
      cases live
    rw [params] at parameters ⊢
    rw [held] at fills₂
    exact fills₂.fixSlots parameters other width inside fixes values
      (List.nodup_append.mp once).1 chosen ordinary
  have keeps₃ : m.heap.Keeps g m₃.heap := becomes₃.keeps fills₂.kept (.inl fresh)
  have lays₃ := lays.keep keeps₃
  have fixes₃ := Query.cells_eq_ok.mpr ⟨_, becomes₃.self, exemplarSeries_content⟩
  obtain ⟨g', m₄, special, specialized⟩ := Interp.makeSpecialization_run lays₃ fixes₃ c.binding
  obtain ⟨last, found₂, -⟩ := fills₂.caller
  have found₄ : m₄.frames[fr]? = some last := by
    rw [specialized.rest, becomes₃.rest]
    exact found₂
  obtain ⟨frames, written, there, -⟩ := Interp.modifyFrame_run found₄ fun fr =>
    { fr with out := (Cell.action g' .unbound).copied }
  have count : Query.slotsOf layout.base m₂ = .ok (List.range' 1 layout.params.length) := by
    rw [Query.slotsOf, Query.bind_ok lays₂.count]
    rfl
  have first : Library.actionArg fr 1 m = .ok (g, c.binding) m := by
    rw [Library.actionArg, Interp.lift_bind_ok (Query.arg_run found varlist listed callee), calls]
    rfl
  have second : Query.arg fr 2 m₁ = .ok block :=
    Query.arg_run (by rw [rest]; exact found) varlist listed₁ given
  refine ⟨g', { m₄ with frames }, ?_, ⟨_, there, rfl⟩, ?_⟩
  · rw [Library.specialize_, Interp.bind_ok first]
    refine (Interp.bind_ok made _).trans ((Interp.lift_bind_ok second _).trans ?_)
    refine (Interp.bind_ok ran _).trans ((Interp.lift_bind_ok lays₂.underlying _).trans ?_)
    refine (Interp.lift_bind_ok count _).trans ((Interp.bind_ok fixed₃ _).trans ?_)
    exact (Interp.bind_ok special _).trans (Interp.bind_ok written _)
  · have further : m₄.heap.PartialOf f plain behind arg (pairs.map (·.1) ++ fixed) (n + 1) g' :=
      part.special keeps₃ (base ▸ specialized) becomes₃.self
        (by rw [List.length_map, length_assigned, width])
        fun i c => Cell.Held.assign fixes values present (List.nodup_append.mp once).1
    exact further

end Homoicon
