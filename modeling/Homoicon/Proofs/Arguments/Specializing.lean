import Homoicon.Proofs.Arguments.Applying
import Homoicon.Proofs.Arguments.Fulfilling

/-!
# A specialization forgets the order of its refinements

An action that is specialized by the names of some refinements only notes for each refinement that
it is in use.  In which order they were named is lost: their arguments are taken in the order of
the parameters, as by a call that names them in that order.
-/

namespace Homoicon

open Interp (Gives)

namespace Query

/-- The slot of the refinement with a name. -/
def refinementSlot (base : SeriesId) (symbol : SymbolId) : Query Nat := do
  match ← findParam? base symbol with
  | some i =>
    if (← param base i).paramClass = .refinement then pure i
    else fail (.badRefine (← spelling symbol))
  | none => fail (.badRefine (← spelling symbol))

theorem alike_cells {m m' : Machine} {base : SeriesId}
    (same : m'.heap.get? base = m.heap.get? base) : Alike m m' (cells base) fun _ => True := by
  have live : Alike m m' (series base) fun _ => True :=
    ⟨by rw [series, series, same], fun _ _ => trivial⟩
  refine live.bind fun s _ => ?_
  split
  · exact .pure trivial
  · exact .throw

theorem alike_findParam? {m m' : Machine} {base : SeriesId} (symbols : m'.symbols = m.symbols)
    (same : m'.heap.get? base = m.heap.get? base) (symbol : SymbolId) :
    Alike m m' (findParam? base symbol) fun _ => True :=
  (alike_cells same).bind fun params _ =>
    ⟨by simp only [bind_run, read_run, symbols, pure_run], fun _ _ => trivial⟩

/-- The slot depends on the parameters alone. -/
theorem alike_refinementSlot {m m' : Machine} {base : SeriesId}
    (symbols : m'.symbols = m.symbols) (same : m'.heap.get? base = m.heap.get? base)
    (symbol : SymbolId) : Alike m m' (refinementSlot base symbol) fun _ => True := by
  have written : Alike m m' (spelling symbol) fun _ => True :=
    ⟨by simp only [spelling, symbols], fun _ _ => trivial⟩
  have refused : Alike m m' (do fail (.badRefine (← spelling symbol)) : Query Nat) fun _ => True :=
    written.bind fun _ _ => .throw
  refine (alike_findParam? symbols same symbol).bind fun found _ => ?_
  cases found with
  | none => exact refused
  | some i =>
      have param : Alike m m' (param base i) fun _ => True :=
        ((alike_cells same).bind fun _ _ => .expect fun _ _ => trivial).bind fun _ _ =>
          .expect fun _ _ => trivial
      refine param.bind fun p _ => ?_
      split
      · exact .pure trivial
      · exact refused

end Query

namespace Machine

variable {m : Machine} {id : SeriesId} {c : Cell}

/-- The same cell is stored at two places in either order. -/
theorem stored_stored (i j : Nat) :
    (m.stored id i c).stored id j c = (m.stored id j c).stored id i c := by
  have swapped (s : Series) :
      (s.storing i c).storing j c = (s.storing j c).storing i c := by
    obtain ⟨flags, content, link, role⟩ := s
    cases content with
    | array held =>
        refine congrArg (fun cells => Series.mk flags (.array cells) link role) ?_
        refine Array.ext_getElem? fun place => ?_
        simp only [Array.getElem?_modify]
        split <;> split <;> simp
    | _ => rfl
  have slots : (m.heap.slots.modify id.slot (Option.map (·.storing i c))).modify id.slot
        (Option.map (·.storing j c)) =
      (m.heap.slots.modify id.slot (Option.map (·.storing j c))).modify id.slot
        (Option.map (·.storing i c)) := by
    refine Array.ext_getElem? fun place => ?_
    simp only [Array.getElem?_modify]
    split
    · simp [Function.comp_def, swapped]
    · rfl
  simp only [stored, onHeap, Heap.modify, slots]

end Machine

namespace Interp

variable {m m' : Machine} {ex base : SeriesId}

/-- A refinement is noted to be in use. -/
def useRefinement (ex base : SeriesId) (symbol : SymbolId) : Interp Unit := do
  let i ← Query.refinementSlot base symbol
  storeCell ex i usedRefinement

theorem specializeRefinements_eq (action : Action) (binding : Binding)
    (refinements : List SymbolId) :
    specializeRefinements action binding refinements = (do
      let ex ← makeExemplar action binding
      let base ← Query.underlyingParamlist action
      refinements.forM (useRefinement ex base)
      makeSpecialization action binding ex) := by
  refine bind_congr fun ex => bind_congr fun base => ?_
  refine congrArg (fun use => refinements.forM use >>= fun _ => _) (funext fun symbol => ?_)
  have refused : (do fail (.badRefine (← Query.spelling symbol)) : Interp Unit) =
      (liftM (do fail (.badRefine (← Query.spelling symbol)) : Query Nat) : Interp Nat) >>=
        fun i => storeCell ex i usedRefinement := by
    rw [lift_bind, bind_assoc]
    exact bind_congr fun _ => rfl
  rw [useRefinement, Query.refinementSlot, lift_bind, bind_assoc]
  refine bind_congr fun found => ?_
  cases found with
  | none => exact refused
  | some i =>
      dsimp only
      rw [lift_bind, bind_assoc]
      refine bind_congr fun p => ?_
      split
      · rfl
      · exact refused

variable {symbol : SymbolId}

theorem useRefinement_eq_ok :
    useRefinement ex base symbol m = .ok () m' ↔ ∃ i held,
      Query.refinementSlot base symbol m = .ok i ∧ Query.cells ex m = .ok held ∧ i < held.size ∧
        m' = m.stored ex i usedRefinement := by
  rw [useRefinement, lift_bind_eq_ok]
  refine exists_congr fun i => ?_
  rw [storeCell_eq_ok]
  exact exists_and_left.symm

/-- Two refinements are noted in either order. -/
theorem useRefinement_comm (apart : ex ≠ base) {other : SymbolId} {m₁ : Machine}
    (first : useRefinement ex base symbol m = .ok () m₁)
    (second : useRefinement ex base other m₁ = .ok () m') :
    ∃ m₂, useRefinement ex base other m = .ok () m₂ ∧
      useRefinement ex base symbol m₂ = .ok () m' := by
  obtain ⟨i, held, placed, found, inside, rfl⟩ := useRefinement_eq_ok.mp first
  obtain ⟨j, held', placed', found', inside', rfl⟩ := useRefinement_eq_ok.mp second
  have unseen (k : Nat) (symbol : SymbolId) :
      Query.refinementSlot base symbol (m.stored ex k usedRefinement) =
        Query.refinementSlot base symbol m := by
    have same := @Machine.get?_stored_of_ne m ex k usedRefinement base apart.symm
    exact (@Query.alike_refinementSlot m (m.stored ex k usedRefinement) base rfl same symbol).same
  have sized (k : Nat) : ∃ cells, Query.cells ex (m.stored ex k usedRefinement) = .ok cells ∧
      cells.size = held.size := by
    obtain ⟨s, live, content⟩ := Query.cells_eq_ok.mp found
    refine ⟨_, Query.cells_eq_ok.mpr ⟨_, Machine.get?_stored_self live content, rfl⟩, ?_⟩
    exact Array.size_modify ..
  obtain ⟨cells, reread, size⟩ := sized i
  obtain rfl : held' = cells := Except.ok.inj (found'.symm.trans reread)
  obtain ⟨cells, reread, size'⟩ := sized j
  refine ⟨_, useRefinement_eq_ok.mpr ⟨j, held, ?_, found, by omega, rfl⟩,
    useRefinement_eq_ok.mpr ⟨i, cells, ?_, reread, by omega, Machine.stored_stored i j⟩⟩
  · rw [← unseen i]
    exact placed'
  · rw [unseen j]
    exact placed

theorem forM_useRefinement_perm (apart : ex ≠ base) {names others : List SymbolId}
    (perm : names.Perm others) (used : names.forM (useRefinement ex base) m = .ok () m') :
    others.forM (useRefinement ex base) m = .ok () m' := by
  induction perm generalizing m with
  | nil => exact used
  | cons s _ induction =>
      obtain ⟨_, m₁, first, rest⟩ := bind_eq_ok.mp used
      exact bind_eq_ok.mpr ⟨_, m₁, first, induction rest⟩
  | swap s t names =>
      obtain ⟨_, m₁, first, rest⟩ := bind_eq_ok.mp used
      obtain ⟨_, m₂, second, rest⟩ := bind_eq_ok.mp rest
      obtain ⟨m₁', first, second⟩ := useRefinement_comm apart first second
      exact bind_eq_ok.mpr ⟨_, m₁', first, bind_eq_ok.mpr ⟨_, m₂, second, rest⟩⟩
  | trans _ _ first second => exact second (first used)

/-- A new series is none of those in use, and leaves them as they are. -/
theorem alloc_storeCell_fresh {s : Series} {c : SeriesId → Cell}
    (made : (do let id ← alloc s; storeCell id 0 (c id); pure id : Interp SeriesId) m = .ok ex m')
    {id : SeriesId} (live : m.heap.get? id ≠ none) :
    ex ≠ id ∧ m'.heap.get? id = m.heap.get? id := by
  have allocated : alloc s m =
      .ok (m.heap.alloc s).1 { m with heap := (m.heap.alloc s).2 } := rfl
  rw [bind_ok allocated] at made
  have apart : id ≠ (m.heap.alloc s).1 := fun same => live (same ▸ Heap.alloc_fresh _ _)
  have kept : (m.heap.alloc s).2.get? id = m.heap.get? id := by
    rw [Heap.get?_alloc, if_neg apart.symm]
  generalize m.heap.alloc s = allocated at made apart kept
  obtain ⟨_, m₂, stored, same⟩ := bind_eq_ok.mp made
  obtain ⟨held, -, -, rfl⟩ := storeCell_eq_ok.mp stored
  cases same
  refine ⟨apart.symm, ?_⟩
  rw [Machine.get?_stored_of_ne apart]
  exact kept

/-- The exemplar of a specialization is a new series. -/
theorem makeExemplar_fresh {action : Action} {binding : Binding}
    (made : makeExemplar action binding m = .ok ex m')
    (laid : Query.underlyingParamlist action m' = .ok base) : ex ≠ base := by
  obtain ⟨base', before, sizing⟩ := lift_bind_eq_ok.mp made
  obtain ⟨count, sized, asking⟩ := lift_bind_eq_ok.mp sizing
  obtain ⟨found, -, filling⟩ := lift_bind_eq_ok.mp asking
  have fresh {id : SeriesId} (live : m.heap.get? id ≠ none) :
      ex ≠ id ∧ m'.heap.get? id = m.heap.get? id := by
    cases found with
    | none =>
        dsimp only at filling
        rw [pure_bind] at filling
        exact alloc_storeCell_fresh (c := fun ex => Cell.frame ex action binding) filling live
    | some fixed =>
        obtain ⟨cells, -, allocating⟩ := lift_bind_eq_ok.mp filling
        exact alloc_storeCell_fresh (c := fun ex => Cell.frame ex action binding) allocating live
  obtain ⟨params, held, given⟩ := Query.bind_eq_ok.mp before
  obtain ⟨params', held', given'⟩ := Query.bind_eq_ok.mp laid
  have live := Query.series_eq_ok.mp held
  have same := (fresh (by simp [live])).2.symm.trans (Query.series_eq_ok.mp held')
  obtain rfl : params = params' := Option.some.inj (live.symm.trans same)
  obtain rfl : base' = base := by
    cases link : params.link <;> simp only [link] at given given' <;>
      exact Except.ok.inj (given.symm.trans given')
  obtain ⟨series, held, -⟩ := Query.bind_eq_ok.mp sized
  exact (fresh (by simp [Query.series_eq_ok.mp held])).1

end Interp

/-! ## Which refinements are in use -/

namespace Refinement

variable {canon : SymbolId → SymbolId} {names : List SymbolId} {passed behind : List Refinement}
  {r : Refinement}

/-- Some names in the order of the refinements that they are of. -/
def inOrder (canon : SymbolId → SymbolId) (names : List SymbolId) (refinements : List Refinement) :
    List SymbolId :=
  (refinements.filter fun r => names.any (r.isNamed canon)).map (·.symbol)

theorem inOrder_used (used : names.any (r.isNamed canon) = true) :
    inOrder canon names (r :: behind) = r.symbol :: inOrder canon names behind := by
  simp [inOrder, used]

theorem inOrder_unused (unused : names.any (r.isNamed canon) = false) :
    inOrder canon names (r :: behind) = inOrder canon names behind := by
  simp [inOrder, unused]

theorem inOrder_other (distinct : Distinct canon (passed ++ r :: behind)) :
    ∀ s ∈ inOrder canon names behind, r.isNamed canon s = false := by
  intro s member
  obtain ⟨v, listed, rfl⟩ := List.mem_map.mp member
  have apart := (List.pairwise_cons.mp (List.pairwise_append.mp distinct).2.1).1 v
    (List.mem_of_mem_filter listed)
  exact isNamed_of_ne (isNamed_iff.mpr rfl) apart

end Refinement

namespace Signature

variable {sig : Signature} {canon : SymbolId → SymbolId} {names : List SymbolId}
  {passed behind : List Refinement} {r : Refinement} {s : SymbolId}

/-- The places among the parameters of the refinements that some names are of. -/
def places (canon : SymbolId → SymbolId) (sig : Signature) (names : List SymbolId) : List Nat :=
  names.map (slotIn canon sig.plain.length sig.refinements)

theorem places_concat : sig.places canon (names ++ [s]) =
    sig.places canon names ++ [slotIn canon sig.plain.length sig.refinements s] := by
  rw [places, List.map_append, List.map_singleton]
  rfl

theorem there (split : sig.refinements = passed ++ r :: behind) :
    sig.params[sig.plain.length + (Refinement.params passed).length]? = some r.param := by
  have listed : sig.params = sig.plain ++ Refinement.params passed ++
      (r.param :: r.args ++ Refinement.params behind) := by
    rw [params, split, Refinement.params_append, ← List.append_assoc]
    rfl
  rw [listed, ← List.length_append, List.getElem?_append_right (Nat.le_refl _), Nat.sub_self]
  rfl

theorem place_named (distinct : Refinement.Distinct canon sig.refinements)
    (split : sig.refinements = passed ++ r :: behind) (named : r.isNamed canon s = true) :
    slotIn canon sig.plain.length sig.refinements s =
      sig.plain.length + (Refinement.params passed).length := by
  rw [split] at distinct ⊢
  exact slotIn_named _ _ (distinct.before named) named

/-- The place of a name is that of a refinement. -/
theorem place_of_mem (known : ∀ s ∈ names, ∃ r ∈ sig.refinements, r.isNamed canon s = true)
    (distinct : Refinement.Distinct canon sig.refinements) {i : Nat}
    (member : i ∈ sig.places canon names) :
    ∃ s ∈ names, ∃ r : Refinement, r.isNamed canon s = true ∧ sig.params[i]? = some r.param := by
  obtain ⟨s, named, rfl⟩ := List.mem_map.mp member
  obtain ⟨r, listed, same⟩ := known s named
  obtain ⟨passed, behind, split⟩ := List.append_of_mem listed
  exact ⟨s, named, r, same, place_named distinct split same ▸ there split⟩

/-- The place of a refinement is among them if it is named. -/
theorem mem_places (known : ∀ s ∈ names, ∃ r ∈ sig.refinements, r.isNamed canon s = true)
    (distinct : Refinement.Distinct canon sig.refinements)
    (split : sig.refinements = passed ++ r :: behind) :
    sig.plain.length + (Refinement.params passed).length ∈ sig.places canon names ↔
      names.any (r.isNamed canon) = true := by
  constructor
  · intro member
    obtain ⟨s, listed, v, named, found⟩ := place_of_mem known distinct member
    have same : v.param = r.param := Option.some.inj (found.symm.trans (there split))
    have symbol : v.symbol = r.symbol := by
      have named := v.named
      rw [same, r.named] at named
      exact (Option.some.inj named).symm
    refine List.any_eq_true.mpr ⟨s, listed, ?_⟩
    rw [Refinement.isNamed, ← symbol]
    exact named
  · intro used
    obtain ⟨s, listed, named⟩ := List.any_eq_true.mp used
    exact List.mem_map.mpr ⟨s, listed, place_named distinct split named⟩

/-- Names in the order of the refinements are accepted. -/
theorem accepts_inOrder (distinct : Refinement.Distinct canon sig.refinements)
    (names : List SymbolId) :
    sig.Accepts canon (Refinement.inOrder canon names sig.refinements) := by
  constructor
  · intro s member
    obtain ⟨r, listed, rfl⟩ := List.mem_map.mp member
    exact ⟨r, List.mem_of_mem_filter listed, Refinement.isNamed_iff.mpr rfl⟩
  · rw [Refinement.inOrder, List.map_map]
    exact List.pairwise_map.mpr (distinct.filter _)

end Signature

/-- Each refinement of a function is found under its name. -/
def Machine.Indexes (m : Machine) (action : Action) (sig : Signature) : Prop :=
  ∀ passed r behind, sig.refinements = passed ++ r :: behind →
    Query.findParam? action.paramlist r.symbol m =
      .ok (some (sig.plain.length + (Refinement.params passed).length + 1))

namespace Machine

variable {m m' : Machine} {action : Action} {sig : Signature} {s : SymbolId}
  {passed behind : List Refinement} {r : Refinement}

theorem Indexes.named (indexes : m.Indexes action sig)
    (split : sig.refinements = passed ++ r :: behind) (named : r.isNamed m.symbols.canon s = true) :
    Query.findParam? action.paramlist s m =
      .ok (some (sig.plain.length + (Refinement.params passed).length + 1)) := by
  rw [← indexes passed r behind split]
  simp only [Query.findParam?, Query.bind_run, Query.read_run, Query.pure_run,
    Refinement.isNamed_iff.mp named]

theorem Indexes.keep (indexes : m.Indexes action sig) (symbols : m'.symbols = m.symbols)
    (same : m'.heap.get? action.paramlist = m.heap.get? action.paramlist) :
    m'.Indexes action sig := by
  intro passed r behind split
  rw [← indexes passed r behind split]
  exact (Query.alike_findParam? symbols same r.symbol).same

theorem Indexes.distinct (indexes : m.Indexes action sig) :
    Refinement.Distinct m.symbols.canon sig.refinements := by
  suffices each : ∀ passed behind, sig.refinements = passed ++ behind →
      Refinement.Distinct m.symbols.canon behind from each [] _ rfl
  intro passed behind split
  induction behind generalizing passed with
  | nil => exact .nil
  | cons r behind ih =>
      refine .cons (fun v member same => ?_) (ih (passed ++ [r]) (by simp [split]))
      obtain ⟨between, last, rfl⟩ := List.append_of_mem member
      have here := indexes.named split (Refinement.isNamed_iff.mpr same.symm)
      rw [indexes (passed ++ r :: between) v last (by simp [split])] at here
      simp [Refinement.params] at here

end Machine

namespace Interp

variable {action special : Action} {sig : Signature} {passed behind : List Refinement}
  {r : Refinement} {names done : List SymbolId} {link : SeriesId} {first : Cell} {slots : List Cell}

/-- The slot of a refinement is the one under its name. -/
theorem refinementSlot_run
    (lays : m.heap.Lays action { base := action.paramlist, params := sig.params })
    (indexes : m.Indexes action sig) (split : sig.refinements = passed ++ r :: behind)
    (named : r.isNamed m.symbols.canon symbol = true) :
    Query.refinementSlot action.paramlist symbol m =
      .ok (sig.plain.length + (Refinement.params passed).length + 1) := by
  have param : Query.param action.paramlist
      (sig.plain.length + (Refinement.params passed).length + 1) m = .ok r.param :=
    lays.param_run (Signature.there split)
  rw [Query.refinementSlot, Query.bind_ok (indexes.named split named)]
  refine (Query.bind_ok param _).trans ?_
  rw [if_pos r.isRefinement]
  rfl

/-- A refinement in use is fixed in the exemplar. -/
theorem useRefinement_becomes
    (lays : m.heap.Lays action { base := action.paramlist, params := sig.params })
    (indexes : m.Indexes action sig) (split : sig.refinements = passed ++ r :: behind)
    (named : r.isNamed m.symbols.canon symbol = true)
    (live : m.heap.get? ex = some (exemplarSeries link first slots))
    (width : slots.length = sig.params.length) :
    Gives (useRefinement ex action.paramlist symbol) m ()
      (m.Becomes ex (exemplarSeries link first
        (slots.set (slotIn m.symbols.canon sig.plain.length sig.refinements symbol)
          usedRefinement))) := by
  have place := Signature.place_named indexes.distinct split named
  have inside := (List.getElem?_eq_some_iff.mp (Signature.there split)).1
  have found := refinementSlot_run lays indexes split named
  rw [place, ← exemplarSeries_storing]
  refine .asked found (storeCell_becomes live exemplarSeries_content ?_ usedRefinement)
  simpa [width] using inside

theorem held_set {places : List Nat} (place : Nat)
    (fixes : ∀ (i : Nat) (c : Cell), slots[i]? = some c →
      c.Held (fun _ => usedRefinement) places i) (i : Nat) (c : Cell)
    (found : (slots.set place usedRefinement)[i]? = some c) :
    c.Held (fun _ => usedRefinement) (places ++ [place]) i := by
  unfold Cell.Held at fixes ⊢
  by_cases here : place = i
  · subst here
    obtain ⟨-, rfl⟩ : place < slots.length ∧ usedRefinement = c := by
      simpa [List.getElem?_set, List.getElem?_eq_some_iff] using found
    rw [if_pos (by simp)]
    exact ⟨rfl, .refl _⟩
  · rw [List.getElem?_set_ne here] at found
    simpa [Ne.symm here] using fixes i c found

/-- The exemplar has the refinements in use fixed. -/
theorem forM_useRefinement_becomes {h : Heap}
    (lays : h.Lays action { base := action.paramlist, params := sig.params })
    (kept : h.Keeps action m.heap) (fresh : h.get? ex = none) (indexes : m.Indexes action sig)
    (known : ∀ s ∈ names, ∃ r ∈ sig.refinements, r.isNamed m.symbols.canon s = true)
    (live : m.heap.get? ex = some (exemplarSeries link first slots))
    (width : slots.length = sig.params.length)
    (fixes : ∀ (i : Nat) (c : Cell), slots[i]? = some c →
      c.Held (fun _ => usedRefinement) (sig.places m.symbols.canon done) i) :
    ∃ cells, cells.length = sig.params.length ∧
      (∀ (i : Nat) (c : Cell), cells[i]? = some c →
        c.Held (fun _ => usedRefinement) (sig.places m.symbols.canon (done ++ names)) i) ∧
      Gives (names.forM (useRefinement ex action.paramlist)) m ()
        (m.Becomes ex (exemplarSeries link first cells)) := by
  induction names generalizing m slots done with
  | nil =>
      refine ⟨slots, width, ?_, m, rfl, rfl, live, fun _ _ => rfl⟩
      rwa [List.append_nil]
  | cons s names ih =>
      obtain ⟨⟨r, listed, named⟩, others⟩ := List.forall_mem_cons.mp known
      obtain ⟨passed, behind, split⟩ := List.append_of_mem listed
      obtain ⟨m₁, used, becomes⟩ :=
        useRefinement_becomes (lays.keep kept) indexes split named live width
      have symbols : m₁.symbols = m.symbols := by rw [becomes.rest]
      have apart : action.paramlist ≠ ex := by
        obtain ⟨s, found, -⟩ := lays.own
        rintro rfl
        simp [found] at fresh
      have fixes₁ := held_set (slotIn m.symbols.canon sig.plain.length sig.refinements s) fixes
      rw [← Signature.places_concat, ← symbols] at fixes₁
      obtain ⟨cells, width', fixes', m₂, rest, becomes'⟩ := ih (becomes.keeps kept (.inl fresh))
        (indexes.keep symbols (becomes.others _ apart)) (symbols ▸ others)
        (symbols ▸ becomes.self) (by rw [List.length_set, width]) fixes₁
      rw [symbols, ← List.append_cons] at fixes'
      exact ⟨cells, width', fixes', m₂, (bind_ok used _).trans rest, becomes.trans becomes'⟩

/-- An action with some refinements in use is what one step has made of another one. -/
theorem specializeRefinements_partialOf
    (lays : m.heap.Lays action { base := action.paramlist, params := sig.params })
    (indexes : m.Indexes action sig)
    (known : ∀ s ∈ names, ∃ r ∈ sig.refinements, r.isNamed m.symbols.canon s = true)
    (binding : Binding) :
    ∃ special, Gives (specializeRefinements action binding names) m special fun m' =>
      m'.heap.PartialOf action sig.params [] (fun _ => usedRefinement)
        (sig.places m.symbols.canon names) 1 special := by
  obtain ⟨ex, fresh, m₁, made, becomes⟩ := makeExemplar_becomes lays (by simp [Layout.slots]) binding
  have kept : m.heap.Keeps action m₁.heap := becomes.keeps (.refl _ _) (.inl fresh)
  have symbols : m₁.symbols = m.symbols := by rw [becomes.rest]
  have apart : action.paramlist ≠ ex := by
    obtain ⟨s, found, -⟩ := lays.own
    rintro rfl
    simp [found] at fresh
  have empty : ∀ (i : Nat) (c : Cell), (List.replicate sig.params.length Cell.null)[i]? = some c →
      c.Held (fun _ => usedRefinement) (sig.places m₁.symbols.canon []) i := by
    intro i c found
    rw [Cell.Held, if_neg (by simp [Signature.places])]
    exact (List.mem_replicate.mp (List.mem_of_getElem? found)).2
  obtain ⟨cells, width, fixes, m₂, used, becomes'⟩ := forM_useRefinement_becomes lays kept fresh
    (indexes.keep symbols (becomes.others _ apart)) (symbols ▸ known) becomes.self
    (List.length_replicate ..) empty
  have kept₂ := becomes'.keeps kept (.inl fresh)
  obtain ⟨special, m₃, making, specialized⟩ := makeSpecialization_run (lays.keep kept₂)
    (Query.cells_eq_ok.mpr ⟨_, becomes'.self, exemplarSeries_content⟩) binding
  refine ⟨special, m₃, ?_, ?_⟩
  · rw [specializeRefinements_eq, bind_ok made]
    refine (lift_bind_ok (lays.keep kept).underlying _).trans ((bind_ok used _).trans ?_)
    exact making
  · rw [symbols, List.nil_append] at fixes
    exact (Heap.PartialOf.self lays).special kept₂ specialized (by simpa using becomes'.self) width
      fixes

end Interp

/-! ## Calls with refinements in use -/

namespace Site

variable {site : Site} {sig : Signature} {first : Cell} {literals raw : List Cell}
  {all names taken : List SymbolId} {passed behind : List Refinement} {m : Machine}

/-- Those refinements that some names are of are in use, and nothing is fixed for the others. -/
structure Uses (site : Site) (sig : Signature) (names : List SymbolId) : Prop where
  used : ∀ passed r behind, sig.refinements = passed ++ r :: behind →
    names.any (r.isNamed site.symbols.canon) = true →
    ∃ v, site.fixedAt (sig.plain.length + (Refinement.params passed).length) = some v ∧
      v.isTruthy = true
  unused : ∀ passed r behind, sig.refinements = passed ++ r :: behind →
    names.any (r.isNamed site.symbols.canon) = false →
    site.fixedAt (sig.plain.length + (Refinement.params passed).length) = none

variable (dispatch : Dispatch) (fuel total : Nat)

/-- The only pass goes over all refinements and gives those in use their arguments. -/
theorem Uses.pass {state : RefineState} (uses : site.Uses sig names)
    (task : site.Task sig all literals) (split : sig.refinements = passed ++ behind)
    (whole : all = taken ++ Refinement.inOrder site.symbols.canon names behind)
    (size : raw.length = (Refinement.params behind).length)
    (passes : site.Passes sig first literals taken
      (Refinement.inOrder site.symbols.canon names behind) passed raw [] m) :
    ∃ state', site.Leads ⟨Engine.runSteps dispatch (fuel + 4), total⟩
      (Refinement.params behind).length (reached sig passed state) m
      { index := site.call.count, refine := state', pickups := false }
      (site.Passing sig first literals all [] sig.refinements []) := by
  induction behind generalizing passed taken raw state m with
  | nil =>
      obtain rfl : raw = [] := List.eq_nil_of_length_eq_zero size
      obtain rfl : sig.refinements = passed := by rw [split, List.append_nil]
      obtain rfl : all = taken := by rw [whole]; exact List.append_nil _
      have count : sig.plain.length + (Refinement.params sig.refinements).length + 1 =
          site.call.count := by
        change _ = site.params.length + 1
        rw [task.params, Signature.params, List.length_append]
      rw [← count]
      exact ⟨state, .refl passes⟩
  | cons r behind ih =>
      have length : (Refinement.params (r :: behind)).length =
          r.args.length + 1 + (Refinement.params behind).length := by
        simp only [Refinement.params, List.flatMap_cons, List.length_append, List.length_cons]
      rw [length] at size
      have parts : raw.take (r.args.length + 1) ++ raw.drop (r.args.length + 1) = raw :=
        List.take_append_drop ..
      rw [← parts] at passes
      have width : (raw.take (r.args.length + 1)).length = r.args.length + 1 := by
        rw [List.length_take]
        omega
      have left : (raw.drop (r.args.length + 1)).length = (Refinement.params behind).length := by
        rw [List.length_drop]
        omega
      have further : sig.refinements = passed ++ [r] ++ behind := by rw [split, List.append_cons]
      rw [length]
      cases used : names.any (r.isNamed site.symbols.canon) with
      | true =>
          rw [Refinement.inOrder_used used] at whole passes
          obtain ⟨v, fixes, truthy⟩ := uses.used passed r behind split used
          have own : Gives (Engine.fillSlot ⟨Engine.runSteps dispatch (fuel + 4), total⟩ site.call
              (reached sig passed state)) m _ _ :=
            passes.holds.fillUsed fixes truthy (task.there split) (inside_filled width)
          obtain ⟨m₁, ran, passes⟩ := Passes.take dispatch fuel total task split whole width passes
            (Refinement.isNamed_iff.mpr rfl) own
          obtain ⟨state', rest⟩ := ih further (by rw [whole, List.append_cons]) left passes
          exact ⟨state', .trans ⟨m₁, ran, rfl⟩ fun m (same : m₁ = m) => same ▸ rest⟩
      | false =>
          rw [Refinement.inOrder_unused used] at whole passes
          have own : Gives (Engine.fillSlot ⟨Engine.runSteps dispatch (fuel + 4), total⟩ site.call
              (reached sig passed state)) m _ _ :=
            passes.holds.fillRefinement (uses.unused passed r behind split used) (task.there split)
              (inside_filled width) fun m holds => holds.search_none rfl
          obtain ⟨m₁, ran, passes⟩ := Passes.skip dispatch fuel total task split width passes
            (Refinement.inOrder_other (split ▸ task.distinct)) own
          obtain ⟨state', rest⟩ := ih further whole left passes
          exact ⟨state', .trans ⟨m₁, ran, rfl⟩ fun m (same : m₁ = m) => same ▸ rest⟩

/-- All slots are filled in the order of the parameters. -/
theorem Uses.fillSlots (uses : site.Uses sig names)
    (task : site.Task sig (Refinement.inOrder site.symbols.canon names sig.refinements) literals)
    (holds : site.Holds (emptySlots first site.params) [] literals [] m) {rounds : Nat}
    (long : sig.params.length + 1 ≤ rounds) :
    site.Settles sig first literals (Refinement.inOrder site.symbols.canon names sig.refinements)
      (Engine.fillSlots ⟨Engine.runSteps dispatch (fuel + 4), total⟩ site.call rounds {}) false
      m := by
  obtain ⟨m₁, plain, passes⟩ := holds.fillPlain dispatch fuel total task
  obtain ⟨state, m₂, ran, passing⟩ := uses.pass dispatch fuel total task (List.nil_append _).symm
    (List.nil_append _).symm (List.length_replicate ..) passes
  obtain ⟨n, few, rest⟩ := Passing.finish dispatch fuel total
    (g := { index := site.call.count, refine := state }) task (List.append_nil _).symm (Nat.le_refl _)
    rfl passing
  have width : sig.params.length = sig.plain.length + (Refinement.params sig.refinements).length :=
    List.length_append
  rw [List.length_nil, Nat.zero_mul] at few
  obtain ⟨k, rfl⟩ : ∃ k, rounds =
      k + 1 + n + (Refinement.params sig.refinements).length + sig.plain.length :=
    ⟨rounds - (1 + n + sig.params.length), by omega⟩
  have whole : Engine.fillSlots ⟨Engine.runSteps dispatch (fuel + 4), total⟩ site.call
      (k + 1 + n + (Refinement.params sig.refinements).length + sig.plain.length) {} m =
        Engine.fillSlots ⟨Engine.runSteps dispatch (fuel + 4), total⟩ site.call (k + 1 + n)
          { index := site.call.count, refine := state } m₂ := (plain _).trans (ran _)
  rw [Settles, Gives, whole]
  exact rest k

/-- What is fixed in an exemplar tells which refinements are in use. -/
theorem uses_of_held {slots : List Cell} (same : site.toLayout.slots = slots)
    (width : slots.length = sig.params.length)
    (fixes : ∀ (i : Nat) (c : Cell), slots[i]? = some c →
      c.Held (fun _ => Interp.usedRefinement) (sig.places site.symbols.canon names) i)
    (known : ∀ s ∈ names, ∃ r ∈ sig.refinements, r.isNamed site.symbols.canon s = true)
    (distinct : Refinement.Distinct site.symbols.canon sig.refinements) : site.Uses sig names := by
  have slot {passed behind : List Refinement} {r : Refinement}
      (split : sig.refinements = passed ++ r :: behind) :
      ∃ c, slots[sig.plain.length + (Refinement.params passed).length]? = some c :=
    ⟨_, List.getElem?_eq_getElem (width ▸
      (List.getElem?_eq_some_iff.mp (Signature.there split)).1)⟩
  constructor
  · intro passed r behind split used
    obtain ⟨c, found⟩ := slot split
    have fixed := fixes _ c found
    rw [Cell.Held, if_pos ((Signature.mem_places known distinct split).mpr used)] at fixed
    refine ⟨c, ?_, ?_⟩
    · rw [fixedAt_eq, same, found, Option.filter_some, if_pos fixed.1]
    · simp [Cell.isTruthy, fixed.2.kind, fixed.2.quote, fixed.2.payload, Interp.usedRefinement,
        Cell.logic]
  · intro passed r behind split unused
    obtain ⟨c, found⟩ := slot split
    have free := fixes _ c found
    rw [Cell.Held, if_neg fun member => Bool.false_ne_true
      (unused.symm.trans ((Signature.mem_places known distinct split).mp member))] at free
    rw [fixedAt_eq, same, found, free]
    rfl

/-- Nothing is fixed in it but refinements. -/
theorem free_of_held {slots : List Cell} (same : site.toLayout.slots = slots)
    (fixes : ∀ (i : Nat) (c : Cell), slots[i]? = some c →
      c.Held (fun _ => Interp.usedRefinement) (sig.places site.symbols.canon names) i)
    (known : ∀ s ∈ names, ∃ r ∈ sig.refinements, r.isNamed site.symbols.canon s = true)
    (distinct : Refinement.Distinct site.symbols.canon sig.refinements) {i : Nat} {p : Typeset}
    (there : sig.params[i]? = some p) (other : p.paramClass ≠ .refinement) :
    site.fixedAt i = none := by
  rw [fixedAt_eq, same]
  cases found : slots[i]? with
  | none => rfl
  | some c =>
      have free := fixes i c found
      rw [Cell.Held, if_neg] at free
      · rw [free]
        rfl
      · intro member
        obtain ⟨-, -, r, -, here⟩ := Signature.place_of_mem known distinct member
        obtain rfl := Option.some.inj (there.symm.trans here)
        exact other r.isRefinement

end Site

/-- The call of a frame is at an action and has its arguments in the order of some names, and the
data stack is back where it was before the call. -/
structure Machine.Receives (before : Machine) (f : FrameId) (action : Action) (sig : Signature)
    (names : List SymbolId) (literals : List Cell) (m : Machine) : Prop where
  slots : ∃ varlist first, m.Performs f action varlist ∧
    Query.cells varlist m = .ok (first ::
      sig.cells before.symbols.canon (Cell.action before.specials.return_ (.specific varlist))
        names literals).toArray
  stack : m.stack = before.stack

section

variable {m m' : Machine} {f : FrameId} {action special : Action} {sig : Signature}
  {names : List SymbolId} {literals rest : List Cell} {fuel : Nat}

theorem Machine.Defines.keep (defines : m.Defines action sig)
    (keeps : m.heap.Keeps action m'.heap) : m'.Defines action sig where
  paramlist := by
    obtain ⟨s, first, found, rest⟩ := defines.paramlist
    exact ⟨s, first, keeps _ _ .paramlist found, rest⟩
  details := by
    obtain ⟨s, found, link⟩ := defines.details
    exact ⟨s, keeps _ _ .details found, link⟩

theorem Machine.Filled.receives (filled : m.Filled f action sig names literals rest m') :
    m.Receives f action sig names literals m' where
  slots := by
    obtain ⟨varlist, binding, found, cells⟩ := filled.slots
    obtain ⟨frame, -, asked, phase, -⟩ := filled.frame
    obtain ⟨frame', asked', given⟩ := Query.bind_eq_ok.mp found
    obtain rfl := Except.ok.inj (asked.symm.trans asked')
    refine ⟨varlist, _, ⟨frame, ?_, phase, ?_⟩, cells⟩
    · unfold Query.frame at asked
      cases there : m'.frames[f]? <;> simp_all
    · cases slots : frame.varlist with
      | none =>
          rw [slots] at given
          cases given
      | some id =>
          rw [slots] at given
          exact congrArg some (Except.ok.inj given)
  stack := filled.stack

/-- A specialization hands on what it receives to the action that it runs in the end. -/
theorem Machine.Receives.handOn {n : Nat} (received : m.Receives f special sig names literals m')
    (runs : m'.heap.RunsAs action n special) (fuel : Nat) :
    ∃ m'', Engine.runSteps Library.dispatch (fuel + n) f .dispatch m' =
        Engine.runSteps Library.dispatch fuel f .dispatch m'' ∧
      m.Receives f action sig names literals m'' := by
  obtain ⟨⟨varlist, first, performs, cells⟩, stack⟩ := received
  have held := Query.cells_iff.mp cells
  obtain ⟨m'', ran, rest, here⟩ := runs.run performs fuel
  refine ⟨m'', ran, ⟨varlist, first, here, ?_⟩, ?_⟩
  · rw [Query.cells_iff, rest]
    exact held
  · rw [rest]
    exact stack

/-- A call that names refinements in the order of the parameters gets its arguments. -/
theorem Machine.Calls.inOrder (dispatch : Dispatch) (defines : m.Defines action sig)
    (distinct : Refinement.Distinct m.symbols.canon sig.refinements)
    (calls : m.Calls f action (Refinement.inOrder m.symbols.canon names sig.refinements) literals rest)
    (enough : sig.demandAll m.symbols.canon
      (Refinement.inOrder m.symbols.canon names sig.refinements) ≤ literals.length)
    (long : ((Refinement.inOrder m.symbols.canon names sig.refinements).length + 1) *
      (sig.params.length + 1) + 4 ≤ fuel) :
    ∃ m', Engine.runSteps dispatch (fuel + 4) f .start m = Engine.runSteps dispatch fuel f .dispatch m' ∧
      m.Receives f action sig (Refinement.inOrder m.symbols.canon names sig.refinements) literals
        m' := by
  rcases calls.settles dispatch defines distinct (Signature.suffices_of_le enough) long with
    ⟨-, m', filled, ran⟩ | ⟨good, s, others, m', whole, -, refused, -⟩
  · exact ⟨m', ran, filled.receives⟩
  · exact absurd ((Signature.accepts_inOrder distinct names).of_isPrefix
      ⟨others, by rw [whole, ← List.append_cons]⟩) refused

/-- So does a call of an action with these refinements in use. -/
theorem Heap.PartialOf.inOrder
    (part : m.heap.PartialOf action sig.params [] (fun _ => Interp.usedRefinement)
      (sig.places m.symbols.canon names) 1 special)
    (known : ∀ s ∈ names, ∃ r ∈ sig.refinements, r.isNamed m.symbols.canon s = true)
    (distinct : Refinement.Distinct m.symbols.canon sig.refinements)
    (calls : m.Calls f special [] literals rest)
    (enough : sig.demandAll m.symbols.canon
      (Refinement.inOrder m.symbols.canon names sig.refinements) ≤ literals.length)
    (long : sig.params.length + 5 ≤ fuel) :
    ∃ m', Engine.runSteps Library.dispatch (fuel + 5) f .start m =
        Engine.runSteps Library.dispatch fuel f .dispatch m' ∧
      m.Receives f action sig (Refinement.inOrder m.symbols.canon names sig.refinements) literals
        m' := by
  obtain ⟨layout, lays, -, listed, slots, held, width, fixes⟩ := part.lays
  rw [List.append_nil] at listed
  obtain ⟨site, opens, binding, m₁, begins, ran⟩ := calls.expects.begin lays
    (fun c integer => ⟨c, Cell.IsInteger.isLiteral integer |>.means⟩) calls.integers
  have same : site.toLayout.slots = slots := by simpa [opens.layout] using held
  have params : site.params = sig.params := (congrArg Layout.params opens.layout).trans listed
  rw [← opens.symbols] at fixes known distinct enough
  have task : site.Task sig (Refinement.inOrder site.symbols.canon names sig.refinements) literals :=
    { plain := ⟨fun i p there other => Site.free_of_held same fixes known distinct (params ▸ there)
        other, fun c fits => (congrFun opens.takes c).mp fits⟩
      params, distinct, enough := Signature.suffices_of_le enough }
  have uses := Site.uses_of_held same width fixes known distinct
  obtain ⟨k, rfl⟩ : ∃ k, fuel = k + 4 := ⟨fuel - 4, by omega⟩
  have long : sig.params.length + 1 ≤ k + 5 := by omega
  have settles := begins.processAction
    (uses.fillSlots Library.dispatch (k + 1) (k + 5) task begins.holds long)
  rw [opens.frame] at settles
  rcases settles with ⟨m₂, filled, passing⟩ | ⟨good, s, others, m₂, whole, -, refused, -⟩
  · have settled : Engine.step Library.dispatch ⟨Engine.runSteps Library.dispatch (k + 5), k + 5⟩ f
        .processAction m₁ = .ok .dispatch m₂ := filled
    have kept : m.heap.Keeps special m₂.heap :=
      opens.kept.trans (opens.phase ▸ passing.holds.gathers.kept)
    obtain ⟨m₃, ended, received⟩ :=
      (passing.machine opens).receives.handOn (part.runs.keep kept) (k + 4)
    rw [← opens.symbols]
    refine ⟨m₃, ?_, received⟩
    rw [ran, Engine.runSteps_step settled (by simp)]
    exact ended
  · exact absurd ((Signature.accepts_inOrder distinct names).of_isPrefix
      ⟨others, by rw [whole, ← List.append_cons]⟩) refused

end

namespace Interp

/-- The specialized action is the same in whatever order its refinements are named. -/
theorem specializeRefinements_congr {others : List SymbolId} {binding : Binding}
    (perm : names.Perm others)
    (made : specializeRefinements action binding names m = .ok special m') :
    specializeRefinements action binding others m = .ok special m' := by
  rw [specializeRefinements_eq] at made ⊢
  obtain ⟨ex, m₁, exemplar, laying⟩ := bind_eq_ok.mp made
  obtain ⟨base, laid, noting⟩ := lift_bind_eq_ok.mp laying
  obtain ⟨_, m₂, used, rest⟩ := bind_eq_ok.mp noting
  have used := forM_useRefinement_perm (makeExemplar_fresh exemplar laid) perm used
  exact bind_eq_ok.mpr ⟨ex, m₁, exemplar, lift_bind_eq_ok.mpr ⟨base, laid,
    bind_eq_ok.mpr ⟨_, m₂, used, rest⟩⟩⟩

/-- An action that is specialized by the names of refinements is the same in whatever order they are
named.  There is one for any refinements of a function, and a call of it gives the parameters the
same values as a call of the function that names them in the order of the parameters. -/
theorem specializeRefinements_perm {m : Machine} {action : Action} {binding : Binding}
    {names : List SymbolId} :
    (∀ {special : Action} {m' : Machine} {others : List SymbolId}, names.Perm others →
      specializeRefinements action binding names m = .ok special m' →
      specializeRefinements action binding others m = .ok special m') ∧
    ∀ {sig : Signature}, m.Defines action sig → m.Indexes action sig →
      (∀ s ∈ names, ∃ r ∈ sig.refinements, r.isNamed m.symbols.canon s = true) →
      ∃ special m', specializeRefinements action binding names m = .ok special m' ∧
        ∀ {inOrder : List SymbolId},
          inOrder = Refinement.inOrder m.symbols.canon names sig.refinements →
        ∀ {n n' : Machine} {f f' : FrameId} {literals rest rest' : List Cell} {fuel : Nat},
          m'.heap.Keeps special n.heap → n.symbols = m.symbols →
          n.Calls f special [] literals rest →
          m.heap.Keeps action n'.heap → n'.symbols = m.symbols →
          n'.Calls f' action inOrder literals rest' →
          sig.demandAll m.symbols.canon inOrder ≤ literals.length →
          (inOrder.length + 1) * (sig.params.length + 1) + 4 ≤ fuel →
          ∃ k k', Engine.runSteps Library.dispatch (fuel + 5) f .start n =
              Engine.runSteps Library.dispatch fuel f .dispatch k ∧
            n.Receives f action sig inOrder literals k ∧
            Engine.runSteps Library.dispatch (fuel + 4) f' .start n' =
              Engine.runSteps Library.dispatch fuel f' .dispatch k' ∧
            n'.Receives f' action sig inOrder literals k' := by
  refine ⟨specializeRefinements_congr, fun {sig} defines indexes known => ?_⟩
  obtain ⟨special, m', made, part⟩ := specializeRefinements_partialOf defines.lays indexes known binding
  refine ⟨special, m', made, ?_⟩
  rintro _ rfl n n' f f' literals rest rest' fuel kept symbols calls kept' symbols' calls' enough long
  have distinct := indexes.distinct
  have longer : sig.params.length + 5 ≤ fuel := by
    rw [Nat.succ_mul] at long
    omega
  have part := part.keep kept
  rw [← symbols] at part known
  obtain ⟨k, ran, received⟩ := part.inOrder known (symbols ▸ distinct) calls (symbols ▸ enough) longer
  rw [← symbols'] at calls' long
  obtain ⟨k', ran', received'⟩ := calls'.inOrder Library.dispatch (defines.keep kept')
    (symbols' ▸ distinct) (symbols' ▸ enough) long
  rw [symbols] at received
  rw [symbols'] at received'
  exact ⟨k, k', ran, received, ran', received'⟩

end Interp

/-! ## A sample -/

theorem indexes_sampleCall : sampleCall.Indexes sampleAction sampleSignature := by
  intro passed r behind split
  rcases passed with _ | ⟨v, _ | ⟨w, passed⟩⟩
  · cases split
    cbv
  · cases split
    cbv
  · simp [sampleSignature] at split

/-- A machine about to evaluate `g 1 2 3`, where `g` is some action. -/
def sampleWord (h : Heap) (g : Action) : Machine :=
  { sampleCall with
    heap := (h.alloc (sampleContext g)).2
    feeds := #[{ source := .cells [.integer 1, .integer 2, .integer 3],
                 value := .boundWord .word ⟨0⟩ (.specific (h.alloc (sampleContext g)).1) 1 }] }

/-- A machine about to evaluate `f/x/y 1 2 3`. -/
def sampleSorted : Machine :=
  let path := [Cell.boundWord .word ⟨0⟩ (.specific ⟨3⟩) 1, .word .word ⟨2⟩, .word .word ⟨4⟩]
  { sampleCall with
    heap := (sampleCall.heap.alloc (Series.ofCells path.toArray).managed).2
    feeds := #[{ source := .cells [.integer 1, .integer 2, .integer 3],
                 value := .series .path ⟨4⟩ 0 }] }

theorem calls_sampleWord {h : Heap} {g : Action} (unmarked : h.Unmarked) :
    (sampleWord h g).Calls 0 g [] [.integer 1, .integer 2, .integer 3] [] where
  call := by
    have plain : (sampleContext g).has Flags.marked = false := by cbv
    have room : 0 + 1 < ({} : Config).frameLimit := Config.lt_frameLimit_iff.mpr (by decide)
    exact ⟨_, _, _, ⟨unmarked.alloc plain, rfl, rfl, room, rfl, rfl, rfl, rfl, rfl,
      ⟨rfl, .inl rfl, rfl, rfl⟩⟩, .word rfl (getVar_sampleContext rfl) rfl rfl⟩
  integers := calls_sampleCall.integers
  quiet := ⟨rfl, rfl⟩
  space := Nat.zero_le _

theorem calls_sampleSorted : sampleSorted.Calls 0 sampleAction [⟨2⟩, ⟨4⟩]
    [.integer 1, .integer 2, .integer 3] [] where
  call := by
    refine ⟨_, _, .series .path ⟨4⟩ 0, ⟨?_, rfl, rfl, Config.lt_frameLimit_iff.mpr (by decide), rfl,
      rfl, rfl, rfl, rfl, ?_⟩, ?_⟩
    · obtain ⟨_, _, _, poised, -⟩ := calls_sampleCall.call
      exact poised.unmarked.alloc rfl
    · exact ⟨rfl, .inl rfl, rfl, rfl⟩
    · exact .path rfl rfl rfl rfl rfl rfl rfl (.cons ⟨rfl, rfl⟩ (.cons ⟨rfl, rfl⟩ .nil))
  integers := calls_sampleCall.integers
  quiet := ⟨rfl, rfl⟩
  space := by decide

theorem Interp.specializeRefinements_perm_sample : ∃ special m' k k',
    specializeRefinements sampleAction .unbound [⟨4⟩, ⟨2⟩] sampleCall = .ok special m' ∧
      specializeRefinements sampleAction .unbound [⟨2⟩, ⟨4⟩] sampleCall = .ok special m' ∧
      Engine.runSteps Library.dispatch 27 0 .start (sampleWord m'.heap special) =
        Engine.runSteps Library.dispatch 22 0 .dispatch k ∧
      (sampleWord m'.heap special).Receives 0 sampleAction sampleSignature [⟨2⟩, ⟨4⟩]
        [.integer 1, .integer 2, .integer 3] k ∧
      Engine.runSteps Library.dispatch 26 0 .start sampleSorted =
        Engine.runSteps Library.dispatch 22 0 .dispatch k' ∧
      sampleSorted.Receives 0 sampleAction sampleSignature [⟨2⟩, ⟨4⟩]
        [.integer 1, .integer 2, .integer 3] k' := by
  have unmarked : ((specializeRefinements sampleAction .unbound [⟨4⟩, ⟨2⟩]).final
      sampleCall).heap.slots.all (fun s => s.all fun s => !s.has Flags.marked) = true := by
    decide +kernel
  have known : ∀ s ∈ [⟨4⟩, ⟨2⟩], ∃ r ∈ sampleSignature.refinements,
      r.isNamed sampleCall.symbols.canon s = true := by
    simp only [List.forall_mem_cons]
    refine ⟨⟨sampleRefinement 4, ?_, rfl⟩, ⟨sampleRefinement 2, ?_, rfl⟩, by simp⟩
    all_goals simp [sampleSignature]
  obtain ⟨special, m', made, calls⟩ := specializeRefinements_perm.2 defines_sampleCall
    indexes_sampleCall known
  rw [Interp.final, made] at unmarked
  have sorted : [⟨2⟩, ⟨4⟩] = Refinement.inOrder sampleCall.symbols.canon [⟨4⟩, ⟨2⟩]
      sampleSignature.refinements := by decide
  obtain ⟨k, k', ran, received, ran', received'⟩ := @calls _ sorted (sampleWord m'.heap special)
    sampleSorted 0 0 _ [] [] 22 ((Heap.Keeps.refl _ _).alloc _) rfl
    (calls_sampleWord (Heap.unmarked_of_all unmarked)) ((Heap.Keeps.refl _ _).alloc _) rfl
    calls_sampleSorted (by decide) (by decide)
  exact ⟨special, m', k, k', made, specializeRefinements_perm.1 (.swap _ _ _) made, ran, received,
    ran', received'⟩

end Homoicon
