import Homoicon.Proofs.Keeping.Series

/-!
# Copies of code and the words in them

Code is copied before its words are bound.  The copy goes into the arrays that unquoted cells lead
to; the binding goes into those that quoted cells lead to as well, and these the copy has in common
with its source.  So of the arrays there were before, binding a copy changes at most those that a
quoted array in the source leads to.
-/

open Std.Do

set_option mvcgen.warning false

namespace Homoicon

/-- The array that a copy or a binding goes into at a cell. -/
def Cell.array? (c : Cell) : Option SeriesId := if c.kind.isAnyArray then c.seriesId? else none

theorem Cell.array?_eq_some {c : Cell} {id : SeriesId} :
    c.array? = some id ↔ c.kind.isAnyArray = true ∧ c.seriesId? = some id := by
  unfold array?
  split <;> simp_all

namespace Machine

/-- The cells that a deep copy goes over, from some first ones on. -/
inductive Copied (m : Machine) (start : Cell → Prop) : Cell → Prop where
  | start {c : Cell} (first : start c) : Copied m start c
  | inner {c d : Cell} {id : SeriesId} {held : Array Cell} (copied : Copied m start c)
      (plain : c.quote = 0) (leads : c.array? = some id) (found : Query.cells id m = .ok held)
      (member : d ∈ held) : Copied m start d

/-- The arrays that a deep copy has in common with its source: those that a quoted cell leads to,
and those within them. -/
inductive Shared (m : Machine) (start : Cell → Prop) : SeriesId → Prop where
  | quoted {c : Cell} {id : SeriesId} (copied : m.Copied start c) (quoted : c.quote ≠ 0)
      (leads : c.array? = some id) : Shared m start id
  | inner {c : Cell} {outer id : SeriesId} {held : Array Cell} (shared : Shared m start outer)
      (found : Query.cells outer m = .ok held) (member : c ∈ held) (leads : c.array? = some id) :
      Shared m start id

/-- Every array within the source of a copy is there. -/
structure Whole (m : Machine) (start : Cell → Prop) : Prop where
  copied : ∀ c id, m.Copied start c → c.array? = some id → ∃ held, Query.cells id m = .ok held
  shared : ∀ id, m.Shared start id → ∃ held, Query.cells id m = .ok held

theorem Whole.not_shared {m : Machine} {start : Cell → Prop} (whole : m.Whole start) {id : SeriesId}
    (dead : m.heap.get? id = none) : ¬ m.Shared start id := by
  intro shared
  obtain ⟨held, found⟩ := whole.shared id shared
  obtain ⟨s, live, -⟩ := Query.cells_eq_ok.mp found
  rw [dead] at live
  cases live

/-- Without quoted arrays nothing is shared. -/
theorem not_shared_of_plain {m : Machine} {start : Cell → Prop}
    (plain : ∀ c, m.Copied start c → c.array?.isSome → c.quote = 0) (id : SeriesId) :
    ¬ m.Shared start id := by
  intro shared
  induction shared with
  | quoted copied quoted leads => exact quoted (plain _ copied (by rw [leads]; rfl))
  | inner _ _ _ _ ih => exact ih

end Machine

/-- An array leads only to arrays of a kind. -/
def Series.Within (inside : SeriesId → Prop) (s : Series) : Prop :=
  ∀ held, s.content = .array held → ∀ c ∈ held, ∀ id, c.array? = some id → inside id

namespace Series.Within

variable {P Q : SeriesId → Prop} {s : Series}

theorem mono (weaker : ∀ id, P id → Q id) (within : s.Within P) : s.Within Q :=
  fun held content c member id leads => weaker id (within held content c member id leads)

theorem ofCells {cells : List Cell} (flags : Flags) (link : Link) (role : Role)
    (leads : ∀ c ∈ cells, ∀ id, c.array? = some id → P id) :
    ({ flags, content := .array cells.toArray, link, role } : Series).Within P := by
  intro held content c member
  cases content
  exact leads c (List.mem_toArray.mp member)

theorem mapCells {f : Array Cell → Array Cell}
    (leads : ∀ held, ∀ c ∈ f held, ∀ id, c.array? = some id →
      (∃ d ∈ held, d.array? = some id) ∨ P id) (within : s.Within P) :
    (Series.mapCells f s).Within P := by
  obtain ⟨flags, content, link, role⟩ := s
  cases content with
  | array cells =>
      intro held same c member id leadsTo
      cases same
      rcases leads cells c member id leadsTo with ⟨d, old, leadsTo⟩ | known
      · exact within cells rfl d old id leadsTo
      · exact known
  | text | binary => exact within

end Series.Within

/-! ## Laws -/

namespace Interp

variable {α : Type} {x : Interp α} {before before' failed failed' : Machine → Prop}
  {after after' : α → Machine → Prop}

theorem triple_mono
    (known : ⦃fun m => ⌜before m⌝⦄ x ⦃post⟨fun a m => ⌜after a m⌝, fun _ m => ⌜failed m⌝⟩⦄)
    (begun : ∀ m, before' m → before m) (good : ∀ a m, after a m → after' a m)
    (bad : ∀ m, failed m → failed' m) :
    ⦃fun m => ⌜before' m⌝⦄ x ⦃post⟨fun a m => ⌜after' a m⌝, fun _ m => ⌜failed' m⌝⟩⦄ := by
  refine triple_iff.mpr fun m here => ?_
  have done := triple_iff.mp known m (begun m here)
  cases ended : x m with
  | ok a next =>
      rw [ended] at done
      exact good a next done
  | error fault next =>
      rw [ended] at done
      exact bad next done

theorem triple_and
    (first : ⦃fun m => ⌜before m⌝⦄ x ⦃post⟨fun a m => ⌜after a m⌝, fun _ m => ⌜failed m⌝⟩⦄)
    (second : ⦃fun m => ⌜before' m⌝⦄ x ⦃post⟨fun a m => ⌜after' a m⌝, fun _ m => ⌜failed' m⌝⟩⦄) :
    ⦃fun m => ⌜before m ∧ before' m⌝⦄ x
    ⦃post⟨fun a m => ⌜after a m ∧ after' a m⌝, fun _ m => ⌜failed m ∧ failed' m⌝⟩⦄ := by
  refine triple_iff.mpr fun m here => ?_
  have left := triple_iff.mp first m here.1
  have right := triple_iff.mp second m here.2
  cases ended : x m with
  | ok a next =>
      rw [ended] at left right
      exact ⟨left, right⟩
  | error fault next =>
      rw [ended] at left right
      exact ⟨left, right⟩

end Interp

/-- Several laws at once. -/
def Law.every {ι : Type} (laws : ι → Law) : Law where
  holds m := ∀ i, m.Obeys (laws i)
  congr heap symbols here i := (here i).congr heap symbols

theorem Law.every_keeping {ι α : Type} {laws : ι → Law} {x : Interp α}
    (kept : ∀ i, Keeping (laws i) x) : Keeping (.every laws) x := by
  refine Interp.triple_iff.mpr fun m here => ?_
  have each (i : ι) := Interp.triple_iff.mp (kept i) m (here i)
  cases ended : x m with
  | ok a next =>
      rw [ended] at each
      exact each
  | error fault next =>
      rw [ended] at each
      exact each

/-- Two laws at once. -/
def Law.both (a b : Law) : Law where
  holds m := m.Obeys a ∧ m.Obeys b
  congr heap symbols here := ⟨here.1.congr heap symbols, here.2.congr heap symbols⟩

theorem Law.both_keeping {α : Type} {a b : Law} {x : Interp α} (first : Keeping a x)
    (second : Keeping b x) : Keeping (.both a b) x :=
  Interp.triple_and first second

/-- What a law says of the answer to a question. -/
theorem Law.learning {α : Type} {law : Law} (p : α → Prop) (q : Query α)
    (good : ∀ m a, m.Obeys law → q m = .ok a → p a) :
    ⦃fun m => ⌜m.Obeys law⌝⦄ (MonadLift.monadLift q : Interp α)
    ⦃post⟨fun a m => ⌜m.Obeys law ∧ p a⌝, fun _ m => ⌜m.Obeys law⌝⟩⦄ :=
  answered q (fun m a here answer => ⟨here, good m a here answer⟩) fun _ here => here

/-- What is known of a result is known of it under two laws as well. -/
theorem Law.both_knowing {α : Type} {a b : Law} {p : α → Prop} {x : Interp α}
    (first : ⦃fun m => ⌜m.Obeys a⌝⦄ x
      ⦃post⟨fun r m => ⌜m.Obeys a ∧ p r⌝, fun _ m => ⌜m.Obeys a⌝⟩⦄) (second : Keeping b x) :
    ⦃fun m => ⌜m.Obeys (.both a b)⌝⦄ x
    ⦃post⟨fun r m => ⌜m.Obeys (.both a b) ∧ p r⌝, fun _ m => ⌜m.Obeys (.both a b)⌝⟩⦄ :=
  Interp.triple_mono (Interp.triple_and first second) (fun _ here => here)
    (fun _ _ ⟨⟨left, known⟩, right⟩ => ⟨⟨left, right⟩, known⟩) fun _ here => here

/-- What is known of a result may be used behind it. -/
theorem Law.knowing {α : Type} {law : Law} {p : Prop} {x : Interp α}
    {done : PostCond α (.except Fault (.arg Machine .pure))}
    (known : p → ⦃fun m => ⌜m.Obeys law⌝⦄ x ⦃done⦄) : ⦃fun m => ⌜m.Obeys law ∧ p⌝⦄ x ⦃done⦄ :=
  fun m ⟨here, holds⟩ => known holds m here

/-- What is known of each result of a loop is known of all of them. -/
theorem Law.mapM_knowing {α β : Type} {law : Law} (good : β → Prop) (items : List α)
    (body : α → Interp β)
    (each : ∀ item ∈ items, ⦃fun m => ⌜m.Obeys law⌝⦄ body item
      ⦃post⟨fun b m => ⌜m.Obeys law ∧ good b⌝, fun _ m => ⌜m.Obeys law⌝⟩⦄) :
    ⦃fun m => ⌜m.Obeys law⌝⦄ items.mapM body
    ⦃post⟨fun bs m => ⌜m.Obeys law ∧ ∀ b ∈ bs, good b⌝, fun _ m => ⌜m.Obeys law⌝⟩⦄ := by
  induction items with
  | nil =>
      rw [List.mapM_nil]
      mvcgen
      exact ⟨‹_›, nofun⟩
  | cons item items ih =>
      have first := each item List.mem_cons_self
      have others := ih fun other member => each other (List.mem_cons_of_mem item member)
      rw [List.mapM_cons]
      refine Triple.bind _ _ first fun b => knowing fun head =>
        Triple.bind _ _ others fun bs => knowing fun tail => ?_
      mvcgen
      exact ⟨‹_›, List.forall_mem_cons.mpr ⟨head, tail⟩⟩

/-- Holds what it held, or leads to shared arrays only if it is one. -/
def Series.Trait.fenced (shared : SeriesId → Prop) (id : SeriesId) (content : Content) :
    Series.Trait where
  holds s := (shared id → s.Within shared) ∧ (¬ shared id → s.content = content)
  withFlags _ here := here

/-- Every series of a machine is there and holds what it held, but for the shared arrays, which
still lead to shared ones only. -/
def Law.fenced (old : Machine) (start : Cell → Prop) : Law :=
  .every fun place : { p : SeriesId × Series // old.heap.get? p.1 = some p.2 } =>
    .of place.1.1 (.fenced (old.Shared start) place.1.1 place.1.2.content)

/-- An array behind the fence is as it was, or leads to shared arrays only. -/
theorem Law.cells_of_fenced {old m : Machine} {start : Cell → Prop} {array : SeriesId}
    {held now : Array Cell} (here : m.Obeys (.fenced old start))
    (before : Query.cells array old = .ok held) (found : Query.cells array m = .ok now) :
    now = held ∨ ∀ c ∈ now, ∀ id, c.array? = some id → old.Shared start id := by
  obtain ⟨s, live, content⟩ := Query.cells_eq_ok.mp before
  obtain ⟨t, live', content'⟩ := Query.cells_eq_ok.mp found
  obtain ⟨t', there, sharing, keeping⟩ := here ⟨(array, s), live⟩
  obtain rfl : t = t' := Option.some.inj (live'.symm.trans there)
  by_cases shared : old.Shared start array
  · exact .inr (sharing shared now content')
  · exact .inl (Content.array.inj (content'.symm.trans ((keeping shared).trans content)))

/-- A part of the heap that binding a copy stays in: the new arrays and the shared ones. -/
structure Enclosure (old : Machine) (start : Cell → Prop) where
  fresh : SeriesId → Prop
  unused : ∀ id, fresh id → old.heap.get? id = none
  whole : old.Whole start

namespace Enclosure

open Interp Law

variable {old : Machine} {start : Cell → Prop} (E : Enclosure old start)

def inside (id : SeriesId) : Prop := old.Shared start id ∨ E.fresh id

/-- The fence holds, and the new arrays lead to new and shared ones only. -/
def law : Law where
  holds m := m.Obeys (.fenced old start) ∧ (∀ id, m.heap.get? id = none → E.fresh id) ∧
    ∀ id s, E.fresh id → m.heap.get? id = some s → s.Within E.inside
  congr := by
    rintro m next heap symbols ⟨fence, unused, closed⟩
    exact ⟨fence.congr heap symbols, heap ▸ unused, heap ▸ closed⟩

variable {E} {m : Machine}

/-- Arrays inside lead to arrays inside. -/
theorem inside_of_leads (here : m.Obeys E.law) {id inner : SeriesId} {held : Array Cell} {c : Cell}
    (outer : E.inside id) (found : Query.cells id m = .ok held) (member : c ∈ held)
    (leads : c.array? = some inner) : E.inside inner := by
  rcases outer with shared | fresh
  · obtain ⟨before, foundBefore⟩ := E.whole.shared id shared
    rcases cells_of_fenced here.1 foundBefore found with rfl | sharing
    · exact .inl (.inner shared foundBefore member leads)
    · exact .inl (sharing c member inner leads)
  · obtain ⟨s, live, content⟩ := Query.cells_eq_ok.mp found
    exact here.2.2 id s fresh live held content c member inner leads

/-! ## Reading -/

variable (E)

/-- A cell that a copy may go over: it is of the source, or leads to arrays inside. -/
def Fits (c : Cell) : Prop := old.Copied start c ∨ ∀ id, c.array? = some id → E.inside id

/-- An array that may be copied from a position on. -/
def Readable (array : SeriesId) (index : Nat) : Prop :=
  ∀ m cells, m.Obeys E.law → Query.cellsFrom array index m = .ok cells → ∀ c ∈ cells, E.Fits c

variable {E}

theorem readable_of_old {array : SeriesId} {index : Nat} {held : Array Cell}
    (found : Query.cells array old = .ok held)
    (first : ∀ c ∈ held.toList.drop index, old.Copied start c) : E.Readable array index := by
  intro m cells here read c member
  obtain ⟨now, foundNow, same⟩ := Query.bind_eq_ok.mp read
  cases same
  rcases cells_of_fenced here.1 found foundNow with rfl | shared
  · exact .inl (first c member)
  · exact .inr fun id leads =>
      .inl (shared c (Array.mem_def.mpr (List.mem_of_mem_drop member)) id leads)

/-- A copy goes on into the array of an unquoted cell. -/
theorem readable_of_fits {c : Cell} {inner : SeriesId} (fits : E.Fits c) (plain : c.quote = 0)
    (leads : c.array? = some inner) : E.Readable inner 0 := by
  intro m cells here read d member
  obtain ⟨now, foundNow, same⟩ := Query.bind_eq_ok.mp read
  cases same
  have member := Array.mem_def.mpr (List.mem_of_mem_drop member)
  rcases fits with copied | within
  · obtain ⟨held, found⟩ := E.whole.copied c inner copied leads
    rcases cells_of_fenced here.1 found foundNow with rfl | shared
    · exact .inl (.inner copied plain leads found member)
    · exact .inr fun id leads => .inl (shared d member id leads)
  · exact .inr fun id => inside_of_leads here (within inner leads) foundNow member

/-! ## Writing -/

@[scoped spec high]
theorem modifySeries_enclosed (i : SeriesId) (f : Series → Series)
    (shared : old.Shared start i → ∀ s, s.Within (old.Shared start) →
      (f s).Within (old.Shared start))
    (kept : ¬ old.Shared start i → (∃ s, old.heap.get? i = some s) → ∀ s, (f s).content = s.content)
    (closed : E.fresh i → ∀ s, s.Within E.inside → (f s).Within E.inside) :
    Keeping E.law (modifySeries i f) := by
  refine triple_iff.mpr fun m here => ?_
  unfold modifySeries
  by_cases inUse : m.heap.isLive i = true
  · rw [if_pos inUse]
    obtain ⟨fence, unused, within⟩ := here
    refine ⟨?fence, ?unused, ?within⟩
    case fence =>
      rintro ⟨⟨id, s⟩, live⟩
      obtain ⟨t, there, sharing, keeping⟩ := fence ⟨(id, s), live⟩
      change ∃ t, (m.heap.modify i f).get? id = some t ∧ _
      rw [Heap.get?_modify]
      by_cases same : i = id
      · subst same
        refine ⟨f t, by rw [if_pos rfl, there, Option.map_some], fun is => shared is t (sharing is),
          fun isNot => ?_⟩
        exact (kept isNot ⟨s, live⟩ t).trans (keeping isNot)
      · exact ⟨t, by rw [if_neg same, there], sharing, keeping⟩
    case unused =>
      intro id dead
      change (m.heap.modify i f).get? id = none at dead
      rw [Heap.get?_modify] at dead
      refine unused id ?_
      split at dead
      · exact Option.map_eq_none_iff.mp dead
      · exact dead
    case within =>
      intro id t fresh there
      change (m.heap.modify i f).get? id = some t at there
      rw [Heap.get?_modify] at there
      split at there
      · rename_i same
        subst same
        obtain ⟨s, live, same⟩ := Option.map_eq_some_iff.mp there
        exact same ▸ closed fresh s (within _ s fresh live)
      · exact within id t fresh there
  · rw [if_neg inUse]
    exact here

/-- A new series is a fresh one. -/
@[scoped spec high]
theorem alloc_enclosed (s : Series) (closed : s.Within E.inside) :
    ⦃fun m => ⌜m.Obeys E.law⌝⦄ alloc s
    ⦃post⟨fun new m => ⌜m.Obeys E.law ∧ E.fresh new⌝, fun _ m => ⌜m.Obeys E.law⌝⟩⦄ := by
  refine triple_iff.mpr fun m ⟨fence, unused, within⟩ => ?_
  have empty := m.heap.alloc_fresh s
  refine ⟨⟨?fence, ?unused, ?within⟩, unused _ empty⟩
  case fence =>
    rintro ⟨⟨id, before⟩, live⟩
    obtain ⟨t, there, holds⟩ := fence ⟨(id, before), live⟩
    have apart : (m.heap.alloc s).1 ≠ id := by
      rintro rfl
      rw [there] at empty
      cases empty
    exact ⟨t, (Heap.get?_alloc m.heap s id).trans ((if_neg apart).trans there), holds⟩
  case unused =>
    intro id dead
    have split := (Heap.get?_alloc m.heap s id).symm.trans dead
    by_cases same : (m.heap.alloc s).1 = id
    · exact unused id (same ▸ empty)
    · exact unused id ((if_neg same).symm.trans split)
  case within =>
    intro id t fresh there
    have split := (Heap.get?_alloc m.heap s id).symm.trans there
    by_cases same : (m.heap.alloc s).1 = id
    · obtain rfl : s = t := Option.some.inj ((if_pos same).symm.trans split)
      exact closed
    · exact within id t fresh ((if_neg same).symm.trans split)

@[scoped spec high]
theorem setFlag_enclosed (i : SeriesId) (flags : Flags) : Keeping E.law (setFlag i flags) :=
  modifySeries_enclosed i _ (fun _ _ within => within) (fun _ _ _ => rfl) fun _ _ within => within

theorem mem_of_mem_modify {held : Array Cell} {index : Nat} {f : Cell → Cell} {c : Cell}
    (member : c ∈ held.modify index f) : c ∈ held ∨ ∃ d ∈ held, c = f d := by
  obtain ⟨place, there⟩ := Array.mem_iff_getElem?.mp member
  rw [Array.getElem?_modify] at there
  split at there
  · obtain ⟨d, found, same⟩ := Option.map_eq_some_iff.mp there
    exact .inr ⟨d, Array.mem_of_getElem? found, same.symm⟩
  · exact .inl (Array.mem_of_getElem? there)

/-- Inside, a cell may be changed that afterwards leads nowhere else. -/
@[scoped spec high]
theorem modifyCell_enclosed (i : SeriesId) (index : Nat) (f : Cell → Cell) (inside : E.inside i)
    (leads : ∀ c id, (f c).array? = some id → c.array? = some id) :
    Keeping E.law (modifyCell i index f) := by
  have narrow {P : SeriesId → Prop} (s : Series) :
      s.Within P → (Series.mapCells (·.modify index f) s).Within P :=
    .mapCells fun held c member id leadsTo => .inl <| by
      rcases mem_of_mem_modify member with old | ⟨d, old, rfl⟩
      · exact ⟨c, old, leadsTo⟩
      · exact ⟨d, old, leads d id leadsTo⟩
  have unused (notShared : ¬ old.Shared start i) (live : ∃ s, old.heap.get? i = some s)
      (s : Series) : (Series.mapCells (·.modify index f) s).content = s.content := by
    obtain ⟨s, live⟩ := live
    rw [E.unused i (inside.resolve_left notShared)] at live
    cases live
  unfold modifyCell modifyCells
  change Keeping E.law (do
    if index < (← Query.cells i).size then
      if ← isArray i then modifySeries i (Series.mapCells (·.modify index f)) else defect
    else defect)
  mvcgen
  · exact fun _ _ _ => narrow
  · exact fun _ _ => unused
  · exact fun _ _ _ => narrow

/-- A series that was not there before may be changed, a fresh one so that it leads inside. -/
@[scoped spec high]
theorem modifyCells_enclosed (i : SeriesId) (f : Array Cell → Array Cell)
    (new : old.heap.get? i = none)
    (leads : E.fresh i → ∀ held, ∀ c ∈ f held, ∀ id, c.array? = some id →
      (∃ d ∈ held, d.array? = some id) ∨ E.inside id) : Keeping E.law (modifyCells i f) := by
  have apart := E.whole.not_shared new
  unfold modifyCells
  change Keeping E.law (do if ← isArray i then modifySeries i (Series.mapCells f) else defect)
  mvcgen
  · exact fun _ _ shared => absurd shared apart
  · exact fun _ _ _ ⟨s, live⟩ => absurd new (by rw [live]; nofun)
  · exact fun _ _ fresh s => .mapCells (leads fresh)

@[scoped spec high]
theorem storeCell_enclosed (i : SeriesId) (index : Nat) (c : Cell) (new : old.heap.get? i = none)
    (leads : E.fresh i → ∀ id, c.array? = some id → E.inside id) :
    Keeping E.law (storeCell i index c) := by
  unfold storeCell modifyCell
  mvcgen
  · exact fun _ _ => new
  · intro _ _ fresh held d member id leadsTo
    rcases mem_of_mem_modify member with old | ⟨-, -, rfl⟩
    · exact .inl ⟨d, old, leadsTo⟩
    · exact .inr (leads fresh id leadsTo)

/-! ## Copying -/

theorem derelativize_enclosed (c : Cell) (specifier : Specifier) :
    ⦃fun m => ⌜m.Obeys E.law⌝⦄ derelativize c specifier
    ⦃post⟨fun d m => ⌜m.Obeys E.law ∧ d.array? = c.array?⌝, fun _ m => ⌜m.Obeys E.law⌝⟩⦄ := by
  unfold derelativize ensureManaged
  mvcgen

/-- A deep copy is fresh, and leads to fresh arrays and to shared ones. -/
theorem copyDeepIn_enclosed (depth : Nat) (array : SeriesId) (index : Nat) (specifier : Specifier)
    (readable : E.Readable array index) :
    ⦃fun m => ⌜m.Obeys E.law⌝⦄ copyDeepIn depth array index specifier
    ⦃post⟨fun new m => ⌜m.Obeys E.law ∧ E.fresh new⌝, fun _ m => ⌜m.Obeys E.law⌝⟩⦄ := by
  induction depth generalizing array index specifier with
  | zero => exact obeys_of_fails _ (fun _ => rfl) _
  | succ depth ih =>
      unfold copyDeepIn
      refine Triple.bind _ _ (learning (fun cells => ∀ c ∈ cells, E.Fits c)
        (Query.cellsFrom array index) readable) fun cells => knowing fun fits => ?_
      refine Triple.bind _ _ (mapM_knowing (fun c => ∀ id, c.array? = some id → E.inside id)
        cells _ fun c member => ?cell) fun copied => knowing fun within => ?_
      case cell =>
        refine Triple.bind _ _ (derelativize_enclosed c specifier) fun resolved =>
          knowing fun same => ?_
        have fits := fits c member
        by_cases plain : (c.quote == 0 && c.kind.isAnyArray) = true
        · rw [if_pos plain]
          obtain ⟨unquoted, isArray⟩ := Bool.and_eq_true_iff.mp plain
          cases leads : c.seriesId? with
          | none =>
              mvcgen
              refine ⟨‹_›, fun id led => ?_⟩
              rw [same, Cell.array?_eq_some, leads] at led
              cases led.2
          | some inner =>
              have leads := Cell.array?_eq_some.mpr ⟨isArray, leads⟩
              refine Triple.bind _ _ (ih inner 0 _ (readable_of_fits fits (beq_iff_eq.mp unquoted)
                leads)) fun copy => knowing fun fresh => ?_
              mvcgen
              refine ⟨‹_›, fun id led => .inr ?_⟩
              cases (Cell.array?_eq_some.mp led).2
              exact fresh
        · rw [if_neg plain]
          mvcgen
          refine ⟨‹_›, fun id leads => ?_⟩
          rw [same] at leads
          rcases fits with copied | within
          · refine .inl (.quoted copied (fun unquoted => plain ?_) leads)
            rw [unquoted, (Cell.array?_eq_some.mp leads).1]
            rfl
          · exact within id leads
      · exact alloc_enclosed _ (.ofCells _ _ _ within)

theorem copyArrayDeep_enclosed (array : SeriesId) (index : Nat) (specifier : Specifier)
    (readable : E.Readable array index) :
    ⦃fun m => ⌜m.Obeys E.law⌝⦄ copyArrayDeep array index specifier
    ⦃post⟨fun new m => ⌜m.Obeys E.law ∧ E.fresh new⌝, fun _ m => ⌜m.Obeys E.law⌝⟩⦄ :=
  Triple.bind _ _ (nestingBound_keeping _) fun depth =>
    copyDeepIn_enclosed depth array index specifier readable

/-! ## Binding -/

/-- What is done at the cells of an array inside may go on into the arrays they lead to. -/
theorem forCells_enclosed (array : SeriesId) (body : Nat → Cell → Interp Unit)
    (inside : E.inside array)
    (kept : ∀ i c, (∀ id, c.array? = some id → E.inside id) → Keeping E.law (body i c)) :
    Keeping E.law (forCells array body) := by
  unfold forCells
  refine Triple.bind _ _ (learning
    (fun cells => ∀ c ∈ cells, ∀ id, c.array? = some id → E.inside id) (Query.cells array)
    fun m cells here found c member id => inside_of_leads here inside found member) fun cells => knowing fun within => ?_
  refine forM_keeping _ _ _ fun (c, i) member => kept i c (within c ?_)
  obtain ⟨-, -, same⟩ := List.mem_zipIdx member
  rw [same]
  exact Array.mem_def.mpr (List.getElem_mem _)

/-- A cell that has become a word leads nowhere. -/
theorem array?_word (c : Cell) (binding : Binding) (symbol : SymbolId) (slot : Nat)
    (id : SeriesId) : ({ c with binding, payload := .word symbol slot } : Cell).array? ≠ some id :=
  fun leads => nomatch (Cell.array?_eq_some.mp leads).2

theorem bindDeepIn_enclosed (context : SeriesId) (depth : Nat) (array : SeriesId)
    (inside : E.inside array) : Keeping E.law (bindDeepIn context false depth array) := by
  induction depth generalizing array with
  | zero => exact obeys_of_fails _ (fun _ => rfl) _
  | succ depth ih =>
      unfold bindDeepIn
      refine forCells_enclosed array _ inside fun i c within => ?_
      mvcgen [ih]
      · exact fun c id leads => absurd leads (array?_word _ _ _ _ _)
      · rename_i isArray inner leads
        exact fun _ _ => within inner (Cell.array?_eq_some.mpr ⟨isArray, leads⟩)

theorem relativizeIn_enclosed (paramlist : SeriesId) (depth : Nat) (array : SeriesId)
    (inside : E.inside array) : Keeping E.law (relativizeIn paramlist depth array) := by
  induction depth generalizing array with
  | zero => exact obeys_of_fails _ (fun _ => rfl) _
  | succ depth ih =>
      unfold relativizeIn
      refine forCells_enclosed array _ inside fun i c within => ?_
      mvcgen [ih]
      · exact fun c id leads => absurd leads (array?_word _ _ _ _ _)
      · rename_i isArray inner leads _ _
        exact within inner (Cell.array?_eq_some.mpr ⟨isArray, leads⟩)
      · exact fun _ _ => inside
      · exact fun _ _ _ _ leads => leads

@[scoped spec high]
theorem bindDeep_enclosed (array context : SeriesId) (inside : E.inside array) :
    Keeping E.law (bindDeep array context false) :=
  Triple.bind _ _ (nestingBound_keeping _) fun depth =>
    bindDeepIn_enclosed context depth array inside

@[scoped spec high]
theorem relativizeDeep_enclosed (array paramlist : SeriesId) (inside : E.inside array) :
    Keeping E.law (relativizeDeep array paramlist) :=
  Triple.bind _ _ (nestingBound_keeping _) fun depth =>
    relativizeIn_enclosed paramlist depth array inside

end Enclosure

namespace Law

open Interp

variable {α : Type} {old : Machine} {start : Cell → Prop}

/-- Behind a fence an enclosure can be drawn anew: fresh is what is not there yet. -/
theorem enclosure_of_fenced (whole : old.Whole start) {base : Machine}
    (here : base.Obeys (.fenced old start)) : ∃ E : Enclosure old start, base.Obeys E.law := by
  have unused (id : SeriesId) (dead : base.heap.get? id = none) : old.heap.get? id = none := by
    cases live : old.heap.get? id with
    | none => rfl
    | some s =>
        obtain ⟨t, there, -⟩ := here ⟨(id, s), live⟩
        rw [dead] at there
        cases there
  refine ⟨⟨fun id => base.heap.get? id = none, unused, whole⟩, here, fun _ dead => dead, ?_⟩
  intro id s dead live
  rw [dead] at live
  cases live

/-- What stays in an enclosure wherever it starts from keeps the fence, and what else it keeps. -/
theorem both_of_enclosed (whole : old.Whole start) {other : Law} {x : Interp α}
    (kept : ∀ E : Enclosure old start, Keeping (.both E.law other) x) :
    Keeping (.both (.fenced old start) other) x := by
  refine triple_iff.mpr fun base here => ?_
  obtain ⟨E, begun⟩ := enclosure_of_fenced whole here.1
  exact triple_iff.mp (triple_mono (kept E) (fun _ here => here)
    (fun _ _ done => ⟨done.1.1, done.2⟩) fun _ done => ⟨done.1.1, done.2⟩) base ⟨begun, here.2⟩

theorem fenced_of_enclosed (whole : old.Whole start) {x : Interp α}
    (kept : ∀ E : Enclosure old start, Keeping E.law x) : Keeping (.fenced old start) x := by
  refine triple_iff.mpr fun base here => ?_
  obtain ⟨E, begun⟩ := enclosure_of_fenced whole here
  exact triple_iff.mp (triple_mono (kept E) (fun _ here => here) (fun _ _ done => done.1)
    fun _ done => done.1) base begun

/-- What leaves every series alone keeps the fence. -/
theorem fenced_of_each {x : Interp α} (kept : ∀ id trait, Keeping (.of id trait) x) :
    Keeping (.fenced old start) x :=
  every_keeping fun _ => kept _ _

/-- A machine is fenced in itself. -/
theorem fenced_self : old.Obeys (.fenced old start) := by
  rintro ⟨⟨id, s⟩, live⟩
  refine ⟨s, live, fun shared held content c member inner leads => ?_, fun _ => rfl⟩
  exact .inner shared (Query.cells_eq_ok.mpr ⟨s, live, content⟩) member leads

end Law

end Homoicon
