import Mathlib.Algebra.BigOperators.Fin
import Mathlib.Algebra.Order.BigOperators.Group.Finset
import Homoicon.Collector
import Homoicon.Proofs.Arena

/-!
# What a collection frees

A collection follows the references from the roots.  It leaves every series that it comes to as it
was, and it frees every other one that the collector owns.
-/

namespace Homoicon

namespace Flags

theorem or_marked_and_not {flags : Flags} (unmarked : flags &&& marked = 0) :
    (flags ||| marked) &&& ~~~ marked = flags := by
  apply UInt32.toBitVec_inj.mp
  have bits := congrArg UInt32.toBitVec unmarked
  ext i inside
  have bit := congrArg (fun b => b.getLsbD i) bits
  simp only [UInt32.toBitVec_and, BitVec.getLsbD_and] at bit
  simp only [UInt32.toBitVec_and, UInt32.toBitVec_or, UInt32.toBitVec_not, BitVec.getElem_and,
    BitVec.getElem_or, BitVec.getElem_not]
  rw [← BitVec.getLsbD_eq_getElem, ← BitVec.getLsbD_eq_getElem]
  cases here : flags.toBitVec.getLsbD i <;> cases there : marked.toBitVec.getLsbD i <;>
    simp_all

end Flags

namespace Series

@[simp] theorem references_withFlags (s : Series) (flags : Flags) :
    (s.withFlags flags).references = s.references := rfl

theorem has_marked (s : Series) : (s.withFlags Flags.marked).has Flags.marked = true := by
  rw [has_withFlags]
  simp [Flags.marked]

end Series

namespace Heap

/-- A series is reached from another one by following references. -/
inductive Reaches (h : Heap) : SeriesId → SeriesId → Prop where
  | here (id : SeriesId) : Reaches h id id
  | onward {id next target : SeriesId} {s : Series} :
      h.get? id = some s → next ∈ s.references → Reaches h next target → Reaches h id target

theorem Reaches.trans {h : Heap} {id middle target : SeriesId} (first : h.Reaches id middle)
    (second : h.Reaches middle target) : h.Reaches id target := by
  induction first with
  | here => exact second
  | onward found reference _ ih => exact .onward found reference (ih second)

/-- No series bears a mark. -/
def Unmarked (h : Heap) : Prop := ∀ id s, h.get? id = some s → s.has Flags.marked = false

theorem unmarked_of_all {h : Heap}
    (plain : h.slots.all (fun s => s.all fun s => !s.has Flags.marked) = true) : h.Unmarked := by
  intro id s found
  obtain ⟨inside, here⟩ := Array.getElem?_eq_some_iff.mp (Option.join_eq_some_iff.mp found)
  have all := Array.all_eq_true.mp plain id.slot inside
  rw [here] at all
  simpa using all

theorem Unmarked.empty (ballast : Int) : Unmarked (.empty ballast) := by
  intro id s found
  simp [get?, Heap.empty] at found

theorem Unmarked.alloc {h : Heap} {s : Series} (unmarked : h.Unmarked)
    (plain : s.has Flags.marked = false) : (h.alloc s).2.Unmarked := by
  intro id held found
  rw [get?_alloc] at found
  split at found
  · cases found
    exact plain
  · exact unmarked id held found

@[simp] theorem size_modify (h : Heap) (id : SeriesId) (f : Series → Series) :
    (h.modify id f).slots.size = h.slots.size := by
  simp [modify]

@[simp] theorem size_dealloc (h : Heap) (id : SeriesId) :
    (h.dealloc id).slots.size = h.slots.size := by
  unfold dealloc
  split <;> simp

/-! ## Marking -/

/-- The references out of a slot that a marking has still to follow. -/
def openReferences : Option Series → Nat
  | some s => if s.has Flags.marked then 0 else s.references.length
  | none => 0

/-- The references that a marking has still to follow. -/
def openCount (h : Heap) : Nat := ∑ slot ∈ Finset.range h.slots.size, openReferences (h.get? ⟨slot⟩)

theorem openCount_mark {h : Heap} {id : SeriesId} {s : Series} (found : h.get? id = some s)
    (unmarked : s.has Flags.marked = false) :
    (h.modify id (·.withFlags Flags.marked)).openCount + s.references.length = h.openCount := by
  have inside : id.slot ∈ Finset.range h.slots.size :=
    Finset.mem_range.mpr (slot_lt_size (isLive_iff.mpr ⟨s, found⟩))
  have here : openReferences ((h.modify id (·.withFlags Flags.marked)).get? id) = 0 := by
    simp [get?_modify, found, openReferences, Series.has_marked]
  have there (slot : Nat) (member : slot ∈ (Finset.range h.slots.size).erase id.slot) :
      openReferences ((h.modify id (·.withFlags Flags.marked)).get? ⟨slot⟩) =
        openReferences (h.get? ⟨slot⟩) := by
    have apart : id ≠ ⟨slot⟩ := fun same => (Finset.mem_erase.mp member).1 (by rw [same])
    rw [get?_modify, if_neg apart]
  have before : openReferences (h.get? id) = s.references.length := by
    simp [found, openReferences, unmarked]
  unfold openCount
  rw [size_modify, ← Finset.add_sum_erase _ _ inside, ← Finset.add_sum_erase _ _ inside,
    Finset.sum_congr rfl there]
  change openReferences (get? _ id) + _ + _ = openReferences (h.get? id) + _
  rw [here, before]
  omega

/-- What a slot adds to the count of references. -/
def slotReferences : Option Series → Nat
  | some s => s.references.length
  | none => 0

theorem referenceCount_eq (h : Heap) :
    h.referenceCount = (h.slots.toList.map slotReferences).sum := by
  have folded (slots : List (Option Series)) (start : Nat) :
      slots.foldl (fun n slot => match slot with
        | some s => n + s.references.length
        | none => n) start = start + (slots.map slotReferences).sum := by
    induction slots generalizing start with
    | nil => simp
    | cons slot rest ih =>
        rw [List.foldl_cons, ih, List.map_cons, List.sum_cons]
        cases slot <;> simp [slotReferences, Nat.add_assoc]
  unfold referenceCount
  rw [← Array.foldl_toList]
  exact (folded _ 0).trans (Nat.zero_add _)

theorem openCount_le (h : Heap) : h.openCount ≤ h.referenceCount := by
  rw [referenceCount_eq, ← Fin.sum_univ_fun_getElem]
  unfold openCount
  rw [Finset.sum_range]
  refine Finset.sum_le_sum fun slot _ => ?_
  have found : h.get? ⟨slot⟩ = h.slots.toList[slot] := by
    simp [get?]
  rw [found]
  cases h.slots.toList[slot] with
  | none => exact le_rfl
  | some s =>
      simp only [openReferences, slotReferences]
      split
      · exact Nat.zero_le _
      · exact le_rfl

open Classical in
/-- A heap in which just the series of a set have got marks. -/
structure Marking (h : Heap) (marked : Set SeriesId) (after : Heap) : Prop where
  size : after.slots.size = h.slots.size
  get? : ∀ id, after.get? id =
    if id ∈ marked then (h.get? id).map (·.withFlags Flags.marked) else h.get? id

theorem Marking.start (h : Heap) : Marking h ∅ h := ⟨rfl, fun id => by simp⟩

theorem Marking.insert {h after : Heap} {marked : Set SeriesId} (marking : Marking h marked after)
    {id : SeriesId} (fresh : id ∉ marked) :
    Marking h (insert id marked) (after.modify id (·.withFlags Flags.marked)) := by
  refine ⟨by simp [marking.size], fun other => ?_⟩
  rw [get?_modify, marking.get? other]
  by_cases same : id = other
  · subst same
    simp [fresh]
  · have kept : other ∈ Insert.insert id marked ↔ other ∈ marked :=
      Set.mem_insert_iff.trans (or_iff_right (Ne.symm same))
    rw [if_neg same]
    by_cases member : other ∈ marked
    · rw [if_pos member, if_pos (kept.mpr member)]
    · rw [if_neg member, if_neg (mt kept.mp member)]

/-- What a marking has done so far and has still to do: everything marked is reached from the roots,
and what it refers to is marked or pending. -/
structure MarkState (h : Heap) (roots : List SeriesId) (pending : List SeriesId)
    (marked : Set SeriesId) : Prop where
  reached : ∀ id, id ∈ marked ∨ id ∈ pending → ∃ root ∈ roots, h.Reaches root id
  covered : ∀ root ∈ roots, h.isLive root = true → root ∈ marked ∨ root ∈ pending
  closed : ∀ id ∈ marked, ∀ s, h.get? id = some s → ∀ next ∈ s.references,
    h.isLive next = true → next ∈ marked ∨ next ∈ pending

namespace MarkState

variable {h : Heap} {roots pending : List SeriesId} {marked : Set SeriesId} {id : SeriesId}

theorem start (h : Heap) (roots : List SeriesId) : MarkState h roots roots ∅ where
  reached id member := ⟨id, member.resolve_left (Set.notMem_empty id), .here id⟩
  covered _ member _ := .inr member
  closed id member := absurd member (Set.notMem_empty id)

/-- A pending series that is freed or has its mark needs nothing more. -/
theorem skip (state : MarkState h roots (id :: pending) marked)
    (settled : h.isLive id = true → id ∈ marked) : MarkState h roots pending marked where
  reached other member := state.reached other (member.imp_right (List.mem_cons_of_mem id))
  covered root member live := by
    rcases state.covered root member live with done | wait
    · exact .inl done
    · rcases List.mem_cons.mp wait with rfl | wait
      · exact .inl (settled live)
      · exact .inr wait
  closed other member s found next reference live := by
    rcases state.closed other member s found next reference live with done | wait
    · exact .inl done
    · rcases List.mem_cons.mp wait with rfl | wait
      · exact .inl (settled live)
      · exact .inr wait

/-- A pending series gets its mark, and what it refers to is pending then. -/
theorem visit {s : Series} (state : MarkState h roots (id :: pending) marked)
    (found : h.get? id = some s) :
    MarkState h roots (s.references ++ pending) (insert id marked) where
  reached other member := by
    obtain ⟨root, isRoot, reaches⟩ := state.reached id (.inr List.mem_cons_self)
    rcases member with (rfl | marked) | wait
    · exact ⟨root, isRoot, reaches⟩
    · exact state.reached other (.inl marked)
    · rcases List.mem_append.mp wait with reference | wait
      · exact ⟨root, isRoot, reaches.trans (.onward found reference (.here other))⟩
      · exact state.reached other (.inr (List.mem_cons_of_mem id wait))
  covered root member live := by
    rcases state.covered root member live with done | wait
    · exact .inl (.inr done)
    · rcases List.mem_cons.mp wait with rfl | wait
      · exact .inl (.inl rfl)
      · exact .inr (List.mem_append_right _ wait)
  closed other member held foundOther next reference live := by
    rcases member with rfl | member
    · cases found.symm.trans foundOther
      exact .inr (List.mem_append_left _ reference)
    · rcases state.closed other member held foundOther next reference live with done | wait
      · exact .inl (.inr done)
      · rcases List.mem_cons.mp wait with rfl | wait
        · exact .inl (.inl rfl)
        · exact .inr (List.mem_append_right _ wait)

theorem mem_of_reaches_mem (state : MarkState h roots [] marked) {target : SeriesId}
    (reaches : h.Reaches id target) (before : h.isLive id = true → id ∈ marked)
    (live : h.isLive target = true) : target ∈ marked := by
  induction reaches with
  | here => exact before live
  | onward found reference _ ih =>
      have here := before (isLive_iff.mpr ⟨_, found⟩)
      exact ih (fun nextLive =>
        (state.closed _ here _ found _ reference nextLive).resolve_right List.not_mem_nil) live

/-- When nothing is pending, every series in use that the roots reach has its mark. -/
theorem mem_of_reaches (state : MarkState h roots [] marked) {root target : SeriesId}
    (isRoot : root ∈ roots) (reaches : h.Reaches root target) (live : h.isLive target = true) :
    target ∈ marked :=
  state.mem_of_reaches_mem reaches
    (fun rootLive => (state.covered root isRoot rootLive).resolve_right List.not_mem_nil) live

end MarkState

/-- With enough steps a marking comes to an end. -/
theorem mark_marks {h : Heap} (unmarked : h.Unmarked) (roots : List SeriesId) (steps : Nat)
    {pending : List SeriesId} {marked : Set SeriesId} {now : Heap}
    (marking : Marking h marked now) (state : MarkState h roots pending marked)
    (enough : pending.length + now.openCount < steps) :
    ∃ all, Marking h all (mark steps pending now) ∧ MarkState h roots [] all := by
  induction steps generalizing pending marked now with
  | zero => omega
  | succ steps ih =>
      cases pending with
      | nil => exact ⟨marked, marking, state⟩
      | cons id pending =>
          rw [List.length_cons] at enough
          have here := marking.get? id
          unfold mark
          cases found : h.get? id with
          | none =>
              have gone : now.get? id = none := by simpa [found] using here
              have dead : h.isLive id = true → id ∈ marked := by simp [isLive, found]
              simp only [gone]
              exact ih marking (state.skip dead) (by omega)
          | some s =>
              by_cases member : id ∈ marked
              · rw [if_pos member, found] at here
                simp only [here, Option.map_some, Series.has_marked, if_true]
                exact ih marking (state.skip fun _ => member) (by omega)
              · rw [if_neg member, found] at here
                have plain := unmarked id s found
                have counted := openCount_mark here plain
                simp only [here, plain, Bool.false_eq_true, if_false]
                refine ih (marking.insert member) (state.visit found) ?_
                rw [List.length_append]
                omega

/-! ## Sweeping -/

/-- What a sweep leaves of a series. -/
def swept (s : Series) : Option Series :=
  if s.has Flags.marked then some { s with flags := s.flags &&& ~~~ Flags.marked }
  else if s.has Flags.managed then none
  else some s

theorem get?_sweepOne (h : Heap) (id other : SeriesId) :
    (h.sweepOne id).get? other = if id = other then (h.get? other).bind swept else h.get? other := by
  unfold sweepOne
  cases found : h.get? id with
  | none =>
      by_cases same : id = other
      · subst same
        simp [found]
      · simp [same]
  | some s =>
      simp only
      split
      · rename_i marked
        rw [get?_modify]
        by_cases same : id = other
        · subst same
          simp [found, swept, marked]
        · simp [same]
      · rename_i unmarked
        split
        · rename_i managed
          rw [get?_dealloc]
          by_cases same : id = other
          · subst same
            simp [found, swept, unmarked, managed]
          · simp [same]
        · rename_i unmanaged
          by_cases same : id = other
          · subst same
            simp [found, swept, unmarked, unmanaged]
          · simp [same]

theorem get?_foldl_sweepOne (ids : List SeriesId) (distinct : ids.Nodup) (h : Heap)
    (id : SeriesId) : (ids.foldl sweepOne h).get? id =
      if id ∈ ids then (h.get? id).bind swept else h.get? id := by
  induction ids generalizing h with
  | nil => simp
  | cons first rest ih =>
      obtain ⟨apart, distinct⟩ := List.nodup_cons.mp distinct
      rw [List.foldl_cons, ih distinct, get?_sweepOne]
      by_cases same : first = id
      · subst same
        simp [apart]
      · simp [same, Ne.symm same]

theorem mem_liveIds {h : Heap} {id : SeriesId} : id ∈ h.liveIds ↔ h.isLive id = true := by
  unfold liveIds
  rw [List.mem_filterMap]
  constructor
  · rintro ⟨slot, -, chosen⟩
    split at chosen
    · rename_i live
      cases chosen
      exact live
    · cases chosen
  · intro live
    exact ⟨id.slot, List.mem_range.mpr (slot_lt_size live), by simp [live]⟩

theorem nodup_liveIds (h : Heap) : h.liveIds.Nodup := by
  unfold liveIds
  refine List.Nodup.filterMap ?_ List.nodup_range
  intro slot other id here there
  simp only [Option.mem_def, Option.ite_none_right_eq_some, Option.some.injEq] at here there
  have same := here.2.trans there.2.symm
  simpa using same

theorem get?_sweep (h : Heap) (id : SeriesId) : h.sweep.get? id = (h.get? id).bind swept := by
  unfold sweep
  rw [get?_foldl_sweepOne _ h.nodup_liveIds]
  split
  · rfl
  · rename_i dead
    have gone : h.get? id = none := by simpa [mem_liveIds, isLive] using dead
    rw [gone, Option.bind_none]

/-- A mark that was set for a sweep leaves no trace. -/
theorem swept_marked {s : Series} (unmarked : s.has Flags.marked = false) :
    swept (s.withFlags Flags.marked) = some s := by
  have apart : s.flags &&& Flags.marked = 0 := by simpa [Series.has] using unmarked
  rw [swept, if_pos s.has_marked]
  simp only [Series.withFlags, Flags.or_marked_and_not apart]

theorem swept_of_unmarked {s : Series} (unmarked : s.has Flags.marked = false) :
    swept s = Option.guard (fun s => !s.has Flags.managed) s := by
  unfold swept
  rw [unmarked]
  cases owned : s.has Flags.managed <;> simp [Option.guard, owned]

theorem size_mark (steps : Nat) (pending : List SeriesId) (h : Heap) :
    (mark steps pending h).slots.size = h.slots.size := by
  induction steps, pending, h using mark.induct with
  | case1 => rfl
  | case2 => rfl
  | case3 h steps id pending gone ih => rw [mark, gone, ih]
  | case4 h steps id pending s found marked ih => simp only [mark, found, marked, if_true, ih]
  | case5 h steps id pending s found unmarked ih =>
      simp only [mark, found, unmarked, Bool.false_eq_true, if_false, ih, size_modify]

theorem size_sweepOne (h : Heap) (id : SeriesId) :
    (h.sweepOne id).slots.size = h.slots.size := by
  unfold sweepOne
  split
  · rfl
  · split
    · exact size_modify _ _ _
    · split
      · exact size_dealloc h id
      · rfl

theorem size_sweep (h : Heap) : h.sweep.slots.size = h.slots.size := by
  have swept (ids : List SeriesId) (now : Heap) :
      (ids.foldl sweepOne now).slots.size = now.slots.size := by
    induction ids generalizing now with
    | nil => rfl
    | cons id ids ih => rw [List.foldl_cons, ih, size_sweepOne]
  exact swept _ h

theorem get?_collect (h : Heap) (steps : Nat) (roots : List SeriesId) (ballast : Int)
    (id : SeriesId) : (h.collect steps roots ballast).get? id = (h.mark steps roots).sweep.get? id :=
  rfl

theorem size_collect (h : Heap) (steps : Nat) (roots : List SeriesId) (ballast : Int) :
    (h.collect steps roots ballast).slots.size = h.slots.size :=
  (h.mark steps roots).size_sweep.trans (size_mark steps roots h)

end Heap

namespace Machine

@[simp] theorem heap_onHeap (m : Machine) (f : Heap → Heap) : (m.onHeap f).heap = f m.heap := rfl

@[simp] theorem symbols_onHeap (m : Machine) (f : Heap → Heap) :
    (m.onHeap f).symbols = m.symbols := rfl

/-- A series that the collector reaches from the roots. -/
def Rooted (m : Machine) (id : SeriesId) : Prop := ∃ root ∈ m.roots, m.heap.Reaches root id

theorem symbols_recycle (m : Machine) : m.recycle.symbols = m.symbols := by
  unfold recycle
  split
  · rfl
  · rw [symbols_onHeap]

theorem size_recycle (m : Machine) : m.recycle.heap.slots.size = m.heap.slots.size := by
  unfold recycle
  split
  · rfl
  · rw [heap_onHeap, Heap.size_collect]

open Classical in
/-- A collection leaves what the roots reach as it was, and of the rest just what is freed by
hand. -/
theorem get?_recycle {m : Machine} (unmarked : m.heap.Unmarked) (unlocked : m.collectorLocks = 0)
    (id : SeriesId) : m.recycle.heap.get? id =
      if m.Rooted id then m.heap.get? id
      else (m.heap.get? id).filter fun s => !s.has Flags.managed := by
  have few := m.heap.openCount_le
  obtain ⟨marked, marking, done⟩ := Heap.mark_marks unmarked m.roots
    (m.roots.length + m.heap.referenceCount + m.heap.slots.size + 1)
    (Heap.Marking.start m.heap) (Heap.MarkState.start m.heap m.roots) (by omega)
  have collected : m.recycle.heap.get? id = (m.heap.mark
      (m.roots.length + m.heap.referenceCount + m.heap.slots.size + 1) m.roots).sweep.get? id := by
    unfold recycle
    rw [unlocked, if_neg (Nat.lt_irrefl 0), heap_onHeap, Heap.get?_collect]
  rw [collected, Heap.get?_sweep, marking.get? id]
  cases found : m.heap.get? id with
  | none => simp
  | some s =>
      have plain := unmarked id s found
      have live : m.heap.isLive id = true := Heap.isLive_iff.mpr ⟨s, found⟩
      have exact : id ∈ marked ↔ m.Rooted id :=
        ⟨fun member => done.reached id (.inl member),
          fun ⟨_, isRoot, reaches⟩ => done.mem_of_reaches isRoot reaches live⟩
      by_cases rooted : m.Rooted id
      · rw [if_pos (exact.mpr rooted), if_pos rooted]
        simp [Heap.swept_marked plain]
      · rw [if_neg (mt exact.mp rooted), if_neg rooted]
        simp [Heap.swept_of_unmarked plain, Option.filter, Option.guard]

end Machine

end Homoicon
