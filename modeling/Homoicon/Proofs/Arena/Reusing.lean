import Homoicon.Proofs.Collection.Sweeping

/-!
# Using slots again

An arena that series are put into and freed from in any order, with ids that may have been freed
before or never been handed out.  Its free slots are those that were freed and have not been handed
out since, each of them once, and the one freed last is handed out first; so a slot never has two
owners.
-/

namespace Homoicon

namespace Heap

/-- What can be asked of an arena. -/
inductive Request where
  /-- Puts a series into a slot. -/
  | alloc (s : Series)
  /-- Frees an id, whatever it stands for. -/
  | dealloc (id : SeriesId)

/-- An arena, with the ids that series were freed from so far, the last one first. -/
structure History where
  heap : Heap
  freed : List SeriesId

namespace History

/-- An arena that nothing was asked of. -/
def fresh (ballast : Int) : History := ⟨.empty ballast, []⟩

/-- What a request makes of an arena. -/
def step (past : History) : Request → History
  | .alloc s => ⟨(past.heap.alloc s).2, past.freed⟩
  | .dealloc id =>
    ⟨past.heap.dealloc id, if past.heap.isLive id then id :: past.freed else past.freed⟩

/-- A new arena after one request after the other. -/
def after (ballast : Int) (requests : List Request) : History :=
  requests.foldl step (fresh ballast)

/-- An id that stands for no series at present. -/
def isVacant (past : History) (id : SeriesId) : Bool := !past.heap.isLive id

end History

/-! ## One request -/

variable {h : Heap} {slot : Nat} {rest : List Nat}

theorem isLive_alloc (h : Heap) (s : Series) (id : SeriesId) :
    (h.alloc s).2.isLive id = ((h.alloc s).1 == id || h.isLive id) := by
  rw [isLive, get?_alloc, isLive]
  by_cases same : (h.alloc s).1 = id
  · simp [same]
  · simp [same]

theorem isLive_dealloc (h : Heap) (id other : SeriesId) :
    (h.dealloc id).isLive other = (id != other && h.isLive other) := by
  rw [isLive, get?_dealloc, isLive]
  by_cases same : id = other
  · simp [same]
  · simp [same]

/-- While slots are free, the first of them is used. -/
theorem alloc_of_free (free : h.free = slot :: rest) (s : Series) :
    (h.alloc s).1 = ⟨slot⟩ ∧ (h.alloc s).2.free = rest ∧
      (h.alloc s).2.slots.size = h.slots.size := by
  cases h with
  | mk slots held ballast requested live vacant distinct =>
    subst free
    exact ⟨rfl, rfl, Array.size_setIfInBounds⟩

/-- Only when no slot is free the arena grows. -/
theorem alloc_of_full (full : h.free = []) (s : Series) :
    (h.alloc s).1 = ⟨h.slots.size⟩ ∧ (h.alloc s).2.free = [] ∧
      (h.alloc s).2.slots.size = h.slots.size + 1 := by
  cases h with
  | mk slots held ballast requested live vacant distinct =>
    subst full
    exact ⟨rfl, rfl, Array.size_push _⟩

theorem dealloc_of_live {id : SeriesId} (live : h.isLive id = true) :
    (h.dealloc id).free = id.slot :: h.free := by
  rw [dealloc, dif_pos live]

/-- To free what is not in use changes nothing. -/
theorem dealloc_of_dead {id : SeriesId} (dead : h.isLive id = false) : h.dealloc id = h := by
  rw [dealloc, dif_neg (Bool.eq_false_iff.mp dead)]

/-- A new series gets a slot that the arena has, or the next one. -/
theorem slot_alloc_le (h : Heap) (s : Series) : (h.alloc s).1.slot ≤ h.slots.size := by
  cases held : h.free with
  | nil =>
      obtain ⟨new, -, -⟩ := alloc_of_full held s
      rw [new]
  | cons slot rest =>
      obtain ⟨used, -, -⟩ := alloc_of_free held s
      have empty := h.vacant slot (held ▸ List.mem_cons_self)
      rw [used]
      exact Nat.le_of_lt (Array.getElem?_eq_some_iff.mp empty).1

/-! ## What requests keep -/

namespace History

/-- The free slots are those that were freed and are not in use, each once and in the order in
which they were freed, the last one first. -/
structure Tidy (past : History) : Prop where
  free : past.heap.free.map SeriesId.mk = (past.freed.filter past.isVacant).eraseDups
  counted : past.heap.Counted

variable {past : History}

theorem tidy_fresh (ballast : Int) : (fresh ballast).Tidy where
  free := rfl
  counted := .empty ballast

/-- Without its first element, a list without repetitions is that of the other elements. -/
theorem eraseDups_filter_of_cons {ids later : List SeriesId} {id : SeriesId}
    (ordered : ids.eraseDups = id :: later) : (ids.filter fun other => !other == id).eraseDups = later := by
  cases ids with
  | nil => cases ordered
  | cons first others =>
      rw [List.eraseDups_cons] at ordered
      obtain ⟨rfl, rfl⟩ := List.cons.inj ordered
      simp

/-- A new series leaves the other vacant ids vacant. -/
theorem isVacant_alloc (past : History) (s : Series) :
    (past.step (.alloc s)).isVacant =
      fun id => (!id == (past.heap.alloc s).1) && past.isVacant id := by
  funext id
  simp only [isVacant, step, isLive_alloc, Bool.not_or, Bool.beq_comm (a := id)]

/-- The freed ids that stay vacant beside a new series. -/
theorem filter_isVacant_alloc (past : History) (s : Series) :
    (past.step (.alloc s)).freed.filter (past.step (.alloc s)).isVacant =
      (past.freed.filter past.isVacant).filter fun id => !id == (past.heap.alloc s).1 := by
  rw [isVacant_alloc, List.filter_filter]
  rfl

theorem Tidy.alloc (tidy : past.Tidy) (s : Series) : (past.step (.alloc s)).Tidy where
  counted := tidy.counted.alloc s
  free := by
    have free := tidy.free
    rw [filter_isVacant_alloc]
    cases held : past.heap.free with
    | nil =>
        obtain ⟨-, free', -⟩ := alloc_of_full held s
        have none_ : past.freed.filter past.isVacant = [] := by
          rw [held, List.map_nil] at free
          refine List.eq_nil_iff_forall_not_mem.mpr fun id member => ?_
          have listed := List.mem_eraseDups.mpr member
          rw [← free] at listed
          exact List.not_mem_nil listed
        rw [none_]
        exact congrArg (List.map SeriesId.mk) free'
    | cons slot rest =>
        obtain ⟨used, free', -⟩ := alloc_of_free held s
        rw [held, List.map_cons] at free
        rw [used, eraseDups_filter_of_cons free.symm]
        exact congrArg (List.map SeriesId.mk) free'

theorem Tidy.dealloc (tidy : past.Tidy) (id : SeriesId) : (past.step (.dealloc id)).Tidy where
  counted := tidy.counted.dealloc id
  free := by
    cases live : past.heap.isLive id with
    | false =>
        have same : past.step (.dealloc id) = past := by
          simp only [step, live, dealloc_of_dead live, Bool.false_eq_true, if_false]
        rw [same]
        exact tidy.free
    | true =>
        have now : past.step (.dealloc id) = ⟨past.heap.dealloc id, id :: past.freed⟩ := by
          simp only [step, live, if_true]
        have vacant : (past.step (.dealloc id)).isVacant id = true := by
          simp [isVacant, now, isLive_dealloc]
        -- an id that was in use is not among those vacant before
        have others : ((past.freed.filter (past.step (.dealloc id)).isVacant).filter
            fun other => !other == id) = past.freed.filter past.isVacant := by
          rw [List.filter_filter]
          refine List.filter_congr fun other _ => ?_
          simp only [isVacant, now, isLive_dealloc]
          by_cases same : other = id
          · simp [same, live]
          · have apart : (id != other) = true := bne_iff_ne.mpr (Ne.symm same)
            rw [beq_eq_false_iff_ne.mpr same, apart, Bool.true_and, Bool.not_false, Bool.true_and]
        calc
          (past.step (.dealloc id)).heap.free.map SeriesId.mk
              = id :: past.heap.free.map SeriesId.mk := by
            rw [now, dealloc_of_live live]
            rfl
          _ = id :: (past.freed.filter past.isVacant).eraseDups := by rw [tidy.free]
          _ = ((id :: past.freed).filter (past.step (.dealloc id)).isVacant).eraseDups := by
            rw [List.filter_cons_of_pos vacant, List.eraseDups_cons, others]
          _ = ((past.step (.dealloc id)).freed.filter
                (past.step (.dealloc id)).isVacant).eraseDups := by rw [now]

theorem Tidy.step (tidy : past.Tidy) (request : Request) : (past.step request).Tidy := by
  cases request with
  | alloc s => exact tidy.alloc s
  | dealloc id => exact tidy.dealloc id

/-! ## Arenas in use -/

theorem tidy_after (ballast : Int) (requests : List Request) : (after ballast requests).Tidy := by
  have run (past : History) (tidy : past.Tidy) : (requests.foldl History.step past).Tidy := by
    induction requests generalizing past with
    | nil => exact tidy
    | cons request later ih => exact ih _ (tidy.step request)
  exact run _ (tidy_fresh ballast)

namespace Tidy

/-- A free slot was freed and is not in use. -/
theorem mem_free (tidy : past.Tidy) (slot : Nat) :
    slot ∈ past.heap.free ↔ ⟨slot⟩ ∈ past.freed ∧ past.heap.isLive ⟨slot⟩ = false := by
  have listed : slot ∈ past.heap.free ↔ ⟨slot⟩ ∈ past.heap.free.map SeriesId.mk := by
    simp [List.mem_map]
  rw [listed, tidy.free, List.mem_eraseDups, List.mem_filter, isVacant, Bool.not_eq_true']

/-- The first free slot is the vacant one that was freed last. -/
theorem head?_free (tidy : past.Tidy) :
    past.heap.free.head?.map SeriesId.mk = past.freed.find? past.isVacant := by
  rw [← List.head?_map, tidy.free, ← List.head?_filter]
  cases past.freed.filter past.isVacant with
  | nil => rfl
  | cons last others => rw [List.eraseDups_cons, List.head?_cons, List.head?_cons]

/-- A series is put where one was freed last, and the arena grows only if there is no such slot. -/
theorem alloc_place (tidy : past.Tidy) (s : Series) :
    match past.freed.find? past.isVacant with
    | some last => (past.heap.alloc s).1 = last ∧
        (past.heap.alloc s).2.slots.size = past.heap.slots.size
    | none => (past.heap.alloc s).1 = ⟨past.heap.slots.size⟩ ∧
        (past.heap.alloc s).2.slots.size = past.heap.slots.size + 1 := by
  rw [← tidy.head?_free]
  cases held : past.heap.free with
  | nil =>
      obtain ⟨new, -, grown⟩ := alloc_of_full held s
      exact ⟨new, grown⟩
  | cons slot rest =>
      obtain ⟨used, -, kept⟩ := alloc_of_free held s
      exact ⟨used, kept⟩

end Tidy

/-- What an arena promises to those who hold ids, given which ids were freed. -/
structure Unshared (past : History) : Prop where
  /-- While the arena has fewer than 2 ^ 32 slots, the number of an id is not cut off at 32 bits. -/
  unsigned32_slot : past.heap.slots.size < Bits.count32 → ∀ s,
    Bits.unsigned32 (past.heap.alloc s).1.slot = (past.heap.alloc s).1.slot
  /-- The free slots are those that were freed and are not in use, each of them once. -/
  count_free : ∀ slot, past.heap.free.count slot =
    if ⟨slot⟩ ∈ past.freed ∧ past.heap.isLive ⟨slot⟩ = false then 1 else 0
  /-- The count of the series in use is right. -/
  live : past.heap.live = past.heap.liveIds.length
  /-- The ids in use are listed once each. -/
  count_liveIds : ∀ id, past.heap.liveIds.count id = if past.heap.isLive id then 1 else 0
  /-- A new series gets an id that none has. -/
  dead_alloc : ∀ s, past.heap.isLive (past.heap.alloc s).1 = false
  /-- A new series is found by its id, and every other one is what it was. -/
  get?_alloc : ∀ s id, (past.heap.alloc s).2.get? id =
    if (past.heap.alloc s).1 = id then some s else past.heap.get? id
  /-- It gets the vacant id that was freed last; the arena grows only if none is vacant. -/
  alloc_place : ∀ s, match past.freed.find? past.isVacant with
    | some last => (past.heap.alloc s).1 = last ∧
        (past.heap.alloc s).2.slots.size = past.heap.slots.size
    | none => (past.heap.alloc s).1 = ⟨past.heap.slots.size⟩ ∧
        (past.heap.alloc s).2.slots.size = past.heap.slots.size + 1
  /-- To free an id takes the series away that has it, and no other one. -/
  get?_dealloc : ∀ id other, (past.heap.dealloc id).get? other =
    if id = other then none else past.heap.get? other
  /-- To free an id that is not in use, or never was, changes nothing. -/
  dealloc_dead : ∀ id, past.heap.isLive id = false → past.heap.dealloc id = past.heap

/-- Whatever was asked of a new arena, in any order and with any ids, no slot has two owners. -/
theorem after_unshared (ballast : Int) (requests : List Request) :
    (after ballast requests).Unshared := by
  have tidy : (after ballast requests).Tidy := tidy_after ballast requests
  generalize after ballast requests = past at tidy
  constructor
  · intro few s
    exact Bits.unsigned32_of_lt (Nat.lt_of_le_of_lt (past.heap.slot_alloc_le s) few)
  · intro slot
    rw [past.heap.distinct.count]
    exact if_congr (tidy.mem_free slot) rfl rfl
  · exact tidy.counted
  · intro id
    rw [past.heap.nodup_liveIds.count]
    exact if_congr mem_liveIds rfl rfl
  · intro s
    rw [isLive, past.heap.alloc_fresh s, Option.isSome_none]
  · exact past.heap.get?_alloc
  · exact tidy.alloc_place
  · exact past.heap.get?_dealloc
  · intro id dead
    exact dealloc_of_dead dead

end History

end Heap

end Homoicon
