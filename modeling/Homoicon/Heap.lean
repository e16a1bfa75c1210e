import Homoicon.Series

/-!
# The heap

An arena of series.  Ids stay valid as long as their series lives; the slots of freed series are
used again, the last freed first.  Each allocation takes from the ballast, and when nothing is
left of it a collection is asked for.
-/

namespace Homoicon

/-- The series in use, and the slots that are free. -/
structure Heap where
  slots : Array (Option Series) := #[]
  /-- The free slots, last freed first. -/
  free : List Nat := []
  ballast : Int
  recycleRequested : Bool := false
  live : Nat := 0
  /-- A free slot holds nothing. -/
  vacant : ∀ slot ∈ free, slots[slot]? = some none := by
    exact fun _ member => absurd member List.not_mem_nil
  /-- No slot is free twice. -/
  distinct : free.Nodup := by exact List.nodup_nil

/-- A heap without series. -/
def Heap.empty (ballast : Int) : Heap := { ballast }

instance : Inhabited Heap := ⟨.empty 0⟩

namespace Heap

/-- The first byte that a freed slot shows. -/
def freedByte : UInt8 := 0xC0

/-- The series with an id, if it lives. -/
def get? (h : Heap) (id : SeriesId) : Option Series := (h.slots[id.slot]?).join

/-- Whether an id stands for a series. -/
def isLive (h : Heap) (id : SeriesId) : Bool := (h.get? id).isSome

theorem slot_lt_size {h : Heap} {id : SeriesId} (live : h.isLive id = true) :
    id.slot < h.slots.size := by
  refine Nat.lt_of_not_le fun outside => ?_
  simp [isLive, get?, Array.getElem?_eq_none outside] at live

/-- The slot of a series is not free. -/
theorem slot_notMem_free {h : Heap} {id : SeriesId} (live : h.isLive id = true) :
    id.slot ∉ h.free := by
  intro member
  simp [isLive, get?, h.vacant id.slot member] at live

/-- Puts a series into a slot. -/
def alloc (h : Heap) (s : Series) : SeriesId × Heap :=
  let ballast := h.ballast - s.weight
  let requested := h.recycleRequested || ballast ≤ 0
  match h with
  | { slots, free := slot :: rest, live, vacant, distinct, .. } =>
    (⟨slot⟩, { slots := slots.setIfInBounds slot (some s), free := rest, ballast,
               recycleRequested := requested, live := live + 1,
               vacant := fun place member => by
                 have other : slot ≠ place :=
                   fun same => (List.nodup_cons.mp distinct).1 (same ▸ member)
                 rw [Array.getElem?_setIfInBounds_ne other]
                 exact vacant place (List.mem_cons_of_mem slot member)
               distinct := (List.nodup_cons.mp distinct).2 })
  | { slots, free := [], live, .. } =>
    (⟨slots.size⟩, { slots := slots.push (some s), free := [], ballast,
                     recycleRequested := requested, live := live + 1 })

/-- Frees the slot of a series; nothing happens if it is free already. -/
def dealloc (h : Heap) (id : SeriesId) : Heap :=
  if live : h.isLive id then
    { h with slots := h.slots.setIfInBounds id.slot none, free := id.slot :: h.free,
             live := h.live - 1,
             vacant := fun slot member => by
               rcases List.mem_cons.mp member with rfl | member
               · exact Array.getElem?_setIfInBounds_self_of_lt (slot_lt_size live)
               · have other : id.slot ≠ slot :=
                   fun same => slot_notMem_free live (same ▸ member)
                 rw [Array.getElem?_setIfInBounds_ne other]
                 exact h.vacant slot member
             distinct := List.nodup_cons.mpr ⟨slot_notMem_free live, h.distinct⟩ }
  else h

/-- Changes a series in place. -/
def modify (h : Heap) (id : SeriesId) (f : Series → Series) : Heap :=
  { h with slots := h.slots.modify id.slot (Option.map f)
           vacant := fun slot member => by
             rw [Array.getElem?_modify, h.vacant slot member]
             split <;> rfl }

/-- The first byte of a slot's header. -/
def leadingByte (h : Heap) (id : SeriesId) : UInt8 :=
  match h.get? id with
  | some s => s.leadingByte
  | none => freedByte

/-- The ids of all series in use, in order. -/
def liveIds (h : Heap) : List SeriesId :=
  (List.range h.slots.size).filterMap fun slot =>
    if h.isLive ⟨slot⟩ then some ⟨slot⟩ else none

end Heap

end Homoicon
