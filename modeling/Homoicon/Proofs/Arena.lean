import Homoicon.Heap

/-!
# The arena of series

What allocating, freeing and changing a series do to the other ones: a new series never takes the
place of one in use.
-/

namespace Homoicon

namespace Flags

theorem or_and (a b mask : Flags) :
    (a ||| b) &&& mask = (a &&& mask) ||| (b &&& mask) := by
  apply UInt32.toBitVec_inj.mp
  ext i
  simp [Bool.and_or_distrib_right]

theorem or_managed_or (before behind : Flags) :
    (before ||| managed ||| behind) &&& managed ≠ 0 := by
  rw [or_and, or_and]
  intro vanished
  have absurd : managed &&& managed = 0 :=
    (UInt32.or_eq_zero_iff.mp (UInt32.or_eq_zero_iff.mp vanished).1).2
  revert absurd
  decide

end Flags

namespace Series

theorem has_withFlags (s : Series) (added flags : Flags) :
    (s.withFlags added).has flags = (s.has flags || added &&& flags != 0) := by
  rw [Bool.eq_iff_iff]
  simp only [has, withFlags, Flags.or_and, bne_iff_ne, ne_eq, UInt32.or_eq_zero_iff,
    Bool.or_eq_true]
  exact Decidable.not_and_iff_not_or_not

theorem has_managed_of_flags {s : Series} {base added : Flags}
    (flags : s.flags = base ||| added) (owned : added &&& Flags.managed ≠ 0) :
    s.has Flags.managed = true := by
  simp [has, flags, Flags.or_and, owned]

theorem has_managed (s : Series) : s.managed.has Flags.managed = true :=
  has_managed_of_flags rfl (by decide)

theorem ofCells_unmanaged (cells : Array Cell) :
    (ofCells cells).has Flags.managed = false := by
  simp only [ofCells, has]
  split <;> decide

/-- Flags apart from the asked ones can be added unseen. -/
theorem has_withFlags_of_apart (s : Series) {added flags : Flags}
    (apart : added &&& flags = 0) :
    (s.withFlags added).has flags = s.has flags := by
  simp [has_withFlags, apart]

/-- Flags apart from the asked ones can be cleared unseen. -/
theorem has_and_not_of_apart (s : Series) {cleared flags : Flags}
    (apart : ~~~ cleared &&& flags = flags) :
    ({ s with flags := s.flags &&& ~~~ cleared } : Series).has flags = s.has flags := by
  simp only [has, UInt32.and_assoc, apart]

end Series

namespace Heap

theorem get?_of_size_le {h : Heap} {id : SeriesId} (outside : h.slots.size ≤ id.slot) :
    h.get? id = none := by
  simp [get?, Array.getElem?_eq_none outside]

theorem get?_of_free {h : Heap} {slot : Nat} (member : slot ∈ h.free) : h.get? ⟨slot⟩ = none := by
  simp [get?, h.vacant slot member]

theorem isLive_iff {h : Heap} {id : SeriesId} :
    h.isLive id = true ↔ ∃ s, h.get? id = some s := by
  simp [isLive, Option.isSome_iff_exists]

theorem get?_modify (h : Heap) (id other : SeriesId) (f : Series → Series) :
    (h.modify id f).get? other =
      if id = other then (h.get? other).map f else h.get? other := by
  cases id with
  | mk slot =>
    cases other with
    | mk place =>
      simp only [get?, modify, Array.getElem?_modify, SeriesId.mk.injEq]
      split
      · cases h.slots[place]? <;> simp
      · rfl

/-- A change is what it does to the series that is there. -/
theorem modify_congr {h : Heap} {id : SeriesId} {f g : Series → Series}
    (same : ∀ s, h.get? id = some s → f s = g s) : h.modify id f = h.modify id g := by
  have slots : h.slots.modify id.slot (Option.map f) = h.slots.modify id.slot (Option.map g) := by
    refine Array.ext_getElem? fun place => ?_
    rw [Array.getElem?_modify, Array.getElem?_modify]
    split
    · rename_i here
      cases held : h.slots[place]? with
      | none => rfl
      | some slot =>
          cases slot with
          | none => rfl
          | some s => simp [same s (by rw [get?, here, held]; rfl)]
    · rfl
  simp only [modify, slots]

theorem get?_dealloc (h : Heap) (id other : SeriesId) :
    (h.dealloc id).get? other = if id = other then none else h.get? other := by
  unfold dealloc
  split
  · cases id with
    | mk slot =>
      cases other with
      | mk place =>
        simp only [get?, Array.getElem?_setIfInBounds, SeriesId.mk.injEq]
        split
        · split <;> simp
        · rfl
  · rename_i dead
    split
    · rename_i same
      subst same
      simpa [isLive] using dead
    · rfl

/-- The slot of a new series was not in use. -/
theorem alloc_fresh (h : Heap) (s : Series) : h.get? (h.alloc s).1 = none := by
  cases h with
  | mk slots free ballast requested live vacant distinct =>
    cases free with
    | nil => exact get?_of_size_le (Nat.le_refl _)
    | cons slot rest => exact get?_of_free (by simp)

theorem get?_alloc (h : Heap) (s : Series) (other : SeriesId) :
    (h.alloc s).2.get? other = if (h.alloc s).1 = other then some s else h.get? other := by
  cases h with
  | mk slots free ballast requested live vacant distinct =>
    cases other with
    | mk place =>
      cases free with
      | nil =>
        simp only [alloc, get?, Array.getElem?_push, SeriesId.mk.injEq]
        split <;> rename_i same
        · simp [same]
        · simp [Ne.symm same]
      | cons slot rest =>
        have inside : slot < slots.size :=
          (Array.getElem?_eq_some_iff.mp (vacant slot (by simp))).1
        simp only [alloc, get?, Array.getElem?_setIfInBounds, SeriesId.mk.injEq]
        split <;> rename_i same
        · subst same
          simp
        · rfl

end Heap

end Homoicon
