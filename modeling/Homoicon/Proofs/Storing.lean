import Homoicon.Proofs.Arena
import Homoicon.Proofs.Running

/-!
# Storing cells

What storing a cell in an array does to the heap: the array holds the cell at the place, and every
other series stays as it was.
-/

namespace Homoicon

/-- A series whose array holds a cell at a place. -/
def Series.storing (index : Nat) (c : Cell) (s : Series) : Series :=
  match s with
  | ⟨flags, .array cells, link, role⟩ => ⟨flags, .array (cells.modify index fun _ => c), link, role⟩
  | s => s

theorem Series.storing_array {s : Series} {held : Array Cell} (content : s.content = .array held)
    (index : Nat) (c : Cell) :
    s.storing index c = { s with content := .array (held.modify index fun _ => c) } := by
  obtain ⟨flags, held, link, role⟩ := s
  obtain rfl : held = .array _ := content
  rfl

namespace Machine

/-- A machine after a cell was stored. -/
def stored (m : Machine) (id : SeriesId) (index : Nat) (c : Cell) : Machine :=
  m.onHeap (·.modify id (·.storing index c))

variable {m : Machine} {id : SeriesId} {s : Series} {held : Array Cell} {index : Nat} {c : Cell}

@[simp] theorem heap_stored : (m.stored id index c).heap = m.heap.modify id (·.storing index c) :=
  rfl

theorem stored_rest : m.stored id index c = { m with heap := (m.stored id index c).heap } := rfl

theorem get?_stored_self (live : m.heap.get? id = some s) (content : s.content = .array held) :
    (m.stored id index c).heap.get? id =
      some { s with content := .array (held.modify index fun _ => c) } := by
  rw [heap_stored, Heap.get?_modify, if_pos rfl, live, Option.map_some,
    Series.storing_array content]

theorem get?_stored_of_ne {other : SeriesId} (apart : other ≠ id) :
    (m.stored id index c).heap.get? other = m.heap.get? other := by
  rw [heap_stored, Heap.get?_modify, if_neg apart.symm]

end Machine

theorem Interp.storeCell_run {m : Machine} {id : SeriesId} {held : Array Cell} {index : Nat}
    (c : Cell) (found : Query.cells id m = .ok held) (inside : index < held.size) :
    Interp.storeCell id index c m = .ok () (m.stored id index c) := by
  obtain ⟨s, live, content⟩ := Query.cells_eq_ok.mp found
  have isArray : Interp.isArray id m = .ok true := by
    rw [Interp.isArray, Query.bind_ok (Query.series_eq_ok.mpr live), content]
    rfl
  have alive : m.heap.isLive id = true := Heap.isLive_iff.mpr ⟨s, live⟩
  unfold Interp.storeCell Interp.modifyCell
  rw [Interp.lift_bind_ok found, if_pos inside, Interp.modifyCells, Interp.lift_bind_ok isArray,
    if_pos rfl, Interp.modifySeries, if_pos alive]
  rfl

theorem Interp.storeCell_eq_ok {m m' : Machine} {id : SeriesId} {index : Nat} {c : Cell} :
    Interp.storeCell id index c m = .ok () m' ↔ ∃ held, Query.cells id m = .ok held ∧
      index < held.size ∧ m' = m.stored id index c := by
  constructor
  · intro stored
    obtain ⟨held, found, inside⟩ := Interp.lift_bind_eq_ok.mp stored
    by_cases within : index < held.size
    · rw [Interp.storeCell_run c found within] at stored
      cases stored
      exact ⟨held, found, within, rfl⟩
    · rw [if_neg within] at inside
      cases inside
  · rintro ⟨held, found, inside, rfl⟩
    exact Interp.storeCell_run c found inside

/-- Changing a cell is storing what it becomes. -/
theorem Interp.modifyCell_eq_storeCell {m : Machine} {id : SeriesId} {held : Array Cell}
    {index : Nat} {c : Cell} (found : Query.cells id m = .ok held) (there : held[index]? = some c)
    (f : Cell → Cell) : Interp.modifyCell id index f m = Interp.storeCell id index (f c) m := by
  obtain ⟨s, live, content⟩ := Query.cells_eq_ok.mp found
  have inside : index < held.size := (Array.getElem?_eq_some_iff.mp there).1
  have isArray : Interp.isArray id m = .ok true := by
    rw [Interp.isArray, Query.bind_ok (Query.series_eq_ok.mpr live), content]
    rfl
  have alive : m.heap.isLive id = true := Heap.isLive_iff.mpr ⟨s, live⟩
  have changed : held.modify index f = held.modify index fun _ => f c := by
    refine Array.ext_getElem? fun place => ?_
    rw [Array.getElem?_modify, Array.getElem?_modify]
    split
    · rename_i same
      rw [← same, there, Option.map_some, Option.map_some]
    · rfl
  rw [Interp.storeCell_run _ found inside, Interp.modifyCell, Interp.lift_bind_ok found,
    if_pos inside, Interp.modifyCells, Interp.lift_bind_ok isArray, if_pos rfl,
    Interp.modifySeries, if_pos alive, Machine.stored]
  refine congrArg (fun heap => EStateM.Result.ok () (m.onHeap fun _ => heap)) ?_
  refine Heap.modify_congr fun t same => ?_
  obtain rfl : s = t := Option.some.inj (live.symm.trans same)
  rw [Series.storing_array content, ← changed]
  obtain ⟨flags, held, link, role⟩ := s
  obtain rfl : held = .array _ := content
  rfl

/-! ## Changing all cells -/

/-- A series with its cells changed, if it has any. -/
def Series.mapCells (f : Array Cell → Array Cell) (s : Series) : Series :=
  match s with
  | ⟨flags, .array cells, link, role⟩ => ⟨flags, .array (f cells), link, role⟩
  | s => s

@[simp] theorem Series.link_mapCells (f : Array Cell → Array Cell) (s : Series) :
    (s.mapCells f).link = s.link := by
  obtain ⟨flags, content, link, role⟩ := s
  cases content <;> rfl

/-- A series with its text changed, if it is one. -/
def Series.mapText (f : Text.Buffer → Text.Buffer) (s : Series) : Series :=
  match s with
  | ⟨flags, .text buffer, link, role⟩ => ⟨flags, .text (f buffer), link, role⟩
  | s => s

/-- A series with its bytes changed, if it has any. -/
def Series.mapBytes (f : Array UInt8 → Array UInt8) (s : Series) : Series :=
  match s with
  | ⟨flags, .binary bytes, link, role⟩ => ⟨flags, .binary (f bytes), link, role⟩
  | s => s

/-- Cells are changed where there is an array, and nowhere else. -/
theorem Interp.modifyCells_run (id : SeriesId) (f : Array Cell → Array Cell) (m : Machine) :
    (∃ held, Query.cells id m = .ok held ∧
      modifyCells id f m = .ok () (m.onHeap (·.modify id (·.mapCells f)))) ∨
      modifyCells id f m = .error .defect m := by
  cases found : m.heap.get? id with
  | none =>
      right
      have missing : isArray id m = .error .defect := by
        rw [isArray, Query.bind_run, Query.series, found]
      rw [modifyCells, bind_run, lift_run, missing]
  | some s =>
      have alive : m.heap.isLive id = true := Heap.isLive_iff.mpr ⟨s, found⟩
      have stored : Query.series id m = .ok s := Query.series_eq_ok.mpr found
      cases content : s.content with
      | array held =>
          left
          refine ⟨held, Query.cells_eq_ok.mpr ⟨s, found, content⟩, ?_⟩
          have array : isArray id m = .ok true := by
            rw [isArray, Query.bind_ok stored, content]
            rfl
          rw [modifyCells, lift_bind_ok array, if_pos rfl, modifySeries, if_pos alive]
          rfl
      | text buffer | binary bytes =>
          right
          have other : isArray id m = .ok false := by
            rw [isArray, Query.bind_ok stored, content]
            rfl
          rw [modifyCells, lift_bind_ok other]
          rfl

/-! ## Changing a whole series -/

namespace Interp

variable {id : SeriesId}

theorem modifySeries_eq_ok {f : Series → Series} {m next : Machine}
    (done : modifySeries id f m = .ok () next) :
    ∃ s, m.heap.get? id = some s ∧ next.heap.get? id = some (f s) := by
  unfold modifySeries at done
  split at done
  · rename_i lives
    obtain ⟨s, live⟩ := Option.isSome_iff_exists.mp lives
    cases done
    refine ⟨s, live, ?_⟩
    change (m.heap.modify id f).get? id = _
    rw [Heap.get?_modify, if_pos rfl, live, Option.map_some]
  · cases done

theorem modifyCells_eq_ok {f : Array Cell → Array Cell} {m next : Machine}
    (done : modifyCells id f m = .ok () next) :
    ∃ s cells, m.heap.get? id = some s ∧ s.content = .array cells ∧
      next.heap.get? id = some { s with content := .array (f cells) } := by
  obtain ⟨array, answer, done⟩ := lift_bind_eq_ok.mp done
  obtain ⟨held, live, answer⟩ := Query.bind_eq_ok.mp answer
  have live := Query.series_eq_ok.mp live
  obtain ⟨flags, content, link, role⟩ := held
  cases content with
  | array cells =>
      cases answer
      obtain ⟨s, same, after⟩ := modifySeries_eq_ok done
      obtain rfl := Option.some.inj (live.symm.trans same)
      exact ⟨_, cells, live, rfl, after⟩
  | text | binary =>
      cases answer
      cases done

theorem modifyText_eq_ok {f : Text.Buffer → Text.Buffer} {m next : Machine}
    (done : modifyText id f m = .ok () next) :
    ∃ s buffer, m.heap.get? id = some s ∧ s.content = .text buffer ∧
      next.heap.get? id = some { s with content := .text (f buffer) } := by
  obtain ⟨buffer, answer, done⟩ := lift_bind_eq_ok.mp done
  obtain ⟨s, live, content⟩ := Query.text_eq_ok.mp answer
  obtain ⟨s', same, after⟩ := modifySeries_eq_ok done
  obtain rfl := Option.some.inj (live.symm.trans same)
  obtain ⟨flags, content, link, role⟩ := s
  cases content
  exact ⟨_, buffer, live, rfl, after⟩

theorem modifyBytes_eq_ok {f : Array UInt8 → Array UInt8} {m next : Machine}
    (done : modifyBytes id f m = .ok () next) :
    ∃ s bytes, m.heap.get? id = some s ∧ s.content = .binary bytes ∧
      next.heap.get? id = some { s with content := .binary (f bytes) } := by
  obtain ⟨bytes, answer, done⟩ := lift_bind_eq_ok.mp done
  obtain ⟨s, live, content⟩ := Query.bytes_eq_ok.mp answer
  obtain ⟨s', same, after⟩ := modifySeries_eq_ok done
  obtain rfl := Option.some.inj (live.symm.trans same)
  obtain ⟨flags, content, link, role⟩ := s
  cases content
  exact ⟨_, bytes, live, rfl, after⟩

end Interp

end Homoicon
