/-!
# Text buffers

A text that is edited in place.  It is kept as UTF-8 bytes, with the number of its code points.
Positions count code points, and a position beyond the end stands for the end; where the bytes are
cut is looked up for each of them.
-/

namespace Homoicon.Text

/-- An editable text. -/
structure Buffer where
  /-- The code points in UTF-8. -/
  utf8 : String
  /-- The number of code points, kept so that it need not be counted again. -/
  size : Nat
  counted : size = utf8.length

namespace Buffer

/-- The buffer that holds a text. -/
def ofString (s : String) : Buffer := ⟨s, s.length, rfl⟩

instance : Inhabited Buffer := ⟨ofString ""⟩

/-- The buffer that holds some code points. -/
def ofList (cs : List Char) : Buffer := ofString (String.ofList cs)

/-- The code points of a buffer. -/
def toList (b : Buffer) : List Char := b.utf8.toList

/-- The text of a buffer. -/
def toString (b : Buffer) : String := b.utf8

/-- Whether a buffer holds nothing. -/
def isEmpty (b : Buffer) : Bool := b.size == 0

@[simp] theorem toList_ofString (s : String) : (ofString s).toList = s.toList := rfl

@[simp] theorem toList_ofList (cs : List Char) : (ofList cs).toList = cs := String.toList_ofList

@[simp] theorem size_ofList (cs : List Char) : (ofList cs).size = cs.length :=
  String.length_ofList

@[simp] theorem length_toList (b : Buffer) : b.toList.length = b.size :=
  String.length_toList.trans b.counted.symm

/-- A buffer is determined by its code points. -/
theorem toList_inj {b b' : Buffer} : b.toList = b'.toList ↔ b = b' := by
  constructor
  · intro same
    obtain ⟨utf8, size, rfl⟩ := b
    obtain ⟨utf8', size', rfl⟩ := b'
    cases String.toList_inj.mp same
    rfl
  · exact congrArg toList

@[simp] theorem ofList_toList (b : Buffer) : ofList b.toList = b :=
  toList_inj.mp (toList_ofList b.toList)

/-! ## Places among the bytes -/

/-- The place where the code point at a position begins. -/
def position (b : Buffer) (index : Nat) : b.utf8.Pos :=
  if b.size ≤ index then b.utf8.endPos else b.utf8.startPos.nextn index

/-- The bytes before a position are those of the code points before it. -/
theorem position_splits (b : Buffer) (index : Nat) :
    (b.position index).Splits (String.ofList (b.toList.take index))
      (String.ofList (b.toList.drop index)) := by
  unfold position
  split
  · rename_i behind
    rw [← length_toList] at behind
    rw [List.take_of_length_le behind, List.drop_of_length_le behind, toList, String.ofList_toList]
    exact String.splits_endPos b.utf8
  · exact String.splits_nextn_startPos b.utf8 index

theorem take_max {α : Type} (xs : List α) (start stop : Nat) :
    xs.take (max stop start) = xs.take start ++ (xs.drop start).take (stop - start) := by
  rw [← List.take_add, show start + (stop - start) = max stop start by omega]

theorem drop_max {α : Type} (xs : List α) (start stop : Nat) :
    xs.drop start = (xs.drop start).take (stop - start) ++ xs.drop (max stop start) := by
  have behind : xs.drop (max stop start) = (xs.drop start).drop (stop - start) := by
    rw [List.drop_drop, show start + (stop - start) = max stop start by omega]
  rw [behind, List.take_append_drop]

/-- The places of two positions, with what lies between them. -/
theorem slice_splits (b : Buffer) (start stop : Nat) :
    ∃ ordered : b.position start ≤ b.position (max stop start),
      (b.utf8.slice (b.position start) (b.position (max stop start)) ordered).copy =
        String.ofList ((b.toList.drop start).take (stop - start)) := by
  refine String.copy_slice_eq_iff_splits.mpr ⟨_, _,
    (b.position_splits start).of_eq rfl ?_, (b.position_splits (max stop start)).of_eq ?_ rfl⟩
  · rw [← String.ofList_append, ← drop_max]
  · rw [← String.ofList_append, ← take_max]

theorem position_le (b : Buffer) (start stop : Nat) :
    b.position start ≤ b.position (max stop start) :=
  (b.slice_splits start stop).elim fun ordered _ => ordered

/-- The text in front of a position. -/
def before (b : Buffer) (index : Nat) : String := (b.utf8.sliceTo (b.position index)).copy

/-- The text from a position on. -/
def behind (b : Buffer) (index : Nat) : String := (b.utf8.sliceFrom (b.position index)).copy

@[simp] theorem toList_before (b : Buffer) (index : Nat) :
    (b.before index).toList = b.toList.take index := by
  rw [before, (b.position_splits index).copy_sliceTo_eq, String.toList_ofList]

@[simp] theorem toList_behind (b : Buffer) (index : Nat) :
    (b.behind index).toList = b.toList.drop index := by
  rw [behind, (b.position_splits index).copy_sliceFrom_eq, String.toList_ofList]

@[simp] theorem length_before (b : Buffer) (index : Nat) :
    (b.before index).length = min index b.size := by
  rw [← String.length_toList, toList_before, List.length_take, length_toList]

@[simp] theorem length_behind (b : Buffer) (index : Nat) :
    (b.behind index).length = b.size - index := by
  rw [← String.length_toList, toList_behind, List.length_drop, length_toList]

/-! ## Reading -/

/-- The code point at a position. -/
def get? (b : Buffer) (at_ : Nat) : Option Char := (b.utf8.startPos.nextn at_).get?

/-- The text between two positions; none when `stop` lies before `start`. -/
def slice (b : Buffer) (start stop : Nat) : String :=
  (b.utf8.slice (b.position start) (b.position (max stop start))
    (b.position_le start stop)).copy

/-- The code point at a place is the first of what follows. -/
theorem get?_of_splits {s front : String} {p : s.Pos} {cs : List Char}
    (splits : p.Splits front (String.ofList cs)) : p.get? = cs.head? := by
  cases cs with
  | nil =>
      obtain ⟨atEnd, -⟩ := String.Pos.splits_empty_right_iff.mp splits
      rw [atEnd, String.Pos.get?_endPos, List.head?_nil]
  | cons c rest =>
      rw [String.ofList_cons] at splits
      rw [String.Pos.get?_eq_some_get splits.ne_endPos_of_singleton,
        splits.next.get_eq_of_singleton, List.head?_cons]

theorem get?_eq (b : Buffer) (at_ : Nat) : b.get? at_ = b.toList[at_]? := by
  rw [get?, get?_of_splits (String.splits_nextn_startPos b.utf8 at_), List.head?_drop, toList]

theorem lt_size_of_get? {b : Buffer} {at_ : Nat} {c : Char} (there : b.get? at_ = some c) :
    at_ < b.size := by
  rw [get?_eq] at there
  rw [← length_toList]
  exact (List.getElem?_eq_some_iff.mp there).1

theorem slice_eq (b : Buffer) (start stop : Nat) :
    b.slice start stop = String.ofList ((b.toList.drop start).take (stop - start)) :=
  (b.slice_splits start stop).elim fun _ cut => cut

/-! ## Editing -/

/-- Writes code points at the end. -/
def append (b : Buffer) (cs : List Char) : Buffer where
  utf8 := b.utf8 ++ String.ofList cs
  size := b.size + cs.length
  counted := by rw [String.length_append, String.length_ofList, b.counted]

/-- Puts code points in front of a position. -/
def insert (b : Buffer) (at_ : Nat) (cs : List Char) : Buffer :=
  if b.size ≤ at_ then b.append cs
  else
    { utf8 := b.before at_ ++ String.ofList cs ++ b.behind at_
      size := b.size + cs.length
      counted := by
        rw [String.length_append, String.length_append, String.length_ofList, length_before,
          length_behind]
        omega }

/-- Takes out the code points between two positions; none when `stop` lies before `start`. -/
def remove (b : Buffer) (start stop : Nat) : Buffer where
  utf8 := b.before start ++ b.behind (max stop start)
  size := b.size - (min (max stop start) b.size - min start b.size)
  counted := by
    rw [String.length_append, length_before, length_behind]
    omega

@[simp] theorem toList_append (b : Buffer) (cs : List Char) :
    (b.append cs).toList = b.toList ++ cs := by
  rw [toList, append, String.toList_append, String.toList_ofList, toList]

theorem toList_insert (b : Buffer) (i : Nat) (cs : List Char) :
    (b.insert i cs).toList = b.toList.take i ++ cs ++ b.toList.drop i := by
  unfold insert
  split
  · rename_i short
    rw [← length_toList] at short
    rw [toList_append, List.take_of_length_le short, List.drop_of_length_le short, List.append_nil]
  · rw [toList, String.toList_append, String.toList_append, toList_before, String.toList_ofList,
      toList_behind]

theorem toList_remove_max (b : Buffer) (start stop : Nat) :
    (b.remove start stop).toList = b.toList.take start ++ b.toList.drop (max stop start) := by
  rw [toList, remove, String.toList_append, toList_before, toList_behind]

theorem toList_remove (b : Buffer) {start stop : Nat} (ordered : start ≤ stop) :
    (b.remove start stop).toList = b.toList.take start ++ b.toList.drop stop := by
  rw [toList_remove_max, Nat.max_eq_left ordered]

end Buffer

end Homoicon.Text
