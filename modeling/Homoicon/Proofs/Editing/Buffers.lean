import Homoicon.Text.Buffer

/-!
# A buffer is a list of code points

Whatever is put into a buffer and taken out of it, at any positions, it holds what a list of code
points would hold, positions beyond the end standing for the end.  The number kept with the bytes is
the length of that list, and the bytes are cut between two code points only.
-/

namespace Homoicon.Text

/-- A change of a text. -/
inductive Edit where
  | insert (at_ : Nat) (cs : List Char)
  | append (cs : List Char)
  | remove (start stop : Nat)

namespace Edit

/-- What a change does to a buffer. -/
def applyTo (b : Buffer) : Edit → Buffer
  | insert at_ cs => b.insert at_ cs
  | append cs => b.append cs
  | remove start stop => b.remove start stop

/-- What a change does to a list of code points, where a position beyond the end stands for the end
and nothing lies between two positions in the wrong order. -/
def onList (cs : List Char) : Edit → List Char
  | insert at_ added => cs.take (min at_ cs.length) ++ added ++ cs.drop (min at_ cs.length)
  | append added => cs ++ added
  | remove start stop =>
    if stop < start then cs else cs.take (min start cs.length) ++ cs.drop (min stop cs.length)

end Edit

namespace Buffer

/-- A buffer holds a list of code points. -/
structure Holds (b : Buffer) (cs : List Char) : Prop where
  toList : b.utf8.toList = cs
  size : b.size = cs.length
  get? : ∀ at_, b.get? at_ = cs[at_]?
  slice : ∀ start stop, b.slice start stop =
    String.ofList ((cs.take (min stop cs.length)).drop (min start cs.length))
  /-- The place of a position among the bytes is behind those of the code points before it. -/
  place : ∀ at_, (b.position at_).offset.byteIdx =
      (String.ofList (cs.take (min at_ cs.length))).utf8ByteSize ∧
    b.utf8 = String.ofList (cs.take (min at_ cs.length)) ++
      String.ofList (cs.drop (min at_ cs.length))

theorem drop_min_length {α : Type} (xs : List α) (i : Nat) :
    xs.drop (min i xs.length) = xs.drop i := by
  rw [List.drop_eq_drop_iff, Nat.min_assoc, Nat.min_self]

/-- A buffer holds its code points. -/
theorem holds_toList (b : Buffer) : b.Holds b.toList := by
  constructor
  · rfl
  · exact b.length_toList.symm
  · exact b.get?_eq
  · intro start stop
    refine (b.slice_eq start stop).trans (congrArg String.ofList ?_)
    rw [List.drop_take, drop_min_length, List.take_eq_take_iff, List.length_drop]
    omega
  · intro at_
    rw [← List.take_eq_take_min, drop_min_length]
    have splits := b.position_splits at_
    exact ⟨congrArg String.Pos.Raw.byteIdx splits.offset_eq_rawEndPos, splits.eq_append⟩

/-- A change does to a buffer what it does to the list of its code points. -/
theorem toList_applyTo (b : Buffer) (edit : Edit) :
    (edit.applyTo b).toList = edit.onList b.toList := by
  cases edit with
  | insert at_ cs =>
      rw [Edit.onList, ← List.take_eq_take_min, drop_min_length]
      exact b.toList_insert at_ cs
  | append cs => exact b.toList_append cs
  | remove start stop =>
      rw [Edit.onList, ← List.take_eq_take_min, drop_min_length]
      split
      · rename_i crossed
        refine (b.toList_remove_max start stop).trans ?_
        rw [Nat.max_eq_right (Nat.le_of_lt crossed), List.take_append_drop]
      · rename_i ordered
        exact b.toList_remove (Nat.le_of_not_lt ordered)

theorem toList_foldl_applyTo (edits : List Edit) (b : Buffer) :
    (edits.foldl Edit.applyTo b).toList = edits.foldl Edit.onList b.toList := by
  induction edits generalizing b with
  | nil => rfl
  | cons edit edits ih => rw [List.foldl_cons, List.foldl_cons, ih, toList_applyTo]

/-- A text that is changed again and again is held as the list of its code points would be. -/
theorem edited_holds (s : String) (edits : List Edit) :
    (edits.foldl Edit.applyTo (ofString s)).Holds (edits.foldl Edit.onList s.toList) := by
  have holds := (edits.foldl Edit.applyTo (ofString s)).holds_toList
  rwa [toList_foldl_applyTo, toList_ofString] at holds

end Buffer

end Homoicon.Text
