import Homoicon.Cell

/-!
# Kinds of cells

Asking a cell for its kind tells it apart from the quoted cells and from the other kinds.  The marks
on a cell are no part of its value.
-/

namespace Homoicon

namespace Cell

theorem is_of_isQuoted {c : Cell} {k : Kind} (quoted : c.isQuoted = true)
    (plain : k ≠ .quoted) : c.is k = false := by
  simp only [isQuoted, Bool.or_eq_true, decide_eq_true_eq] at quoted
  rcases quoted with deep | kind
  · simp [is, Nat.ne_of_gt deep]
  · simp [is, kind, plain.symm]

theorem is_other {c : Cell} {k other : Kind} (here : c.is k = true) (apart : k ≠ other) :
    c.is other = false := by
  simp only [is, Bool.and_eq_true, decide_eq_true_eq] at here
  simp [is, here.2, apart]

theorem is_iff {c : Cell} {k : Kind} : c.is k = true ↔ c.quote = 0 ∧ c.kind = k := by
  simp [is]

theorem isQuoted_of_is {c : Cell} {k : Kind} (here : c.is k = true) (plain : k ≠ .quoted) :
    c.isQuoted = false := by
  obtain ⟨unquoted, rfl⟩ := is_iff.mp here
  simp [isQuoted, unquoted, plain]

/-- Two cells have the same value, whatever their marks. -/
structure SameValue (c d : Cell) : Prop where
  kind : c.kind = d.kind
  quote : c.quote = d.quote
  binding : c.binding = d.binding
  payload : c.payload = d.payload

theorem SameValue.refl (c : Cell) : c.SameValue c := ⟨rfl, rfl, rfl, rfl⟩

end Cell

end Homoicon
