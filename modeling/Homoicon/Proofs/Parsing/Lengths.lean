import Homoicon.Proofs.Parsing.Elsewhere

/-!
# How long a series stays

What is put into a series makes it longer, and what is taken out behind a position leaves it at
least as long as that position.
-/

open Std.Do

set_option mvcgen.warning false

namespace Homoicon

/-- Has at least a number of elements. -/
def Series.Trait.long (n : Nat) : Series.Trait where
  holds s := n ≤ s.content.size
  withFlags _ here := here

/-- A series has at least a number of elements. -/
abbrev Law.long (id : SeriesId) (n : Nat) : Law := .of id (.long n)

/-- Has a number of elements. -/
def Series.Trait.sized (n : Nat) : Series.Trait where
  holds s := s.content.size = n
  withFlags _ here := here

/-- A series has a number of elements. -/
abbrev Law.sized (id : SeriesId) (n : Nat) : Law := .of id (.sized n)

theorem Machine.Obeys.mono_long {m : Machine} {id : SeriesId} {fewer n : Nat}
    (here : m.Obeys (.long id n)) (le : fewer ≤ n) : m.Obeys (.long id fewer) :=
  have ⟨s, live, enough⟩ := here
  ⟨s, live, le.trans enough⟩

namespace Parse

open Law Interp Series.Trait

variable {id : SeriesId} {n : Nat}

theorem size_eq_ok {m : Machine} {size : Nat} :
    Query.size id m = .ok size ↔ ∃ s, m.heap.get? id = some s ∧ s.content.size = size := by
  unfold Query.size
  rw [Query.bind_eq_ok]
  exact exists_congr fun s => and_congr Query.series_eq_ok (by simp)

theorem long_iff {m : Machine} {size : Nat} (known : Query.size id m = .ok size) :
    m.Obeys (.long id n) ↔ n ≤ size := by
  obtain ⟨s, live, rfl⟩ := size_eq_ok.mp known
  constructor
  · rintro ⟨s', live', enough⟩
    obtain rfl := Option.some.inj (live.symm.trans live')
    exact enough
  · exact fun enough => ⟨s, live, enough⟩

theorem sized_iff {m : Machine} {size : Nat} :
    m.Obeys (.sized id size) ↔ Query.size id m = .ok size := size_eq_ok.symm

theorem long_of_content {m : Machine} {held : Series} {content : Content}
    (live : m.heap.get? id = some held) (holds : held.content = content) (le : n ≤ content.size) :
    m.Obeys (.long id n) := by
  subst holds
  exact ⟨held, live, le⟩

/-- Cells may change as long as there are enough of them. -/
theorem allows_cells {f : Array Cell → Array Cell}
    (enough : ∀ cells, n ≤ cells.size → n ≤ (f cells).size) :
    (Series.Trait.long n).Allows (Series.mapCells f) := by
  rintro ⟨flags, content, link, role⟩ known
  cases content with
  | array cells => exact enough cells known
  | text | binary => exact known

theorem allows_text {f : Text.Buffer → Text.Buffer}
    (enough : ∀ buffer, n ≤ buffer.size → n ≤ (f buffer).size) :
    (Series.Trait.long n).Allows (Series.mapText f) := by
  rintro ⟨flags, content, link, role⟩ known
  cases content with
  | text buffer => exact enough buffer known
  | array | binary => exact known

theorem allows_bytes {f : Array UInt8 → Array UInt8}
    (enough : ∀ bytes, n ≤ bytes.size → n ≤ (f bytes).size) :
    (Series.Trait.long n).Allows (Series.mapBytes f) := by
  rintro ⟨flags, content, link, role⟩ known
  cases content with
  | binary bytes => exact enough bytes known
  | array | text => exact known

@[local spec 20000]
theorem setVar_long (word : Cell) (specifier : Specifier) (value : Cell) :
    Keeping (.long id n) (setVar word specifier value) := by
  unfold setVar writeVar
  mvcgen
  exact fun _ _ _ => allows_cells fun cells known => by rwa [Array.size_modify]

theorem size_cut {α : Type} {xs : Array α} {start stop : Nat} (first : n ≤ start)
    (enough : n ≤ xs.size) : n ≤ (cut xs start stop).size := by
  simp only [cut, Array.size_append, Array.size_extract]
  omega

theorem size_remove {buffer : Text.Buffer} {start stop : Nat} (first : n ≤ start)
    (enough : n ≤ buffer.size) : n ≤ (buffer.remove start stop).size := by
  rw [← Text.Buffer.length_toList] at enough ⊢
  rw [Text.Buffer.toList_remove_max, List.length_append, List.length_take]
  omega

/-- What stands before a position is not removed with what stands behind it. -/
theorem removeSpan_long {series : Cell} {at_ : Nat} (inside : n ≤ at_) (count : Nat) :
    Keeping (.long id n) (removeSpan series at_ count) := by
  unfold removeSpan
  refine Triple.bind _ _ (lift_keeping (.long id n) _) fun i => ?_
  refine Triple.bind _ _ (lift_keeping (.long id n) _) fun _ => ?_
  refine keeping_answer fun m size here answer => ?_
  have first (same : i = id) : n ≤ min at_ size := by
    subst same
    exact le_min inside ((long_iff answer).mp here)
  dsimp only
  mvcgen
  · exact fun same => allows_cells fun _ => size_cut (first same)
  · exact fun same => allows_bytes fun _ => size_cut (first same)
  · exact fun same => allows_text fun _ => size_remove (first same)

theorem size_appendList {α : Type} (xs : Array α) (items : List α) :
    (xs.appendList items).size = xs.size + items.length := by
  rw [Array.appendList_eq_append, ← Array.length_toList, Array.toList_appendList, List.length_append,
    Array.length_toList]

theorem size_splice {α : Type} (xs : Array α) (at_ : Nat) (items : List α) :
    (splice xs at_ items).size = xs.size + items.length := by
  unfold splice
  split
  · exact size_appendList xs items
  · rw [Array.size_append, size_appendList, Array.size_extract, Array.size_extract]
    omega

theorem size_insert (buffer : Text.Buffer) (at_ : Nat) (items : List Char) :
    (buffer.insert at_ items).size = buffer.size + items.length := by
  unfold Text.Buffer.insert
  split <;> rfl

theorem push_long (collection : SeriesId) (item : Cell) :
    Keeping (.long id n) (modifyCells collection (·.push item)) :=
  modifyCells_of id (.long n) collection _ fun _ => allows_cells fun cells enough => by
    rw [Array.size_push]
    exact Nat.le_succ_of_le enough

theorem keepItems_long (collection : SeriesId) (items : List Cell) (only : Bool) :
    Keeping (.long id n) (Subject.keepItems collection items only) := by
  unfold Subject.keepItems
  split
  · exact Triple.bind _ _ (arrayCell_of id (.long n) .block items) fun block =>
      push_long collection block
  · exact modifyCells_of id (.long n) collection _ fun _ => allows_cells fun cells enough => by
      rw [size_appendList]
      exact Nat.le_add_right_of_le enough

theorem long_of_grown {m next : Machine} {held after : Series} {more : Nat}
    (here : m.Obeys (.long id n)) (live : m.heap.get? id = some held)
    (changed : next.heap.get? id = some after)
    (grown : after.content.size = held.content.size + more) : next.Obeys (.long id (n + more)) := by
  obtain ⟨held', live', enough⟩ := here
  obtain rfl := Option.some.inj (live.symm.trans live')
  refine ⟨after, changed, ?_⟩
  change n + more ≤ after.content.size
  rw [grown]
  exact Nat.add_le_add_right enough more

/-- A value that is put in stands between the position and the one behind it. -/
theorem insertAt_long {series value : Cell} (mine : series.seriesId? = some id) {at_ : Nat}
    {only : Bool} {part : Option Nat} {times place : Nat} {m next : Machine}
    (here : m.Obeys (.long id at_))
    (done : insertAt series at_ value only part times m = .ok place next) :
    at_ ≤ place ∧ next.Obeys (.long id place) := by
  unfold insertAt at done
  obtain ⟨i, answer, done⟩ := lift_bind_eq_ok.mp done
  obtain rfl : id = i := by
    rw [Query.arrayOf, mine] at answer
    exact Except.ok.inj answer
  obtain ⟨_, -, done⟩ := lift_bind_eq_ok.mp done
  obtain ⟨size, counted, done⟩ := lift_bind_eq_ok.mp done
  have inside : min at_ size = at_ := min_eq_left ((long_iff counted).mp here)
  simp only [inside] at done
  split at done
  · obtain ⟨items, middle, listed, done⟩ := bind_eq_ok.mp done
    obtain ⟨_, last, changed, done⟩ := bind_eq_ok.mp done
    have here := obeys_of_ok (insertionItems_of id (.long at_) value only) here listed
    obtain ⟨held, cells, live, content, after⟩ := modifyCells_eq_ok changed
    cases done
    refine ⟨Nat.le_add_right _ _, long_of_grown here live after ?_⟩
    rw [content]
    exact size_splice cells at_ _
  · split at done
    · obtain ⟨bytes, -, done⟩ := lift_bind_eq_ok.mp done
      obtain ⟨_, last, changed, done⟩ := bind_eq_ok.mp done
      obtain ⟨held, bytes, live, content, after⟩ := modifyBytes_eq_ok changed
      cases done
      refine ⟨Nat.le_add_right _ _, long_of_grown here live after ?_⟩
      rw [content]
      exact size_splice bytes at_ _
    · obtain ⟨text, -, done⟩ := lift_bind_eq_ok.mp done
      obtain ⟨items, middle, repeated, done⟩ := bind_eq_ok.mp done
      obtain ⟨_, last, changed, done⟩ := bind_eq_ok.mp done
      have here := obeys_of_ok (repeatedText_of id (.long at_) _ times) here repeated
      obtain ⟨held, buffer, live, content, after⟩ := modifyText_eq_ok changed
      cases done
      refine ⟨Nat.le_add_right _ _, long_of_grown here live after ?_⟩
      rw [content]
      exact size_insert buffer at_ _

end Parse

end Homoicon
