import Homoicon.Proofs.Source.Loading
import Homoicon.Proofs.Storing

/-!
# Machines that go on

A machine that keeps its series and its spellings while new ones are made, and a later machine that
still holds what was new.
-/

namespace Homoicon

/-! ## Spellings -/

/-- The spellings of a table are found in another one as well. -/
structure Symbols.Grows (t t' : Symbols) : Prop where
  size : t.size ≤ t'.size
  spelling : ∀ id, id.index < t.size → t'.spelling id = t.spelling id

namespace Symbols.Grows

theorem refl (t : Symbols) : t.Grows t := ⟨Nat.le_refl _, fun _ _ => rfl⟩

theorem trans {t t' t'' : Symbols} (first : t.Grows t') (second : t'.Grows t'') : t.Grows t'' where
  size := Nat.le_trans first.size second.size
  spelling id inside := by
    rw [second.spelling id (Nat.lt_of_lt_of_le inside first.size), first.spelling id inside]

theorem push (t : Symbols) (text lower : String) (canon synonym : SymbolId) :
    t.Grows (t.push text lower canon synonym) where
  size := by
    have size : (t.push text lower canon synonym).size = t.size + 1 := Array.size_push _
    omega
  spelling id inside := by
    have other : id.index ≠ t.entries.size := Nat.ne_of_lt inside
    rw [spelling_push, if_neg other]

theorem link (t : Symbols) (before next : SymbolId) : t.Grows (t.link before next) where
  size := Nat.le_of_eq Array.size_modify.symm
  spelling id _ := t.spelling_link before next id

theorem intern (t : Symbols) (text : String) : t.Grows (t.intern text).2 := by
  unfold Symbols.intern
  cases t.bySpelling[text]? with
  | some id => exact refl t
  | none =>
      dsimp only
      cases t.byLower[Text.lowercase text]? with
      | some canon => exact (link t canon _).trans (push _ text _ canon _)
      | none =>
          have grown := push
            { t with byLower := t.byLower.insert (Text.lowercase text) ⟨t.entries.size⟩ } text
            (Text.lowercase text) ⟨t.entries.size⟩ ⟨t.entries.size⟩
          exact ⟨grown.size, grown.spelling⟩

end Symbols.Grows

/-- A text that was entered has an entry. -/
theorem Symbols.index_intern (t : Symbols) (text : String) :
    (t.intern text).1.index < (t.intern text).2.size := by
  unfold Symbols.intern
  cases known : t.bySpelling[text]? with
  | some id =>
      have entered := t.spelled text id known
      refine Nat.lt_of_not_le fun outside => ?_
      rw [Array.getElem?_eq_none outside] at entered
      cases entered
  | none =>
      dsimp only
      cases t.byLower[Text.lowercase text]? with
      | some canon =>
          change t.entries.size < (Array.push _ _).size
          rw [Array.size_push]
          exact Nat.lt_succ_of_le (Nat.le_of_eq Array.size_modify.symm)
      | none =>
          change t.entries.size < (Array.push _ _).size
          rw [Array.size_push]
          exact Nat.lt_succ_self _

/-! ## Series -/

/-- A machine keeps its series, but for the content of some, and its spellings. -/
structure Machine.Keeps (changed : List SeriesId) (m m' : Machine) : Prop where
  get? : ∀ id s, id ∉ changed → m.heap.get? id = some s → m'.heap.get? id = some s
  live : ∀ id, m'.heap.get? id = none → m.heap.get? id = none
  symbols : m.symbols.Grows m'.symbols

namespace Machine.Keeps

variable {m m' m'' : Machine} {changed : List SeriesId}

theorem refl (m : Machine) : Keeps changed m m :=
  ⟨fun _ _ _ found => found, fun _ dead => dead, .refl _⟩

theorem trans (first : Keeps changed m m') (second : Keeps changed m' m'') :
    Keeps changed m m'' where
  get? id s kept found := second.get? id s kept (first.get? id s kept found)
  live id dead := first.live id (second.live id dead)
  symbols := first.symbols.trans second.symbols

theorem widen (kept : Keeps [] m m') : Keeps changed m m' where
  get? id s _ found := kept.get? id s List.not_mem_nil found
  live := kept.live
  symbols := kept.symbols

/-- What is new may be changed. -/
theorem narrow (kept : Keeps changed m m') (fresh : ∀ id ∈ changed, m.heap.get? id = none) :
    Keeps [] m m' where
  get? id s _ found := by
    refine kept.get? id s (fun member => ?_) found
    rw [fresh id member] at found
    cases found
  live := kept.live
  symbols := kept.symbols

theorem alloc (m : Machine) (s : Series) :
    Keeps [] m { m with heap := (m.heap.alloc s).2 } where
  get? id t _ found := (Extends.alloc m s).get? id t found
  live id dead := by
    cases found : m.heap.get? id with
    | none => rfl
    | some t =>
        rw [(Extends.alloc m s).get? id t found] at dead
        cases dead
  symbols := .refl _

theorem intern (m : Machine) (text : String) :
    Keeps [] m { m with symbols := (m.symbols.intern text).2 } :=
  ⟨fun _ _ _ found => found, fun _ dead => dead, .intern m.symbols text⟩

theorem stored (m : Machine) (id : SeriesId) (index : Nat) (c : Cell) :
    Keeps [id] m (m.stored id index c) where
  get? other s apart found := by
    rw [get?_stored_of_ne (by simpa using apart), found]
  live other dead := by
    rw [heap_stored, Heap.get?_modify] at dead
    split at dead
    · simpa using dead
    · exact dead
  symbols := .refl _

end Machine.Keeps

/-- A machine holds what is new from one machine to another, and none of it is around a value. -/
structure Machine.Harbors (n m m' : Machine) (around : List SeriesId) : Prop where
  get? : ∀ id s, m.heap.get? id = none → m'.heap.get? id = some s → n.heap.get? id = some s
  apart : ∀ id ∈ around, m.heap.get? id = none → m'.heap.get? id = none
  symbols : m'.symbols.Grows n.symbols

namespace Machine.Harbors

variable {n m m' m'' : Machine} {around changed : List SeriesId}

/-- What is new up to a point in between. -/
theorem front (harbors : n.Harbors m m'' around) (kept : Keeps changed m' m'')
    (old : ∀ id ∈ changed, m.heap.get? id ≠ none) : n.Harbors m m' around where
  get? id s fresh found :=
    harbors.get? id s fresh (kept.get? id s (fun member => old id member fresh) found)
  apart id member fresh := kept.live id (harbors.apart id member fresh)
  symbols := kept.symbols.trans harbors.symbols

/-- What is new from a point in between on. -/
theorem back (harbors : n.Harbors m m'' around) (kept : Keeps changed m m') :
    n.Harbors m' m'' around where
  get? id s fresh found := harbors.get? id s (kept.live id fresh) found
  apart id member fresh := harbors.apart id member (kept.live id fresh)
  symbols := harbors.symbols

/-- One more series that is not new lies around the value. -/
theorem enter (harbors : n.Harbors m m' around) {id : SeriesId}
    (outside : m.heap.get? id = none → m'.heap.get? id = none) :
    n.Harbors m m' (id :: around) where
  get? := harbors.get?
  apart := List.forall_mem_cons.mpr ⟨outside, harbors.apart⟩
  symbols := harbors.symbols

theorem refl (m m' : Machine) : m'.Harbors m m' [] :=
  ⟨fun _ _ _ found => found, List.forall_mem_nil _, .refl _⟩

end Machine.Harbors

end Homoicon
