import Std.Data.HashMap
import Homoicon.Text.Lowercase

/-!
# Symbols

A table of spellings.  Spellings that differ only by case belong together: they share the first
of them as their canon, by which words are compared, and they are linked in a ring.
-/

namespace Homoicon

/-- A spelling in the table. -/
structure SymbolId where
  index : Nat
deriving Repr, DecidableEq, Inhabited, Hashable

/-- What the table holds for a spelling. -/
structure SymbolEntry where
  spelling : String
  lower : String
  /-- The first spelling with the same small letters. -/
  canon : SymbolId
  /-- The next spelling in the ring of those with the same small letters. -/
  synonym : SymbolId
deriving Inhabited

/-- A table of spellings that only grows. -/
structure Symbols where
  entries : Array SymbolEntry := #[]
  bySpelling : Std.HashMap String SymbolId := ∅
  byLower : Std.HashMap String SymbolId := ∅
  /-- The spelling by which an id is found is the one in its entry. -/
  spelled : ∀ (text : String) (id : SymbolId), bySpelling[text]? = some id →
    (entries[id.index]?).map SymbolEntry.spelling = some text := by
      exact fun _ _ found =>
        absurd (Std.HashMap.getElem?_empty.symm.trans found) (Option.some_ne_none _).symm

/-- A table without spellings. -/
def Symbols.empty : Symbols := {}

instance : Inhabited Symbols := ⟨.empty⟩

namespace Symbols

/-- The number of spellings. -/
def size (t : Symbols) : Nat := t.entries.size

/-- The entry of a spelling; every id handed out has one. -/
def entry (t : Symbols) (id : SymbolId) : SymbolEntry := t.entries.getD id.index default

/-- The spelling as it was first written. -/
def spelling (t : Symbols) (id : SymbolId) : String := (t.entry id).spelling

/-- The spelling in small letters. -/
def lower (t : Symbols) (id : SymbolId) : String := (t.entry id).lower

/-- The first spelling with the same small letters. -/
def canon (t : Symbols) (id : SymbolId) : SymbolId := (t.entry id).canon

/-- Whether two spellings differ at most by case. -/
def same (t : Symbols) (a b : SymbolId) : Bool := t.canon a == t.canon b

/-- Finds the canon of a text, whatever its case. -/
def lookup? (t : Symbols) (text : String) : Option SymbolId := t.byLower[Text.lowercase text]?

/-- Makes an entry the next one after another in its ring. -/
def link (t : Symbols) (before next : SymbolId) : Symbols :=
  { t with
    entries := t.entries.modify before.index fun e => { e with synonym := next }
    spelled := fun text id found => by
      rw [Array.getElem?_modify, ← t.spelled text id found]
      split <;> cases t.entries[id.index]? <;> rfl }

/-- Adds the entry of a new spelling. -/
def push (t : Symbols) (text lower : String) (canon synonym : SymbolId) : Symbols :=
  { entries := t.entries.push ⟨text, lower, canon, synonym⟩
    bySpelling := t.bySpelling.insert text ⟨t.entries.size⟩
    byLower := t.byLower
    spelled := fun other id found => by
      rw [Std.HashMap.getElem?_insert] at found
      split at found
      · rename_i same
        cases found
        simpa using beq_iff_eq.mp same
      · have entered := t.spelled other id found
        have inside : id.index < t.entries.size := by
          refine Nat.lt_of_not_le fun outside => ?_
          simp [Array.getElem?_eq_none outside] at entered
        rwa [Array.getElem?_push_lt inside, ← Array.getElem?_eq_getElem inside] }

/-- The id of a text, which is entered if it is new.  A new spelling of a known name is put into
the ring right after the canon. -/
def intern (t : Symbols) (text : String) : SymbolId × Symbols :=
  match t.bySpelling[text]? with
  | some id => (id, t)
  | none =>
    let id : SymbolId := ⟨t.entries.size⟩
    let lower := Text.lowercase text
    match t.byLower[lower]? with
    | some canon =>
      let after := (t.entry canon).synonym
      (id, (t.link canon id).push text lower canon after)
    | none =>
      (id, { t with byLower := t.byLower.insert lower id }.push text lower id id)

/-- Follows the ring from `at_` until it comes back to `start`; `steps` bounds its length. -/
def ringFrom (t : Symbols) (start : SymbolId) : Nat → SymbolId → List SymbolId
  | 0, _ => []
  | steps + 1, at_ =>
    if at_ == start then [] else at_ :: ringFrom t start steps (t.entry at_).synonym

/-- All spellings that differ from one at most by case, beginning with it. -/
def synonyms (t : Symbols) (id : SymbolId) : List SymbolId :=
  id :: t.ringFrom id t.size (t.entry id).synonym

end Symbols

end Homoicon
