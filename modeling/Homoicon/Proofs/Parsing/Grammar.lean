import Homoicon.Parse.Subject
import Mathlib.Order.Nat

/-!
# Parsing expressions

The grammars that rules are read as.  A parsing expression takes a position to the position behind
what it matches, or to none: choices are ordered, repetitions are greedy, and nothing that has
matched is tried in another way.
-/

namespace Homoicon.Parse

/-- What a parse goes over. -/
inductive Input where
  | array (elements : List Cell)
  | text (characters : List Char)
  | binary (bytes : List UInt8)

/-- The number of elements. -/
def Input.size : Input → Nat
  | array elements => elements.length
  | text characters => characters.length
  | binary bytes => bytes.length

/-- The element at a position. -/
def Input.element? : Input → Nat → Option Cell
  | array elements, pos => elements[pos]?
  | text characters, pos => characters[pos]?.map Cell.char
  | binary bytes, pos => bytes[pos]?.map fun b => Cell.integer b.toNat

theorem Input.lt_size_of_element? {input : Input} {pos : Nat} {c : Cell}
    (found : input.element? pos = some c) : pos < input.size := by
  cases input with
  | array elements => exact (List.getElem?_eq_some_iff.mp found).1
  | text characters =>
      obtain ⟨ch, found, -⟩ := Option.map_eq_some_iff.mp found
      exact (List.getElem?_eq_some_iff.mp found).1
  | binary bytes =>
      obtain ⟨b, found, -⟩ := Option.map_eq_some_iff.mp found
      exact (List.getElem?_eq_some_iff.mp found).1

/-- An input together with how values are compared with it: by themselves in an array, by their
text otherwise. -/
structure Reading where
  input : Input
  /-- Case matters. -/
  strict : Bool
  equal : Cell → Cell → Bool
  shown : Cell → String

namespace Reading

/-- A text as it counts in comparisons. -/
def folded (r : Reading) (text : String) : String := if r.strict then text else Text.lowercase text

/-- The position behind a value, if it stands at a position. -/
def literal (r : Reading) (value : Cell) (pos : Nat) : Option Nat :=
  match r.input with
  | .array elements =>
    match elements[pos]? with
    | some c => if r.equal c value then some (pos + 1) else none
    | none => none
  | .text characters =>
    let width := (r.shown value).length
    let found := String.ofList ((characters.drop pos).take width)
    if pos + width ≤ characters.length ∧ r.folded found = r.folded (r.shown value) then
      some (pos + width)
    else none
  | .binary bytes =>
    let wanted := (Text.Utf8.encode (r.shown value)).toList
    if wanted <+: bytes.drop pos then some (pos + wanted.length) else none

/-- The position behind an element of a kind. -/
def element (r : Reading) (kind : Kind) (pos : Nat) : Option Nat :=
  match r.input.element? pos with
  | some c => if c.typeKind = kind then some (pos + 1) else none
  | none => none

end Reading

/-- A parsing expression. -/
inductive Peg where
  | literal (value : Cell)
  | element (kind : Kind)
  | skip
  | end_
  | fail
  | empty
  | seq (first second : Peg)
  | choice (first second : Peg)
  /-- As often as it goes on. -/
  | any (rule : Peg)
  /-- As often as it goes on, and once at least. -/
  | some_ (rule : Peg)
  /-- A number of times between two bounds. -/
  | times (least most : Nat) (rule : Peg)
  | not_ (rule : Peg)
  | ahead (rule : Peg)
  /-- Up to the next match. -/
  | to_ (rule : Peg)
  /-- Behind the next match. -/
  | thru (rule : Peg)

namespace Peg

/-- The position where greedy repetition ends: before a failure, or at a match that does not get
ahead.  The number bounds how often it may get ahead. -/
def greedy (step : Nat → Option Nat) : Nat → Nat → Nat
  | 0, pos => pos
  | left + 1, pos =>
    match step pos with
    | some behind => if behind = pos then pos else greedy step left behind
    | none => pos

/-- The number of matches among at most a number of them, and the position behind the last. -/
def bounded (step : Nat → Option Nat) : Nat → Nat → Nat × Nat
  | 0, pos => (0, pos)
  | most + 1, pos =>
    match step pos with
    | some behind =>
      let (count, last) := bounded step most behind
      (count + 1, last)
    | none => (0, pos)

/-- The positions from one on. -/
def onward (size pos : Nat) : List Nat := List.range' pos (size + 1 - pos)

/-- The position behind what an expression matches at a position. -/
def denote (r : Reading) : Peg → Nat → Option Nat
  | literal value, pos => r.literal value pos
  | element kind, pos => r.element kind pos
  | skip, pos => if pos < r.input.size then some (pos + 1) else none
  | end_, pos => if r.input.size ≤ pos then some pos else none
  | fail, _ => none
  | empty, pos => some pos
  | seq first second, pos => (first.denote r pos).bind (second.denote r)
  | choice first second, pos => (first.denote r pos).or (second.denote r pos)
  | any rule, pos => some (greedy (rule.denote r) (r.input.size - pos) pos)
  | some_ rule, pos =>
    (rule.denote r pos).map fun _ => greedy (rule.denote r) (r.input.size - pos) pos
  | times least most rule, pos =>
    let (count, last) := bounded (rule.denote r) most pos
    if count < least then none else some last
  | not_ rule, pos => if (rule.denote r pos).isSome then none else some pos
  | ahead rule, pos => (rule.denote r pos).map fun _ => pos
  | to_ rule, pos => (onward r.input.size pos).find? fun place => (rule.denote r place).isSome
  | thru rule, pos => (onward r.input.size pos).findSome? (rule.denote r)

/-- A step that goes neither back nor beyond the end. -/
def Onward (size : Nat) (step : Nat → Option Nat) : Prop :=
  ∀ pos behind, pos ≤ size → step pos = some behind → pos ≤ behind ∧ behind ≤ size

theorem literal_onward (r : Reading) (value : Cell) : Onward r.input.size (r.literal value) := by
  intro pos behind inside found
  unfold Reading.literal at found
  cases input : r.input with
  | array elements =>
      rw [input] at found inside
      simp only at found
      split at found
      · rename_i c here
        have short : pos < elements.length := (List.getElem?_eq_some_iff.mp here).1
        split at found
        · cases found
          exact ⟨Nat.le_succ pos, short⟩
        · cases found
      · cases found
  | text characters =>
      rw [input] at found inside
      simp only at found
      split at found
      · rename_i stands
        cases found
        exact ⟨Nat.le_add_right _ _, stands.1⟩
      · cases found
  | binary bytes =>
      rw [input] at found inside
      simp only at found
      split at found
      · rename_i stands
        cases found
        have short := stands.length_le
        rw [List.length_drop] at short
        exact ⟨Nat.le_add_right _ _, by simp only [Input.size] at inside ⊢; omega⟩
      · cases found

theorem element_onward (r : Reading) (kind : Kind) : Onward r.input.size (r.element kind) := by
  intro pos behind _ found
  unfold Reading.element at found
  split at found
  · rename_i c here
    split at found
    · cases found
      exact ⟨Nat.le_succ pos, Input.lt_size_of_element? here⟩
    · cases found
  · cases found

theorem greedy_onward {size : Nat} {step : Nat → Option Nat} (ahead : Onward size step)
    (left pos : Nat) (inside : pos ≤ size) :
    pos ≤ greedy step left pos ∧ greedy step left pos ≤ size := by
  induction left generalizing pos with
  | zero => exact ⟨le_rfl, inside⟩
  | succ left ih =>
      unfold greedy
      split
      · rename_i behind found
        split
        · exact ⟨le_rfl, inside⟩
        · obtain ⟨further, within⟩ := ahead pos behind inside found
          obtain ⟨later, kept⟩ := ih behind within
          exact ⟨further.trans later, kept⟩
      · exact ⟨le_rfl, inside⟩

theorem bounded_onward {size : Nat} {step : Nat → Option Nat} (ahead : Onward size step)
    (most pos : Nat) (inside : pos ≤ size) :
    pos ≤ (bounded step most pos).2 ∧ (bounded step most pos).2 ≤ size := by
  induction most generalizing pos with
  | zero => exact ⟨le_rfl, inside⟩
  | succ most ih =>
      unfold bounded
      split
      · rename_i behind found
        obtain ⟨further, within⟩ := ahead pos behind inside found
        obtain ⟨later, kept⟩ := ih behind within
        exact ⟨further.trans later, kept⟩
      · exact ⟨le_rfl, inside⟩

theorem mem_onward {size pos place : Nat} : place ∈ onward size pos ↔ pos ≤ place ∧ place ≤ size := by
  unfold onward
  rw [List.mem_range'_1]
  omega

/-- An expression never goes back, nor beyond the end of the input. -/
theorem denote_onward (r : Reading) (p : Peg) : Onward r.input.size (p.denote r) := by
  induction p with
  | literal value => exact literal_onward r value
  | element kind => exact element_onward r kind
  | skip =>
      intro pos behind _ found
      simp only [denote, Option.ite_none_right_eq_some, Option.some.injEq] at found
      omega
  | end_ =>
      intro pos behind inside found
      simp only [denote, Option.ite_none_right_eq_some, Option.some.injEq] at found
      omega
  | fail => exact fun _ _ _ found => nomatch found
  | empty =>
      intro pos behind inside found
      cases found
      exact ⟨le_rfl, inside⟩
  | seq first second ih later =>
      intro pos behind inside found
      obtain ⟨middle, before, after⟩ := Option.bind_eq_some_iff.mp found
      obtain ⟨further, within⟩ := ih pos middle inside before
      obtain ⟨beyond, kept⟩ := later middle behind within after
      exact ⟨further.trans beyond, kept⟩
  | choice first second ih other =>
      intro pos behind inside found
      rcases Option.or_eq_some_iff.mp found with found | ⟨-, found⟩
      · exact ih pos behind inside found
      · exact other pos behind inside found
  | any rule ih =>
      intro pos behind inside found
      cases found
      exact greedy_onward ih _ pos inside
  | some_ rule ih =>
      intro pos behind inside found
      obtain ⟨_, -, rfl⟩ := Option.map_eq_some_iff.mp found
      exact greedy_onward ih _ pos inside
  | times least most rule ih =>
      intro pos behind inside found
      simp only [denote, Option.ite_none_left_eq_some, Option.some.injEq] at found
      rw [← found.2]
      exact bounded_onward ih most pos inside
  | not_ rule ih =>
      intro pos behind inside found
      simp only [denote, Option.ite_none_left_eq_some, Option.some.injEq] at found
      exact ⟨found.2.le, found.2 ▸ inside⟩
  | ahead rule ih =>
      intro pos behind inside found
      obtain ⟨_, -, rfl⟩ := Option.map_eq_some_iff.mp found
      exact ⟨le_rfl, inside⟩
  | to_ rule ih =>
      intro pos behind _ found
      exact mem_onward.mp (List.mem_of_find?_eq_some found)
  | thru rule ih =>
      intro pos behind _ found
      obtain ⟨place, member, here⟩ := List.exists_of_findSome?_eq_some found
      obtain ⟨further, within⟩ := mem_onward.mp member
      obtain ⟨beyond, kept⟩ := ih place behind within here
      exact ⟨further.trans beyond, kept⟩

end Peg

end Homoicon.Parse
