import Homoicon.Quoting
import Homoicon.Context

/-!
# Equality and order

Equality sees through integers and decimals, and ignores the case of words and texts unless it is
strict.  Order exists between numbers, and within the kinds that have one.
-/

namespace Homoicon

/-- The order of two lists whose elements are compared one after the other. -/
def compareLists {α : Type} (compare : α → α → Ordering) : List α → List α → Ordering
  | [], [] => .eq
  | [], _ :: _ => .lt
  | _ :: _, [] => .gt
  | a :: as, b :: bs =>
    match compare a b with
    | .eq => compareLists compare as bs
    | order => order

/-- The order of texts by code points. -/
def compareText (a b : String) : Ordering :=
  compareLists (fun x y => compare x.toNat y.toNat) a.toList b.toList

/-- The order of bytes. -/
def compareBytes (a b : List UInt8) : Ordering :=
  compareLists (fun x y => compare x.toNat y.toNat) a b

/-- The order of two decimals; none when one is not a number. -/
def compareDecimals? (x y : Float) : Option Ordering :=
  if x < y then some .lt else if x == y then some .eq else if x > y then some .gt else none

/-- Year, month, day and time of day, by which dates are ordered. -/
def Date.key (d : Date) : List Int := [d.year, d.month, d.day, d.time.getD 0]

namespace Query

/-- Equality of lists element by element; elements without a partner are not looked at. -/
def allEqual (equal : Cell → Cell → Query Bool) : List Cell → List Cell → Query Bool
  | a :: as, b :: bs => do
    if ← equal a b then allEqual equal as bs else pure false
  | _, _ => pure true

/-- Equality of the contents of two unquoted values of one kind; `equal` compares elements. -/
def equalPayload (equal : Cell → Cell → Query Bool) (strict : Bool) :
    Payload → Payload → Query Bool
  | .none, .none => pure true
  | .logic x, .logic y => pure (x == y)
  | .integer x, .integer y => pure (x == y)
  | .decimal x, .decimal y => pure (x == y)
  | .char x, .char y =>
    pure (if strict then x == y else Text.lowerChar x == Text.lowerChar y)
  | .pair x, .pair y => do
    allEqual equal ((← cells x).toList.take 2) ((← cells y).toList.take 2)
  | .tuple x, .tuple y => pure (x == y)
  | .time x, .time y => pure (x == y)
  | .date x, .date y => pure (x == y)
  | .datatype x, .datatype y => pure (x = y)
  | .typeset x, .typeset y => pure (x.kinds = y.kinds)
  | .word x _, .word y _ => do
    let symbols := (← read).symbols
    pure (if strict then x == y else symbols.same x y)
  | .series x i, .series y j => do
    if x == y && i == j then pure true
    else
      match (← series x).content, (← series y).content with
      | .array xs, .array ys =>
        let xs := xs.toList.drop i
        let ys := ys.toList.drop j
        if xs.length != ys.length then pure false else allEqual equal xs ys
      | .text s, .text t =>
        let s := s.slice i s.size
        let t := t.slice j t.size
        pure (if strict then s == t else Text.lowercase s == Text.lowercase t)
      | .binary s, .binary t => pure (s.toList.drop i == t.toList.drop j)
      | _, _ => pure false
  | .context x _, .context y _ => pure (x == y)
  | .action x, .action y => pure (x.paramlist == y.paramlist)
  | .handle x, .handle y => pure (x == y)
  | .varargs x, .varargs y => pure (x == y)
  | _, _ => pure false

/-- Equality of two values whose parts nest at most as deep as the second argument tells. -/
def equalIn (strict : Bool) : Nat → Cell → Cell → Query Bool
  | 0, _, _ => throw .exhausted
  | depth + 1, a, b => do
    if a.quoteDepth != b.quoteDepth then pure false
    else
      let ka ← unescapedKind a
      let kb ← unescapedKind b
      if a.kind = .quoted || b.kind = .quoted then
        equalIn strict depth (← dequotify a).1 (← dequotify b).1
      else if ka != kb then
        if strict || !(ka.isAnyNumber && kb.isAnyNumber) then pure false
        else
          match a.asDecimal?, b.asDecimal? with
          | some x, some y => pure (x == y)
          | _, _ => pure false
      else equalPayload (equalIn strict depth) strict a.payload b.payload

/-- How deep values may nest to be compared: deeper than any value that fits into memory, so that
only a value that contains itself can exhaust it. -/
def comparisonDepth : Nat := 4611686018427387904

/-- Equality of two values, with regard to case and number kind if `strict`. -/
def equal (a b : Cell) (strict : Bool) : Query Bool := equalIn strict comparisonDepth a b

/-- The order of two values if they have one. -/
def order? (a b : Cell) (strict : Bool) : Query (Option Ordering) := do
  if a.quote != 0 || b.quote != 0 then return none
  if a.kind.isAnyNumber && b.kind.isAnyNumber then
    match a.payload, b.payload with
    | .integer x, .integer y => return some (compare x y)
    | _, _ =>
      match a.asDecimal?, b.asDecimal? with
      | some x, some y => return compareDecimals? x y
      | _, _ => return none
  if a.kind != b.kind then return none
  match a.payload, b.payload with
  | .char x, .char y =>
    if strict then return some (compare x.toNat y.toNat)
    return some (compareLists (fun x y => compare x.toNat y.toNat)
      (Text.lowerChar x) (Text.lowerChar y))
  | .time x, .time y => return some (compare x y)
  | .date x, .date y => return some (compareLists compare x.key y.key)
  | .tuple x, .tuple y => return some (compareBytes x y)
  | .logic x, .logic y => return some (compare x.toNat y.toNat)
  | .word x _, .word y _ =>
    if strict then return some (compareText (← spelling x) (← spelling y))
    return some (compareText (← lower x) (← lower y))
  | .series x i, .series y j =>
    if a.kind.isAnyString then
      let s ← cellText a
      let t ← cellText b
      if strict then return some (compareText s t)
      return some (compareText (Text.lowercase s) (Text.lowercase t))
    if a.kind = .binary then
      let xs ← bytes x
      let ys ← bytes y
      if xs.size < i || ys.size < j then defect
      return some (compareBytes (xs.toList.drop i) (ys.toList.drop j))
    return none
  | _, _ => return none

/-- The order of two values; an error if they have none. -/
def order (a b : Cell) (strict : Bool) : Query Ordering := do
  match ← order? a b strict with
  | some o => pure o
  | none => fail (.invalidCompare a.typeKind.name b.typeKind.name)

end Query

end Homoicon
