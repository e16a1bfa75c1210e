import Homoicon.Bits
import Homoicon.Comparison
import Homoicon.Mold
import Homoicon.Path.Step
import Homoicon.Text.Utf8

/-!
# Editing series

Length, insertion, removal, search and copies, for arrays, texts and bytes alike.  A position
behind the end of a series, as removals leave it, counts as its end.
-/

namespace Homoicon

/-- A count given by a number: its integer part held within 64 bits, 0 if it is negative or no
number. -/
def Decimal.toCount (d : Float) : Nat :=
  if d.isNaN then 0
  else if d.isInf then (if d < 0 then 0 else Bits.count64 - 1)
  else min (Bits.count64 - 1) (Decimal.truncate d).toNat

/-- A list that begins somewhere in another one: the first place where it does. -/
def findSublist? {α : Type} (matches_ : List α → Bool) : Nat → List α → Option Nat
  | at_, [] => if matches_ [] then some at_ else none
  | at_, a :: rest =>
    if matches_ (a :: rest) then some at_ else findSublist? matches_ (at_ + 1) rest

namespace Query

/-- The elements of a series from its position on. -/
def remaining (series : Cell) : Query Nat := do
  pure ((← size (← arrayOf series)) - series.index)

/-- The number of elements of a series from its position on, or of variables of a context; none for
other kinds. -/
def lengthOf? (value : Cell) : Query (Option Nat) := do
  if value.quote != 0 then return none
  if value.kind.isAnySeries then return some (← remaining value)
  match value.varlist? with
  | some context =>
    if !value.kind.isAnyContext then return none
    checkAccessible context
    return some (← contextSize context)
  | none => return none

/-- The elements up to a limit: a count, or another position of the series. -/
def partCount (series limit : Cell) : Query Nat := do
  let available ← remaining series
  match limit.asDecimal? with
  | some n => pure (min (Decimal.toCount n) available)
  | none =>
    if limit.kind.isAnySeries && limit.seriesId? == series.seriesId? then
      pure (min (limit.index - series.index) available)
    else fail (.invalidArg (← mold limit))

/-- The text that a value puts into a text: a block puts each of its items. -/
def insertionText (value : Cell) : Query String := do
  if value.is .block then
    let parts ← (← cellsFrom (← arrayOf value) value.index).mapM form
    pure (String.join parts)
  else form value

/-- The bytes that a value puts into a binary. -/
def insertionBytes (value : Cell) : Query (List UInt8) := do
  let refused : Query (List UInt8) := do fail (.invalidArg (← mold value))
  if value.quote != 0 then refused
  else
    match value.payload with
    | .integer b => if 0 ≤ b && b ≤ 255 then pure [UInt8.ofNat b.toNat] else refused
    | .char c => pure (Text.Utf8.encode (String.singleton c)).toList
    | _ =>
      if value.kind = .binary then
        pure ((← bytes (← arrayOf value)).toList.drop value.index)
      else if value.kind.isAnyString then pure (Text.Utf8.encode (← cellText value)).toList
      else refused

/-- The place of a value in an array from a position on, and the place behind it.  A block is
found as a run of items. -/
def findInArray (cells : List Cell) (start : Nat) (value : Cell) (strict : Bool) :
    Query (Option (Nat × Nat)) := do
  let needle ←
    if value.is .block then cellsFrom (← arrayOf value) value.index else pure [value]
  let rec search : Nat → List Cell → Query (Option (Nat × Nat))
    | _, [] => pure none
    | at_, c :: rest => do
      let here ←
        if needle.length ≤ rest.length + 1 then allEqual (equal · · strict) (c :: rest) needle
        else pure false
      if here then pure (some (at_, at_ + needle.length)) else search (at_ + 1) rest
  if needle.isEmpty then pure (some (start, start)) else search start cells

/-- The place of a list in another one from a position on, and the place behind it. -/
def findRun {α : Type} [BEq α] (hay needle : List α) (start : Nat) : Option (Nat × Nat) :=
  (findSublist? (needle.isPrefixOf ·) start hay).map fun at_ => (at_, at_ + needle.length)

/-- The characters of a text, as a search with or without regard to case compares them. -/
def searchForm (strict : Bool) (cs : List Char) : List Char :=
  if strict then cs else Text.foldChars cs

/-- The place of a value in a series from its position on, and the place behind it. -/
def findInSeries? (series value : Cell) (strict : Bool) : Query (Option (Nat × Nat)) := do
  let id ← arrayOf series
  let start := series.index
  if (← size id) ≤ start then return none
  if series.kind.isAnyArray then
    findInArray ((← cells id).toList.drop start) start value strict
  else if series.kind = .binary then
    let needle ← insertionBytes value
    pure (findRun ((← bytes id).toList.drop start) needle start)
  else
    let hay := searchForm strict ((← text id).toList.drop start)
    let needle ←
      match value.asChar? with
      | some c => pure (searchForm strict [c])
      | none => do pure (searchForm strict (← insertionText value).toList)
    pure (findRun hay needle start)

end Query

namespace Interp

/-- Elements put in front of a position of an array. -/
def splice {α : Type} (xs : Array α) (at_ : Nat) (items : List α) : Array α :=
  if xs.size ≤ at_ then xs.appendList items
  else (xs.extract 0 at_).appendList items ++ xs.extract at_ xs.size

/-- At most as many items as `part` says. -/
def bounded {α : Type} (items : List α) (part : Option Nat) : List α :=
  match part with
  | some n => items.take n
  | none => items

/-- Some items again and again. -/
def repeated {α : Type} (items : List α) (times : Nat) : List α :=
  if items.isEmpty then [] else (List.replicate times items).flatten

/-- Characters again and again.  Their encoding has to stay below `2 ^ 63` bytes. -/
def repeatedText (chars : List Char) (times : Nat) : Interp (List Char) :=
  if Bits.greatest64 < (String.ofList chars).utf8ByteSize * times then defect
  else pure (repeated chars times)

/-- The items that a value puts into an array: those of a block or group one by one, unless it goes
in whole. -/
def insertionItems (value : Cell) (only : Bool) : Interp (List Cell) := do
  if !only && (value.is .block || value.is .group) then
    let cells ← Query.cellsFrom (← Query.arrayOf value) value.index
    cells.mapM (derelativize · (Query.deriveSpecifier value none))
  else pure [{ value.copied with unevaluated := false }]

/-- Puts a value into a series and returns the place behind it.  `part` bounds the items taken from
the value, which go in `times` times. -/
def insertAt (series : Cell) (at_ : Nat) (value : Cell) (only : Bool) (part : Option Nat)
    (times : Nat) : Interp Nat := do
  let id ← Query.arrayOf series
  Query.checkMutable id
  let at_ := min at_ (← Query.size id)
  if series.kind.isAnyArray then
    let items := repeated (bounded (← insertionItems value only) part) times
    modifyCells id (splice · at_ items)
    pure (at_ + items.length)
  else if series.kind = .binary then
    let items := repeated (bounded (← Query.insertionBytes value) part) times
    modifyBytes id (splice · at_ items)
    pure (at_ + items.length)
  else
    let items ← repeatedText (bounded (← Query.insertionText value).toList part) times
    modifyText id (·.insert at_ items)
    pure (at_ + items.length)

/-- Elements taken out of an array. -/
def cut {α : Type} (xs : Array α) (start stop : Nat) : Array α :=
  xs.extract 0 start ++ xs.extract stop xs.size

/-- A new binary value. -/
def binaryCell (bytes : Array UInt8) : Interp Cell := do
  pure (Cell.series .binary (← allocBytes bytes) 0)

/-- Takes elements out of a series, and returns them as a new one of the same kind. -/
def removeSpan (series : Cell) (at_ count : Nat) : Interp Cell := do
  let id ← Query.arrayOf series
  Query.checkMutable id
  let size ← Query.size id
  let start := min at_ size
  let stop := min (at_ + count) size
  match (← Query.series id).content with
  | .array cells =>
    let removed := (cells.extract start stop).toList
    modifyCells id (cut · start stop)
    arrayCell (if series.kind.isAnyArray then series.kind else .block) removed
  | .binary bytes =>
    let removed := bytes.extract start stop
    modifyBytes id (cut · start stop)
    binaryCell removed
  | .text buffer =>
    let removed := buffer.slice start stop
    modifyText id (·.remove start stop)
    textCell series.kind removed

/-- A copy of a series from its position on, of at most `part` elements. -/
def copySeries (value : Cell) (part : Option Nat) (deep : Bool) : Interp Cell := do
  let id ← Query.arrayOf value
  let size ← Query.size id
  let start := min value.index size
  let stop := match part with
    | some n => min (start + n) size
    | none => size
  if value.kind.isAnyArray then
    let specifier := Query.deriveSpecifier value none
    let copy ←
      if deep then do
        let whole ← copyArrayDeep id start specifier
        modifyCells whole (·.shrink (stop - start))
        pure whole
      else copyArrayShallow id start stop specifier
    pure (Cell.series value.kind copy 0)
  else if value.kind = .binary then
    binaryCell ((← Query.bytes id).extract start stop)
  else textCell value.kind ((← Query.text id).slice start stop)

/-- A copy of a series or context; any other value as it is. -/
def copyValue (value : Cell) (part : Option Nat) (deep : Bool) : Interp Cell := do
  if value.quote != 0 then return value
  if value.kind.isAnySeries then return ← copySeries value part deep
  match value.varlist? with
  | some context =>
    if value.kind.isAnyContext && value.kind != .frame then
      pure (Cell.context value.kind (← copyContext context deep))
    else pure value
  | none => pure value

end Interp

end Homoicon
