import Homoicon.Library.Native
import Homoicon.Series.Editing
import Homoicon.Varargs

/-!
# Series

The actions on series: inserting and removing, picking and searching, and moving a position.
-/

namespace Homoicon

/-- A series at another position, as the result of a call. -/
def Cell.moved (series : Cell) (index : Nat) : Cell :=
  { series.atIndex index with unevaluated := false }

namespace Library

/-- The number of items that APPEND and INSERT take from their value. -/
def insertPart (f : FrameId) : Query (Option Nat) := do
  if !(← Query.refine f 3) then return none
  let limit ← Query.arg f 4
  match limit.asDecimal? with
  | some n => pure (some (Decimal.toCount n))
  | none => some <$> Query.remaining limit

/-- How many times APPEND and INSERT put their value in. -/
def insertTimes (f : FrameId) : Query Nat := do
  if !(← Query.refine f 6) then return 1
  pure (((← Query.arg f 7).asDecimal?.map Decimal.toCount).getD 0)

/-- APPEND and INSERT put their value at a place; the result is at a position that may depend on
the place behind it. -/
def insertWith (place : Cell → Query Nat) (result : Cell → Nat → Nat) (_ : Engine)
    (f : FrameId) : Interp Bounce := do
  let series ← Query.arg f 1
  let value ← Query.arg f 2
  if value.isNull then return ← Interp.give f series
  let only ← Query.refine f 5
  let part ← Query.ask (insertPart f)
  let times ← Query.ask (insertTimes f)
  let behind ← Interp.insertAt series (← Query.ask (place series)) value only part times
  Interp.give f (series.moved (result series behind))

/-- APPEND: puts a value at the end of a series. -/
def append : Engine → FrameId → Interp Bounce :=
  insertWith (fun series => do Query.size (← Query.arrayOf series)) (fun series _ => series.index)

/-- INSERT: puts a value in front of a position, and gives the position behind it. -/
def insert : Engine → FrameId → Interp Bounce :=
  insertWith (fun series => pure series.index) (fun _ behind => behind)

/-- Picks an element by number. -/
def pickNth (f : FrameId) (n : Int) : Interp Bounce := do
  let (picked, _) ← Path.pick (← Query.arg f 1) (Cell.integer n)
  if picked.isNull then pure .null else Interp.give f picked

/-- FIRST and SECOND. -/
def nth (n : Int) (_ : Engine) (f : FrameId) : Interp Bounce := pickNth f n

/-- LAST: the last element. -/
def last (_ : Engine) (f : FrameId) : Interp Bounce := do
  let value ← Query.arg f 1
  let n ← match value.payload with
    | .tuple bytes => pure bytes.length
    | _ => Query.ask (Query.remaining value)
  if n == 0 then pure .null else pickNth f n

/-- PICK: what a picker finds in a value. -/
def pick (_ : Engine) (f : FrameId) : Interp Bounce := do
  let (picked, _) ← Path.pick (← Query.arg f 1) (← Query.arg f 2)
  Interp.give f picked

/-- POKE: stores a value where a picker points. -/
def poke (_ : Engine) (f : FrameId) : Interp Bounce := do
  let value ← Query.arg f 3
  let _ ← Path.poke (← Query.arg f 1) (← Query.arg f 2) value
  Interp.give f value

/-- The item behind the first one that equals a value. -/
def itemAfter? (value : Cell) (strict : Bool) : List Cell → Query (Option Cell)
  | [] => pure none
  | c :: rest => do
    if ← Query.equal c value strict then pure rest.head? else itemAfter? value strict rest

/-- SELECT: the item behind a value in an array, or the variable of a context. -/
def select (_ : Engine) (f : FrameId) : Interp Bounce := do
  let series ← Query.arg f 1
  let value ← Query.arg f 2
  match if series.kind.isAnyContext then series.varlist? else none with
  | some context =>
    Query.checkAccessible context
    match if value.kind.isAnyWord then value.wordSymbol? else none with
    | none => fail (.invalidArg (← Query.mold value))
    | some symbol =>
      match ← Query.contextVar? context symbol with
      | some v => Interp.give f v
      | none => pure .null
  | none =>
    let strict ← Query.refine f 3
    match ← Query.ask (do itemAfter? value strict (← Query.items series)) with
    | some v => Interp.give f (← Interp.derelativize v (Query.deriveSpecifier series none))
    | none => pure .null

/-- FIND: the position of a value in a series, or the one behind it. -/
def find (_ : Engine) (f : FrameId) : Interp Bounce := do
  let series ← Query.arg f 1
  let value ← Query.arg f 2
  if value.isNull then return .null
  match ← Query.findInSeries? series value (← Query.refine f 3) with
  | some (start, behind) =>
    Interp.give f (series.moved (if ← Query.refine f 4 then behind else start))
  | none => pure .null

/-- The number of elements that a limit argument allows, if its refinement is used. -/
def partArg (f : FrameId) (series : Cell) (n : Nat) : Query (Option Nat) := do
  if ← Query.refine f n then some <$> Query.partCount series (← Query.arg f (n + 1))
  else pure none

/-- COPY: a copy of a value. -/
def copy (_ : Engine) (f : FrameId) : Interp Bounce := do
  let value ← Query.arg f 1
  let part ← if value.kind.isAnySeries then Query.ask (partArg f value 2) else pure none
  Interp.give f (← Interp.copyValue value part (← Query.refine f 4))

/-- TAKE from a variadic argument. -/
def takeVariadic (e : Engine) (f : FrameId) (varargs : Varargs) : Interp Bounce := do
  if (← Query.refine f 2) || (← Query.refine f 4) then fail .takeVarargs
  match ← varargs.take e with
  | none => pure .thrown
  | some v => if v.isNull then pure .null else Interp.give f v

/-- TAKE: removes one or several elements from a series and gives them. -/
def take (e : Engine) (f : FrameId) : Interp Bounce := do
  let series ← Query.arg f 1
  match series.payload with
  | .varargs varargs => takeVariadic e f varargs
  | _ =>
    let available ← Query.remaining series
    let fromEnd ← Query.refine f 4
    let place (n : Nat) : Nat := if fromEnd then series.index + available - n else series.index
    if ← Query.refine f 2 then
      let limit := ((← Query.arg f 3).asDecimal?.map Decimal.toCount).getD 1
      let n := min limit available
      Interp.give f (← Interp.removeSpan series (place n) n)
    else if available == 0 then pure .null
    else
      let (item, _) ← Path.pick (series.moved (place 1)) (Cell.integer 1)
      let _ ← Interp.removeSpan series (place 1) 1
      Interp.give f item

/-- HEAD: the beginning of a series. -/
def head (_ : Engine) (f : FrameId) : Interp Bounce := do
  Interp.give f ((← Query.arg f 1).moved 0)

/-- TAIL: the end of a series. -/
def tail (_ : Engine) (f : FrameId) : Interp Bounce := do
  let series ← Query.arg f 1
  Interp.give f (series.moved (← Query.size (← Query.arrayOf series)))

/-- Moves the position of a series within its bounds; the number of the place is reckoned in 64 bits
before. -/
def shift (f : FrameId) (offset : Int) : Interp Bounce := do
  let series ← Query.arg f 1
  let size ← Query.size (← Query.arrayOf series)
  let index := max 0 (min (size : Int) (← exact64 (series.index + offset)))
  Interp.give f (series.moved index.toNat)

/-- NEXT and BACK. -/
def shiftBy (offset : Int) (_ : Engine) (f : FrameId) : Interp Bounce := shift f offset

/-- The integer part of a number argument. -/
def integerArg (c : Cell) (default : Int) : Int := (c.asDecimal?.map Decimal.toInteger).getD default

/-- SKIP: a position some elements further. -/
def skip (_ : Engine) (f : FrameId) : Interp Bounce := do
  let offset ← Query.arg f 2
  match offset.payload with
  | .logic b => shift f (if b then 1 else 0)
  | _ => shift f (integerArg offset 0)

/-- AT: a position by number, where 1 is the position itself. -/
def at_ (_ : Engine) (f : FrameId) : Interp Bounce := do
  let n := integerArg (← Query.arg f 2) 1
  shift f (if 0 < n then n - 1 else n)

/-- INDEX?: the number of a position. -/
def index (_ : Engine) (f : FrameId) : Interp Bounce := do
  Interp.give f (Cell.integer ((← Query.arg f 1).index + 1))

/-- LENGTH?: the number of elements. -/
def length (_ : Engine) (f : FrameId) : Interp Bounce := do
  match ← Query.lengthOf? (← Query.arg f 1) with
  | some n => Interp.give f (Cell.integer n)
  | none => Interp.refuseArg f 1

/-- HEAD?: whether a series is at its beginning. -/
def isHead (_ : Engine) (f : FrameId) : Interp Bounce := do
  Interp.giveLogic f ((← Query.arg f 1).index == 0)

/-- TAIL?: whether nothing is left. -/
def isTail (_ : Engine) (f : FrameId) : Interp Bounce := do
  let series ← Query.arg f 1
  match series.payload with
  | .varargs varargs => Interp.giveLogic f (← Query.ask varargs.atEnd)
  | _ => Interp.giveLogic f ((← Query.remaining series) == 0)

/-- EMPTY?: whether there is nothing in a value. -/
def isEmpty (_ : Engine) (f : FrameId) : Interp Bounce := do
  let value ← Query.arg f 1
  if value.isNull || value.isBlank then Interp.giveLogic f true
  else Interp.giveLogic f ((← Query.lengthOf? value) == some 0)

/-- CLEAR: removes everything from a position on. -/
def clear (_ : Engine) (f : FrameId) : Interp Bounce := do
  let series ← Query.arg f 1
  let _ ← Interp.removeSpan series series.index (← Query.remaining series)
  Interp.give f series

/-- REMOVE: removes elements from a position on. -/
def remove (_ : Engine) (f : FrameId) : Interp Bounce := do
  let series ← Query.arg f 1
  let n := (← Query.ask (partArg f series 2)).getD 1
  let _ ← Interp.removeSpan series series.index n
  Interp.give f series

/-- The spec of APPEND and INSERT. -/
def insertSpec : String :=
  "series [any-series!] value [<opt> any-value!] /part limit [any-number! any-series!] " ++
    "/only /dup count [any-number!]"

/-- Actions on series. -/
def seriesActions : List Native :=
  [{ name := "append", spec := insertSpec, run := append },
    { name := "insert", spec := insertSpec, run := insert },
    { name := "first", spec := "value [<blank> any-series! tuple! pair!]", run := nth 1 },
    { name := "second", spec := "value [<blank> any-series! tuple! pair!]", run := nth 2 },
    { name := "last", spec := "value [<blank> any-series! tuple!]", run := last },
    { name := "pick", spec := "location [<blank> any-value!] picker [any-value!]", run := pick },
    { name := "poke",
      spec := "location [any-value!] picker [any-value!] value [<opt> any-value!]", run := poke },
    { name := "select",
      spec := "series [<blank> any-array! any-context!] value [any-value!] /case", run := select },
    { name := "find", spec := "series [<blank> any-series!] value [<opt> any-value!] /case /tail",
      run := find },
    { name := "copy", spec := "value [any-value!] /part limit [any-number! any-series!] /deep",
      run := copy },
    { name := "take",
      spec := "series [<blank> any-series! varargs!] /part limit [any-number!] /last",
      run := take },
    { name := "head", spec := "series [any-series!]", run := head },
    { name := "tail", spec := "series [any-series!]", run := tail },
    { name := "next", spec := "series [any-series!]", run := shiftBy 1 },
    { name := "back", spec := "series [any-series!]", run := shiftBy (-1) },
    { name := "skip", spec := "series [any-series!] offset [any-number! logic!]", run := skip },
    { name := "at", spec := "series [any-series!] index [any-number!]", run := at_ },
    { name := "index?", spec := "series [<blank> any-series!]", run := index },
    { name := "length?", spec := "series [<blank> any-series! any-context!]", run := length },
    { name := "head?", spec := "series [any-series!]", run := isHead },
    { name := "tail?", spec := "series [any-series! varargs!]", run := isTail },
    { name := "empty?", spec := "series [<opt> any-series! any-context! blank!]", run := isEmpty },
    { name := "clear", spec := "series [<blank> any-series!]", run := clear },
    { name := "remove", spec := "series [any-series!] /part limit [any-number! any-series!]",
      run := remove }]

end Library

end Homoicon
