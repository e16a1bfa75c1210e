import Homoicon.Bits
import Homoicon.Frame.Call
import Homoicon.Mold

/-!
# One step of a path

Picking from a value and poking into it.  Series and contexts are changed in place; a pair, tuple
or date comes back changed, to be written where it was found.
-/

namespace Homoicon

/-- Where a picked value lives. -/
inductive Place where
  | variable_ (r : VarRef)
  | slot (array : SeriesId) (index : Nat)
  | nowhere
deriving Repr, DecidableEq, Inhabited

/-- What one step did. -/
inductive PathStep where
  | picked (value : Cell) (place : Place)
  /-- The value was changed in place. -/
  | poked
  /-- The changed value, to be written back. -/
  | immediate (value : Cell)
  | unhandled
deriving Inhabited

namespace Query

/-- Fails for a series that may not be changed. -/
def checkMutable (id : SeriesId) : Query Unit := do
  if ← hasFlag id Flags.locked then fail .protectedSeries

/-- A part by its name or its number. -/
def componentIndex? (picker : Cell) (names : List String) : Query (Option Nat) := do
  match picker.asInteger? with
  | some n =>
    pure (if 1 ≤ n && n ≤ names.length then some (n.toNat - 1) else none)
  | none =>
    match picker.wordSymbol? with
    | some symbol =>
      let name ← lower symbol
      let i := names.findIdx (· == name)
      pure (if i < names.length then some i else none)
    | none => pure none

/-- The slot after the first word of an array, from a position on, that has the picker's name. -/
def selectSlot? (array : SeriesId) (start : Nat) (picker : Cell) : Query (Option Nat) := do
  let symbols := (← read).symbols
  let wanted := picker.wordSymbol?.map symbols.canon
  let cells ← cells array
  let found := (cells.toList.drop start).findIdx fun c =>
    c.quote == 0 && c.kind.isAnyWord && c.wordSymbol?.map symbols.canon == wanted
  pure (if start + found + 1 < cells.size then some (start + found + 1) else none)

end Query

namespace Path

/-- The place `n` steps from a position, where 1 is the position itself, reckoned in 64 bits. -/
def place (start : Nat) (n : Int) : Interp Int := do
  exact64 ((← exact64 (start + n)) - 1)

/-- Steps into an array by number, or by the word before the wanted item. -/
def arrayStep (current picker : Cell) (setval : Option Cell) : Interp PathStep := do
  let array ← Query.arrayOf current
  let start := current.index
  let size ← Query.size array
  let access (slot : Nat) : Interp PathStep := do
    match setval with
    | none =>
      let c ← Query.cell array slot
      let value ← Interp.derelativize c (Query.deriveSpecifier current none)
      pure (.picked value (.slot array slot))
    | some value =>
      if value.isNull then fail (.needNonNull (← Query.mold picker))
      Query.checkMutable array
      Interp.moveCell array slot value
      pure .poked
  match picker.asInteger? with
  | some n =>
    let at_ ← place start n
    if n < 1 || (size : Int) ≤ at_ then
      if setval.isSome then fail (.outOfRange (toString n))
      pure (.picked Cell.null .nowhere)
    else access at_.toNat
  | none =>
    if picker.kind.isAnyWord && picker.quote == 0 then
      match ← Query.selectSlot? array start picker with
      | some slot => access slot
      | none => pure (if setval.isSome then .unhandled else .picked Cell.null .nowhere)
    else pure .unhandled

/-- Steps into a text by number. -/
def stringStep (current picker : Cell) (setval : Option Cell) : Interp PathStep := do
  match picker.asInteger? with
  | none => pure .unhandled
  | some n =>
    let id ← Query.arrayOf current
    let at_ ← place current.index n
    match setval with
    | none =>
      if n < 1 then return .picked Cell.null .nowhere
      match (← Query.series id).content with
      | .text buffer =>
        match buffer.get? at_.toNat with
        | some c => return .picked (Cell.char c) .nowhere
        | none => return .picked Cell.null .nowhere
      | _ => return .picked Cell.null .nowhere
    | some value =>
      match value.asChar? with
      | none => fail (.invalidArg (← Query.mold value))
      | some c =>
        Query.checkMutable id
        if n < 1 || ((← Query.text id).size : Int) ≤ at_ then fail (.outOfRange (toString n))
        let i := at_.toNat
        Interp.modifyText id fun b => (b.remove i (i + 1)).insert i [c]
        pure .poked

/-- Steps into bytes by number. -/
def binaryStep (current picker : Cell) (setval : Option Cell) : Interp PathStep := do
  match picker.asInteger? with
  | none => pure .unhandled
  | some n =>
    let id ← Query.arrayOf current
    let at_ ← place current.index n
    match setval with
    | none =>
      if n < 1 then return .picked Cell.null .nowhere
      match (← Query.series id).content with
      | .binary bytes =>
        match bytes[at_.toNat]? with
        | some b => return .picked (Cell.integer b.toNat) .nowhere
        | none => return .picked Cell.null .nowhere
      | _ => return .picked Cell.null .nowhere
    | some value =>
      match value.asInteger? with
      | none => fail (.outOfRange (← Query.mold value))
      | some b =>
        if b < 0 || 255 < b then fail (.outOfRange (← Query.mold value))
        Query.checkMutable id
        let size := (← Query.bytes id).size
        if n < 1 || (size : Int) ≤ at_ then fail (.outOfRange (toString n))
        Interp.modifyBytes id (·.setIfInBounds at_.toNat (UInt8.ofNat b.toNat))
        pure .poked

/-- Steps into a context by name. -/
def contextStep (current picker : Cell) (setval : Option Cell) : Interp PathStep := do
  match current.varlist? with
  | none => pure .unhandled
  | some context =>
    Query.checkAccessible context
    match picker.wordSymbol? with
    | none => pure .unhandled
    | some symbol =>
      if !picker.kind.isAnyWord then return .unhandled
      match ← Query.findKey? context symbol with
      | none => pure .unhandled
      | some index =>
        let r : VarRef := ⟨context, index⟩
        match setval with
        | none => pure (.picked (← Query.varContent r) (.variable_ r))
        | some value =>
          Interp.writeVar r value
          pure .poked

/-- Steps into a pair. -/
def pairStep (current picker : Cell) (setval : Option Cell) : Interp PathStep := do
  match current.payload with
  | .pair id =>
    match ← Query.componentIndex? picker ["x", "y"] with
    | none => pure .unhandled
    | some i =>
      match setval with
      | none => pure (.picked (← Query.cell id i) .nowhere)
      | some value =>
        if !value.kind.isAnyNumber then fail (.invalidArg (← Query.mold value))
        let x ← if i == 0 then pure value.copied else Query.ask (Query.cell id 0)
        let y ← if i == 1 then pure value.copied else Query.ask (Query.cell id 1)
        let pair ← Interp.pairCell x y
        pure (.immediate { current with payload := pair.payload })
  | _ => pure .unhandled

/-- Bytes with one of them replaced; zeros fill the gap behind the end. -/
def pokeByte (bytes : List UInt8) (i : Nat) (b : UInt8) : List UInt8 :=
  (bytes ++ List.replicate (i + 1 - bytes.length) 0).set i b

/-- Steps into a tuple by number. -/
def tupleStep (current picker : Cell) (setval : Option Cell) : Interp PathStep := do
  match current.payload, picker.asInteger? with
  | .tuple bytes, some n =>
    match setval with
    | none =>
      if 1 ≤ n then
        match bytes[n.toNat - 1]? with
        | some b => pure (.picked (Cell.integer b.toNat) .nowhere)
        | none => pure (.picked Cell.null .nowhere)
      else pure (.picked Cell.null .nowhere)
    | some value =>
      match value.asInteger? with
      | none => fail (.outOfRange (← Query.mold value))
      | some b =>
        if b < 0 || 255 < b then fail (.outOfRange (← Query.mold value))
        if n < 1 || 8 < n then fail (.outOfRange (toString n))
        let changed := pokeByte bytes (n.toNat - 1) (UInt8.ofNat b.toNat)
        pure (.immediate { current with payload := .tuple changed })
  | _, _ => pure .unhandled

/-- Steps into a date. -/
def dateStep (current picker : Cell) (setval : Option Cell) : Interp PathStep := do
  match current.payload with
  | .date d =>
    let part ← Query.componentIndex? picker ["year", "month", "day", "time"]
    match setval with
    | none =>
      match part with
      | some 0 => pure (.picked (Cell.integer d.year) .nowhere)
      | some 1 => pure (.picked (Cell.integer d.month) .nowhere)
      | some 2 => pure (.picked (Cell.integer d.day) .nowhere)
      | some 3 =>
        match d.time with
        | some t => pure (.picked (Cell.time t) .nowhere)
        | none => pure (.picked Cell.null .nowhere)
      | _ => pure .unhandled
    | some value =>
      match part with
      | some i =>
        if i == 3 then return .unhandled
        match value.asInteger? with
        | none => fail (.invalidArg (← Query.mold value))
        | some v =>
          if i == 0 then
            pure (.immediate { current with
              payload := .date { d with year := Bits.wrap32 v } })
          else if i == 1 && 1 ≤ v && v ≤ 12 then
            pure (.immediate { current with payload := .date { d with month := v.toNat } })
          else if i == 2 && 1 ≤ v && v ≤ 31 then
            pure (.immediate { current with payload := .date { d with day := v.toNat } })
          else fail (.outOfRange (toString v))
      | none => pure .unhandled
  | _ => pure .unhandled

/-- Steps into a time, which cannot be poked. -/
def timeStep (current picker : Cell) (setval : Option Cell) : Interp PathStep := do
  match current.payload, setval with
  | .time nanoseconds, none =>
    let seconds := nanoseconds.tdiv 1000000000
    match ← Query.componentIndex? picker ["hour", "minute", "second"] with
    | some 0 => pure (.picked (Cell.integer (seconds.tdiv 3600)) .nowhere)
    | some 1 => pure (.picked (Cell.integer ((seconds.tdiv 60).tmod 60)) .nowhere)
    | some 2 => pure (.picked (Cell.integer (seconds.tmod 60)) .nowhere)
    | _ => pure .unhandled
  | _, _ => pure .unhandled

/-- One step from a value; a pick if there is nothing to store.  Quoting is looked through. -/
def step (current picker : Cell) (setval : Option Cell) : Interp PathStep := do
  let current ← Query.unquotify current current.quoteDepth
  let kind := current.kind
  if kind.isAnyArray then arrayStep current picker setval
  else if kind.isAnyString then stringStep current picker setval
  else if kind = .binary then binaryStep current picker setval
  else if kind.isAnyContext then contextStep current picker setval
  else
    match kind with
    | .pair => pairStep current picker setval
    | .tuple => tupleStep current picker setval
    | .date => dateStep current picker setval
    | .time => timeStep current picker setval
    | _ => pure .unhandled

/-- The value a picker finds, and where it lives. -/
def pick (current picker : Cell) : Interp (Cell × Place) := do
  match ← step current picker none with
  | .picked value place => pure (value, place)
  | _ => fail (.badPathPick (← Query.mold picker))

/-- Stores a value where a picker points; a changed value comes back if it is to be written. -/
def poke (current picker value : Cell) : Interp (Option Cell) := do
  match ← step current picker (some value) with
  | .poked => pure none
  | .immediate updated => pure (some updated)
  | _ => fail (.badPathPoke (← Query.mold picker))

end Path

end Homoicon
