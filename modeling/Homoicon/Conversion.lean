import Homoicon.Arithmetic
import Homoicon.Bits
import Homoicon.Decimal.Read
import Homoicon.Loader
import Homoicon.Mold
import Homoicon.Series.Editing
import Homoicon.Text.Blank

/-!
# Conversion

The value of another kind that a value stands for.  A conversion that would lose its meaning
fails.
-/

namespace Homoicon

namespace Query

/-- Fails because a value cannot be made into a kind. -/
def badMake {α : Type} (kind : Kind) (value : Cell) : Query α := do
  fail (.badMake kind.name (← mold value))

/-- The text of a string-like value without blanks around it. -/
def trimmedText (value : Cell) : Query String := do pure (Text.trim (← cellText value))

/-- The integer that a value stands for. -/
def toInteger (value : Cell) : Query Cell := do
  match value.payload with
  | .integer i => pure (Cell.integer i)
  | .decimal d => pure (Cell.integer (Decimal.toInteger d))
  | .char c => pure (Cell.integer c.toNat)
  | .logic b => pure (Cell.integer (if b then 1 else 0))
  | _ =>
    if !value.kind.isAnyString then badMake .integer value
    else
      match Decimal.readInt64? (← trimmedText value).toList with
      | some i => pure (Cell.integer i)
      | none => badMake .integer value

/-- The decimal or percentage that a value stands for. -/
def toDecimal (kind : Kind) (value : Cell) : Query Cell := do
  let d ←
    match value.payload with
    | .integer i => pure (Float.ofInt i)
    | .decimal d => pure d
    | _ =>
      if !value.kind.isAnyString then badMake kind value
      else
        match Decimal.read? (← trimmedText value) with
        | some d => pure d
        | none => badMake kind value
  pure { kind, payload := .decimal d }

/-- The character that a value stands for: a code, or the first of a text. -/
def toChar (value : Cell) : Query Cell := do
  match value.payload with
  | .char c => pure (Cell.char c)
  | .integer i =>
    match Arithmetic.charOfCode? i with
    | some c => pure (Cell.char c)
    | none => fail (.outOfRange (toString i))
  | _ =>
    if !value.kind.isAnyString then badMake .char value
    else
      match (← cellText value).toList with
      | c :: _ => pure (Cell.char c)
      | [] => badMake .char value

/-- Whether a text can be the name of a word. -/
def isWordText (s : String) : Bool :=
  !s.isEmpty && s.toList.all fun c =>
    !Text.isBlank c && !(['[', ']', '(', ')', '"'].contains c)

/-- The eight bytes of an integer, the highest first. -/
def integerBytes (i : Int) : List UInt8 :=
  let bits := Bits.unsigned64 i
  (List.range 8).map fun k => UInt8.ofNat (bits >>> (8 * (7 - k)))

/-- The bytes of a value. -/
def toBytes (value : Cell) : Query (List UInt8) := do
  match value.payload with
  | .integer i => pure (integerBytes i)
  | _ =>
    if value.kind.isAnyString then pure (Text.Utf8.encode (← cellText value)).toList
    else if value.kind = .binary then
      pure ((← bytes (← arrayOf value)).toList.drop value.index)
    else badMake .binary value

end Query

namespace Interp

/-- The word that a value stands for. -/
def toWord (kind : Kind) (value : Cell) : Interp Cell := do
  match if value.kind.isAnyWord then value.wordSymbol? else none with
  | some symbol => pure (Cell.word kind symbol)
  | none =>
    if !value.kind.isAnyString then Query.badMake kind value
    else
      let s ← Query.cellText value
      if Query.isWordText s then wordCell kind s else Query.badMake kind value

/-- The items of the array that a value stands for: those of another array, those of a source text,
or the value alone. -/
def toItems (value : Cell) : Interp (List Cell) := do
  if value.kind.isAnyArray then
    let cells ← Query.cellsFrom (← Query.arrayOf value) value.index
    cells.mapM (derelativize · (Query.deriveSpecifier value none))
  else if value.is .text then
    let loaded ← load (← Query.cellText value)
    Query.ask (Query.cellsFrom loaded 0)
  else pure [value.copied]

/-- The value of a kind that a value stands for. -/
def convert (kind : Kind) (value : Cell) : Interp Cell := do
  if value.quote != 0 then return ← Query.badMake kind value
  match kind with
  | .integer => Query.toInteger value
  | .decimal | .percent => Query.toDecimal kind value
  | .char => Query.toChar value
  | .logic => pure (Cell.logic value.isTruthy)
  | .binary => do binaryCell (← Query.toBytes value).toArray
  | .datatype => pure (Cell.datatype value.typeKind)
  | _ =>
    if kind.isAnyString then do
      let s ← if value.kind.isAnyString then Query.ask (Query.cellText value)
        else Query.ask (Query.form value)
      textCell kind s
    else if kind.isAnyWord then toWord kind value
    else if kind.isAnyArray then do arrayCell kind (← toItems value)
    else Query.badMake kind value

end Interp

end Homoicon
