import Homoicon.Json

/-!
# Reading JSON byte by byte

A cursor over the bytes of a JSON text.  An error gives the line and the number of bytes before it
in that line, and some errors count the byte that is looked at as well.
-/

namespace Homoicon.Json

/-- Why a text is no JSON document. -/
inductive Cause where
  | endInList
  | endInObject
  | endInString
  | endInValue
  | expectedColon
  | expectedListEnd
  | expectedObjectEnd
  | expectedIdentifier
  | expectedValue
  | invalidEscape
  | invalidNumber
  | numberOutOfRange
  | controlCharacter
  | keyNotString
  | loneSurrogate
  | trailingComma
  | trailingCharacters
  | unfinishedHexEscape
  | nestedTooDeep
deriving Repr, DecidableEq, Inhabited

/-- The wording of a cause. -/
def Cause.message : Cause → String
  | endInList => "EOF while parsing a list"
  | endInObject => "EOF while parsing an object"
  | endInString => "EOF while parsing a string"
  | endInValue => "EOF while parsing a value"
  | expectedColon => "expected `:`"
  | expectedListEnd => "expected `,` or `]`"
  | expectedObjectEnd => "expected `,` or `\x7d`"
  | expectedIdentifier => "expected ident"
  | expectedValue => "expected value"
  | invalidEscape => "invalid escape"
  | invalidNumber => "invalid number"
  | numberOutOfRange => "number out of range"
  | controlCharacter => "control character (\\u0000-\\u001F) found while parsing a string"
  | keyNotString => "key must be a string"
  | loneSurrogate => "lone leading surrogate in hex escape"
  | trailingComma => "trailing comma"
  | trailingCharacters => "trailing characters"
  | unfinishedHexEscape => "unexpected end of hex escape"
  | nestedTooDeep => "recursion limit exceeded"

/-- A refused text: the cause and where it was found. -/
structure Refusal where
  cause : Cause
  line : Nat
  column : Nat
deriving Repr, DecidableEq, Inhabited

/-- The report of a refusal. -/
def Refusal.message (r : Refusal) : String :=
  r.cause.message ++ " at line " ++ toString r.line ++ " column " ++ toString r.column

/-- A place in a text. -/
structure Cursor where
  rest : List UInt8
  line : Nat := 1
  /-- The bytes of the line that lie before. -/
  column : Nat := 0
deriving Inhabited

namespace Cursor

/-- The cursor behind the current byte; at the end it stays. -/
def next (c : Cursor) : Cursor :=
  match c.rest with
  | [] => c
  | b :: rest =>
    if b == 10 then { rest, line := c.line + 1, column := 0 }
    else { rest, line := c.line, column := c.column + 1 }

/-- The cursor some bytes further. -/
def advance : Nat → Cursor → Cursor
  | 0, c => c
  | n + 1, c => advance n c.next

end Cursor

/-- A computation that reads on from a cursor. -/
abbrev Reader := StateT Cursor (Except Refusal)

namespace Reader

/-- Refuses the text at the cursor. -/
def refuse {α : Type} (cause : Cause) : Reader α := fun c =>
  .error ⟨cause, c.line, c.column⟩

/-- Refuses the text because of the current byte. -/
def refuseHere {α : Type} (cause : Cause) : Reader α := fun c =>
  let c := c.next
  .error ⟨cause, c.line, c.column⟩

/-- The current byte. -/
def peek? : Reader (Option UInt8) := do pure (← get).rest.head?

/-- The current byte, or 0 at the end. -/
def peek : Reader UInt8 := do pure ((← peek?).getD 0)

/-- Passes the current byte. -/
def eat : Reader Unit := modify Cursor.next

/-- Takes the current byte. -/
def next? : Reader (Option UInt8) := do
  let b ← peek?
  eat
  pure b

/-- The number of bytes left, which bounds every loop. -/
def fuel : Reader Nat := do pure ((← get).rest.length + 1)

/-- Whether a byte is white space. -/
def isSpace (b : UInt8) : Bool := b == 32 || b == 10 || b == 9 || b == 13

/-- Passes white space and looks at what follows. -/
def skipSpace : Reader (Option UInt8) := do
  modify fun c => Cursor.advance (c.rest.takeWhile isSpace).length c
  peek?

/-- Whether a byte is a decimal digit. -/
def isDigit (b : UInt8) : Bool := 48 ≤ b && b ≤ 57

/-- Passes all digits, and tells how many there were. -/
def skipDigits : Reader Nat := do
  let count := ((← get).rest.takeWhile isDigit).length
  modify (Cursor.advance count)
  pure count

end Reader

end Homoicon.Json
