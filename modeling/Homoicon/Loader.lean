import Homoicon.Context
import Homoicon.Node.Parser
import Homoicon.Quoting

/-!
# Loading source text

Turns the tree of a source text into cells on the heap, and binds its words to the user's
variables.
-/

namespace Homoicon

/-- The kind of an array with some shape and mark. -/
def Shape.kind (shape : Shape) (mark : Mark) : Kind :=
  let base := match shape with
    | .block => Kind.block
    | .group => Kind.group
    | .path => Kind.path
  base.withMark mark

/-- The kind of a string-like literal. -/
def TextForm.kind : TextForm → Kind
  | .text => .text
  | .file => .file
  | .url => .url
  | .tag => .tag
  | .email => .email
  | .issue => .issue

namespace Interp

/-- Passes on what scanning found, with its error as one of the machine. -/
def ofScan {α : Type} : Scan α → Interp α
  | .ok a => pure a
  | .error (.refused e) => fail (.scan e)
  | .error .defect => defect

/-- The value of `#[name]`. -/
def constructCell (name : String) : Interp Cell :=
  match name with
  | "void" => pure Cell.void
  | "true" => pure (Cell.logic true)
  | "false" => pure (Cell.logic false)
  | "blank" | "none" => pure Cell.blank
  | other => fail (.unknownConstruct other)

/-- The value of a token. -/
def lexemeCell : Lexeme → Interp Cell
  | .word name mark => wordCell (Kind.word.withMark mark) name
  | .integer i => pure (Cell.integer i)
  | .decimal d => pure (Cell.decimal d)
  | .percent d => pure { kind := .percent, payload := .decimal d }
  | .money d => pure { kind := .money, payload := .decimal d }
  | .char c => pure (Cell.char c)
  | .text form s => textCell form.kind s
  | .binary bytes => do pure (Cell.series .binary (← allocBytes bytes.toArray) 0)
  | .pair x y integral =>
    if integral then
      pairCell (Cell.integer (Decimal.toInteger x)) (Cell.integer (Decimal.toInteger y))
    else pairCell (Cell.decimal x) (Cell.decimal y)
  | .tuple bytes => pure { kind := .tuple, payload := .tuple bytes }
  | .time n => pure (Cell.time n)
  | .date year month day =>
    pure { kind := .date, payload := .date (.ofDay year month.toNat day.toNat) }
  | .blank => pure Cell.blank
  | .bar => pure Cell.bar
  | .construct name => constructCell name
  | .opening .. | .closing .. | .quote _ | .slash | .setMark =>
    throw (.error
      { category := .syntactic, id := "scan-invalid", message := "misplaced delimiter" })

mutual

/-- The value of a tree of source text. -/
def nodeCell : Node → Interp Cell
  | .scalar lexeme => lexemeCell lexeme
  | .quoted depth node => do quotify (← nodeCell node) depth
  | .array shape mark items => do arrayCell (shape.kind mark) (← itemCells items)

/-- The value of an item of an array. -/
def itemCell : Item → Interp Cell
  | .mk node newline => do
    let c ← nodeCell node
    pure (if newline then { c with newline := true } else c)

/-- The values of some items. -/
def itemCells : List Item → Interp (List Cell)
  | [] => pure []
  | item :: rest => do
    let c ← itemCell item
    pure (c :: (← itemCells rest))

end

/-- Scans a source text into a new block whose words refer to nothing. -/
def scan (source : String) : Interp SeriesId := do
  let items ← ofScan (Node.scan source)
  allocArray (← itemCells items)

/-- Scans a source text and binds its words to the user's variables. -/
def load (source : String) : Interp SeriesId := do
  let block ← scan source
  bindUser block
  pure block

end Interp

end Homoicon
