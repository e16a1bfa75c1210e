import Homoicon.Bits
import Homoicon.Json
import Homoicon.Loader
import Homoicon.Mold

/-!
# Values as JSON

A value is written as an object with its type and its content; arrays and contexts nest, and what
has no counterpart in JSON is written as source text.  What was written comes back as the value it
was; other documents become objects, blocks and scalars.
-/

namespace Homoicon

namespace Query

/-- Whether the variables of a context can be read. -/
def isAccessible (context : SeriesId) : Query Bool := do
  if ← isLive context then pure !(← hasFlag context Flags.inaccessible) else pure false

/-- The content of a value as JSON; `nested` writes the cells inside a series or context, and
`seen` are those around the value. -/
def exchangeContent (nested : SeriesId → Cell → Query Json) (seen : List SeriesId) (c : Cell) :
    Query Json := do
  let molded : Query Json := do pure (.string (← mold c))
  if c.isQuoted then return ← molded
  if (c.seriesId? <|> c.varlist?).any seen.contains then return ← molded
  match c.payload with
  | .none => pure .null
  | .logic b => pure (.bool b)
  | .integer i => pure (.integer i)
  | .decimal d => pure (.decimal d)
  | .char ch => pure (.string (String.singleton ch))
  | .word symbol _ => do pure (.string (← spelling symbol))
  | .series id index =>
    if c.kind.isAnyArray then
      .array <$> (← cellsFrom id index).mapM (nested id)
    else if c.kind.isAnyString then .string <$> cellText c
    else molded
  | .context varlist _ =>
    if c.kind.isAnyContext && c.kind != .frame && (← isAccessible varlist) then
      let keys ← contextKeys varlist
      .object <$> keys.zipIdx.mapM fun (symbol, i) => do
        pure (← spelling symbol, ← nested varlist (← cell varlist (i + 1)))
    else molded
  | _ => molded

/-- A value as JSON.  Each step inwards sees another series, so their number bounds the depth. -/
def exchangeIn : Nat → List SeriesId → Cell → Query Json
  | 0, _, _ => throw .exhausted
  | depth + 1, seen, c => do
    let content ← exchangeContent (fun id => exchangeIn depth (id :: seen)) seen c
    pure (.object [("type", .string c.typeName), ("value", content)])

/-- A value as JSON. -/
def exchange (c : Cell) : Query Json := do
  exchangeIn ((← read).heap.slots.size + 2) [] c

end Query

namespace Interp

/-- A cell read from the source text that an exchanged value carries. -/
def loadFirst? (source : String) : Interp (Option Cell) := do
  let block ← load source
  pure (← Query.cells block)[0]?

/-- The value of a kind whose content needs no further cells; none if it has another form. -/
def taggedScalar? (kind : Kind) (content : Json) : Interp (Option Cell) := do
  match kind, content with
  | .blank, _ => pure (some Cell.blank)
  | .void, _ => pure (some Cell.void)
  | .logic, .bool b => pure (some (Cell.logic b))
  | .integer, .integer i => pure (if Bits.fits64 i then some (Cell.integer i) else none)
  | .decimal, .integer i => pure (some (Cell.decimal (Decimal.ofInteger i)))
  | .decimal, .decimal d => pure (some (Cell.decimal d))
  | _, .string s =>
    match kind, s.toList with
    | .char, [c] => pure (some (Cell.char c))
    | _, _ =>
      if kind.isAnyWord then some <$> wordCell kind s
      else if kind.isAnyString then some <$> textCell kind s
      else loadFirst? s
  | _, _ => pure none

mutual

/-- The value of a document. -/
def jsonCell : Json → Interp Cell
  | .null => pure Cell.null
  | .bool b => pure (Cell.logic b)
  | .integer i =>
    pure (if Bits.fits64 i then Cell.integer i else Cell.decimal (Decimal.ofInteger i))
  | .decimal d => pure (Cell.decimal d)
  | .string s => textCell .text s
  | .array items => do arrayCell .block (← jsonItems items)
  | .object fields => do
    match ← taggedCell? fields with
    | some c => pure c
    | none =>
      let keys ← fields.mapM fun (name, _) => intern name
      let context ← makeContext .object keys
      jsonFields context 1 fields
      pure (Cell.context .object context)

/-- The values of the items of an array; blank stands for null. -/
def jsonItems : List Json → Interp (List Cell)
  | [] => pure []
  | item :: rest => do
    let c ← jsonCell item
    pure ((if c.isNull then Cell.blank else c) :: (← jsonItems rest))

/-- Stores the values of fields in the variables of a context from a slot on. -/
def jsonFields (context : SeriesId) (slot : Nat) : List (String × Json) → Interp Unit
  | [] => pure ()
  | (_, value) :: rest => do
    storeCell context slot (← jsonCell value)
    jsonFields context (slot + 1) rest

/-- The value that fields with a type and a content stand for; none if they are something
else. -/
def taggedCell? : List (String × Json) → Interp (Option Cell)
  | [(first, .string name), (second, content)] => do
    if first != "type" || second != "value" then pure none
    else
      match Kind.ofName? name with
      | none => pure (if name == "null" then some Cell.null else none)
      | some kind =>
        match content with
        | .array _ =>
          if kind.isAnyArray then do pure (some { ← jsonCell content with kind })
          else taggedScalar? kind content
        | .object _ =>
          if kind = .object then some <$> jsonCell content else taggedScalar? kind content
        | _ => taggedScalar? kind content
  | _ => pure none

end

/-- The value of a JSON text. -/
def ofJson (library : Json.Library) (text : String) : Interp Cell := do
  match library.read text with
  | .ok document => jsonCell document
  | .error refusal => fail (.badJson refusal)

end Interp

end Homoicon
