import Homoicon.Calendar
import Homoicon.Decimal.Layout
import Homoicon.Param
import Homoicon.Quoting
import Homoicon.Token.Number

/-!
# Molding and forming

The text of a value.  Molded text is source code for the value; formed text is for people and
leaves out delimiters.  A series that is being written is not written again inside itself: there
it shows as `...`, which is what makes the writing of cyclic values end.
-/

namespace Homoicon

/-- The text written so far, the series being written, and the depth of indentation. -/
structure Molder where
  out : String := ""
  active : List SeriesId := []
  form : Bool := false
  indent : Nat := 0
deriving Inhabited

namespace Molder

/-- Adds text. -/
def write (m : Molder) (s : String) : Molder := { m with out := m.out ++ s }

/-- Begins a new line at the current indentation. -/
def newline (m : Molder) : Molder :=
  m.write ("\n" ++ String.ofList (List.replicate (4 * m.indent) ' '))

end Molder

namespace Mold

/-- A number of at least two digits. -/
def twoDigits (n : Int) : String :=
  if 0 ≤ n && n < 10 then "0" ++ toString n else toString n

/-- The text of a time in nanoseconds. -/
def timeText (nanoseconds : Int) : String :=
  let sign := if nanoseconds < 0 then "-" else ""
  let nanos : Int := nanoseconds.natAbs
  let seconds := nanos.tdiv 1000000000
  let fraction := nanos.tmod 1000000000
  let clock := sign ++ toString (seconds.tdiv 3600) ++ ":" ++
    twoDigits ((seconds.tdiv 60).tmod 60) ++ ":" ++ twoDigits (seconds.tmod 60)
  if fraction == 0 then clock
  else
    let digits := (toString fraction).toList
    let padded := List.replicate (9 - digits.length) '0' ++ digits
    clock ++ "." ++ String.ofList (padded.reverse.dropWhile (· == '0')).reverse

/-- Whether a time has a text: without its sign it must fit into 64 bits. -/
def hasText (nanoseconds : Int) : Bool := Bits.fits64 nanoseconds.natAbs

/-- The text of a date. -/
def dateText (d : Date) : String :=
  toString d.day ++ "-" ++ (Calendar.monthNames[d.month - 1]?).getD "???" ++ "-" ++
    toString d.year ++
    (match d.time with
      | some t => "/" ++ timeText t
      | none => "")

/-- A text without the given ending, taken off as often as it stands there. -/
def trimEnd (ending : List Char) (s : String) : String :=
  let back := ending.reverse
  let rec go : Nat → List Char → List Char
    | 0, cs => cs
    | steps + 1, cs => if back.isPrefixOf cs then go steps (cs.drop back.length) else cs
  String.ofList (go s.length s.toList.reverse).reverse

/-- The text of a percentage. -/
def percentText (d : Float) : String :=
  trimEnd ['.', '0'] (Decimal.text (d * 100.0)) ++ "%"

/-- The text of an amount of money. -/
def moneyText (d : Float) : String :=
  (if d < 0 then "-" else "") ++ "$" ++ Decimal.fixedText 2 d.abs

/-- How a character is written in a quoted text. -/
def escapeChar (c : Char) : List Char :=
  if c == '\n' then ['^', '/']
  else if c == '\t' then ['^', '-']
  else if c == '^' then ['^', '^']
  else if c == Char.ofNat 0 then ['^', '@']
  else if c == '"' then ['^', '"']
  else [c]

/-- A text in quotes. -/
def quotedText (cs : List Char) : String :=
  "\"" ++ String.ofList (cs.flatMap escapeChar) ++ "\""

/-- A byte as two hexadecimal digits. -/
def hexByte (b : UInt8) : String :=
  let digit (n : Nat) : Char := if n < 10 then Char.ofNat (48 + n) else Char.ofNat (55 + n)
  String.ofList [digit (b.toNat / 16), digit (b.toNat % 16)]

/-- Bytes between braces. -/
def binaryText (bytes : List UInt8) : String :=
  "#\x7b" ++ String.join (bytes.map hexByte) ++ "\x7d"

/-- A word with its mark. -/
def wordText (mark : Mark) (spelling : String) : String :=
  match mark with
  | .plain => spelling
  | .set => spelling ++ ":"
  | .get => ":" ++ spelling
  | .sym => "@" ++ spelling

/-- A string-like value as source code. -/
def stringText (kind : Kind) (text : String) : String :=
  match kind with
  | .text => quotedText text.toList
  | .file => if text.toList.contains ' ' then "%\"" ++ text ++ "\"" else "%" ++ text
  | .tag => "<" ++ text ++ ">"
  | .issue => "#" ++ text
  | _ => text

/-- A parameter as an action shows it. -/
def paramText (spelling : String) : ParamClass → String
  | .refinement => "/" ++ spelling
  | .hardQuote => ":" ++ spelling
  | .softQuote => "'" ++ spelling
  | _ => spelling

/-- The brackets of an array. -/
def brackets (kind : Kind) : String × String :=
  if kind.isAnyGroup then ("(", ")") else if kind.isAnyPath then ("", "") else ("[", "]")

/-- The text of a value that holds no other values; `none` for the others, and for a time that has
no text. -/
def scalarText? (form : Bool) (c : Cell) : Option String :=
  match c.kind, c.payload with
  | .«end», _ => some ""
  | .null, _ => some (if form then "" else "null")
  | .void, _ => some "#[void]"
  | .blank, _ => some "_"
  | .bar, _ => some "|"
  | .logic, .logic b =>
    let word := if b then "true" else "false"
    some (if form then word else "#[" ++ word ++ "]")
  | .integer, .integer i => some (toString i)
  | .decimal, .decimal d => some (Decimal.text d)
  | .percent, .decimal d => some (percentText d)
  | .money, .decimal d => some (moneyText d)
  | .char, .char ch =>
    some (if form then String.singleton ch else "#" ++ quotedText [ch])
  | .tuple, .tuple bytes => some (String.intercalate "." (bytes.map fun b => toString b.toNat))
  | .time, .time n => if hasText n then some (timeText n) else none
  | .date, .date d => if d.time.all hasText then some (dateText d) else none
  | .datatype, .datatype k => some k.name
  | .typeset, .typeset t =>
    let kinds := t.kinds.toList.filter (· != .«end»)
    some ("make typeset! [" ++ String.intercalate " " (kinds.map Kind.name) ++ "]")
  | .handle, .handle h => some ("#[handle! " ++ toString h ++ "]")
  | _, _ => none

/-- A way to write a value, used for the values inside another one. -/
abbrev Writer := Cell → Molder → Query Molder

/-- Writes the parts of a path; blanks are its empty parts. -/
def pathItems (write : Writer) : List Cell → Bool → Molder → Query Molder
  | [], _, m => pure m
  | c :: rest, first, m => do
    let m := if first then m else m.write "/"
    let m ← if c.isBlank then pure m else write c m
    pathItems write rest false m

/-- Writes the items of a block or group, and tells whether one began a line. -/
def blockItems (write : Writer) : List Cell → Bool → Bool → Molder → Query (Molder × Bool)
  | [], _, broke, m => pure (m, broke)
  | c :: rest, first, broke, m => do
    let m := if c.newline then m.newline else if first then m else m.write " "
    let m ← write c m
    blockItems write rest false (broke || c.newline) m

/-- Writes an array with its brackets and mark. -/
def array (write : Writer) (kind : Kind) (id : SeriesId) (index : Nat) (m : Molder) :
    Query Molder := do
  let (opening, closing) := brackets kind
  let m := match kind.mark with
    | .get => m.write ":"
    | .sym => m.write "@"
    | _ => m
  if m.active.contains id then return m.write (opening ++ "..." ++ closing)
  let outer := m.active
  let items := (← Query.cells id).toList.drop index
  let m := { m.write opening with active := id :: outer, indent := m.indent + 1 }
  let (m, broke) ←
    if kind.isAnyPath then do pure (← pathItems write items true m, false)
    else blockItems write items true false m
  let m := { m with indent := m.indent - 1 }
  let m := if broke then m.newline else m
  let m := { m.write closing with active := outer }
  return if kind.mark = .set then m.write ":" else m

/-- Writes the variables in the given slots.  Of a call neither locals nor, while it runs, unused
refinements are shown. -/
def fields (write : Writer) (kind : Kind) (varlist : SeriesId) (running : Bool) :
    List Nat → Bool → Molder → Query Molder
  | [], _, m => pure m
  | i :: rest, first, m => do
    let key ← Query.key varlist i
    let value ← Query.cell varlist i
    let isLocal := key.paramClass = .local || key.paramClass = .return
    if kind = .frame && (isLocal ||
        (running && key.paramClass = .refinement && value.isNull)) then
      fields write kind varlist running rest first m
    else
      let m := if first then m else m.write " "
      let m ← match key.symbol with
        | some symbol => do pure (m.write ((← Query.spelling symbol) ++ ": "))
        | none => pure m
      let m := if value.quote == 0 && (value.kind.isAnyWord || value.kind.isAnyPath)
        then m.write "'" else m
      let m ← write value m
      fields write kind varlist running rest false m

/-- Writes a context with its visible variables. -/
def context (write : Writer) (kind : Kind) (varlist : SeriesId) (phase : Option Action)
    (m : Molder) : Query Molder := do
  if !(← Query.isLive varlist) then
    return m.write ("#[" ++ kind.name ++ " inaccessible]")
  if ← Query.hasFlag varlist Flags.inaccessible then
    return m.write ("#[" ++ kind.name ++ " inaccessible]")
  if m.active.contains varlist then return m.write ("make " ++ kind.name ++ " [...]")
  let outer := m.active
  let m := { m.write ("make " ++ kind.name ++ " [") with active := varlist :: outer }
  let count ← Query.contextSize varlist
  let m ← fields write kind varlist phase.isSome (List.range' 1 count) true m
  return { m.write "]" with active := outer }

/-- The text of a string-like value from a position on. -/
def stringContent (id : SeriesId) (index : Nat) : Query String := do
  match (← Query.series id).content with
  | .text buffer => pure (buffer.slice index buffer.size)
  | _ => pure ""

/-- Writes an unquoted value that has no text of its own: one that refers to a series, or a time that
breaks the machine. -/
def compound (write : Writer) (c : Cell) (m : Molder) : Query Molder := do
  let other := m.write ("#[" ++ c.kind.name ++ "]")
  match c.payload with
  | .pair id =>
    if c.kind = .pair then
      let m ← write (← Query.cell id 0) m
      write (← Query.cell id 1) (m.write "x")
    else pure other
  | .word symbol _ =>
    if c.kind.isAnyWord then
      pure (m.write (wordText c.kind.mark (← Query.spelling symbol)))
    else pure other
  | .series id index =>
    if c.kind.isAnyArray then array write c.kind id index m
    else if c.kind.isAnyString || c.kind = .issue then
      let text ← stringContent id index
      pure (m.write (if m.form then text else stringText c.kind text))
    else if c.kind = .binary then
      pure (m.write (binaryText ((← Query.bytes id).toList.drop index)))
    else if c.kind = .bitset then
      pure (m.write ("make bitset! " ++ binaryText (← Query.bytes id).toList))
    else if c.kind = .map then array write .block id 0 (m.write "make map! ")
    else pure other
  | .context varlist phase =>
    if c.kind.isAnyContext then context write c.kind varlist phase m else pure other
  | .action a =>
    if c.kind = .action then
      let words ← (← Query.paramWords a).mapM fun (symbol, paramClass) => do
        pure (paramText (← Query.spelling symbol) paramClass)
      pure (m.write ("#[action! [" ++ String.intercalate " " words ++ "]]"))
    else pure other
  | .varargs (.frame ..) =>
    pure (if c.kind = .varargs then m.write "#[varargs! frame]" else other)
  | .varargs (.array holder ..) =>
    if c.kind = .varargs then
      let m := m.write "#[varargs! "
      let m ← match (← Query.cells holder)[0]? with
        | some block => write block m
        | none => pure (m.write "[]")
      pure (m.write "]")
    else pure other
  | .time _ => if c.kind = .time then defect else pure other
  | .date _ => if c.kind = .date then defect else pure other
  | _ => pure other

/-- Writes a value whose parts nest at most as deep as the first argument tells. -/
def cell : Nat → Cell → Molder → Query Molder
  | 0, _, m => pure (m.write "...")
  | depth + 1, c, m => do
    let quotes := c.quoteDepth
    if 0 < quotes then
      let inner ← Query.unquotify c quotes
      cell depth inner (m.write (String.ofList (List.replicate quotes '\'')))
    else
      match scalarText? m.form c with
      | some text => pure (m.write text)
      | none => compound (cell depth) c m

/-- Writes some items for people; `nested` writes a block among them without brackets. -/
def formList (write : Writer) (nested : SeriesId → Nat → Molder → Query Molder) :
    List Cell → Bool → Molder → Query Molder
  | [], _, m => pure m
  | c :: rest, first, m => do
    let m := if first then m else m.write " "
    let m ←
      match c.seriesId? with
      | some inner =>
        if c.quote == 0 && c.kind.isAnyBlock && !m.active.contains inner then
          nested inner c.index m
        else write c m
      | none => write c m
    formList write nested rest false m

/-- Writes the items of a block for people, the blocks in it without brackets. -/
def formItems (write : Writer) : Nat → SeriesId → Nat → Molder → Query Molder
  | 0, _, _, m => pure (m.write "...")
  | depth + 1, id, index, m => do
    let outer := m.active
    let items := (← Query.cells id).toList.drop index
    let m ← formList write (formItems write depth) items true { m with active := id :: outer }
    pure { m with active := outer }

/-- A bound on the nesting of a value: no series is written inside itself, and between two series
at most three cells are passed. -/
def nesting (m : Machine) : Nat := 4 * m.heap.slots.size + 8

end Mold

namespace Query

/-- The source code of a value. -/
def mold (c : Cell) : Query String := do
  pure (← Mold.cell (Mold.nesting (← read)) c {}).out

/-- The text of a value for people. -/
def form (c : Cell) : Query String := do
  let depth := Mold.nesting (← read)
  if c.isNull then pure ""
  else if c.quote == 0 && c.kind.isAnyBlock then
    match c.seriesId? with
    | some id =>
      pure (← Mold.formItems (Mold.cell depth) depth id c.index { form := true }).out
    | none => pure ""
  else pure (← Mold.cell depth c { form := true }).out

end Query

end Homoicon
