import Homoicon.Text.Blank
import Homoicon.Token.Number

/-!
# Cutting source text into tokens

The scanner looks at the next character and reads one token from there.  Strings are read by a
small automaton that follows the text, so that each reader ends with the text it reads.
-/

namespace Homoicon.Token

/-- A character that ends a word or number. -/
def isDelimiter (c : Char) : Bool :=
  Text.isBlank c || "[]()\"\x7b\x7d;".toList.contains c

/-- The text still to be read and the line it is on. -/
structure Cursor where
  rest : List Char
  line : Nat

/-- The line after a character of line `line` has been read. -/
def lineAfter (c : Char) (line : Nat) : Nat := if c == '\n' then line + 1 else line

/-- Cuts off the characters up to the next delimiter, given those already read, last first.  With
`stopAtSlash` a `/` ends them too, unless they spell a scheme such as `http://`. -/
def takeLexeme (stopAtSlash : Bool) :
    (seen : List Char) → (scheme : Bool) → List Char → List Char × List Char
  | _, _, [] => ([], [])
  | seen, scheme, c :: rest =>
    if isDelimiter c then ([], c :: rest)
    else
      let inUrl := scheme || (match seen with
        | '/' :: ':' :: _ => true
        | ':' :: _ => rest.head? == some '/'
        | _ => false)
      if c == '/' && stopAtSlash && !inUrl then ([], c :: rest)
      else
        let scheme := scheme || (c == '/' && (match seen with
          | '/' :: ':' :: _ => true
          | _ => false))
        let (lexeme, rest) := takeLexeme stopAtSlash (c :: seen) scheme rest
        (c :: lexeme, rest)

/-- The value of a hexadecimal digit. -/
def hexDigit? (c : Char) : Option Nat :=
  if '0' ≤ c && c ≤ '9' then some (c.toNat - 48)
  else if 'a' ≤ c && c ≤ 'f' then some (c.toNat - 87)
  else if 'A' ≤ c && c ≤ 'F' then some (c.toNat - 55)
  else none

/-- Reads hexadecimal digits, at least one, after an optional plus sign. -/
def readHex? (cs : List Char) : Option Nat :=
  let digits := match cs with
    | '+' :: digits => digits
    | digits => digits
  if digits.isEmpty then none
  else (digits.mapM hexDigit?).map fun values => values.foldl (fun n d => 16 * n + d) 0

/-- The character with a code, unless the code is a surrogate or too large. -/
def charOfCode? (n : Nat) : Option Char :=
  if n < 0xD800 || (0xDFFF < n && n < 0x110000) then some (Char.ofNat n) else none

/-- The character an escape `^(name)` stands for. -/
def namedEscape? (name : List Char) : Option Char :=
  match Text.lowercase (String.ofList name) with
  | "line" => some '\n'
  | "tab" => some '\t'
  | "null" => some (Char.ofNat 0)
  | hex => (readHex? hex.toList).bind charOfCode?

/-- The character an escape `^c` stands for. -/
def simpleEscape (c : Char) : Char :=
  if c == '/' then '\n' else if c == '-' then '\t' else if c == '@' then Char.ofNat 0 else c

/-- How far an escape has been read. -/
inductive Escape where
  | none
  | caret
  /-- Within `^(…)`, with the characters read so far, last first. -/
  | name (reversed : List Char)

/-- Reads the content of a string up to its end.  A quoted string ends at its quote and holds no
line break; a braced one ends at the brace that balances the one it began with. -/
def readString (braced : Bool) : (depth : Nat) → Escape → (reversed : List Char) →
    (line : Nat) → List Char → Scan (List Char × Cursor)
  | _, .none, _, line, [] => refuse line (.unclosedString (if braced then '\x7d' else '"'))
  | _, .caret, _, line, [] => refuse line .escapeAtEnd
  | _, .name _, _, line, [] => refuse line .unclosedEscape
  | depth, .caret, reversed, line, c :: rest =>
    let line := lineAfter c line
    if c == '(' then readString braced depth (.name []) reversed line rest
    else readString braced depth .none (simpleEscape c :: reversed) line rest
  | depth, .name name, reversed, line, c :: rest =>
    let line := lineAfter c line
    if c == ')' then
      match namedEscape? name.reverse with
      | some escaped => readString braced depth .none (escaped :: reversed) line rest
      | none => refuse line (.badEscape (String.ofList name.reverse))
    else readString braced depth (.name (c :: name)) reversed line rest
  | depth, .none, reversed, line, c :: rest =>
    if c == '^' then readString braced depth .caret reversed line rest
    else if braced then
      if c == '\x7b' then
        readString braced (depth + 1) .none (c :: reversed) line rest
      else if c == '\x7d' then
        match depth with
        | 0 => pure (reversed.reverse, ⟨rest, line⟩)
        | depth + 1 => readString braced depth .none (c :: reversed) line rest
      else readString braced depth .none (c :: reversed) (lineAfter c line) rest
    else if c == '"' then pure (reversed.reverse, ⟨rest, line⟩)
    else if c == '\n' then refuse line (.unclosedString '"')
    else readString braced depth .none (c :: reversed) line rest

/-- Reads a quoted string after its opening quote. -/
def readQuoted (line : Nat) (cs : List Char) : Scan (List Char × Cursor) :=
  readString false 0 .none [] line cs

/-- Reads a braced string after its opening brace. -/
def readBraced (line : Nat) (cs : List Char) : Scan (List Char × Cursor) :=
  readString true 0 .none [] line cs

/-- The bytes that hexadecimal digits stand for, cut into pairs of two bytes.  A pair that would
end inside a character breaks the scanner. -/
def hexBytes (line : Nat) (digits : String) : List Char → Scan (List UInt8)
  | [] => pure []
  | c :: rest =>
    if c.utf8Size == 2 then refuse line (.badHex digits)
    else if c.utf8Size != 1 then throw .defect
    else
      match rest with
      | d :: rest =>
        if d.utf8Size != 1 then throw .defect
        else
          match readHex? [c, d] with
          | some value => (UInt8.ofNat value :: ·) <$> hexBytes line digits rest
          | none => refuse line (.badHex digits)
      | [] => throw .defect

/-- The number of line breaks in a text. -/
def newlines (cs : List Char) : Nat := cs.count '\n'

/-- Reads the rest of a binary literal after its opening brace. -/
def readBinary (line : Nat) (cs : List Char) : Scan (Lexeme × Cursor) :=
  let content := cs.takeWhile (· != '\x7d')
  let line := line + newlines content
  match cs.dropWhile (· != '\x7d') with
  | [] => refuse line .unclosedBinary
  | _ :: rest =>
    let digits := content.filter (!Text.isBlank ·)
    let shown := String.ofList digits
    if shown.utf8ByteSize % 2 != 0 then refuse line (.oddHex shown)
    else do
      let bytes ← hexBytes line shown digits
      pure (.binary bytes, ⟨rest, line⟩)

/-- Reads the rest of `#[…]` after its opening bracket. -/
def readConstruct (line : Nat) (cs : List Char) : Scan (Lexeme × Cursor) :=
  let content := cs.takeWhile (· != ']')
  let line := line + newlines content
  match cs.dropWhile (· != ']') with
  | [] => refuse line .unclosedConstruct
  | _ :: rest => pure (.construct (String.ofList (Text.trimBlanks content)), ⟨rest, line⟩)

/-- Reads a token that begins with `#`, after it. -/
def readHash (line : Nat) : List Char → Scan (Lexeme × Cursor)
  | '"' :: rest => do
    let (content, cursor) ← readQuoted line rest
    match content with
    | [c] => pure (.char c, cursor)
    | _ => refuse cursor.line (.badChar (String.ofList content))
  | '\x7b' :: rest => readBinary line rest
  | '[' :: rest => readConstruct line rest
  | cs =>
    let (lexeme, rest) := takeLexeme true [] false cs
    pure (.text .issue (String.ofList lexeme), ⟨rest, line⟩)

/-- Whether the text after a `<` makes it a tag: something other than a blank, a bracket or a
comparison character follows, and a `>` closes it on the same line. -/
def opensTag : List Char → Bool
  | [] => false
  | c :: rest =>
    !(Text.isBlank c || "<>=[]()".toList.contains c) &&
      (rest.takeWhile (· != '\n')).contains '>'

/-- Whether a text contains `://`. -/
def hasScheme : List Char → Bool
  | [] => false
  | c :: rest => (c == ':' && ['/', '/'].isPrefixOf rest) || hasScheme rest

/-- A lexeme that is a word with one of the four marks. -/
def readWord (line : Nat) (cs : List Char) : Scan Lexeme :=
  let (mark, name) : Mark × List Char :=
    match cs with
    | ':' :: name => (.get, name)
    | '@' :: name => (.sym, name)
    | cs => if cs.getLast? == some ':' then (.set, cs.dropLast) else (.plain, cs)
  if name.isEmpty || name.contains ':' || (name.head?.map Char.isDigit).getD false then
    refuse line (.invalidWord (String.ofList cs))
  else pure (.word (String.ofList name) mark)

/-- Decides what a run of characters between delimiters is. -/
def classify (line : Nat) (cs : List Char) : Scan Lexeme :=
  match cs with
  | [] => refuse line .unexpectedCharacter
  | ['_'] => pure .blank
  | ['|'] => pure .bar
  | first :: later =>
    if hasScheme cs || ("mailto:".toList.isPrefixOf cs && 7 < cs.length) then
      pure (.text .url (String.ofList cs))
    else if first == '$' then
      Lexeme.money <$> orRefuse line .badMoney cs (Decimal.readChars? later)
    else if first.isDigit ||
        ((first == '-' || first == '+' || first == '.') &&
          (later.head?.map Char.isDigit).getD false) then
      readNumber line cs
    else if cs.contains '@' && first != '@' && cs.getLast? != some ':' then
      pure (.text .email (String.ofList cs))
    else readWord line cs

/-- The state of the scanner. -/
structure Lexer where
  rest : List Char
  line : Nat := 1
  newline : Bool := false
  joined : Bool := false
  /-- The tokens read so far, last first. -/
  reversed : List Token := []

namespace Lexer

/-- Records a token that was read up to a cursor. -/
def emit (s : Lexer) (lexeme : Lexeme) (cursor : Cursor) : Lexer :=
  { rest := cursor.rest, line := cursor.line, newline := false, joined := true,
    reversed := ⟨lexeme, s.newline, s.joined, cursor.line⟩ :: s.reversed }

/-- Records a token after which nothing counts as joined. -/
def emitOpening (s : Lexer) (bracket : Char) (mark : Mark) (rest : List Char) : Lexer :=
  { s.emit (.opening (if bracket == '[' then .block else .group) mark) ⟨rest, s.line⟩ with
    joined := false }

/-- Whether the next characters follow a slash directly. -/
def afterSlash (s : Lexer) : Bool :=
  s.joined && (match s.reversed with
    | ⟨.slash, _, _, _⟩ :: _ => true
    | _ => false)

/-- Reads a run of characters between delimiters.  Behind a slash a number may carry the `:` that
marks the whole path. -/
def readRun (s : Lexer) : Scan Lexer := do
  let (lexeme, rest) := takeLexeme true [] false s.rest
  let stem := lexeme.dropLast
  if lexeme.getLast? == some ':' && s.afterSlash && (stem.head?.map Char.isDigit).getD false &&
      !stem.contains ':' then
    let value ← classify s.line stem
    pure ((s.emit value ⟨rest, s.line⟩).emit .setMark ⟨rest, s.line⟩)
  else
    let value ← classify s.line lexeme
    pure (s.emit value ⟨rest, s.line⟩)

/-- Reads one token, a comment or a blank from a text that begins with `c`. -/
def step (s : Lexer) (c : Char) (rest : List Char) : Scan Lexer :=
  if c == '\n' then
    pure { s with rest := rest, line := s.line + 1, newline := true, joined := false }
  else if Text.isBlank c then pure { s with rest := rest, joined := false }
  else if c == ';' then pure { s with rest := rest.dropWhile (· != '\n') }
  else if c == '[' || c == '(' then pure (s.emitOpening c .plain rest)
  else if c == ']' || c == ')' then
    let bracket := if c == ']' then Bracket.block else Bracket.group
    match rest with
    | ':' :: rest => pure (s.emit (.closing bracket true) ⟨rest, s.line⟩)
    | rest => pure (s.emit (.closing bracket false) ⟨rest, s.line⟩)
  else if (c == ':' || c == '@') && (rest.head? == some '[' || rest.head? == some '(') then
    pure (s.emitOpening (rest.headD '[') (if c == ':' then .get else .sym) rest.tail)
  else if c == '\'' then
    let depth := (rest.takeWhile (· == '\'')).length + 1
    let rest := rest.dropWhile (· == '\'')
    match rest with
    | next :: _ =>
      if Text.isBlank next || next == ']' || next == ')' then refuse s.line .loneApostrophe
      else pure (s.emit (.quote depth) ⟨rest, s.line⟩)
    | [] => refuse s.line .loneApostrophe
  else if c == '/' then pure (s.emit .slash ⟨rest, s.line⟩)
  else if c == '"' then do
    let (content, cursor) ← readQuoted s.line rest
    pure (s.emit (.text .text (String.ofList content)) cursor)
  else if c == '\x7b' then do
    let (content, cursor) ← readBraced s.line rest
    pure (s.emit (.text .text (String.ofList content)) cursor)
  else if c == '\x7d' then refuse s.line .strayBrace
  else if c == '#' then do
    let (lexeme, cursor) ← readHash s.line rest
    pure (s.emit lexeme cursor)
  else if c == '%' then
    match rest with
    | '"' :: rest => do
      let (content, cursor) ← readQuoted s.line rest
      pure (s.emit (.text .file (String.ofList content)) cursor)
    | rest =>
      let (lexeme, rest) := takeLexeme false [] false rest
      pure (s.emit (.text .file (String.ofList lexeme)) ⟨rest, s.line⟩)
  else if c == '<' && opensTag rest then
    let content := rest.takeWhile (· != '>')
    pure (s.emit (.text .tag (String.ofList content)) ⟨(rest.dropWhile (· != '>')).tail, s.line⟩)
  else s.readRun

/-- Reads tokens until the text ends.  Every step reads at least one character, so as many steps
as there are characters are enough. -/
def run : Nat → Lexer → Scan (List Token)
  | 0, s => pure s.reversed.reverse
  | steps + 1, s =>
    match s.rest with
    | [] => pure s.reversed.reverse
    | c :: rest => do
      let next ← s.step c rest
      run steps next

end Lexer

/-- Cuts a source text into tokens. -/
def tokenize (source : String) : Scan (List Token) :=
  Lexer.run source.toList.length { rest := source.toList }

end Homoicon.Token
