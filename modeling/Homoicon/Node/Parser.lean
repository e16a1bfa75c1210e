import Homoicon.Node
import Homoicon.Token.Lexer

/-!
# Arranging tokens

Brackets nest, slashes without blanks around them join parts into paths, and apostrophes quote
the value that follows.  An empty part of a path is a blank.  A mark on the outer parts of a path
belongs to the whole path.
-/

namespace Homoicon.Node

/-- The line to report: that of the next token, else of the last token of the text. -/
def reportLine (lastLine : Nat) : List Token → Nat
  | token :: _ => token.line
  | [] => lastLine

/-- The path made of some parts, two at least.  `setMark` tells that a `:` was written behind a
number at its end. -/
def finishPath (line : Nat) (parts : List Node) (setMark : Bool) : Scan Node := do
  let (mark, parts) : Mark × List Node :=
    match parts with
    | first :: rest =>
      match first.mark with
      | .get => (.get, first.unmarked :: rest)
      | .sym => (.sym, first.unmarked :: rest)
      | _ => (.plain, parts)
    | [] => (.plain, [])
  let (mark, parts) ←
    match parts.getLast? with
    | some last =>
      if last.mark = .set then
        if mark = .plain then pure (Mark.set, parts.dropLast ++ [last.unmarked])
        else refuse line .twoSigils
      else pure (mark, parts)
    | none => pure (mark, parts)
  let mark ←
    if setMark then
      if mark = .plain then pure Mark.set else refuse line .twoSigils
    else pure mark
  pure (.array .path mark (parts.map (Item.mk · false)))

/-- Whether a token can be the next part of a path after a slash. -/
def continuesPath (token : Token) : Bool :=
  token.joined && (match token.lexeme with
    | .closing .. | .slash | .quote _ | .setMark => false
    | _ => true)

mutual

/-- Reads items up to the closing bracket `close`, or to the end of the text if there is none.
The items read so far come last first.  `true` is returned when a `:` follows the bracket. -/
def items (lastLine : Nat) : Nat → Option Bracket → List Item → List Token →
    Scan (List Item × Bool × List Token)
  | 0, _, _, _ => throw .defect
  | fuel + 1, close, reversed, tokens =>
    match tokens with
    | [] =>
      if close.isSome then refuse lastLine .unclosedBracket
      else pure (reversed.reverse, false, [])
    | token :: rest =>
      match token.lexeme with
      | .closing bracket set =>
        if close = some bracket then pure (reversed.reverse, set, rest)
        else refuse token.line .extraBracket
      | _ => do
        let (node, rest) ← item lastLine fuel (token :: rest)
        items lastLine fuel close (.mk node token.newline :: reversed) rest

/-- Reads one value. -/
def item (lastLine : Nat) : Nat → List Token → Scan (Node × List Token)
  | 0, _ => throw .defect
  | fuel + 1, tokens =>
    match tokens with
    | ⟨.quote depth, _, _, _⟩ :: rest => do
      let (node, rest) ← item lastLine fuel rest
      pure (.quoted depth node, rest)
    | ⟨.slash, _, _, _⟩ :: rest => do
      let (part, rest) ← pathPart lastLine fuel rest
      pathRest lastLine fuel [part, .scalar .blank] rest
    | tokens => do
      let (head, rest) ← element lastLine fuel tokens
      pathRest lastLine fuel [head] rest

/-- Reads the part of a path behind a slash, a blank if there is none. -/
def pathPart (lastLine : Nat) : Nat → List Token → Scan (Node × List Token)
  | 0, _ => throw .defect
  | fuel + 1, tokens =>
    match tokens with
    | token :: _ =>
      if continuesPath token then element lastLine fuel tokens
      else pure (.scalar .blank, tokens)
    | [] => pure (.scalar .blank, [])

/-- Reads the further parts of a path, given those before them, last first. -/
def pathRest (lastLine : Nat) : Nat → List Node → List Token → Scan (Node × List Token)
  | 0, _, _ => throw .defect
  | fuel + 1, reversed, tokens =>
    let finish (setMark : Bool) (rest : List Token) : Scan (Node × List Token) :=
      match reversed with
      | [single] => pure (single, rest)
      | _ => do
        let path ← finishPath (reportLine lastLine rest) reversed.reverse setMark
        pure (path, rest)
    match tokens with
    | ⟨.slash, _, true, _⟩ :: rest => do
      let (part, rest) ← pathPart lastLine fuel rest
      pathRest lastLine fuel (part :: reversed) rest
    | ⟨.setMark, _, true, _⟩ :: rest => finish true rest
    | tokens => finish false tokens

/-- Reads a scalar, block or group. -/
def element (lastLine : Nat) : Nat → List Token → Scan (Node × List Token)
  | 0, _ => throw .defect
  | fuel + 1, tokens =>
    match tokens with
    | [] => refuse lastLine .unexpectedEnd
    | token :: rest =>
      match token.lexeme with
      | .opening bracket mark => do
        let (children, set, rest) ← items lastLine fuel (some bracket) [] rest
        let shape := match bracket with
          | .block => Shape.block
          | .group => Shape.group
        pure (.array shape (if set then .set else mark) children, rest)
      | .closing .. | .slash | .quote _ | .setMark => refuse token.line .misplacedDelimiter
      | lexeme => pure (.scalar lexeme, rest)

end

/-- Arranges the tokens of a text into its values.  Between two tokens at most four readers are
entered. -/
def parse (tokens : List Token) : Scan (List Item) := do
  let lastLine := (tokens.getLast?.map (·.line)).getD 1
  let (result, _, _) ← items lastLine (4 * tokens.length + 4) none [] tokens
  pure result

/-- The values written in a source text. -/
def scan (source : String) : Scan (List Item) := do
  let tokens ← Homoicon.Token.tokenize source
  parse tokens

end Homoicon.Node
