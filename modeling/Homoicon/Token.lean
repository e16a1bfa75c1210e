import Homoicon.Bits

/-!
# Tokens

What source text is cut into: delimiters, marks and literal values, each with its place on the
line, and the reasons for which a text cannot be cut.
-/

namespace Homoicon

/-- How a word, path, block or group is marked: `x`, `x:`, `:x` or `@x`. -/
inductive Mark where
  | plain
  | set
  | get
  | sym
deriving Repr, DecidableEq, Inhabited

/-- Square brackets or parentheses. -/
inductive Bracket where
  | block
  | group
deriving Repr, DecidableEq, Inhabited

/-- The kinds of literals whose content is a text. -/
inductive TextForm where
  | text
  | file
  | url
  | tag
  | email
  | issue
deriving Repr, DecidableEq, Inhabited

/-- A unit of source text. -/
inductive Lexeme where
  /-- An opening bracket with the `:` or `@` written right before it. -/
  | opening (bracket : Bracket) (mark : Mark)
  /-- A closing bracket; `set` when a `:` follows directly. -/
  | closing (bracket : Bracket) (set : Bool)
  /-- A run of apostrophes directly in front of a value. -/
  | quote (depth : Nat)
  /-- A `/` between the parts of a path, or leading one. -/
  | slash
  | word (name : String) (mark : Mark)
  | integer (value : Int)
  | decimal (value : Float)
  | percent (value : Float)
  | money (value : Float)
  | char (value : Char)
  | text (form : TextForm) (value : String)
  | binary (bytes : List UInt8)
  /-- Two numbers; `integral` when neither is written with a point. -/
  | pair (x y : Float) (integral : Bool)
  | tuple (bytes : List UInt8)
  /-- A time in nanoseconds. -/
  | time (nanoseconds : Int)
  | date (year month day : Int)
  | blank
  | bar
  /-- The text between `#[` and `]`. -/
  | construct (name : String)
  /-- The `:` that closes a path whose last part is a number. -/
  | setMark
deriving Inhabited, BEq

/-- A unit of source text with its place. -/
structure Token where
  lexeme : Lexeme
  /-- First on its line. -/
  newline : Bool
  /-- No blank stands between this token and the one before it. -/
  joined : Bool
  line : Nat
deriving Inhabited, BEq

/-- Why a text cannot be cut into tokens, or tokens cannot be arranged into values. -/
inductive ScanCause where
  | loneApostrophe
  | strayBrace
  | unclosedTag
  | escapeAtEnd
  | unclosedEscape
  | badEscape (name : String)
  | unclosedString (close : Char)
  | badChar (content : String)
  | unclosedBinary
  | oddHex (digits : String)
  | badHex (digits : String)
  | unclosedConstruct
  | unexpectedCharacter
  | badMoney (lexeme : String)
  | badPair (lexeme : String)
  | badPercent (lexeme : String)
  | badTime (lexeme : String)
  | badDate (lexeme : String)
  | badTuple (lexeme : String)
  | badDecimal (lexeme : String)
  | badInteger (lexeme : String)
  | invalidWord (lexeme : String)
  | unclosedBracket
  | extraBracket
  | unexpectedEnd
  | misplacedDelimiter
  | twoSigils
deriving Repr, DecidableEq, Inhabited

namespace ScanCause

/-- Something is missing, something is left over, or something is wrong. -/
def id : ScanCause → String
  | unclosedTag | escapeAtEnd | unclosedEscape | unclosedString _ | unclosedBinary
  | unclosedConstruct | unclosedBracket | unexpectedEnd => "scan-missing"
  | strayBrace | extraBracket => "scan-extra"
  | _ => "scan-invalid"

/-- The wording of a cause. -/
def message : ScanCause → String
  | loneApostrophe => "apostrophe must be followed by a value"
  | strayBrace => "unexpected \x7d"
  | unclosedTag => "tag is missing >"
  | escapeAtEnd => "escape at end of input"
  | unclosedEscape => "escape is missing )"
  | badEscape name => "bad escape ^(" ++ name ++ ")"
  | unclosedString close => "string is missing its closing " ++ String.singleton close
  | badChar content => "bad char #\"" ++ content ++ "\""
  | unclosedBinary => "binary is missing \x7d"
  | oddHex digits => "odd number of hex digits in #\x7b" ++ digits ++ "\x7d"
  | badHex digits => "bad hex in #\x7b" ++ digits ++ "\x7d"
  | unclosedConstruct => "construction syntax is missing ]"
  | unexpectedCharacter => "unexpected character"
  | badMoney lexeme => "bad money " ++ lexeme
  | badPair lexeme => "bad pair " ++ lexeme
  | badPercent lexeme => "bad percent " ++ lexeme
  | badTime lexeme => "bad time " ++ lexeme
  | badDate lexeme => "bad date " ++ lexeme
  | badTuple lexeme => "bad tuple " ++ lexeme
  | badDecimal lexeme => "bad decimal " ++ lexeme
  | badInteger lexeme => "bad integer " ++ lexeme
  | invalidWord lexeme => "invalid word " ++ lexeme
  | unclosedBracket => "missing closing bracket"
  | extraBracket => "unexpected closing bracket"
  | unexpectedEnd => "unexpected end of input"
  | misplacedDelimiter => "misplaced delimiter"
  | twoSigils => "path has two sigils"

end ScanCause

/-- A cause with the line it was found on. -/
structure ScanError where
  cause : ScanCause
  line : Nat
deriving Repr, DecidableEq, Inhabited

/-- A scan error as a report of its own. -/
def ScanError.display (e : ScanError) : String :=
  "ScanError (" ++ e.cause.id ++ "): " ++ e.cause.message ++ " on line " ++ toString e.line

/-- How scanning can fail: the text is refused, or it breaks the scanner itself, as when a binary
literal is cut in the middle of a character or a time leaves the 64 bits that it is reckoned in. -/
inductive ScanFault where
  | refused (error : ScanError)
  | defect
deriving Repr, DecidableEq, Inhabited

/-- The outcome of scanning. -/
abbrev Scan := Except ScanFault

/-- Refuses a text. -/
def refuse {α : Type} (line : Nat) (cause : ScanCause) : Scan α :=
  throw (.refused ⟨cause, line⟩)

/-- A number that the scanner reckons in 64 bits without looking whether it fits: one that does not
breaks it. -/
def Scan.exact64 (i : Int) : Scan Int := if Bits.fits64 i then pure i else throw .defect

end Homoicon
