import Homoicon.Comparison
import Homoicon.Decimal.Layout

/-!
# JSON

Documents of the JSON format and their compact text.  A document that is read has the fields of its
objects in the order of their names, each name once; one that is written keeps its fields as they
are.  How texts are written and read is up to a library of the host.
-/

namespace Homoicon

/-- A JSON document. -/
inductive Json where
  | null
  | bool (value : Bool)
  /-- A number without fraction or exponent that fits into 64 bits, with or without a sign. -/
  | integer (value : Int)
  | decimal (value : Float)
  | string (value : String)
  | array (items : List Json)
  | object (fields : List (String × Json))
deriving Inhabited

namespace Json

/-- A library that writes and reads documents. -/
structure Library where
  /-- The compact text of a document. -/
  write : Json → String
  /-- The document of a text, or the words in which the text is refused. -/
  read : String → Except String Json

/-- Adds a field in the order of names; a field of the same name is replaced. -/
def insertField (name : String) (value : Json) : List (String × Json) → List (String × Json)
  | [] => [(name, value)]
  | (other, v) :: rest =>
    match compareText name other with
    | .lt => (name, value) :: (other, v) :: rest
    | .eq => (name, value) :: rest
    | .gt => (other, v) :: insertField name value rest

/-- A hexadecimal digit. -/
def hexDigit (n : Nat) : Char := (Nat.digitChar n)

/-- A character as it is written in a string. -/
def escapeChar (c : Char) : List Char :=
  match c with
  | '"' => ['\\', '"']
  | '\\' => ['\\', '\\']
  | '\n' => ['\\', 'n']
  | '\r' => ['\\', 'r']
  | '\t' => ['\\', 't']
  | c =>
    let n := c.toNat
    if n == 8 then ['\\', 'b']
    else if n == 12 then ['\\', 'f']
    else if n < 32 then ['\\', 'u', '0', '0', hexDigit (n / 16), hexDigit (n % 16)]
    else [c]

/-- A string between quotes. -/
def quote (s : String) : String := String.ofList ('"' :: s.toList.flatMap escapeChar ++ ['"'])

mutual

/-- The compact text of a document. -/
def render : Json → String
  | null => "null"
  | bool b => if b then "true" else "false"
  | integer i => toString i
  | decimal d => Decimal.exchangeText d
  | string s => quote s
  | array items => "[" ++ renderItems items ++ "]"
  | object fields => "\x7b" ++ renderFields fields ++ "\x7d"

/-- The texts of the items of an array with commas between them. -/
def renderItems : List Json → String
  | [] => ""
  | [item] => item.render
  | item :: rest => item.render ++ "," ++ renderItems rest

/-- The texts of the fields of an object with commas between them. -/
def renderFields : List (String × Json) → String
  | [] => ""
  | [(name, value)] => quote name ++ ":" ++ value.render
  | (name, value) :: rest => quote name ++ ":" ++ value.render ++ "," ++ renderFields rest

end

end Json

end Homoicon
