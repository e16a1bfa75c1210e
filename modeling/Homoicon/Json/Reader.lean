import Homoicon.Json.Number
import Homoicon.Text.Utf8

/-!
# Reading JSON documents

A document is one value with white space around it.  Arrays and objects may nest 127 deep.
-/

namespace Homoicon.Json.Reader

/-- The value of a hexadecimal digit. -/
def hexValue? (b : UInt8) : Option Nat :=
  if isDigit b then some (b.toNat - 48)
  else if 97 ≤ b && b ≤ 102 then some (b.toNat - 87)
  else if 65 ≤ b && b ≤ 70 then some (b.toNat - 55)
  else none

/-- Reads the four digits of a hex escape. -/
def hexEscape : Reader Nat := do
  let digits := (← get).rest.take 4
  modify (Cursor.advance digits.length)
  if digits.length < 4 then refuse .endInString
  else
    match digits.mapM hexValue? with
    | some values => pure (values.foldl (fun n d => n * 16 + d) 0)
    | none => refuse .invalidEscape

/-- Passes a byte that must come next inside a surrogate pair. -/
def pairByte (wanted : UInt8) : Reader Unit := do
  match ← next? with
  | none => refuse .endInString
  | some b => if b == wanted then pure () else refuse .unfinishedHexEscape

/-- Reads an escape by code, which may need a second one to form a character. -/
def unicodeEscape : Reader Char := do
  let n ← hexEscape
  if 0xDC00 ≤ n && n ≤ 0xDFFF then refuse .loneSurrogate
  else if n < 0xD800 || 0xDBFF < n then pure (Char.ofNat n)
  else
    pairByte 92
    pairByte 117
    let low ← hexEscape
    if low < 0xDC00 || 0xDFFF < low then refuse .loneSurrogate
    else pure (Char.ofNat ((n - 0xD800) * 1024 + (low - 0xDC00) + 0x10000))

/-- Reads what follows a backslash. -/
def escape : Reader Char := do
  match ← next? with
  | none => refuse .endInString
  | some b =>
    match Char.ofNat b.toNat with
    | '"' => pure '"'
    | '\\' => pure '\\'
    | '/' => pure '/'
    | 'b' => pure (Char.ofNat 8)
    | 'f' => pure (Char.ofNat 12)
    | 'n' => pure '\n'
    | 'r' => pure '\r'
    | 't' => pure '\t'
    | 'u' => unicodeEscape
    | _ => refuse .invalidEscape

/-- Reads the bytes of a string up to its closing quote; those read so far are given last first. -/
def stringBytes : Nat → List UInt8 → Reader (List UInt8)
  | 0, reversed => pure reversed.reverse
  | fuel + 1, reversed => do
    match ← next? with
    | none => refuse .endInString
    | some b =>
      if b == 34 then pure reversed.reverse
      else if b == 92 then
        let c ← escape
        let bytes := (Text.Utf8.encode (String.singleton c)).toList
        stringBytes fuel (bytes.reverse ++ reversed)
      else if b < 32 then refuse .controlCharacter
      else stringBytes fuel (b :: reversed)

/-- Reads a string after its opening quote. -/
def stringText : Reader String := do
  pure (Text.Utf8.decode (← stringBytes (← fuel) []))

/-- Reads the rest of a word such as `null`. -/
def identifier : List Char → Reader Unit
  | [] => pure ()
  | c :: rest => do
    match ← next? with
    | none => refuse .endInValue
    | some b => if b.toNat == c.toNat then identifier rest else refuse .expectedIdentifier

/-- Reads the items of an array up to its end; those read so far are given last first. -/
def items (value : Reader Json) : Nat → List Json → Reader (List Json)
  | 0, reversed => pure reversed.reverse
  | fuel + 1, reversed => do
    match ← skipSpace with
    | none => refuseHere .endInList
    | some 93 =>
      eat
      pure reversed.reverse
    | some b =>
      if reversed.isEmpty then items value fuel [← value]
      else if b == 44 then
        eat
        match ← skipSpace with
        | none => refuseHere .endInValue
        | some 93 => refuseHere .trailingComma
        | some _ => items value fuel ((← value) :: reversed)
      else refuseHere .expectedListEnd

/-- Reads a field, at whose opening quote the cursor is, into the others. -/
def field (value : Reader Json) (fields : List (String × Json)) :
    Reader (List (String × Json)) := do
  eat
  let name ← stringText
  match ← skipSpace with
  | none => refuseHere .endInObject
  | some 58 =>
    eat
    pure (insertField name (← value) fields)
  | some _ => refuseHere .expectedColon

/-- Reads the fields of an object up to its end. -/
def fields (value : Reader Json) : Nat → (first : Bool) → List (String × Json) →
    Reader (List (String × Json))
  | 0, _, found => pure found
  | fuel + 1, first, found => do
    match ← skipSpace with
    | none => refuseHere .endInObject
    | some 125 =>
      eat
      pure found
    | some b =>
      if first then
        if b == 34 then fields value fuel false (← field value found)
        else refuseHere .keyNotString
      else if b == 44 then
        eat
        match ← skipSpace with
        | none => refuseHere .endInValue
        | some 34 => fields value fuel false (← field value found)
        | some 125 => refuseHere .trailingComma
        | some _ => refuseHere .keyNotString
      else refuseHere .expectedObjectEnd

/-- Reads a value; `inner` reads the values inside arrays and objects, if there may be any. -/
def valueWith (inner : Option (Reader Json)) : Reader Json := do
  match ← skipSpace with
  | none => refuseHere .endInValue
  | some b =>
    match Char.ofNat b.toNat, inner with
    | 'n', _ =>
      eat
      identifier ['u', 'l', 'l']
      pure null
    | 't', _ =>
      eat
      identifier ['r', 'u', 'e']
      pure (bool true)
    | 'f', _ =>
      eat
      identifier ['a', 'l', 's', 'e']
      pure (bool false)
    | '"', _ =>
      eat
      string <$> stringText
    | '-', _ =>
      eat
      number false
    | '[', some inner =>
      eat
      array <$> items inner (← fuel) []
    | '\x7b', some inner =>
      eat
      object <$> fields inner (← fuel) true []
    | '[', none | '\x7b', none => refuseHere .nestedTooDeep
    | _, _ => if isDigit b then number true else refuseHere .expectedValue

/-- Reads a value in which arrays and objects nest at most as deep as the number tells. -/
def value : Nat → Reader Json
  | 0 => valueWith none
  | depth + 1 => valueWith (some (value depth))

/-- How deep arrays and objects may nest. -/
def nestingLimit : Nat := 127

/-- Reads a document to the end of the text. -/
def document : Reader Json := do
  let result ← value nestingLimit
  match ← skipSpace with
  | none => pure result
  | some _ => refuseHere .trailingCharacters

end Homoicon.Json.Reader

namespace Homoicon

/-- The document of a JSON text. -/
def Json.read (text : String) : Except Json.Refusal Json :=
  (Json.Reader.document.run { rest := (Text.Utf8.encode text).toList }).map (·.1)

/-- The library that writes compact texts and reads documents as above. -/
def Json.standard : Json.Library where
  write := Json.render
  read text := (Json.read text).mapError Json.Refusal.message

end Homoicon
