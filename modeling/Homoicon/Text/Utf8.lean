/-!
# Bytes and characters

UTF-8 bytes of a text, and the text of arbitrary bytes.  Bytes that are no character become the
replacement character, one for each longest run of bytes that begins a character.
-/

namespace Homoicon.Text.Utf8

/-- The bytes of a text. -/
def encode (s : String) : Array UInt8 := s.toUTF8.data

/-- Written in place of bytes that are no character. -/
def replacement : Char := Char.ofNat 0xFFFD

/-- A byte that continues a character. -/
def isContinuation (b : UInt8) : Bool := 0x80 ≤ b && b ≤ 0xBF

/-- The second bytes that a first byte of a three- or four-byte character allows. -/
def secondRange (first : UInt8) : UInt8 × UInt8 :=
  if first == 0xE0 then (0xA0, 0xBF)
  else if first == 0xED then (0x80, 0x9F)
  else if first == 0xF0 then (0x90, 0xBF)
  else if first == 0xF4 then (0x80, 0x8F)
  else (0x80, 0xBF)

/-- The low six bits of a continuation byte. -/
def payload (b : UInt8) : Nat := b.toNat % 64

/-- Reads the character that begins with `first`, with the number of bytes it takes from
`rest`. -/
def decodeOne (first : UInt8) (rest : List UInt8) : Char × Nat :=
  if first < 0x80 then (Char.ofNat first.toNat, 0)
  else if 0xC2 ≤ first && first ≤ 0xDF then
    match rest with
    | second :: _ =>
      if isContinuation second then
        (Char.ofNat ((first.toNat % 32) * 64 + payload second), 1)
      else (replacement, 0)
    | [] => (replacement, 0)
  else if 0xE0 ≤ first && first ≤ 0xF4 then
    let (low, high) := secondRange first
    match rest with
    | second :: rest =>
      if low ≤ second && second ≤ high then
        match rest with
        | third :: rest =>
          if isContinuation third then
            if first < 0xF0 then
              (Char.ofNat (((first.toNat % 16) * 64 + payload second) * 64 + payload third), 2)
            else
              match rest with
              | fourth :: _ =>
                if isContinuation fourth then
                  (Char.ofNat ((((first.toNat % 8) * 64 + payload second) * 64 + payload third)
                    * 64 + payload fourth), 3)
                else (replacement, 2)
              | [] => (replacement, 2)
          else (replacement, 1)
        | [] => (replacement, 1)
      else (replacement, 0)
    | [] => (replacement, 0)
  else (replacement, 0)

/-- The characters of some bytes, of which the first `skip` belong to a character already read. -/
def decodeFrom : Nat → List UInt8 → List Char
  | _, [] => []
  | skip + 1, _ :: rest => decodeFrom skip rest
  | 0, first :: rest =>
    let (c, taken) := decodeOne first rest
    c :: decodeFrom taken rest

/-- The text of some bytes, with the replacement character for what is no character. -/
def decode (bytes : List UInt8) : String := String.ofList (decodeFrom 0 bytes)

end Homoicon.Text.Utf8
