import Homoicon.Text.CaseTable

/-!
# Small letters

The small-letter form of a text.  Words are compared by it, so it decides which spellings name
the same variable.  A letter's form does not depend on its neighbours, with one exception: a
capital sigma at the end of a word becomes a final sigma.
-/

namespace Homoicon.Text

/-- Binary search for the range that holds `n`, among the sorted ranges from `low` to `high`. -/
def rangeSearch (ranges : Array (Nat × Nat)) (n : Nat) : Nat → Nat → Nat → Bool
  | 0, _, _ => false
  | steps + 1, low, high =>
    if high ≤ low then false
    else
      let middle := (low + high) / 2
      match ranges[middle]? with
      | none => false
      | some (first, last) =>
        if n < first then rangeSearch ranges n steps low middle
        else if last < n then rangeSearch ranges n steps (middle + 1) high
        else true

/-- Whether a sorted table of ranges holds a code point. -/
def inRanges (ranges : Array (Nat × Nat)) (n : Nat) : Bool :=
  rangeSearch ranges n (ranges.size + 1) 0 ranges.size

/-- A letter that has a case. -/
def isCased (c : Char) : Bool := inRanges casedRanges c.toNat

/-- A character that is passed over when the letters around a position are looked for. -/
def isCaseIgnorable (c : Char) : Bool := inRanges caseIgnorableRanges c.toNat

/-- The small letter of a capital letter beyond ASCII. -/
def lowerBeyondAscii (c : Char) : List Char :=
  let n := c.toNat
  if n == 0x130 then ['i', Char.ofNat 0x307]
  else
    match capitalRuns.find? (fun run => run.first ≤ n && n ≤ run.last) with
    | some run =>
      if (n - run.first) % run.stride == 0 then [Char.ofNat (n + run.shift).toNat] else [c]
    | none => [c]

/-- The small-letter form of one character, without regard to its neighbours. -/
def lowerChar (c : Char) : List Char :=
  if c.toNat < 0x80 then [c.toLower] else lowerBeyondAscii c

/-- Whether, once ignorable characters are passed over, a cased letter comes first. -/
def startsCased (cs : List Char) : Bool :=
  match cs.dropWhile isCaseIgnorable with
  | c :: _ => isCased c
  | [] => false

/-- The small-letter form of a text whose earlier characters, last first, are `before`. -/
def lowerFrom (before : List Char) : List Char → List Char
  | [] => []
  | c :: rest =>
    let small :=
      if c == 'Σ' then
        if startsCased before && !startsCased rest then ['ς'] else ['σ']
      else lowerChar c
    small ++ lowerFrom (c :: before) rest

/-- The small-letter form of a text. -/
def lowercase (s : String) : String :=
  if s.toList.all (fun c => c.toNat < 0x80) then s.map Char.toLower
  else String.ofList (lowerFrom [] s.toList)

/-- Each character replaced by its own small-letter form, so that a sigma is never final. -/
def foldChars (cs : List Char) : List Char := cs.flatMap lowerChar

end Homoicon.Text
