import Homoicon.Parse.Rule
import Homoicon.Series.Editing

/-!
# The subject of a parse

The series that rules are matched against, and what can be matched in it without evaluating
anything: elements and literal values.
-/

namespace Homoicon.Parse

/-- How a rule fared at a position. -/
inductive Match where
  | matched (behind : Nat)
  /-- Matched, and the block of rules was left early, which also ends a repetition. -/
  | accepted (behind : Nat)
  | notFound
  | thrown
deriving Repr, DecidableEq, Inhabited

/-- The position behind a match. -/
def Match.behind? : Match → Option Nat
  | matched behind | accepted behind => some behind
  | _ => none

/-- A series being parsed. -/
structure Subject where
  cell : Cell
  series : SeriesId
  specifier : Specifier
  /-- Case matters. -/
  strict : Bool
  /-- What KEEP adds to, inside a COLLECT. -/
  collection : Option SeriesId := none
deriving Inhabited

namespace Subject

/-- The series of a cell as a subject. -/
def ofCell (c : Cell) (strict : Bool) (collection : Option SeriesId) : Query Subject := do
  pure { cell := c, series := ← Query.arrayOf c, specifier := Query.deriveSpecifier c none,
         strict, collection }

/-- The number of elements. -/
def size (s : Subject) : Query Nat := Query.size s.series

/-- The subject at a position. -/
def position (s : Subject) (pos : Nat) : Query Cell := do
  pure (s.cell.atIndex (min pos (← s.size)))

/-- The element at a position: a value, a character or a byte. -/
def element? (s : Subject) (pos : Nat) : Interp (Option Cell) := do
  if s.cell.kind.isAnyArray then
    let cells ← Query.cells s.series
    match cells[pos]? with
    | some c => some <$> Interp.derelativize c s.specifier
    | none => pure none
  else if s.cell.is .binary then
    let bytes ← Query.bytes s.series
    pure (bytes[pos]?.map fun b => Cell.integer b.toNat)
  else pure (((← Query.text s.series).get? pos).map Cell.char)

/-- The position behind a literal text, if it stands at a position of a text or binary. -/
def matchText? (s : Subject) (pos : Nat) (needle : String) : Query (Option Nat) := do
  if s.cell.is .binary then
    let wanted := (Text.Utf8.encode needle).toList
    let bytes ← Query.bytes s.series
    let behind := pos + wanted.length
    let same := behind ≤ bytes.size && (bytes.extract pos behind).toList == wanted
    pure (if same then some behind else none)
  else
    let text ← Query.text s.series
    let behind := pos + needle.length
    if text.size < behind then pure none
    else
      let found := text.slice pos behind
      let same :=
        if s.strict then found == needle else Text.lowercase found == Text.lowercase needle
      pure (if same then some behind else none)

/-- Matches a value as it stands. -/
def matchLiteral (s : Subject) (value : Cell) (pos : Nat) : Interp Match := do
  if s.cell.kind.isAnyArray then
    match ← s.element? pos with
    | some element =>
      pure (if ← Query.equal element value s.strict then .matched (pos + 1) else .notFound)
    | none => pure .notFound
  else
    let needle ← Query.ask (if value.is .tag then Query.mold value else Query.form value)
    match ← Query.ask (s.matchText? pos needle) with
    | some behind => pure (.matched behind)
    | none => pure .notFound

/-- The position that a number or another position of the subject stands for. -/
def seek (s : Subject) (target : Cell) : Query Nat := do
  let size ← s.size
  if target.is .integer then
    pure (min ((max 1 (target.asInteger?.getD 1)).toNat - 1) size)
  else if target.quote == 0 && target.kind.isAnySeries then
    if (← Query.arrayOf target) != s.series then fail (.parseSeries (← Query.mold target))
    pure (min target.index size)
  else fail (.parseVariable (← Query.mold target))

/-- Adds items to the collection, as one block if `only`. -/
def keepItems (collection : SeriesId) (items : List Cell) (only : Bool) : Interp Unit := do
  if only then
    let block ← Interp.arrayCell .block items
    Interp.modifyCells collection (·.push block)
  else Interp.modifyCells collection (·.appendList items)

/-- Gives up the items of the collection beyond a number of them. -/
def giveUp (s : Subject) (kept : Option Nat) : Interp Unit :=
  match s.collection, kept with
  | some collection, some size => Interp.modifyCells collection (·.shrink size)
  | _, _ => pure ()

end Subject

end Homoicon.Parse
