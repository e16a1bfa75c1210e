import Homoicon.Bits
import Homoicon.Machine

/-!
# Quoting

Quoting is a counter on a value.  Up to depth three it is kept on the cell; a deeper value moves
into a pairing and the cell refers to it with its depth.
-/

namespace Homoicon

/-- The quoting depth of a value, counted in 32 bits. -/
def Cell.quoteDepth (c : Cell) : Nat :=
  match c.payload with
  | .quoted _ depth => if c.kind = .quoted then depth else c.quote
  | _ => c.quote

/-- The kind of a value without its quoting. -/
def Query.unescapedKind (c : Cell) : Query Kind :=
  match c.payload with
  | .quoted pairing _ => do
    if c.kind = .quoted then pure (← Query.cell pairing 0).kind else pure c.kind
  | _ => pure c.kind

/-- Puts `n` more levels of quoting on a value; the depth must fit into 32 bits. -/
def Interp.quotify (c : Cell) (n : Nat) : Interp Cell := do
  if n == 0 then return c
  let depth := c.quoteDepth + n
  if Bits.count32 ≤ depth then defect
  if c.kind = .quoted then
    match c.payload with
    | .quoted pairing _ => return { c with payload := .quoted pairing depth }
    | _ => return c
  if depth ≤ 3 then return { c with quote := depth }
  let inner := { c.copied with quote := 0 }
  let pairing ← Interp.alloc
    ((Series.ofCells #[inner, Cell.blank]).withFlags (Flags.pairing ||| Flags.managed))
  return { kind := .quoted, payload := .quoted pairing depth, unevaluated := c.unevaluated,
           enfixed := c.enfixed, newline := c.newline }

/-- Takes `n` levels of quoting off a value; a depth kept on the cell counts `n` in eight bits. -/
def Query.unquotify (c : Cell) (n : Nat) : Query Cell :=
  if n == 0 then pure c
  else
    let shallow : Cell := { c with quote := c.quote - n % 256 }
    match c.payload with
    | .quoted pairing depth =>
      if c.kind = .quoted then
        let rest := depth - n
        if 3 < rest then pure { c with payload := .quoted pairing rest }
        else do
          let inner := (← Query.cell pairing 0).copied
          pure { inner with
            quote := rest
            unevaluated := inner.unevaluated || c.unevaluated
            enfixed := inner.enfixed || c.enfixed
            newline := inner.newline || c.newline }
      else pure shallow
    | _ => pure shallow

/-- A value without its quoting, and the depth it had. -/
def Query.dequotify (c : Cell) : Query (Cell × Nat) := do
  pure (← Query.unquotify c c.quoteDepth, c.quoteDepth)

end Homoicon
