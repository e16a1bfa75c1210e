import Homoicon.Library.Native

/-!
# Text and output

Values as text, source-like or plain, joined or printed.
-/

namespace Homoicon.Library

/-- The plain texts of the values of a block's expressions, joined; blank and void are left out.
`none` for a throw. -/
def delimit? (e : Engine) (block : Cell) (delimiter : String) : Interp (Option String) := do
  match ← e.reduceBlock block with
  | none => pure none
  | some reduced =>
    let shown := (← Query.items reduced).filter fun c => !c.isBlank && !c.isVoid
    let pieces ← shown.mapM fun c => (Query.form c : Interp String)
    pure (some (String.intercalate delimiter pieces))

/-- PRINT: prints a line; a block is joined with spaces, and an empty one prints nothing. -/
def print (e : Engine) (f : FrameId) : Interp Bounce := do
  let line ← Query.arg f 1
  if line.isNull then return .null
  if line.is .block then
    match ← delimit? e line " " with
    | none => return .thrown
    | some text => if !text.isEmpty then Interp.emit text
  else Interp.emit (← Query.form line)
  Interp.give f Cell.void

/-- PROBE: prints a value as source text and gives it. -/
def probe (_ : Engine) (f : FrameId) : Interp Bounce := do
  let value ← Query.arg f 1
  Interp.emit (← Query.mold value)
  if value.isNull then pure .null else Interp.give f value

/-- The text between the first opening and the last closing bracket. -/
def withoutBrackets (s : String) : String :=
  let behind := match s.toList.dropWhile (· != '[') with
    | [] => s.toList
    | _ :: rest => rest
  let inside := match behind.reverse.dropWhile (· != ']') with
    | [] => behind
    | _ :: rest => rest.reverse
  String.ofList inside

/-- MOLD: the source text of a value. -/
def mold (_ : Engine) (f : FrameId) : Interp Bounce := do
  let value ← Query.arg f 1
  let text ← Query.mold value
  let bare := (← Query.refine f 2) && value.quote == 0 && value.kind.isAnyBlock
  Interp.give f (← Interp.textCell .text (if bare then withoutBrackets text else text))

/-- FORM: the plain text of a value. -/
def form (_ : Engine) (f : FrameId) : Interp Bounce := do
  Interp.give f (← Interp.textCell .text (← Query.form (← Query.arg f 1)))

/-- SPACED and UNSPACED: the plain texts of a block's values joined. -/
def delimited (delimiter : String) (e : Engine) (f : FrameId) : Interp Bounce := do
  match ← delimit? e (← Query.arg f 1) delimiter with
  | none => pure .thrown
  | some text => Interp.give f (← Interp.textCell .text text)

/-- Text and output. -/
def writers : List Native :=
  [{ name := "print", spec := "line [<opt> any-value!]", run := print },
    { name := "probe", spec := "value [<opt> any-value! void!]", run := probe },
    { name := "mold", spec := "value [<opt> any-value! void!] /only", run := mold },
    { name := "form", spec := "value [<opt> any-value! void!]", run := form },
    { name := "spaced", spec := "line [block!]", run := delimited " " },
    { name := "unspaced", spec := "line [block!]", run := delimited "" }]

end Homoicon.Library
