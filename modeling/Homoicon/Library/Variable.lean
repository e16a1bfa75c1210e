import Homoicon.Bits
import Homoicon.Library.Native
import Homoicon.Path.Walk
import Homoicon.Quoting

/-!
# Variables and quoting

Reading and writing variables by word, path or block of words, and taking values as they stand.
-/

namespace Homoicon.Library

/-- The values of the variables that the words of a block refer to; blank stands for null. -/
def valuesOfWords (block : Cell) : Interp (List Cell) := do
  let words ← Interp.resolvedItems block
  words.mapM fun w => do
    if !w.kind.isAnyWord || w.quote != 0 then fail (.invalidArg (← Query.mold w))
    let v ← Query.getVar w none
    pure (if v.isNull then Cell.blank else v)

/-- GET: the value of a variable; void only on demand. -/
def get (e : Engine) (f : FrameId) : Interp Bounce := do
  let source ← Query.arg f 1
  let value : Option Cell ←
    if source.kind.isAnyWord then do pure (some (← Query.getVar source none))
    else if source.kind.isAnyPath then Path.get e source none true
    else do some <$> Interp.arrayCell .block (← valuesOfWords source)
  match value with
  | none => pure .thrown
  | some value =>
    if value.isVoid && !(← Query.refine f 2) then fail (.needNonVoid (← Query.mold source))
    Interp.give f value

/-- SET: writes a variable. -/
def set (e : Engine) (f : FrameId) : Interp Bounce := do
  let target ← Query.arg f 1
  let value ← Query.arg f 2
  if target.kind.isAnyWord then
    Interp.setVar target none value
    Interp.give f value
  else if target.kind.isAnyPath then
    if ← Path.set e target none value true then pure .thrown else Interp.give f value
  else
    Engine.setBlock target none value
    Interp.give f value

/-- LIT: the argument as it stands. -/
def lit (_ : Engine) (f : FrameId) : Interp Bounce := do Interp.give f (← Query.arg f 1)

/-- The number of quoting levels asked for, counted in 32 bits. -/
def quoteCount (f : FrameId) : Interp Nat := do
  if !(← Query.refine f 2) then return 1
  match (← Query.arg f 3).asInteger? with
  | some n => if 0 ≤ n then pure (n.toNat % Bits.count32) else Interp.refuseArg f 3
  | none => Interp.refuseArg f 3

/-- QUOTE: a value with more quoting. -/
def quote (_ : Engine) (f : FrameId) : Interp Bounce := do
  let value ← Query.arg f 1
  if value.isNull then fail (.needNonNull "quote")
  Interp.give f (← Interp.quotify value (← quoteCount f))

/-- UNQUOTE: a value with less quoting. -/
def unquote (_ : Engine) (f : FrameId) : Interp Bounce := do
  let value ← Query.arg f 1
  let count ← quoteCount f
  if value.quoteDepth < count then fail (.invalidArg (← Query.mold value))
  Interp.give f (← Query.unquotify value count)

/-- NULL: no value. -/
def null (_ : Engine) (_ : FrameId) : Interp Bounce := pure .null

/-- VOID: the value that stands for none. -/
def void (_ : Engine) (f : FrameId) : Interp Bounce := Interp.give f Cell.void

/-- Variables and quoting. -/
def variableActions : List Native :=
  [{ name := "get", spec := "source [any-word! any-path! block!] /any", run := get },
    { name := "set",
      spec := "target [any-word! any-path! block!] value [<opt> any-value! void!]", run := set },
    { name := "lit", spec := ":value [any-value! void!]", run := lit },
    { name := "quote", spec := "value [<opt> any-value! void!] /depth count [integer!]",
      run := quote },
    { name := "unquote", spec := "value [<opt> any-value! void!] /depth count [integer!]",
      run := unquote },
    { name := "null", spec := "", run := null },
    { name := "void", spec := "", run := void }]

end Homoicon.Library
