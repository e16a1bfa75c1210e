import Homoicon.Library.Native
import Homoicon.Parse.Matching

/-!
# Parsing

PARSE matches rules against a series and gives the position that they reach.  The two actions that
serve as labels for leaving rules early cannot be called.
-/

namespace Homoicon.Library

/-- PARSE: matches rules against a series. -/
def parse (e : Engine) (f : FrameId) : Interp Bounce := do
  let input ← Query.arg f 1
  if input.quote != 0 || !input.kind.isAnySeries then fail (.parseSeries (← Query.mold input))
  let strict := (← Query.refine f 3) || input.is .binary
  match ← Parse.run e input (← Query.arg f 2) strict with
  | .matched behind | .accepted behind => Interp.give f (input.atIndex behind)
  | .notFound => pure .null
  | .thrown => pure .thrown

/-- An action that only serves as a label. -/
def labelOnly (name : String) (_ : Engine) (_ : FrameId) : Interp Bounce :=
  fail (.internalParse name)

/-- Parsing. -/
def parsers : List Native :=
  [{ name := "parse", spec := "input [any-series!] rules [block!] /case", run := parse },
    { name := "parse-accept", spec := "", run := labelOnly "parse-accept" },
    { name := "parse-reject", spec := "", run := labelOnly "parse-reject" }]

end Homoicon.Library
