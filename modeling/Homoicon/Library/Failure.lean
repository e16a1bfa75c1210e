import Homoicon.Error.Value
import Homoicon.Library.Native
import Homoicon.Trap

/-!
# Raising and trapping errors

FAIL raises an error, TRAP turns the error of a block into a value.
-/

namespace Homoicon.Library

/-- The error that a reason for failing stands for; `none` for a throw. -/
def errorOfReason (e : Engine) (reason : Cell) : Interp (Option Error) := do
  if reason.is .text then pure (some (Error.user (← Query.cellText reason)))
  else if reason.is .error then some <$> Query.ask (Query.errorOfValue reason)
  else if reason.is .word then
    let id ← Query.wordSpelling reason
    pure (some { category := .user, id, message := id })
  else if reason.is .block then
    match ← e.reduceBlock reason with
    | none => pure none
    | some reduced => pure (some (Error.user (← Query.form reduced)))
  else pure (some (Error.user "failure"))

/-- The nearest named call below a frame. -/
def namedCaller? (f : FrameId) : Query (Option FrameId) := do
  let frames := (← read).frames
  pure ((List.range f).reverse.find? fun i =>
    (frames[i]?).any fun fr => fr.called.isSome && fr.label.isSome)

/-- FAIL: raises an error in the name of the caller. -/
def fail_ (e : Engine) (f : FrameId) : Interp Bounce := do
  match ← errorOfReason e (← Query.arg f 1) with
  | none => pure .thrown
  | some error =>
    match ← Query.ask (namedCaller? f) with
    | some caller => throw (.error (error.withSite (← Query.frameLabel caller)))
    | none => throw (.error error)

/-- TRAP: the error that a block raises, or null. -/
def trap (e : Engine) (f : FrameId) : Interp Bounce := do
  let code ← Query.arg f 1
  match ← Interp.trap (e.doBlock code) with
  | .ok none => pure .thrown
  | .ok (some _) => pure .null
  | .error error => Interp.give f (← Interp.errorValue error)

/-- Raising and trapping errors. -/
def failures : List Native :=
  [{ name := "fail", spec := "reason [<end> <opt> text! block! error! word!]", run := fail_ },
    { name := "trap", spec := "code [block!]", run := trap }]

end Homoicon.Library
