import Homoicon.Mold

/-!
# Errors as values

An error value is a context with the fields `type`, `id`, `message`, `where` and `near`.  Raising
it turns the fields back into an error; a field that is missing or blank falls back to that of an
error of the user's own.
-/

namespace Homoicon

/-- The fields of an error value in order. -/
def Error.fieldNames : List String := ["type", "id", "message", "where", "near"]

namespace Interp

/-- The value of an error. -/
@[irreducible] def errorValue (e : Error) : Interp Cell := do
  let keys ← Error.fieldNames.mapM intern
  let context ← makeContext .error keys
  let category ← wordCell .word e.category.name
  let id ← wordCell .word e.id
  let message ← textCell .text e.message
  let site ← match e.site with
    | some site => wordCell .word site
    | none => pure Cell.blank
  let near ← match e.near with
    | some near => textCell .text near
    | none => pure Cell.blank
  [category, id, message, site, near].zipIdx.forM fun (c, i) => storeCell context (i + 1) c
  pure (Cell.context .error context)

end Interp

namespace Query

/-- The text of a field of an error value, unless it is missing, null or blank. -/
def errorField? (context : SeriesId) (name : String) : Query (Option String) := do
  match (← read).symbols.lookup? name with
  | none => pure none
  | some symbol =>
    match ← contextVar? context symbol with
    | none => pure none
    | some c => if c.isNull || c.isBlank then pure none else some <$> form c

/-- The error that an error value stands for. -/
def errorOfValue (value : Cell) : Query Error := do
  match value.varlist? with
  | none => fail (.invalidArg (← mold value))
  | some context =>
    if !value.is .error then fail (.invalidArg (← mold value))
    checkAccessible context
    let category := ((← errorField? context "type").map Category.ofName).getD .user
    let id := (← errorField? context "id").getD "user"
    let message := (← errorField? context "message").getD ""
    let site ← errorField? context "where"
    let near ← errorField? context "near"
    pure { category, id, message, site, near }

end Query

end Homoicon
