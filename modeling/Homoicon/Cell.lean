import Homoicon.Kind
import Homoicon.Symbol

/-!
# Cells

The unit of values.  A cell has a kind and a payload that depends on it, the reference of its
words, and marks that say how it came to where it is.  Values quoted at most three times carry
their depth on the cell; deeper ones refer to a pairing that holds the unquoted value.
-/

namespace Homoicon

/-- A slot of the heap. -/
structure SeriesId where
  slot : Nat
deriving Repr, DecidableEq, Inhabited, Hashable

/-- What the words of a cell refer to. -/
inductive Binding where
  | unbound
  /-- The variables of a context, or the call that an action belongs to. -/
  | specific (context : SeriesId)
  /-- The parameters of an action; a running call of it supplies their values. -/
  | relative (paramlist : SeriesId)
deriving Repr, DecidableEq, Inhabited

/-- How a parameter takes its argument. -/
inductive ParamClass where
  | normal
  /-- Takes the next cell as it stands. -/
  | hardQuote
  /-- Takes the next cell as it stands, unless it is a group, get-word or get-path. -/
  | softQuote
  | refinement
  | local
  | return
deriving Repr, DecidableEq, Inhabited

/-- Conventions of a parameter beyond its types. -/
structure ParamFlags where
  /-- May be missing at the end of the input. -/
  endable : Bool := false
  /-- Is passed over when the next cell has another type. -/
  skippable : Bool := false
  variadic : Bool := false
  /-- A blank argument makes the whole call null. -/
  noopIfBlank : Bool := false
  /-- Takes quoted arguments unquoted and quotes the result again. -/
  requote : Bool := false
  quotedWord : Bool := false
  quotedPath : Bool := false
deriving Repr, DecidableEq, Inhabited

/-- A set of kinds; as a parameter or key it also has a name and a class. -/
structure Typeset where
  kinds : KindSet
  flags : ParamFlags := {}
  paramClass : ParamClass := .normal
  symbol : Option SymbolId := none
deriving Repr, DecidableEq, Inhabited

/-- A named parameter. -/
def Typeset.param (symbol : SymbolId) (paramClass : ParamClass) (kinds : KindSet) : Typeset :=
  { kinds, paramClass, symbol := some symbol }

/-- Whether a kind belongs to the set. -/
def Typeset.allows (t : Typeset) (k : Kind) : Bool := t.kinds.contains k

/-- An action: its parameters, and the array that holds what it runs. -/
structure Action where
  paramlist : SeriesId
  details : SeriesId
deriving Repr, DecidableEq, Inhabited

/-- Where the values of a variadic argument come from. -/
inductive Varargs where
  /-- The input of a running call. -/
  | frame (varlist : SeriesId) (param : Nat)
  /-- An array of one block, whose position advances. -/
  | array (holder : SeriesId) (paramlist : Option SeriesId) (param : Nat)
deriving Repr, DecidableEq, Inhabited

/-- A day, with room for a time of day in nanoseconds.  The room stays empty: no literal gives a
time of day, and what makes a date of another one leaves it alone. -/
structure Date where
  year : Int
  month : Nat
  day : Nat
  time : Option Int := none
  timeless : time = none := by rfl
deriving Repr, DecidableEq

/-- A day without a time of day. -/
abbrev Date.ofDay (year : Int) (month day : Nat) : Date := { year, month, day }

instance : Inhabited Date := ⟨.ofDay 0 0 0⟩

/-- The content of a cell. -/
inductive Payload where
  | none
  | logic (value : Bool)
  | integer (value : Int)
  | decimal (value : Float)
  | char (value : Char)
  | pair (pairing : SeriesId)
  | tuple (bytes : List UInt8)
  | time (nanoseconds : Int)
  | date (value : Date)
  | datatype (kind : Kind)
  | typeset (value : Typeset)
  | word (symbol : SymbolId) (index : Nat)
  | series (series : SeriesId) (index : Nat)
  | context (varlist : SeriesId) (phase : Option Action)
  | action (value : Action)
  | varargs (value : Varargs)
  | handle (value : Nat)
  | quoted (pairing : SeriesId) (depth : Nat)
deriving Inhabited

namespace Payload

/-- The series a payload refers to. -/
def nodes : Payload → List SeriesId
  | pair id => [id]
  | series id _ => [id]
  | context varlist phase => varlist :: (phase.map (·.paramlist)).toList
  | action a => [a.paramlist, a.details]
  | varargs (.frame varlist _) => [varlist]
  | varargs (.array holder paramlist _) => holder :: paramlist.toList
  | quoted pairing _ => [pairing]
  | _ => []

end Payload

/-- A value with its marks. -/
structure Cell where
  kind : Kind
  payload : Payload
  binding : Binding := .unbound
  /-- The quoting depth from 0 to 3; a deeper value has the kind `quoted`. -/
  quote : Nat := 0
  /-- Taken from the source as it stands. -/
  unevaluated : Bool := false
  /-- An action that takes its first argument from the left. -/
  enfixed : Bool := false
  /-- Written on a new line. -/
  newline : Bool := false
  /-- A variable that may not be changed. -/
  guarded : Bool := false
  /-- An argument whose type has been checked, or a slot that a specialization has filled. -/
  checked : Bool := false
  /-- An output that the current expression has not written. -/
  stale : Bool := false
  /-- The null of an argument that is missing at the end of the input. -/
  endish : Bool := false
deriving Inhabited

namespace Cell

/-- A cell that only has a kind. -/
def ofKind (kind : Kind) : Cell := { kind, payload := .none }

/-- The end marker. -/
def end_ : Cell := ofKind .«end»

/-- The end marker of an output not yet written. -/
def staleEnd : Cell := { end_ with stale := true }

/-- The absence of a value. -/
def null : Cell := ofKind .null

/-- The null of an argument missing at the end of the input. -/
def endishNull : Cell := { null with endish := true }

/-- The value that stands for none. -/
def void : Cell := ofKind .void

/-- The placeholder value. -/
def blank : Cell := ofKind .blank

/-- The bar that separates expressions. -/
def bar : Cell := ofKind .bar

/-- A truth value. -/
def logic (b : Bool) : Cell := { kind := .logic, payload := .logic b }

/-- An integer. -/
def integer (i : Int) : Cell := { kind := .integer, payload := .integer i }

/-- A decimal. -/
def decimal (d : Float) : Cell := { kind := .decimal, payload := .decimal d }

/-- A character. -/
def char (c : Char) : Cell := { kind := .char, payload := .char c }

/-- A time in nanoseconds. -/
def time (n : Int) : Cell := { kind := .time, payload := .time n }

/-- A datatype. -/
def datatype (k : Kind) : Cell := { kind := .datatype, payload := .datatype k }

/-- A typeset or parameter. -/
def typeset (t : Typeset) : Cell := { kind := .typeset, payload := .typeset t }

/-- A word of some kind that refers to nothing. -/
def word (kind : Kind) (symbol : SymbolId) : Cell := { kind, payload := .word symbol 0 }

/-- A word that refers to a variable. -/
def boundWord (kind : Kind) (symbol : SymbolId) (binding : Binding) (index : Nat) : Cell :=
  { kind, payload := .word symbol index, binding }

/-- A position in a series. -/
def series (kind : Kind) (id : SeriesId) (index : Nat) : Cell :=
  { kind, payload := .series id index }

/-- A context. -/
def context (kind : Kind) (varlist : SeriesId) : Cell :=
  { kind, payload := .context varlist none }

/-- A call of an action. -/
def frame (varlist : SeriesId) (phase : Action) (binding : Binding) : Cell :=
  { kind := .frame, payload := .context varlist (some phase), binding }

/-- An action. -/
def action (a : Action) (binding : Binding) : Cell :=
  { kind := .action, payload := .action a, binding }

/-- The value of a cell in a new place: only the marks of the value itself go with it. -/
def copied (c : Cell) : Cell :=
  { c with guarded := false, checked := false, stale := false, endish := false }

/-- The end marker. -/
def isEnd (c : Cell) : Bool := c.kind = .«end»

/-- No value. -/
def isNull (c : Cell) : Bool := c.kind = .null

/-- Whether an unquoted cell has a kind. -/
def is (c : Cell) (k : Kind) : Bool := c.quote == 0 && c.kind = k

/-- The unquoted void. -/
def isVoid (c : Cell) : Bool := c.is .void

/-- The unquoted blank. -/
def isBlank (c : Cell) : Bool := c.is .blank

/-- The unquoted bar. -/
def isBar (c : Cell) : Bool := c.is .bar

/-- Quoted at any depth. -/
def isQuoted (c : Cell) : Bool := 0 < c.quote || c.kind = .quoted

/-- The kind of a value, `quoted` if it is quoted. -/
def typeKind (c : Cell) : Kind := if c.isQuoted then .quoted else c.kind

/-- The name of the kind as error messages give it. -/
def typeName (c : Cell) : String := if c.isNull then "null" else c.typeKind.name

/-- Whether a value counts as true. -/
def isTruthy (c : Cell) : Bool :=
  if 0 < c.quote then true
  else
    match c.kind with
    | .null | .blank | .«end» => false
    | .logic =>
      match c.payload with
      | .logic b => b
      | _ => true
    | _ => true

/-- The integer of an unquoted cell. -/
def asInteger? (c : Cell) : Option Int :=
  match c.payload with
  | .integer i => if c.quote == 0 then some i else none
  | _ => none

/-- The number of an unquoted cell as a decimal. -/
def asDecimal? (c : Cell) : Option Float :=
  if c.quote != 0 then none
  else
    match c.payload with
    | .decimal d => some d
    | .integer i => some (Float.ofInt i)
    | _ => none

/-- The name of a word or parameter. -/
def wordSymbol? (c : Cell) : Option SymbolId :=
  match c.payload with
  | .word symbol _ => some symbol
  | .typeset t => t.symbol
  | _ => none

/-- The variable slot of a word. -/
def wordIndex (c : Cell) : Nat :=
  match c.payload with
  | .word _ index => index
  | _ => 0

/-- The series of a cell. -/
def seriesId? (c : Cell) : Option SeriesId :=
  match c.payload with
  | .series id _ => some id
  | _ => none

/-- The position of a cell in its series. -/
def index (c : Cell) : Nat :=
  match c.payload with
  | .series _ index => index
  | _ => 0

/-- The same series at another position. -/
def atIndex (c : Cell) (index : Nat) : Cell :=
  match c.payload with
  | .series id _ => { c with payload := .series id index }
  | _ => c

/-- The action of an unquoted cell. -/
def asAction? (c : Cell) : Option Action :=
  match c.payload with
  | .action a => if c.quote == 0 then some a else none
  | _ => none

/-- The variables of a context. -/
def varlist? (c : Cell) : Option SeriesId :=
  match c.payload with
  | .context varlist _ => some varlist
  | _ => none

/-- The character of an unquoted cell. -/
def asChar? (c : Cell) : Option Char :=
  match c.payload with
  | .char ch => if c.quote == 0 then some ch else none
  | _ => none

/-- The series a cell refers to, those of its binding included. -/
def references (c : Cell) : List SeriesId :=
  c.payload.nodes ++ (match c.binding with
    | .unbound => []
    | .specific id => [id]
    | .relative id => [id])

/-- A cell whose words are looked up elsewhere. -/
def withBinding (c : Cell) (binding : Binding) : Cell := { c with binding }

end Cell

end Homoicon
