import Homoicon.Cell
import Homoicon.Text.Buffer

/-!
# Series

What lives in a slot of the heap: an array of cells, a text or bytes, with flags and links that
say what part it plays.
-/

namespace Homoicon

/-- The place of a call on the stack of calls. -/
abbrev FrameId := Nat

/-- What an action runs. -/
inductive Dispatcher where
  /-- An entry of the table of built-in actions. -/
  | native (index : Nat)
  /-- Tests a value for the kind in the details. -/
  | typeCheck
  /-- Evaluates the block in the details. -/
  | body
  /-- Runs the action in the details, some of whose arguments are already given. -/
  | specialization
  /-- Runs the first action in the details and hands its result to the second. -/
  | chain
deriving Repr, DecidableEq, Inhabited

/-- The content of a series. -/
inductive Content where
  | array (cells : Array Cell)
  | text (buffer : Text.Buffer)
  | binary (bytes : Array UInt8)
deriving Inhabited

namespace Content

/-- The number of elements. -/
def size : Content → Nat
  | array cells => cells.size
  | text buffer => buffer.size
  | binary bytes => bytes.size

/-- The bytes that an element counts for when memory is reckoned. -/
def width : Content → Nat
  | array _ => 48
  | text _ | binary _ => 1

end Content

/-- A series that another one belongs with. -/
inductive Link where
  | none
  /-- The names of the variables of a context, or the parameters that a call is laid out by. -/
  | keylist (id : SeriesId)
  /-- The arguments that a specialization has fixed. -/
  | exemplar (id : SeriesId)
deriving Repr, DecidableEq, Inhabited

/-- What else a series stands for. -/
inductive Role where
  | none
  /-- The details of an action. -/
  | dispatcher (dispatcher : Dispatcher)
  /-- The arguments of a running call. -/
  | frame (id : FrameId)
deriving Repr, DecidableEq, Inhabited

/-- A set of flags, one bit each. -/
abbrev Flags := UInt32

namespace Flags

/-- Owned by the collector. -/
def managed : Flags := 1
/-- Found reachable by a collection in progress. -/
def marked : Flags := 2
/-- Never collected. -/
def root : Flags := 4
/-- The variables of a call that has ended. -/
def inaccessible : Flags := 8
/-- May not be changed. -/
def locked : Flags := 16
/-- Holds the variables of a context. -/
def varlist : Flags := 64
/-- Holds the parameters of an action. -/
def paramlist : Flags := 128
/-- Holds what an action runs. -/
def details : Flags := 256
/-- Holds two cells of a value. -/
def pairing : Flags := 512
/-- Holds the names of variables. -/
def keylist : Flags := 1024
/-- Made with exactly one cell. -/
def singular : Flags := 2048
/-- The first parameter takes its argument unevaluated. -/
def quotesFirst : Flags := 0x10000
/-- As an operator, waits until the expression on its left is complete. -/
def defersLookback : Flags := 0x20000
/-- As an operator, waits until the whole call on its left is complete. -/
def postpones : Flags := 0x40000
/-- Leaves the value before it as it was. -/
def invisible : Flags := 0x80000
/-- Some argument is unquoted, and the result quoted again. -/
def returnRequotes : Flags := 0x100000
/-- Has a return of its own. -/
def hasReturn : Flags := 0x200000
/-- The first parameter may be passed over. -/
def skippableFirst : Flags := 0x400000
/-- The first parameter may be missing at the end. -/
def endableFirst : Flags := 0x800000

end Flags

/-- A series in the heap. -/
structure Series where
  flags : Flags := 0
  content : Content
  link : Link := .none
  role : Role := .none
deriving Inhabited

namespace Series

/-- A new array. -/
def ofCells (cells : Array Cell) : Series :=
  { flags := if cells.size == 1 then Flags.singular else 0, content := .array cells }

/-- A new text. -/
def ofText (s : String) : Series := { content := .text (Text.Buffer.ofString s) }

/-- New bytes. -/
def ofBytes (bytes : Array UInt8) : Series := { content := .binary bytes }

/-- Whether some of the given flags are set. -/
def has (s : Series) (flags : Flags) : Bool := s.flags &&& flags != 0

/-- The series with flags added. -/
def withFlags (s : Series) (flags : Flags) : Series := { s with flags := s.flags ||| flags }

/-- The series given over to the collector. -/
def managed (s : Series) : Series := s.withFlags Flags.managed

/-- The first byte of the header, which never begins a character of UTF-8 text. -/
def leadingByte (s : Series) : UInt8 :=
  0xF8 ||| (if s.has Flags.managed then 2 else 0) ||| (if s.has Flags.marked then 1 else 0) |||
    (if s.has Flags.root then 4 else 0)

/-- The memory a series is reckoned to take. -/
def weight (s : Series) : Int := max (s.content.size * s.content.width) 16

/-- The series that keep alive what this one needs. -/
def references (s : Series) : List SeriesId :=
  (match s.link with
    | .none => []
    | .keylist id => [id]
    | .exemplar id => [id]) ++
  (match s.content with
    | .array cells => cells.toList.flatMap Cell.references
    | _ => [])

end Series

end Homoicon
