import Homoicon.Bits
import Homoicon.Error
import Homoicon.Frame
import Homoicon.Heap

/-!
# The machine

All state of an interpreter: the heap and the symbol table, the stacks of frames, feeds, data and
guarded cells, the throw in progress, and the two contexts of variables.  Evaluation is a
computation over this state that may raise an error.
-/

namespace Homoicon

/-- The limits an interpreter runs under. -/
structure Config where
  /-- Expressions between two looks at pending signals. -/
  evalDose : Int := 10000
  /-- Memory that may be allocated before a collection is asked for. -/
  ballast : Int := 3000000
  /-- The greatest number of frames. -/
  maxDepth : Nat := 1024
  /-- The greatest height of the data stack. -/
  dataStackLimit : Nat := 1000000
  /-- Bytes of the native stack that an evaluation may use. -/
  stackBytes : Nat := 1572864
  /-- Bytes of the native stack in use with a number of frames and, within the last of them, a number
  of rules of PARSE in each other.  They depend on the host, which runs code by its own recursion. -/
  stackUse : Nat → Nat → Nat := fun _ _ => 0
deriving Inhabited

/-- Limits with another number of expressions between two looks at signals, at least one. -/
def Config.withEvalDose (config : Config) (dose : Int) : Config :=
  { config with evalDose := max 1 dose }

/-- Whether frames and rules in each other use more of the native stack than they may. -/
def Config.overruns (config : Config) (frames rules : Nat) : Bool :=
  config.stackBytes < config.stackUse frames rules

/-- Whether no frame can be pushed on so many. -/
def Config.isFull (config : Config) (frames : Nat) : Bool :=
  config.maxDepth ≤ frames || config.overruns frames 0

/-- A throw in progress: the label tells who catches it. -/
structure Thrown where
  label : Cell
  value : Cell
deriving Inhabited

/-- The actions that the evaluator knows by identity. -/
structure Specials where
  unwind : Action
  redo : Action
  divide : Action
  break_ : Action
  continue_ : Action
  quit : Action
  parseAccept : Action
  parseReject : Action
  return_ : Action
deriving Repr, Inhabited

/-- Signals that wait to be handled at the start of an expression. -/
structure Signals where
  recycle : Bool := false
  halt : Bool := false
  interrupt : Bool := false
deriving Repr, DecidableEq, Inhabited

/-- A value that the host holds on to. -/
structure HostHandle where
  cell : Cell
  /-- The frame that ran when the host took hold of it, if any. -/
  owner : Option FrameId
deriving Inhabited

/-- The pending signals as bits. -/
def Signals.bits (s : Signals) : Nat :=
  (if s.recycle then 1 else 0) + (if s.halt then 2 else 0) + (if s.interrupt then 4 else 0)

/-- The state of an interpreter. -/
structure Machine where
  config : Config
  heap : Heap
  symbols : Symbols := .empty
  frames : Array Frame := #[]
  feeds : Array Feed := #[]
  stack : Array Cell := #[]
  thrown : Option Thrown := none
  /-- Series that are freed when a failure unwinds past their making, in order of making. -/
  manuals : Array SeriesId := #[]
  /-- Cells kept alive across an evaluation. -/
  guards : Array Cell := #[]
  /-- The values that the host holds on to; one that it let go of leaves a gap. -/
  handles : Array (Option HostHandle) := #[]
  lib : SeriesId := ⟨0⟩
  user : SeriesId := ⟨0⟩
  specials : Specials := default
  signals : Signals := {}
  countdown : Int
  collectorLocks : Nat := 0
  /-- The lines printed. -/
  printed : String := ""
deriving Inhabited

/-- How an evaluation can end without an answer. -/
inductive Fault where
  /-- An error that a program can trap. -/
  | error (error : Error)
  /-- A rule of the machine itself is broken, as when a freed series is used. -/
  | defect
  /-- The bound on the length of an evaluation is reached. -/
  | exhausted
deriving Repr, Inhabited

/-- A question about a machine. -/
abbrev Query := ReaderT Machine (Except Fault)

/-- A computation that changes a machine. -/
abbrev Interp := EStateM Fault Machine

/-- Asks a question and leaves the machine as it is. -/
@[inline] def Query.ask {α : Type} (q : Query α) : Interp α := fun m =>
  match q m with
  | .ok a => .ok a m
  | .error fault => .error fault m

instance : MonadLift Query Interp := ⟨Query.ask⟩

/-- Raises the error of a cause. -/
def fail {m : Type → Type} [MonadExceptOf Fault m] {α : Type} (cause : Cause) : m α :=
  throw (.error cause.error)

/-- Stops because a rule of the machine is broken. -/
def defect {m : Type → Type} [MonadExceptOf Fault m] {α : Type} : m α := throw .defect

/-- A number that the machine reckons in 64 bits without looking whether it fits: one that does not
breaks it. -/
def exact64 {m : Type → Type} [Monad m] [MonadExceptOf Fault m] (i : Int) : m Int :=
  if Bits.fits64 i then pure i else defect

/-- The value that must be there. -/
def expect {m : Type → Type} [Monad m] [MonadExceptOf Fault m] {α : Type} :
    Option α → m α
  | some a => pure a
  | none => defect

namespace Query

/-- The series with an id; a freed one is not to be used. -/
def series (id : SeriesId) : Query Series := fun m =>
  match m.heap.get? id with
  | some s => .ok s
  | none => .error .defect

/-- Whether an id stands for a series. -/
def isLive (id : SeriesId) : Query Bool := fun m => .ok (m.heap.isLive id)

/-- The cells of an array. -/
def cells (id : SeriesId) : Query (Array Cell) := do
  match (← series id).content with
  | .array cells => pure cells
  | _ => defect

/-- The cells of an array from a position on. -/
def cellsFrom (id : SeriesId) (index : Nat) : Query (List Cell) := do
  pure ((← cells id).toList.drop index)

/-- A cell of an array. -/
def cell (id : SeriesId) (index : Nat) : Query Cell := do
  expect (← cells id)[index]?

/-- The content of a text. -/
def text (id : SeriesId) : Query Text.Buffer := do
  match (← series id).content with
  | .text buffer => pure buffer
  | _ => defect

/-- The content of a binary. -/
def bytes (id : SeriesId) : Query (Array UInt8) := do
  match (← series id).content with
  | .binary bytes => pure bytes
  | _ => defect

/-- The number of elements of a series. -/
def size (id : SeriesId) : Query Nat := do pure (← series id).content.size

/-- Whether a series has some of the given flags. -/
def hasFlag (id : SeriesId) (flags : Flags) : Query Bool := do pure ((← series id).has flags)

/-- A frame. -/
def frame (f : FrameId) : Query Frame := fun m =>
  match m.frames[f]? with
  | some frame => .ok frame
  | none => .error .defect

/-- A feed. -/
def feed (id : FeedId) : Query Feed := fun m =>
  match m.feeds[id]? with
  | some feed => .ok feed
  | none => .error .defect

/-- A spelling. -/
def spelling (symbol : SymbolId) : Query String := fun m => .ok (m.symbols.spelling symbol)

/-- A spelling in small letters. -/
def lower (symbol : SymbolId) : Query String := fun m => .ok (m.symbols.lower symbol)

/-- The canon of a spelling. -/
def canon (symbol : SymbolId) : Query SymbolId := fun m => .ok (m.symbols.canon symbol)

end Query

namespace Machine

/-- Changes the heap. -/
@[inline] def onHeap (m : Machine) (f : Heap → Heap) : Machine :=
  match m with
  | ⟨config, heap, symbols, frames, feeds, stack, thrown, manuals, guards, handles, lib, user,
      specials, signals, countdown, collectorLocks, printed⟩ =>
    ⟨config, f heap, symbols, frames, feeds, stack, thrown, manuals, guards, handles, lib, user,
      specials, signals, countdown, collectorLocks, printed⟩

end Machine

namespace Interp

/-- Puts a series on the heap. -/
def alloc (s : Series) : Interp SeriesId := fun m =>
  let (id, heap) := m.heap.alloc s
  .ok id { m with heap }

/-- Puts a series on the heap that is to be freed by hand. -/
def allocManual (s : Series) : Interp SeriesId := fun m =>
  let (id, heap) := m.heap.alloc s
  .ok id { m with heap, manuals := m.manuals.push id }

/-- Frees a series. -/
def dealloc (id : SeriesId) : Interp Unit := modify (·.onHeap (·.dealloc id))

/-- Changes a series that must be in use. -/
@[specialize] def modifySeries (id : SeriesId) (f : Series → Series) : Interp Unit := fun m =>
  if m.heap.isLive id then .ok () (m.onHeap (·.modify id f)) else .error .defect m

/-- Sets flags of a series. -/
def setFlag (id : SeriesId) (flags : Flags) : Interp Unit := modifySeries id (·.withFlags flags)

/-- Clears flags of a series. -/
def clearFlag (id : SeriesId) (flags : Flags) : Interp Unit :=
  modifySeries id fun s => { s with flags := s.flags &&& ~~~ flags }

/-- Whether a series is an array. -/
def isArray (id : SeriesId) : Query Bool := do
  match (← Query.series id).content with
  | .array _ => pure true
  | _ => pure false

/-- Changes the cells of an array in place. -/
@[specialize] def modifyCells (id : SeriesId) (f : Array Cell → Array Cell) : Interp Unit := do
  if ← isArray id then
    modifySeries id fun s =>
      match s with
      | ⟨flags, .array cells, link, role⟩ => ⟨flags, .array (f cells), link, role⟩
      | s => s
  else defect

/-- Changes a cell of an array that must be there. -/
@[specialize] def modifyCell (id : SeriesId) (index : Nat) (f : Cell → Cell) : Interp Unit := do
  if index < (← Query.cells id).size then modifyCells id (·.modify index f) else defect

/-- Stores a cell with all its marks. -/
def storeCell (id : SeriesId) (index : Nat) (c : Cell) : Interp Unit :=
  modifyCell id index fun _ => c

/-- Stores the value of a cell. -/
def moveCell (id : SeriesId) (index : Nat) (c : Cell) : Interp Unit :=
  storeCell id index c.copied

/-- Changes a text in place. -/
@[specialize] def modifyText (id : SeriesId) (f : Text.Buffer → Text.Buffer) : Interp Unit := do
  let _ ← Query.text id
  modifySeries id fun s =>
    match s with
    | ⟨flags, .text buffer, link, role⟩ => ⟨flags, .text (f buffer), link, role⟩
    | s => s

/-- Changes bytes in place. -/
@[specialize] def modifyBytes (id : SeriesId) (f : Array UInt8 → Array UInt8) : Interp Unit := do
  let _ ← Query.bytes id
  modifySeries id fun s =>
    match s with
    | ⟨flags, .binary bytes, link, role⟩ => ⟨flags, .binary (f bytes), link, role⟩
    | s => s

/-- Puts a managed array on the heap. -/
def allocArray (cells : List Cell) : Interp SeriesId :=
  alloc (Series.ofCells cells.toArray).managed

/-- Puts a managed text on the heap. -/
def allocText (s : String) : Interp SeriesId := alloc (Series.ofText s).managed

/-- Puts managed bytes on the heap. -/
def allocBytes (bytes : Array UInt8) : Interp SeriesId := alloc (Series.ofBytes bytes).managed

/-- A new text value. -/
def textCell (kind : Kind) (s : String) : Interp Cell := do
  pure (Cell.series kind (← allocText s) 0)

/-- A new array value. -/
def arrayCell (kind : Kind) (cells : List Cell) : Interp Cell := do
  pure (Cell.series kind (← allocArray cells) 0)

/-- A new pair of two numbers. -/
def pairCell (x y : Cell) : Interp Cell := do
  let id ← alloc ((Series.ofCells #[x, y]).withFlags (Flags.pairing ||| Flags.managed))
  pure { kind := .pair, payload := .pair id }

/-- The id of a spelling. -/
def intern (text : String) : Interp SymbolId := fun m =>
  let (id, symbols) := m.symbols.intern text
  .ok id { m with symbols }

/-- A word that refers to nothing. -/
def wordCell (kind : Kind) (name : String) : Interp Cell := do
  pure (Cell.word kind (← intern name))

/-- Changes a frame. -/
@[specialize] def modifyFrame (f : FrameId) (g : Frame → Frame) : Interp Unit := fun m =>
  if f < m.frames.size then .ok () { m with frames := m.frames.modify f g }
  else .error .defect m

/-- Changes a feed. -/
@[specialize] def modifyFeed (id : FeedId) (g : Feed → Feed) : Interp Unit := fun m =>
  if id < m.feeds.size then .ok () { m with feeds := m.feeds.modify id g }
  else .error .defect m

/-- Writes the output of a frame with all marks of the cell. -/
def writeOut (f : FrameId) (c : Cell) : Interp Unit := modifyFrame f fun fr => { fr with out := c }

/-- Writes a value to the output of a frame. -/
def setOut (f : FrameId) (c : Cell) : Interp Unit := writeOut f c.copied

/-- Keeps a cell alive. -/
def guard (c : Cell) : Interp Unit := modify fun m => { m with guards := m.guards.push c }

/-- The number of guarded cells. -/
def guardMark : Interp Nat := do pure (← get).guards.size

/-- Lets go of the cells guarded since a mark. -/
def unguardTo (mark : Nat) : Interp Unit :=
  modify fun m => { m with guards := m.guards.shrink mark }

/-- Runs a computation and lets go of the cells that it guarded. -/
def guarding {α : Type} (body : Interp α) : Interp α := do
  let mark ← guardMark
  let a ← body
  unguardTo mark
  pure a

/-- The height of the data stack. -/
def stackHeight : Interp Nat := do pure (← get).stack.size

/-- Pushes a cell on the data stack. -/
def pushStack (c : Cell) : Interp Unit := fun m =>
  if m.config.dataStackLimit ≤ m.stack.size then .error (.error Cause.stackOverflow.error) m
  else .ok () { m with stack := m.stack.push c }

/-- Takes the top of the data stack. -/
def popStack? : Interp (Option Cell) := fun m =>
  match m.stack.back? with
  | some top => .ok (some top) { m with stack := m.stack.pop }
  | none => .ok none m

/-- Cuts the data stack down to a height. -/
def truncateStack (height : Nat) : Interp Unit :=
  modify fun m => { m with stack := m.stack.shrink height }

/-- Begins a throw. -/
def beginThrow (label value : Cell) : Interp Unit :=
  modify fun m => { m with thrown := some ⟨label, value⟩ }

/-- Ends the throw in progress; there must be one. -/
def takeThrown : Interp Thrown := fun m =>
  match m.thrown with
  | some t => .ok t { m with thrown := none }
  | none => .error .defect m

/-- The label of the throw in progress. -/
def thrownLabel? : Interp (Option Cell) := do pure ((← get).thrown.map (·.label))

/-- Prints a line. -/
def emit (line : String) : Interp Unit :=
  modify fun m => { m with printed := m.printed ++ line ++ "\n" }

end Interp

end Homoicon
