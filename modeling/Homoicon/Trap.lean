import Homoicon.Collector
import Homoicon.Frame.Call
import Homoicon.Mold

/-!
# Signals and traps

Pending signals are handled at the start of an expression.  A trap remembers how high the stacks
were; when the evaluation in it fails they are cut back to that, and the error learns which action
failed and near which code.
-/

namespace Homoicon

/-- The heights of all stacks. -/
structure Snapshot where
  frames : Nat
  feeds : Nat
  stack : Nat
  manuals : Nat
  handles : Nat
  guards : Nat
  collectorLocks : Nat
deriving Repr, Inhabited

/-- The heights of the stacks of a machine. -/
def Machine.snapshot (m : Machine) : Snapshot :=
  { frames := m.frames.size, feeds := m.feeds.size, stack := m.stack.size,
    manuals := m.manuals.size, handles := m.handles.size, guards := m.guards.size,
    collectorLocks := m.collectorLocks }

/-- Cuts the stacks that running code stands on back to the heights they had. -/
def Machine.cutTo (m : Machine) (snap : Snapshot) : Machine :=
  { m with frames := m.frames.shrink snap.frames, feeds := m.feeds.shrink snap.feeds,
           stack := m.stack.shrink snap.stack }

namespace Query

/-- The code of the current expression of a frame, at most its last six cells. -/
def nearText? (f : FrameId) : Query (Option String) := do
  let frame ← frame f
  match (← feed frame.feed).position? with
  | none => pure none
  | some (array, index) =>
    let start := min (frame.exprIndex.getD index) index
    let cells ← cells array
    let stop := max (min (index + 1) cells.size) start
    if cells.size < stop then defect
    let parts ← (cells.extract start stop).toList.mapM mold
    let shown := if 6 < parts.length then "..." :: parts.drop (parts.length - 6) else parts
    pure (some (String.intercalate " " shown))

/-- The innermost of some frames that runs a named action. -/
def innermostLabel? (frames : List FrameId) : Query (Option FrameId) := do
  let m ← read
  pure (frames.reverse.find? fun f => (m.frames[f]?.bind (·.label)).isSome)

/-- An error with the action and the code it was raised in. -/
def annotate (snap : Snapshot) (e : Error) : Query Error := do
  let height := (← read).frames.size
  let e ← match ← innermostLabel? (List.range' snap.frames (height - snap.frames)) with
    | some f => do pure (e.withSite (← frameLabel f))
    | none => pure e
  if snap.frames < height then
    match ← nearText? (height - 1) with
    | some near => pure (e.withNear near)
    | none => pure e
  else pure e

end Query

namespace Interp

/-- Asks the evaluator to stop at the next expression. -/
def requestHalt : Interp Unit :=
  modify fun m => { m with signals := { m.signals with halt := true }, countdown := 1 }

/-- Asks for a collection at the next expression. -/
def requestRecycle : Interp Unit :=
  modify fun m => { m with signals := { m.signals with recycle := true }, countdown := 1 }

/-- Asks for an interruption at the next expression. -/
def requestInterrupt : Interp Unit :=
  modify fun m => { m with signals := { m.signals with interrupt := true }, countdown := 1 }

/-- Counts an expression towards the next look at pending signals. -/
def countDown : Interp Unit := modify fun m => { m with countdown := m.countdown - 1 }

/-- Handles the pending signals. -/
def doSignals : Interp Unit := do
  modify fun m => { m with countdown := max m.config.evalDose 1 }
  let m ← get
  if m.signals.recycle || m.heap.recycleRequested then
    modify fun m => { m with signals := { m.signals with recycle := false } }
    let _ ← recycle
  modify fun m => { m with signals := { m.signals with interrupt := false } }
  if (← get).signals.halt then
    modify fun m => { m with signals := { m.signals with halt := false } }
    fail .halted

/-- Makes the kept arguments of an abandoned call inaccessible. -/
def abandonFrame (f : FrameId) : Interp Unit := do
  match (← get).frames[f]?.bind (·.varlist) with
  | some varlist =>
    if ← Query.isLive varlist then
      if ← Query.hasFlag varlist Flags.managed then
        setFlag varlist Flags.inaccessible
        modifyCells varlist (·.shrink 1)
  | none => pure ()

/-- Frees a series that was made by hand and never given over to the collector. -/
def abandonManual (id : SeriesId) : Interp Unit := do
  if ← Query.isLive id then
    if !(← Query.hasFlag id Flags.managed) then dealloc id

/-- Frees the series made by hand that come behind the first ones. -/
def abandonManuals (count : Nat) : Interp Unit := do
  let made := (← get).manuals.toList.drop count
  modify fun m => { m with manuals := m.manuals.shrink count }
  made.forM abandonManual

/-- Cuts all stacks back after a failure, and completes the error. -/
def restore (snap : Snapshot) (e : Error) : Interp Error := do
  let e ← Query.annotate snap e
  let height := (← get).frames.size
  (List.range' snap.frames (height - snap.frames)).reverse.forM abandonFrame
  modify (·.cutTo snap)
  abandonManuals snap.manuals
  modify fun m =>
    { m with handles := m.handles.shrink snap.handles, guards := m.guards.shrink snap.guards,
             collectorLocks := snap.collectorLocks, thrown := none }
  pure e

/-- Runs a computation; an error it raises is returned once all stacks are cut back. -/
def trap {α : Type} (body : Interp α) : Interp (Except Error α) := fun m =>
  let snap := m.snapshot
  match body m with
  | .ok a m => .ok (.ok a) m
  | .error (.error e) m =>
    match restore snap e m with
    | .ok e m => .ok (.error e) m
    | .error fault m => .error fault m
  | .error fault m => .error fault m

end Interp

end Homoicon
