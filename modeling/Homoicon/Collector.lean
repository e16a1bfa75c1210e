import Homoicon.Machine

/-!
# The collector

Series that nothing can reach any more are freed.  The roots are the series marked as such, the
arguments of running calls, everything on the stacks and the throw in progress; from there
references are followed through cells, bindings and links.
-/

namespace Homoicon

namespace Frame

/-- The series a frame keeps alive. -/
def references (f : Frame) : List SeriesId :=
  f.out.references ++ f.spare.references ++ f.varlist.toList ++
    (f.called.toList ++ f.phase.toList).flatMap (fun a => [a.paramlist, a.details]) ++
    (match f.binding with
      | .unbound => []
      | .specific id => [id]
      | .relative id => [id])

end Frame

namespace Feed

/-- The series a feed keeps alive. -/
def references (f : Feed) : List SeriesId :=
  (match f.source with
    | .array array _ => [array]
    | .cells rest => rest.flatMap Cell.references) ++
  f.value.references ++ (f.gotten.toList ++ f.lookback.toList).flatMap Cell.references ++
    f.specifier.toList

end Feed

namespace Machine

/-- The series from which everything in use is reached. -/
def roots (m : Machine) : List SeriesId :=
  m.heap.liveIds.filter (fun id => (m.heap.get? id).any (·.has Flags.root)) ++
    m.manuals.toList ++
    m.frames.toList.flatMap Frame.references ++
    m.feeds.toList.flatMap Feed.references ++
    m.stack.toList.flatMap Cell.references ++
    m.guards.toList.flatMap Cell.references ++
    m.handles.toList.flatMap (fun handle => handle.toList.flatMap (·.cell.references)) ++
    m.thrown.toList.flatMap (fun t => t.label.references ++ t.value.references)

end Machine

namespace Heap

/-- Marks everything that is reached from the pending series.  A step either marks a series or
takes one from the list, so the steps are bounded by the references there are. -/
def mark : Nat → List SeriesId → Heap → Heap
  | 0, _, h => h
  | _ + 1, [], h => h
  | steps + 1, id :: pending, h =>
    match h.get? id with
    | none => mark steps pending h
    | some s =>
      if s.has Flags.marked then mark steps pending h
      else mark steps (s.references ++ pending) (h.modify id (·.withFlags Flags.marked))

/-- Clears the mark of a series, or frees it if it is managed and has none. -/
def sweepOne (h : Heap) (id : SeriesId) : Heap :=
  match h.get? id with
  | none => h
  | some s =>
    if s.has Flags.marked then
      h.modify id fun s => { s with flags := s.flags &&& ~~~ Flags.marked }
    else if s.has Flags.managed then h.dealloc id
    else h

/-- Frees the managed series without a mark, and clears all marks. -/
def sweep (h : Heap) : Heap := h.liveIds.foldl sweepOne h

/-- The number of references out of all series. -/
def referenceCount (h : Heap) : Nat :=
  h.slots.foldl (fun n slot => match slot with
    | some s => n + s.references.length
    | none => n) 0

/-- Frees what cannot be reached from the roots, and fills the ballast up. -/
def collect (h : Heap) (steps : Nat) (roots : List SeriesId) (ballast : Int) : Heap :=
  { (h.mark steps roots).sweep with ballast, recycleRequested := false }

end Heap

namespace Machine

/-- Frees what cannot be reached, unless the collector is locked. -/
def recycle (m : Machine) : Machine :=
  if 0 < m.collectorLocks then m
  else
    let roots := m.roots
    let steps := roots.length + m.heap.referenceCount + m.heap.slots.size + 1
    let ballast := m.config.ballast
    m.onHeap (·.collect steps roots ballast)

end Machine

namespace Interp

/-- Frees what cannot be reached, and returns how many series that was. -/
def recycle : Interp Nat := do
  let before := (← get).heap.live
  modify Machine.recycle
  pure (before - (← get).heap.live)

end Interp

end Homoicon
