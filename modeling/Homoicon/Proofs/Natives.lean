import Homoicon.Library
import Homoicon.Proofs.Storing

/-!
# Arguments and results of actions

A built-in action reads its arguments from the series of its call, and gives its result as the
output of its frame.
-/

namespace Homoicon

variable {m : Machine} {f : FrameId} {args : List Cell} {c : Cell} {i : Nat}

theorem Query.arg_run {varlist : SeriesId} {cells : Array Cell} {frame : Frame}
    (found : m.frames[f]? = some frame) (own : frame.varlist = some varlist)
    (listed : Query.cells varlist m = .ok cells) (here : cells[i]? = some c) :
    Query.arg f i m = .ok c := by
  have asked : Query.frameVarlist f m = .ok varlist := by
    rw [Query.frameVarlist, Query.bind_ok (by rw [Query.frame, found]), own]
    rfl
  rw [Query.arg, Query.bind_ok asked]
  exact Query.cell_eq_ok.mpr ⟨cells, listed, here⟩

namespace Machine

/-- A frame runs a call with some arguments. -/
def HasArgs (m : Machine) (f : FrameId) (args : List Cell) : Prop :=
  ∃ frame varlist first, m.frames[f]? = some frame ∧ frame.varlist = some varlist ∧
    Query.cells varlist m = .ok (first :: args).toArray

/-- A frame has a value as its output. -/
def Puts (m : Machine) (f : FrameId) (c : Cell) : Prop :=
  ∃ frame, m.frames[f]? = some frame ∧ frame.out = c.copied

/-- A machine whose frame has a value as its output. -/
def putting (m : Machine) (f : FrameId) (c : Cell) : Machine :=
  { m with frames := m.frames.modify f fun frame => { frame with out := c.copied } }

theorem HasArgs.arg_run (has : m.HasArgs f args) (here : args[i]? = some c) :
    Query.arg f (i + 1) m = .ok c := by
  obtain ⟨frame, varlist, first, found, own, listed⟩ := has
  exact Query.arg_run found own listed (by simpa using here)

theorem HasArgs.inside (has : m.HasArgs f args) : f < m.frames.size := by
  obtain ⟨frame, -, -, found, -⟩ := has
  exact (Array.getElem?_eq_some_iff.mp found).1

theorem puts_putting (inside : f < m.frames.size) (c : Cell) : (m.putting f c).Puts f c := by
  refine ⟨{ m.frames[f] with out := c.copied }, ?_, rfl⟩
  change (m.frames.modify f _)[f]? = _
  rw [Array.getElem?_modify, if_pos rfl, Array.getElem?_eq_getElem inside]
  rfl

/-- A machine whose only frame runs a call with some arguments, and which has some more series. -/
def ofArgs (args : List Cell) (more : List Series := []) : Machine where
  config := {}
  heap := { slots := ((Series.ofCells (Cell.null :: args).toArray :: more).map some).toArray
            ballast := 100 }
  frames := #[{ feed := 0, varlist := some ⟨0⟩ }]
  countdown := 1

theorem hasArgs_ofArgs (args : List Cell) (more : List Series) :
    (ofArgs args more).HasArgs 0 args :=
  ⟨_, _, _, rfl, rfl, rfl⟩

end Machine

/-- An engine that evaluates nothing. -/
def Engine.idle : Engine := ⟨fun _ _ => pure false, 0⟩

theorem Interp.give_run (inside : f < m.frames.size) (c : Cell) :
    Interp.give f c m = .ok .out (m.putting f c) := by
  have written : Interp.setOut f c m = .ok () (m.putting f c) := if_pos inside
  rw [Interp.give, Interp.bind_ok written, Interp.pure_run]

/-- The arithmetic comes first among the built-in actions. -/
theorem Library.dispatch_arithmetic {run : Engine → FrameId → Interp Bounce}
    (listed : arithmetics[i]?.map Native.run = some run) (e : Engine) (f : FrameId) :
    dispatch e (.native i) f = run e f := by
  obtain ⟨native, found, rfl⟩ := Option.map_eq_some_iff.mp listed
  have first : natives[i]? = some native := by
    unfold natives
    rw [List.getElem?_toArray]
    simp only [List.append_assoc]
    rw [List.getElem?_append_left (List.getElem?_eq_some_iff.mp found).1, found]
  unfold dispatch
  simp only
  generalize natives[i]? = entry at first
  rw [first]

end Homoicon
