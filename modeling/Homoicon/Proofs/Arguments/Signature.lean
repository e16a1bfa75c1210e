import Homoicon.Evaluation.Arguments

/-!
# What a call with refinements fills its slots with

A call takes its literals in the order in which its refinements are named: first those for the
parameters before all refinements, then those for the refinement named first, and so on.  While
the slots are filled in the order of the parameters, the names that are left wait on the data
stack, those of refinements passed already with their slot.
-/

namespace Homoicon

namespace Cell

/-- The value of a cell as an argument that needs no further check. -/
def settled (value : Cell) : Cell := { value.copied with endish := value.endish, checked := true }

/-- A literal as an argument. -/
def argument (literal : Cell) : Cell := { literal with unevaluated := true, checked := true }

/-- An integer as it stands in a source. -/
def IsInteger (c : Cell) : Prop := ∃ i newline, c = { Cell.integer i with newline }

/-- A value other than a word or an array that stands for itself, such as a number or a string, as
it stands in a source. -/
def IsLiteral (c : Cell) : Prop :=
  (c.kind.isInert && !c.kind.isAnyWord && !c.kind.isAnyArray) = true ∧
    c = { kind := c.kind, payload := c.payload, newline := c.newline }

/-- A cell that cannot be an operator. -/
def IsQuiet (c : Cell) : Prop := c.is .word = false ∧ c.is .path = false

/-- A name on the data stack, with the slot of its refinement once that is passed. -/
def pushed (s : SymbolId) (slot : Nat) : Cell := boundWord .word s .unbound slot

end Cell

/-! ## Signatures -/

/-- A parameter that takes an integer, or a slot that takes nothing. -/
inductive Typeset.Ordinary (p : Typeset) : Prop where
  | taking : p.paramClass = .normal → p.flags.variadic = false → p.allows .integer = true →
      Ordinary p
  | idle : p.paramClass = .local ∨ p.paramClass = .return → Ordinary p

/-- A refinement and the parameters behind it. -/
structure Refinement where
  param : Typeset
  symbol : SymbolId
  args : List Typeset
  isRefinement : param.paramClass = .refinement
  named : param.symbol = some symbol
  ordinary : ∀ p ∈ args, p.Ordinary

/-- The parameters of an action: those before all refinements, and the refinements. -/
structure Signature where
  plain : List Typeset
  refinements : List Refinement
  ordinary : ∀ p ∈ plain, p.Ordinary

/-- The parameters of some refinements in order. -/
def Refinement.params (refinements : List Refinement) : List Typeset :=
  refinements.flatMap fun r => r.param :: r.args

/-- All parameters in order. -/
def Signature.params (sig : Signature) : List Typeset :=
  sig.plain ++ Refinement.params sig.refinements

/-- How many literals some parameters take. -/
def demand (params : List Typeset) : Nat := params.countP (·.paramClass = .normal)

/-- How many literals some parameters take behind a refinement: none unless it is in use and they
are filled at once. -/
def demandIn (state : RefineState) (params : List Typeset) : Nat :=
  if state = .ordinary then demand params else 0

/-- What the slot of a parameter holds that stands behind a refinement. -/
def slotCell (ret : Cell) (state : RefineState) (p : Typeset) (literals : List Cell) : Cell :=
  match p.paramClass, state with
  | .normal, .ordinary => (literals.headD Cell.end_).argument
  | .normal, .pickup => Cell.null
  | .return, _ => ret.settled
  | _, _ => Cell.null.settled

/-- What the slots of some parameters hold, which take the literals one after the other. -/
def slotCells (ret : Cell) (state : RefineState) : List Typeset → List Cell → List Cell
  | [], _ => []
  | p :: params, literals =>
    slotCell ret state p literals ::
      slotCells ret state params (literals.drop (demandIn state [p]))

/-- What the slot of a refinement holds. -/
def ownCell (state : RefineState) : Cell :=
  (if state = .unused then Cell.blank else Cell.logic true).settled

/-- What the slots of a refinement and of the parameters behind it hold. -/
def Refinement.cells (ret : Cell) (state : RefineState) (literals : List Cell) (r : Refinement) :
    List Cell :=
  ownCell state :: slotCells ret state r.args literals

section

variable (canon : SymbolId → SymbolId)

/-- Whether a name is that of a refinement, whatever its case. -/
def Refinement.isNamed (r : Refinement) (s : SymbolId) : Bool := canon s == canon r.symbol

/-- Whether a refinement is in use, by the names that are taken already and those that wait. -/
def Refinement.state (taken left : List SymbolId) (r : Refinement) : RefineState :=
  if taken.any (r.isNamed canon) then .ordinary
  else if left.any (r.isNamed canon) then .pickup
  else .unused

namespace Signature

/-- How many literals the refinement with a name takes. -/
def demandOf (sig : Signature) (s : SymbolId) : Nat :=
  ((sig.refinements.find? (·.isNamed canon s)).map fun r => demand r.args).getD 0

/-- How many literals a call takes that names some refinements. -/
def demandAll (sig : Signature) (names : List SymbolId) : Nat :=
  names.foldl (fun n s => n + sig.demandOf canon s) (demand sig.plain)

/-- What a refinement takes begins behind what the refinements named before it take. -/
def offset (sig : Signature) (names : List SymbolId) (r : Refinement) : Nat :=
  sig.demandAll canon (names.takeWhile fun s => !r.isNamed canon s)

/-- What the slots of some refinements hold when some names are taken and others wait. -/
def refinementCells (sig : Signature) (ret : Cell) (taken left : List SymbolId)
    (literals : List Cell) (refinements : List Refinement) : List Cell :=
  refinements.flatMap fun r =>
    r.cells ret (r.state canon taken left) (literals.drop (sig.offset canon (taken ++ left) r))

/-- What the slots hold in the end: the parameters before all refinements the first literals, and
each refinement that is named what follows for it. -/
def cells (sig : Signature) (ret : Cell) (names : List SymbolId) (literals : List Cell) :
    List Cell :=
  slotCells ret .ordinary sig.plain literals ++
    sig.refinementCells canon ret names [] literals sig.refinements

/-- Each name is that of a refinement, and none is there twice. -/
def Accepts (sig : Signature) (names : List SymbolId) : Prop :=
  (∀ s ∈ names, ∃ r ∈ sig.refinements, r.isNamed canon s = true) ∧ (names.map canon).Nodup

/-- There are literals for all refinements that are named before the first name that is wrong. -/
def Suffices (sig : Signature) (names : List SymbolId) (literals : List Cell) : Prop :=
  ∀ good, good <+: names → sig.Accepts canon good → sig.demandAll canon good ≤ literals.length

end Signature

/-! ## Names on the data stack -/

/-- The slot of the refinement with a name, zero if it is none of these; `start` is the slot of
the first one. -/
def slotIn (start : Nat) : List Refinement → SymbolId → Nat
  | [], _ => 0
  | r :: rest, s => if r.isNamed canon s then start else slotIn (start + r.args.length + 1) rest s

/-- The names that wait on the data stack, the top first, when some are taken.  One that repeats
another never has a slot. -/
def waiting (slot : SymbolId → Nat) : List SymbolId → List SymbolId → List Cell
  | _, [] => []
  | taken, s :: left =>
    Cell.pushed s (if taken.any (canon · == canon s) then 0 else slot s) ::
      waiting slot (taken ++ [s]) left

end

end Homoicon
