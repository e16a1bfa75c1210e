import Homoicon.Proofs.Booting.Starting
import Homoicon.Proofs.Expressions.Cutting
import Homoicon.Proofs.Expressions.Texts

/-!
# Formulas that are run

A machine with its library set up takes the source text of a formula and gives the result of the
formula: the operations come in the order of the text, a chain from left to right, and the first one
whose result leaves the 64 bits is the answer.  Where the frames are too few for the formula, the
answer may be that the stack is full.
-/

namespace Homoicon

/-! ## Operations of the library -/

/-- The operations of formulas are among the built-in actions. -/
theorem FormulaOp.listed (op : FormulaOp) (enfix : Bool) : ∃ (native : Native) (i : Nat),
    Library.arithmetics[i]? = some native ∧ native.name = op.name enfix ∧
      native.spec = Library.mathSpec ∧ native.enfix = enfix ∧
      native.run = Library.arithmetic op.operation := by
  cases op <;> cases enfix
  · exact ⟨_, 0, rfl, rfl, rfl, rfl, rfl⟩
  · exact ⟨_, 5, rfl, rfl, rfl, rfl, rfl⟩
  · exact ⟨_, 1, rfl, rfl, rfl, rfl, rfl⟩
  · exact ⟨_, 6, rfl, rfl, rfl, rfl, rfl⟩
  · exact ⟨_, 2, rfl, rfl, rfl, rfl, rfl⟩
  · exact ⟨_, 7, rfl, rfl, rfl, rfl, rfl⟩

section

variable {m m' : Machine} {series : List SeriesId} {op : FormulaOp} {enfix : Bool} {c : Cell}
  {i : Nat}

/-- An action of the library that does an operation on two integers.  It is made of series that hold
three cells and none. -/
theorem Machine.Realizes.computes
    (realizes : m.Realizes series Library.mathSpec (.native i) [] enfix c)
    (runs : ∀ e f, Library.dispatch e (.native i) f = Library.arithmetic op.operation e f) :
    ∃ a p₁ p₂, c = { Cell.action a .unbound with enfixed := enfix } ∧
      m.heap.Computes .everywhere op a a.paramlist p₁ p₂ ∧
      ∀ id held, id = a.paramlist ∨ id = a.details → Query.cells id m = .ok held →
        held.size ≠ 1 := by
  obtain ⟨a, d, params, same, read, holds, names, -, -⟩ := realizes
  have binary := Library.mathSpec_binary
  rw [read, Option.any_some, SpecDraft.isBinary_iff] at binary
  obtain ⟨name₁, p₁, name₂, p₂, listed, flags, lookbacks, first, second⟩ := binary
  simp only [listed, List.reverse_cons, List.reverse_nil, List.nil_append, List.cons_append]
    at names
  obtain _ | ⟨⟨s₁, -, rfl⟩, _ | ⟨⟨s₂, -, rfl⟩, none_⟩⟩ := names
  cases none_
  refine ⟨a, _, _, same,
    { lays :=
        { own := ⟨_, holds.paramlist, .inl ⟨rfl, rfl⟩⟩
          base := ⟨_, _, holds.paramlist, rfl⟩
          details := ⟨_, holds.details, rfl⟩
          fixed := fun ex none_ => absurd none_.symm (Option.some_ne_none ex) }
      first := ⟨first.normal, first.single, first.allows⟩
      second := ⟨second.normal, second.single, second.allows⟩
      plain := ⟨_, holds.paramlist, ?_⟩
      runs := ⟨_, _, holds.details, rfl, runs⟩
      paramlist := fun _ => trivial
      shared := fun _ => trivial
      details := fun _ => trivial }, ?_⟩
  · refine (Series.has_withFlags_of_apart _ lookbacks).trans ?_
    exact paramSeries_has _ _ (by decide) (by rw [flags, UInt32.zero_and])
  · intro id held made found
    obtain ⟨s, live, content⟩ := Query.cells_eq_ok.mp found
    rcases made with rfl | rfl
    · obtain rfl := Option.some.inj (live.symm.trans holds.paramlist)
      cases content
      simp
    · obtain rfl := Option.some.inj (live.symm.trans holds.details)
      cases content
      simp

variable {user lib : ContextView} {entries : List (String × Cell)}

/-- A context without variables is made of series with a single cell. -/
theorem ContextView.In.single (held : user.In m) (empty : user.names = #[Cell.blank])
    {id : SeriesId} (member : id ∈ user.series) :
    ∃ held, Query.cells id m = .ok held ∧ held.size = 1 := by
  rcases List.mem_pair.mp member with rfl | rfl
  · exact ⟨_, held.vars, by rw [held.size, empty]; rfl⟩
  · exact ⟨_, held.names, by rw [empty]; rfl⟩

/-- The library has the operations, of series apart from the user's. -/
theorem Machine.Furbished.offers (set : m.Furbished user lib entries) (op : FormulaOp)
    (enfix : Bool) : ∃ c a p₁ p₂, (op.name enfix, c) ∈ entries ∧
      c = { Cell.action a .unbound with enfixed := enfix } ∧
      m.heap.Computes .everywhere op a a.paramlist p₁ p₂ ∧
      a.paramlist ∉ user.series ∧ a.details ∉ user.series := by
  obtain ⟨native, i, listed, named, spec, fixity, runs⟩ := op.listed enfix
  obtain ⟨natives, more, rfl, known⟩ := set.equipped
  have member : (native, i) ∈ Library.natives.toList.zipIdx := by
    refine List.mem_zipIdx_iff_getElem?.mpr ?_
    unfold Library.natives
    simp only [List.append_assoc]
    rw [List.getElem?_append_left (List.getElem?_eq_some_iff.mp listed).1, listed]
  obtain ⟨e, there, same, realizes⟩ := exists_of_known known member
  dsimp only at same realizes
  rw [spec, fixity] at realizes
  have dispatched (e : Engine) (f : FrameId) :
      Library.dispatch e (.native i) f = Library.arithmetic op.operation e f :=
    Library.dispatch_arithmetic (by rw [listed, Option.map_some, runs]) e f
  obtain ⟨a, p₁, p₂, action, computes, sizes⟩ := realizes.computes dispatched
  have apart {id : SeriesId} (made : id = a.paramlist ∨ id = a.details) : id ∉ user.series := by
    intro member
    obtain ⟨held, found, single⟩ := set.furnished.userIn.single set.empty member
    exact sizes id held made found single
  refine ⟨e.2, a, p₁, p₂, List.mem_append_left _ ?_, action, computes, apart (.inl rfl),
    apart (.inr rfl)⟩
  rw [← named, ← same]
  exact there

/-- A word that is bound after the import of its name refers to the operation. -/
theorem Machine.Furbished.names (set : m.Furbished user lib entries) {m₁ : Machine}
    {words : List SymbolId} {symbol : SymbolId} {c' : Cell} (alters : m.Alters [] m₁)
    (tidy : m'.Tidy)
    (furnished : m'.Furnished (user.importing lib m₁.symbols words) lib)
    (kept : ∀ id s, id ∉ user.series → m.heap.get? id = some s → m'.heap.get? id = some s)
    (word : m₁.HoldsWord c .word 0 (op.name enfix) symbol)
    (binds : (user.importing lib m₁.symbols words).Binds m₁.symbols c c') :
    m'.heap.Names .everywhere none op enfix c' := by
  obtain ⟨value, a, p₁, p₂, member, action, computes, paramlist, details⟩ := set.offers op enfix
  obtain ⟨unquoted, kind, ⟨before, payload⟩, calls⟩ := word
  obtain ⟨symbol', _, slot, payload', found, rfl⟩ := binds
  obtain ⟨rfl, -⟩ := Payload.word.inj (payload.symm.trans payload')
  have known : lib.value? m₁.symbols symbol = some value :=
    (set.stocked.alter alters).value?_of_mem calls rfl member
  have missing : m₁.symbols.findName? user.names (m₁.symbols.canon symbol) = none := by
    rw [set.empty]
    refine Symbols.findName?_eq_none.mpr fun c member name named => ?_
    obtain rfl := Array.mem_singleton.mp member
    cases named
  obtain ⟨positive, there⟩ :=
    ContextView.value_importing set.furnished.userIn.size missing found
  rw [known, Option.map_some, Option.getD_some] at there
  obtain ⟨s, live, link⟩ := Law.keylist_eq_ok.mp furnished.userIn.linked
  obtain ⟨s', live', content⟩ := Query.cells_eq_ok.mp furnished.userIn.vars
  obtain rfl := Option.some.inj (live.symm.trans live')
  have open_ : s.has Flags.inaccessible = false :=
    Series.has_of_mask (by decide) (tidy.clear _ _ live)
  have positive' : slot ≠ 0 := by
    rw [set.empty] at positive
    exact Nat.ne_of_gt positive
  refine ⟨by simp [Cell.is, unquoted, kind], ⟨user.context, slot⟩, value.copied, a, a.paramlist,
    p₁, p₂, ?_, ?_, ?_, computes.transfer fun id s made found => kept id s ?_ found⟩
  · exact
      { word := by rw [kind]; rfl
        named := ⟨symbol, rfl⟩
        slot := ⟨s, _, _, live, open_, link, content, there, .inl rfl⟩
        positive := positive'
        reads := trivial }
  · rw [action]
    rfl
  · rw [action]
    rfl
  · rcases made with rfl | rfl | rfl <;> assumption

/-! ## Loading -/

variable {chain isOpen : Bool} {e : Formula chain isOpen}

/-- The text of a formula is put on the heap in a block. -/
theorem Interp.scan_formula (written : e.Written) (m : Machine) :
    ∃ block cells m', scan e.source m = .ok block m' ∧ m.Alters [] m' ∧
      Query.cells block m' = .ok cells ∧ m'.Drafts e cells.toList := by
  obtain ⟨cells, m₁, made, alters, drafts⟩ := itemCells_items e m
  obtain ⟨block, m₂, put, alters', held, -⟩ := allocArray_run cells m₁
  refine ⟨block, _, m₂, ?_, alters.trans alters', held, drafts.keep alters'.keeps⟩
  rw [scan, Formula.scan_source written]
  exact (bind_ok (pure_run e.items m) _).trans ((bind_ok made _).trans put)

/-- The loaded text of a formula is the formula. -/
theorem Machine.Furbished.load_formula (set : m.Furbished user lib entries) (written : e.Written) :
    ∃ block cells m', Interp.load e.source m = .ok block m' ∧
      m' = { m with heap := m'.heap, symbols := m'.symbols } ∧ m'.Tidy ∧
      Query.cells block m' = .ok cells ∧ m'.heap.Spells .everywhere e none cells.toList ∧
      ∀ c ∈ cells.toList, m'.heap.Legible c := by
  obtain ⟨block, cells, m₁, scanned, alters, held, drafts⟩ := Interp.scan_formula written m
  obtain ⟨_, m', cells', words, ids, -, loaded, found, -, -, walked, kept⟩ :=
    Interp.load_run scanned set.furnished
  obtain rfl := Except.ok.inj (held.symm.trans found)
  obtain ⟨cells', after, rebinds⟩ := walked.bound
  have touched := walked.touches.alters
  have tidy := touched.tidy (alters.tidy set.stocked.tidy)
  obtain ⟨spells, legible⟩ := drafts.spells rebinds fun word binds =>
    set.names alters tidy walked.furnished kept word binds
  refine ⟨block, _, m', loaded, ?_, tidy, after, spells, legible⟩
  rw [touched.rest, alters.rest]

end

/-! ## Answers -/

/-- What is handed back for a result: an integer, or the error with what is reported of it. -/
def Formula.Answers : Except Cause Int → Except Error Cell → Prop
  | .ok x, answer => ∃ c : Cell, answer = .ok c ∧ c.SameValue (Cell.integer x)
  | .error cause, answer => ∃ site near, answer = .error { cause.error with site, near }

/-- A failure is handed back with its report. -/
theorem Interp.Errs.trapped {α : Type} {x : Interp α} {m : Machine} {cause : Cause}
    (fails : Errs x m cause) : ∃ site near m', trap x m =
      .ok (.error { cause.error with site, near }) m' := by
  obtain ⟨n, failed, slotted, near⟩ := fails
  obtain ⟨text, near⟩ := near m.frames.size
  obtain ⟨heap, trapped⟩ := trap_run failed slotted near
  exact ⟨_, _, _, trapped⟩

namespace Interpreter

open Interp (Ends Errs)

variable {m : Machine} {user lib : ContextView} {entries : List (String × Cell)} {limit : Nat}

theorem evalTop_run {block : SeriesId} {c : Cell} {m' : Machine}
    (ran : (engineWithin limit).evalArray? block 0 none m = .ok (.value c) m') :
    evalTop limit block m = .ok c m' := by
  have whole : (engineWithin limit).evalArray block 0 none m = .ok (some c) m' := by
    rw [Engine.evalArray, Interp.bind_ok ran]
    rfl
  rw [evalTop, Interp.bind_ok whole]
  rfl

section

variable {e : Expression} {block : SeriesId} {cells : List Cell} {room : Nat}

/-- A formula that fits and for whose frames there is room is run to its value. -/
theorem evalTop_formula (holds : m.heap.cells? block = some cells.toArray)
    (spells : m.heap.Spells .everywhere e.code none cells) (running : m.signals.halt = false)
    (unmarked : m.heap.Unmarked) (enough : e.steps ≤ limit) {x : Int}
    (depth : m.frames.size + room = m.config.frameLimit)
    (comes : Formula.raised room e.code.outcome = .ok x) :
    ∃ c m', evalTop limit block m = .ok c m' ∧ c.SameValue (Cell.integer x) := by
  obtain ⟨n, rfl, comes⟩ := Formula.raised_eq_ok.mp comes
  obtain ⟨fits, within, rfl⟩ := Formula.outcome_eq_ok.mp comes
  have spells : m.heap.Spells .everywhere e.code none (cells.drop 0) := spells
  obtain ⟨v, m', ran, ⟨c, rfl, same⟩, -⟩ := (Level.leads e.code).evalArray limit holds spells fits
    (by omega) running unmarked enough
  exact ⟨c, m', evalTop_run ran, same⟩

/-- A formula that comes to no value fails where no other code is run. -/
theorem evalTop_errs (holds : m.heap.cells? block = some cells.toArray)
    (spells : m.heap.Spells .everywhere e.code none cells) (running : m.signals.halt = false)
    (unmarked : m.heap.Unmarked) (enough : e.steps ≤ limit) {cause : Cause}
    (alone : m.frames = #[]) (legible : ∀ c ∈ cells, m.heap.Legible c)
    (fails : Formula.raised m.config.frameLimit e.code.outcome = .error cause) :
    Errs (evalTop limit block) m cause := by
  have spells : m.heap.Spells .everywhere e.code none (cells.drop 0) := spells
  have nowhere : ∀ frame ∈ m.frames, m.heap.Backs frame := by simp [alone]
  have empty : m.frames.size = 0 := by rw [alone]; rfl
  have reports (feed : Feed) : { m with feeds := m.feeds.push feed }.Delivers := by
    refine ⟨fun frame member => ?_, fun height => ⟨none, .outside ?_⟩⟩
    · simp [alone] at member
    · change m.frames.size ≤ height
      omega
  have fewer : e.code.fuel + e.code.strides ≤ limit := by
    simp only [Expression.steps] at enough
    omega
  have failed := (Level.breaks e.code).evalArray limit holds spells ⟨legible, nowhere⟩
    (by rw [empty, Nat.zero_add]) running unmarked fails reports fewer
  exact failed.first.first

end

/-- With nothing else being run, the text of a formula gives what the formula comes to with room for
all frames. -/
theorem run_formula (set : m.Furbished user lib entries) (alone : m.frames = #[])
    (running : m.signals.halt = false) (e : Expression) (written : e.code.Written)
    (enough : e.steps ≤ limit) : ∃ answer m',
      runWithin limit e.code.source m = .ok answer m' ∧
        Formula.Answers (Formula.raised m.config.frameLimit e.code.outcome) answer := by
  obtain ⟨block, cells, m₁, loaded, rest, tidy, held, spells, legible⟩ := set.load_formula written
  have alone₁ : m₁.frames = #[] := by rw [rest, alone]
  have running₁ : m₁.signals.halt = false := by rw [rest, running]
  have config₁ : m₁.config = m.config := by rw [rest]
  have unmarked : m₁.heap.Unmarked := fun id s live =>
    Series.has_of_mask (by decide) (tidy.clear id s live)
  have holds : m₁.heap.cells? block = some cells.toList.toArray := by
    simpa using Query.cells_iff.mp held
  have body : (do evalTop limit (← Interp.load e.code.source) : Interp Cell) m =
      evalTop limit block m₁ := Interp.bind_ok loaded _
  rw [← config₁]
  cases came : Formula.raised m₁.config.frameLimit e.code.outcome with
  | ok x =>
      obtain ⟨c, m', top, same⟩ := evalTop_formula holds spells running₁ unmarked enough
        (by rw [alone₁]; exact Nat.zero_add _) came
      refine ⟨.ok c, m', ?_, c, rfl, same⟩
      simp only [runWithin, Interp.trap, body, top]
  | error cause =>
      have top := evalTop_errs holds spells running₁ unmarked enough alone₁ legible came
      obtain ⟨site, near, m', trapped⟩ := (top.congr body).trapped
      exact ⟨_, m', trapped, site, near, rfl⟩

/-- A new machine answers the text of a formula with the formula's result, unless there is no room
for its frames: then the answer may be that the stack is full. -/
theorem boot_answers (config : Config) : ∃ m, boot config = .ok m ∧
    ∀ (e : Expression) (limit : Nat), e.code.Written → e.steps ≤ limit → ∃ answer m',
      runWithin limit e.code.source m = .ok answer m' ∧
        (Formula.Answers e.code.result answer ∨
          config.frameLimit ≤ e.code.depth ∧ Formula.Answers (.error .stackOverflow) answer) := by
  obtain ⟨m, booted, ⟨user, lib, entries, set⟩, rest⟩ := boot_run config
  refine ⟨m, booted, fun e limit written enough => ?_⟩
  have alone : m.frames = #[] := by rw [rest]; rfl
  have running : m.signals.halt = false := by rw [rest]; rfl
  have same : m.config = config := by rw [rest]; rfl
  obtain ⟨answer, m', ran, answers⟩ := run_formula set alone running e written enough
  rw [same] at answers
  refine ⟨answer, m', ran, ?_⟩
  cases room : config.frameLimit with
  | zero =>
      rw [room] at answers
      exact .inr ⟨Nat.zero_le _, answers⟩
  | succ room' =>
      rw [room] at answers
      have either := e.code.outcome_eq_or room'
      rcases either with result | ⟨deep, full⟩
      · exact .inl (result ▸ answers)
      · exact .inr ⟨deep, full ▸ answers⟩

/-- A call whose first argument is a chain and whose second one is a group. -/
def sampleCall : Expression :=
  ⟨.call .add (.infix_ (.infix_ (.integer 1) .add (.integer 2)) .multiply (.integer 3))
    (.group (.infix_ (.integer 4) .subtract (.integer 5)))⟩

theorem boot_answers_sampleCall : ∃ m answer m', boot {} = .ok m ∧
    run "add 1 + 2 * 3 (4 - 5)" m = .ok answer m' ∧ Formula.Answers (.ok 8) answer := by
  obtain ⟨m, booted, answers⟩ := boot_answers {}
  have written : sampleCall.code.Written := by
    refine ⟨⟨⟨?_, ?_⟩, ?_⟩, ?_, ?_⟩ <;> exact rfl
  obtain ⟨answer, m', ran, right | ⟨full, -⟩⟩ := answers sampleCall stepLimit written (by decide)
  · exact ⟨m, answer, m', booted, ran, right⟩
  · rw [Config.frameLimit_eq (by simp [Config.overruns])] at full
    exact absurd full (by decide)

/-- Limits under which the native stack has room for one frame, but not for another in it. -/
def crampedConfig : Config := { stackBytes := 1000, stackUse := fun frames _ => 600 * (frames + 1) }

theorem frameLimit_crampedConfig : crampedConfig.frameLimit = 1 :=
  Nat.le_antisymm (Config.frameLimit_le_of_isFull (by decide))
    (Config.lt_frameLimit_iff.mpr (by decide))

/-- A formula whose frames are fewer than the greatest number of them may use up the native
stack. -/
theorem boot_overflows_crampedConfig :
    sampleCall.code.depth < crampedConfig.maxDepth ∧ sampleCall.code.result = .ok 8 ∧
      ∃ m answer m', boot crampedConfig = .ok m ∧
        run "add 1 + 2 * 3 (4 - 5)" m = .ok answer m' ∧
        Formula.Answers (.error .stackOverflow) answer := by
  obtain ⟨m, booted, ⟨user, lib, entries, set⟩, rest⟩ := boot_run crampedConfig
  have alone : m.frames = #[] := by rw [rest]; rfl
  have running : m.signals.halt = false := by rw [rest]; rfl
  have same : m.config = crampedConfig := by rw [rest]; rfl
  have written : sampleCall.code.Written := by
    refine ⟨⟨⟨?_, ?_⟩, ?_⟩, ?_, ?_⟩ <;> exact rfl
  obtain ⟨answer, m', ran, answers⟩ :=
    run_formula set alone running sampleCall written (by decide : _ ≤ stepLimit)
  rw [same, frameLimit_crampedConfig] at answers
  exact ⟨by decide, rfl, m, answer, m', booted, ran, answers⟩

end Interpreter

end Homoicon
