import Homoicon.Library
import Homoicon.Proofs.Contexts.Distinct
import Homoicon.Proofs.Symbols.Rings

/-!
# Specs as they are written

What the spec of an action says can be read off its text.  Each item of the text is a tag, a block
of types or the name of a parameter with its convention; the parameters follow from the items
without a machine.
-/

namespace Homoicon

/-! ## Items -/

/-- An item of a type block. -/
inductive TypeItem where
  | tag (name : String)
  /-- The name of a kind or of a family of kinds. -/
  | kinds (name : String)
deriving DecidableEq

/-- How a spec names a parameter. -/
inductive ParamStyle where
  | plain
  | quoted
  | get
  | set
  | refinement
deriving DecidableEq

/-- An item of a spec. -/
inductive SpecItem where
  | tag (name : String)
  | types (items : List TypeItem)
  | param (style : ParamStyle) (name : String)
deriving DecidableEq

/-- The item of a type block that is written. -/
def TypeItem.ofNode? : Node → Option TypeItem
  | .scalar (.text .tag name) => some (.tag name)
  | .scalar (.word name .plain) => some (.kinds name)
  | _ => none

/-- The item of a spec that is written. -/
def SpecItem.ofNode? : Node → Option SpecItem
  | .scalar (.text .tag name) => some (.tag name)
  | .scalar (.word name .plain) => some (.param .plain name)
  | .scalar (.word name .get) => some (.param .get name)
  | .scalar (.word name .set) => some (.param .set name)
  | .quoted 1 (.scalar (.word name .plain)) => some (.param .quoted name)
  | .array .path .plain [.mk (.scalar .blank) _, .mk (.scalar (.word name .plain)) _] =>
    some (.param .refinement name)
  | .array .block .plain items => types <$> items.mapM fun item => TypeItem.ofNode? item.node
  | _ => none

/-- The items of a spec that was scanned. -/
def SpecItem.listed? : Scan (List Item) → Option (List SpecItem)
  | .ok items => items.mapM fun item => SpecItem.ofNode? item.node
  | .error _ => none

/-! ## Reading -/

/-- What has been read of a spec: the names with their parameters, last first. -/
structure SpecDraft where
  reversed : List (String × Typeset) := []
  locals : Bool := false
  flags : Flags := 0
deriving DecidableEq

namespace SpecDraft

/-- Adds what a tag in a type block says. -/
def addTag (kinds : KindSet) (flags : ParamFlags) : String → Option (KindSet × ParamFlags)
  | "opt" => some (kinds.insert .null, flags)
  | "end" => some (kinds, { flags with endable := true })
  | "..." => some (kinds, { flags with variadic := true })
  | "blank" => some (kinds, { flags with noopIfBlank := true })
  | "skip" => some (kinds, { flags with skippable := true, endable := true })
  | "dequote" | "requote" => some (kinds, { flags with requote := true })
  | _ => none

/-- Adds what an item of a type block says. -/
def addType (kinds : KindSet) (flags : ParamFlags) : TypeItem → Option (KindSet × ParamFlags)
  | .tag name => addTag kinds flags name
  | .kinds name => (KindSet.ofName? (Text.lowercase name)).map fun more => (kinds.union more, flags)

/-- The kinds and conventions that a type block gives. -/
def addTypes : List TypeItem → KindSet → ParamFlags → Option (KindSet × ParamFlags)
  | [], kinds, flags => some (if flags.skippable then kinds.insert .null else kinds, flags)
  | item :: rest, kinds, flags => do
    let (kinds, flags) ← addType kinds flags item
    addTypes rest kinds flags

/-- Gives the last parameter its types. -/
def typed (d : SpecDraft) (items : List TypeItem) : Option SpecDraft :=
  match d.reversed with
  | [] => none
  | (name, last) :: before =>
    if last.paramClass = .local then none
    else do
      let (kinds, flags) ← addTypes items KindSet.empty {}
      let last := { last with kinds, flags := Query.joinFlags last.flags flags }
      if last.flags.skippable && last.paramClass != .hardQuote then none
      else some { d with reversed := (name, last) :: before }

/-- The class of a parameter by how it is named, and whether words after it still name locals. -/
def styleClass (locals : Bool) (name : String) : ParamStyle → Option (ParamClass × Bool)
  | .plain => some (if locals then .local else .normal, locals)
  | .quoted => some (.softQuote, locals)
  | .get => some (.hardQuote, locals)
  | .refinement => some (.refinement, false)
  | .set =>
    if Text.lowercase name == "return" then some (.return, locals)
    else if locals then some (.local, locals)
    else none

/-- The kinds of a parameter that is given no types. -/
def defaultKinds : ParamClass → KindSet
  | .refinement => KindSet.ofList [.logic, .blank]
  | .local => KindSet.anyValue
  | _ => KindSet.paramDefault

/-- Adds a parameter. -/
def named (d : SpecDraft) (style : ParamStyle) (name : String) : Option SpecDraft :=
  match styleClass d.locals name style with
  | none => none
  | some (paramClass, locals) =>
    if d.reversed.any fun p => Text.lowercase p.1 == Text.lowercase name then none
    else
      some { d with
        locals
        reversed := (name, { kinds := defaultKinds paramClass, paramClass }) :: d.reversed }

/-- Follows a tag. -/
def tagged (d : SpecDraft) : String → Option SpecDraft
  | "local" => some { d with locals := true }
  | "defer" => some { d with flags := d.flags ||| Flags.defersLookback }
  | "postpone" => some { d with flags := d.flags ||| Flags.postpones }
  | _ => none

/-- Reads one item. -/
def step (d : SpecDraft) : SpecItem → Option SpecDraft
  | .tag name => d.tagged name
  | .types items => d.typed items
  | .param style name => d.named style name

/-- What a spec that was scanned says. -/
def ofScan? (scanned : Scan (List Item)) : Option SpecDraft :=
  (SpecItem.listed? scanned).bind fun items => items.foldlM step {}

/-- What the text of a spec says. -/
def read? (source : String) : Option SpecDraft := ofScan? (Node.scan source)

/-- The parameters in order. -/
def params (d : SpecDraft) : List Typeset := (d.reversed.reverse).map Prod.snd

end SpecDraft

/-- The convention that the first open one of some parameters brings to an action. -/
def Typeset.firstFlags : List Typeset → Flags
  | [] => 0
  | p :: rest =>
    if p.paramClass = .local || p.paramClass = .return then firstFlags rest
    else
      let quotes : Flags := if p.paramClass = .hardQuote then Flags.quotesFirst else 0
      let skips : Flags :=
        if p.paramClass = .hardQuote && p.flags.skippable then Flags.skippableFirst else 0
      let ends : Flags := if p.flags.endable then Flags.endableFirst else 0
      quotes ||| skips ||| ends

/-- The conventions of an action with some parameters of its own. -/
def Typeset.conventions (params : List Typeset) : Flags :=
  params.foldl (fun flags p => flags ||| Query.anyParamFlags p) (firstFlags params)

/-! ## Conventions -/

theorem Flags.or_apart {a b mask : Flags} (first : a &&& mask = 0) (second : b &&& mask = 0) :
    (a ||| b) &&& mask = 0 := by
  rw [Flags.or_and, first, second, UInt32.or_zero]

namespace SpecDraft

variable {d d' : SpecDraft} {mask : Flags}

theorem flags_step {item : SpecItem}
    (apart : (Flags.defersLookback ||| Flags.postpones) &&& mask = 0) (read : d.step item = some d') (before : d.flags &&& mask = 0) : d'.flags &&& mask = 0 := by
  rw [Flags.or_and, UInt32.or_eq_zero_iff] at apart
  cases item with
  | tag name =>
      simp only [step, tagged] at read
      split at read <;> cases read
      · exact before
      · exact Flags.or_apart before apart.1
      · exact Flags.or_apart before apart.2
  | types items =>
      simp only [step, typed] at read
      split at read
      · cases read
      · split at read
        · cases read
        · obtain ⟨⟨kinds, flags⟩, -, read⟩ := Option.bind_eq_some_iff.mp read
          dsimp only at read
          split at read <;> cases read
          exact before
  | param style name =>
      simp only [step, named] at read
      split at read
      · cases read
      · split at read <;> cases read
        exact before

/-- Beside what its tags say, a spec gives an action no conventions. -/
theorem flags_apart {items : List SpecItem}
    (apart : (Flags.defersLookback ||| Flags.postpones) &&& mask = 0)
    (read : items.foldlM step d = some d') (before : d.flags &&& mask = 0) :
    d'.flags &&& mask = 0 := by
  induction items generalizing d with
  | nil =>
      cases read
      exact before
  | cons item items ih =>
      obtain ⟨between, one, rest⟩ := Option.bind_eq_some_iff.mp read
      exact ih rest (flags_step apart one before)

end SpecDraft

/-- The conventions that parameters may bring to an action. -/
def Flags.byParams : Flags :=
  Flags.quotesFirst ||| Flags.skippableFirst ||| Flags.endableFirst ||| Flags.returnRequotes |||
    Flags.hasReturn ||| Flags.invisible

namespace Typeset

variable {mask : Flags}

theorem firstFlags_apart (params : List Typeset) (apart : Flags.byParams &&& mask = 0) :
    firstFlags params &&& mask = 0 := by
  simp only [Flags.byParams, Flags.or_and, UInt32.or_eq_zero_iff] at apart
  obtain ⟨⟨⟨⟨⟨quotes, skips⟩, ends⟩, -⟩, -⟩, -⟩ := apart
  induction params with
  | nil => exact UInt32.zero_and
  | cons p rest ih =>
      rw [firstFlags]
      split
      · exact ih
      · refine Flags.or_apart (Flags.or_apart ?_ ?_) ?_
        all_goals
          split
          · assumption
          · exact UInt32.zero_and

theorem anyParamFlags_apart (p : Typeset) (apart : Flags.byParams &&& mask = 0) :
    Query.anyParamFlags p &&& mask = 0 := by
  simp only [Flags.byParams, Flags.or_and, UInt32.or_eq_zero_iff] at apart
  obtain ⟨⟨⟨-, requotes⟩, returns⟩, invisible⟩ := apart
  have ends : (if p.kinds.bits == 0 then Flags.invisible else 0) &&& mask = 0 := by
    split
    · exact invisible
    · exact UInt32.zero_and
  rw [Query.anyParamFlags]
  refine Flags.or_apart ?_ ?_
  · split
    · exact requotes
    · exact UInt32.zero_and
  · split
    · exact Flags.or_apart returns ends
    · exact UInt32.zero_and

theorem conventions_apart (params : List Typeset) (apart : Flags.byParams &&& mask = 0) :
    conventions params &&& mask = 0 := by
  suffices grown : ∀ flags, flags &&& mask = 0 →
      params.foldl (fun flags p => flags ||| Query.anyParamFlags p) flags &&& mask = 0 from
    grown _ (firstFlags_apart params apart)
  induction params with
  | nil => exact fun _ before => before
  | cons p rest ih =>
      exact fun flags before => ih _ (Flags.or_apart before (anyParamFlags_apart p apart))

end Typeset

/-! ## Specs on the heap -/

/-- A symbol of a table is spelled like a name. -/
structure Symbols.Calls (t : Symbols) (symbol : SymbolId) (name : String) : Prop where
  inside : symbol.index < t.size
  spelled : t.spelling symbol = name

/-- A cell is a tag. -/
def Machine.HoldsTag (m : Machine) (c : Cell) (name : String) : Prop :=
  c.quote = 0 ∧ c.kind = .tag ∧ ∃ id, c.payload = .series id 0 ∧
    Query.text id m = .ok (.ofString name)

/-- A cell is a word for a symbol of some kind and quoted so often. -/
def Machine.HoldsWord (m : Machine) (c : Cell) (kind : Kind) (quote : Nat) (name : String)
    (symbol : SymbolId) : Prop :=
  c.quote = quote ∧ c.kind = kind ∧ (∃ slot, c.payload = .word symbol slot) ∧
    m.symbols.Calls symbol name

/-- A cell stands for an item of a type block. -/
def Machine.HoldsType (m : Machine) (c : Cell) : TypeItem → Prop
  | .tag name => m.HoldsTag c name
  | .kinds name => ∃ symbol, m.HoldsWord c .word 0 name symbol

/-- A cell names a parameter with a convention. -/
def Machine.HoldsParam (m : Machine) (c : Cell) (name : String) (symbol : SymbolId) :
    ParamStyle → Prop
  | .plain => m.HoldsWord c .word 0 name symbol
  | .quoted => m.HoldsWord c .word 1 name symbol
  | .get => m.HoldsWord c .getWord 0 name symbol
  | .set => m.HoldsWord c .setWord 0 name symbol
  | .refinement => c.quote = 0 ∧ c.kind = .path ∧ ∃ id head part, c.payload = .series id 0 ∧
      Query.cells id m = .ok #[head, part] ∧ head.isBlank = true ∧
      m.HoldsWord part .word 0 name symbol

/-- A cell stands for an item of a spec. -/
def Machine.HoldsSpec (m : Machine) (c : Cell) : SpecItem → Prop
  | .tag name => m.HoldsTag c name
  | .types items => c.quote = 0 ∧ c.kind = .block ∧ ∃ id held, c.payload = .series id 0 ∧
      Query.cells id m = .ok held ∧ List.Forall₂ m.HoldsType held.toList items
  | .param style name => ∃ symbol, m.HoldsParam c name symbol style

/-- A parameter is one that was read, under a symbol of its name. -/
def Symbols.Names (t : Symbols) (p : Typeset) (entry : String × Typeset) : Prop :=
  ∃ symbol, t.Calls symbol entry.1 ∧ p = { entry.2 with symbol := some symbol }

/-- What was read of a spec with a machine is what was read of its text. -/
structure SpecReader.Tells (r : SpecReader) (t : Symbols) (d : SpecDraft) : Prop where
  params : List.Forall₂ t.Names r.reversed d.reversed
  locals : r.locals = d.locals
  flags : r.flags = d.flags

/-! ## Reading with a machine -/

section

variable {m : Machine} {c : Cell} {names : List String} {name : String} {symbol : SymbolId}

theorem Symbols.Calls.lower {t : Symbols} (calls : t.Calls symbol name)
    (registers : t.Registers names) : t.lower symbol = Text.lowercase name := by
  obtain ⟨known, here⟩ := registers.exists_name calls.inside
  obtain ⟨spelled, lower⟩ := registers.named here
  rw [lower, ← spelled, calls.spelled]

theorem Symbols.Calls.canon_eq {t : Symbols} {symbol' : SymbolId} {name' : String}
    (registers : t.Registers names) (calls : t.Calls symbol name) (calls' : t.Calls symbol' name') :
    (t.canon symbol == t.canon symbol') = (Text.lowercase name == Text.lowercase name') := by
  have same := registers.folded.same_iff calls.inside calls'.inside
  rw [calls.lower registers, calls'.lower registers, Symbols.same] at same
  exact Bool.eq_iff_iff.mpr (same.trans beq_iff_eq.symm)

theorem Machine.HoldsTag.is_tag (holds : m.HoldsTag c name) : c.is .tag = true :=
  Cell.is_iff.mpr ⟨holds.1, holds.2.1⟩

theorem Machine.HoldsTag.cellText_run (holds : m.HoldsTag c name) :
    Query.cellText c m = .ok name := by
  obtain ⟨-, -, id, payload, text⟩ := holds
  rw [Query.cellText_run payload text, Text.Buffer.slice_ofString]

theorem Machine.HoldsWord.wordSymbol? {kind : Kind} {quote : Nat}
    (holds : m.HoldsWord c kind quote name symbol) : c.wordSymbol? = some symbol := by
  obtain ⟨-, -, ⟨slot, payload⟩, -⟩ := holds
  rw [Cell.wordSymbol?, payload]

namespace Query

theorem paramType_run {item : TypeItem} {paramClass : ParamClass} {kinds : KindSet}
    {flags : ParamFlags} {read : KindSet × ParamFlags} (registers : m.symbols.Registers names)
    (holds : m.HoldsType c item) (added : SpecDraft.addType kinds flags item = some read) :
    paramType paramClass kinds flags c m = .ok read := by
  cases item with
  | tag name =>
      rw [paramType, if_pos (Machine.HoldsTag.is_tag holds)]
      refine (bind_ok (Machine.HoldsTag.cellText_run holds) _).trans ?_
      simp only [SpecDraft.addType, SpecDraft.addTag] at added
      split at added <;> cases added <;> rfl
  | kinds name =>
      obtain ⟨symbol, quote, kind, ⟨slot, payload⟩, calls⟩ := holds
      obtain ⟨found, known, rfl⟩ := Option.map_eq_some_iff.mp added
      have lowered : lower symbol m = .ok (Text.lowercase name) :=
        congrArg Except.ok (calls.lower registers)
      have other {k : Kind} (apart : k ≠ .word) : c.is k = false :=
        Cell.is_other (Cell.is_iff.mpr ⟨quote, kind⟩) apart.symm
      rw [paramType, other (by decide), other (by decide), quote, kind, payload]
      refine (bind_ok lowered _).trans ?_
      simp only [known]
      rfl

theorem paramTypes_run {paramClass : ParamClass} {cells : List Cell} {items : List TypeItem}
    (registers : m.symbols.Registers names) (holds : List.Forall₂ m.HoldsType cells items)
    {kinds : KindSet} {flags : ParamFlags} {read : KindSet × ParamFlags}
    (added : SpecDraft.addTypes items kinds flags = some read) :
    paramTypes paramClass cells kinds flags m = .ok read := by
  induction holds generalizing kinds flags with
  | nil =>
      cases added
      rfl
  | cons first _ ih =>
      obtain ⟨more, one, rest⟩ := Option.bind_eq_some_iff.mp added
      rw [paramTypes, bind_ok (paramType_run registers first one)]
      exact ih rest

theorem specTypes_run {r : SpecReader} {d d' : SpecDraft} {items : List TypeItem}
    (registers : m.symbols.Registers names) (holds : m.HoldsSpec c (.types items))
    (tells : r.Tells m.symbols d) (typed : d.typed items = some d') :
    ∃ r', specTypes r c m = .ok r' ∧ r'.Tells m.symbols d' := by
  obtain ⟨reversed, locals, flags⟩ := r
  obtain ⟨before, locals', flags'⟩ := d
  obtain ⟨params, rfl, rfl⟩ : List.Forall₂ m.symbols.Names reversed before ∧ locals = locals' ∧
    flags = flags' := ⟨tells.params, tells.locals, tells.flags⟩
  obtain ⟨quote, kind, id, held, payload, cells, types⟩ := holds
  cases params with
  | nil => cases typed
  | @cons last entry reversed before first others =>
      obtain ⟨name, entry⟩ := entry
      obtain ⟨symbol, calls, rfl⟩ := first
      simp only [SpecDraft.typed] at typed
      split at typed
      · cases typed
      · rename_i argument
        obtain ⟨⟨kinds, given⟩, added, typed⟩ := Option.bind_eq_some_iff.mp typed
        dsimp only at typed
        split at typed
        · cases typed
        · rename_i fits
          cases typed
          have listed : cellsFrom id c.index m = .ok held.toList := by
            refine cellsFrom_eq_ok.mpr ⟨held, cells, ?_⟩
            rw [Cell.index, payload]
            rfl
          have array : arrayOf c m = .ok id := arrayOf_eq_ok.mpr (by rw [Cell.seriesId?, payload])
          let last : Typeset :=
            { entry with symbol := some symbol, kinds, flags := joinFlags entry.flags given }
          refine ⟨{ reversed := last :: reversed, locals, flags }, ?_,
            ⟨.cons ⟨symbol, calls, rfl⟩ others, rfl, rfl⟩⟩
          unfold specTypes
          dsimp only
          rw [if_neg argument, bind_ok array, bind_ok listed,
            bind_ok (paramTypes_run registers types added)]
          dsimp only
          rw [if_neg fits]
          rfl

theorem specSymbol_run {style : ParamStyle} (holds : m.HoldsParam c name symbol style) :
    specSymbol c m = .ok symbol := by
  have word {kind : Kind} {quote : Nat} (holds : m.HoldsWord c kind quote name symbol) :
      specSymbol c m = .ok symbol := by
    rw [specSymbol, holds.wordSymbol?]
    rfl
  cases style with
  | plain | quoted | get | set => exact word holds
  | refinement =>
      obtain ⟨quote, kind, id, head, part, payload, cells, blank, named⟩ := holds
      have is_ : part.is .word = true := Cell.is_iff.mpr ⟨named.1, named.2.1⟩
      have path : isRefinementPath c m = .ok true := by
        rw [isRefinementPath, quote, kind, Cell.seriesId?, payload]
        refine (bind_ok cells _).trans ?_
        simp only [blank, is_]
        rfl
      have nothing : c.wordSymbol? = none := by rw [Cell.wordSymbol?, payload]
      have second : cell id 1 m = .ok part := cell_eq_ok.mpr ⟨_, cells, rfl⟩
      have array : arrayOf c m = .ok id := arrayOf_eq_ok.mpr (by rw [Cell.seriesId?, payload])
      rw [specSymbol, nothing]
      refine (bind_ok path _).trans ?_
      rw [if_pos rfl, refinementSymbol, bind_ok array, bind_ok second, named.wordSymbol?]
      rfl

theorem specClass_run {style : ParamStyle} {locals : Bool} {answer : ParamClass × Bool}
    (registers : m.symbols.Registers names) (holds : m.HoldsParam c name symbol style)
    (classed : SpecDraft.styleClass locals name style = some answer) :
    specClass locals c symbol m = .ok answer := by
  cases style with
  | plain | quoted | get =>
      obtain ⟨quote, kind, -, -⟩ := holds
      cases classed
      rw [specClass, quote, kind]
      rfl
  | refinement =>
      obtain ⟨quote, kind, -⟩ := holds
      cases classed
      rw [specClass, quote, kind]
      rfl
  | set =>
      obtain ⟨quote, kind, -, calls⟩ := holds
      have lowered : lower symbol m = .ok (Text.lowercase name) :=
        congrArg Except.ok (calls.lower registers)
      rw [specClass, quote, kind]
      refine (bind_ok lowered _).trans ?_
      simp only [SpecDraft.styleClass] at classed
      split at classed
      · rename_i same
        cases classed
        rw [if_pos same]
        rfl
      · rename_i other
        split at classed
        · rename_i local_
          cases classed
          rw [if_neg other, if_pos local_]
          rfl
        · cases classed

/-- A name is known to the reader with a machine as it is to the reader of the text. -/
theorem known_eq {params : List Typeset} {entries : List (String × Typeset)}
    (registers : m.symbols.Registers names) (named : List.Forall₂ m.symbols.Names params entries)
    (calls : m.symbols.Calls symbol name) :
    (params.any fun p => p.symbol.any fun s => m.symbols.canon s == m.symbols.canon symbol) =
      entries.any fun e => Text.lowercase e.1 == Text.lowercase name := by
  induction named with
  | nil => rfl
  | cons first _ ih =>
      obtain ⟨known, knownCalls, rfl⟩ := first
      rw [List.any_cons, List.any_cons, ih, Option.any_some, knownCalls.canon_eq registers calls]

theorem specParam_run {r : SpecReader} {d d' : SpecDraft} {style : ParamStyle}
    (registers : m.symbols.Registers names) (holds : m.HoldsSpec c (.param style name))
    (tells : r.Tells m.symbols d) (named : d.named style name = some d') :
    ∃ r', specParam r c m = .ok r' ∧ r'.Tells m.symbols d' := by
  obtain ⟨symbol, holds⟩ := holds
  have calls : m.symbols.Calls symbol name := by
    cases style with
    | plain | quoted | get | set => exact holds.2.2.2
    | refinement =>
        obtain ⟨-, -, -, -, -, -, -, -, -, -, -, calls⟩ := holds
        exact calls
  unfold SpecDraft.named at named
  split at named
  · cases named
  · rename_i paramClass locals classed
    rw [← tells.locals] at classed
    split at named
    · cases named
    · rename_i new
      cases named
      rw [← known_eq registers tells.params calls] at new
      let added := Typeset.param symbol paramClass (SpecDraft.defaultKinds paramClass)
      refine ⟨{ r with locals, reversed := added :: r.reversed }, ?_,
        ⟨.cons ⟨symbol, calls, rfl⟩ tells.params, rfl, tells.flags⟩⟩
      rw [specParam, bind_ok (specSymbol_run holds),
        bind_ok (specClass_run registers holds classed)]
      refine (bind_ok (read_run m) _).trans ?_
      dsimp only
      rw [if_neg new]
      cases paramClass <;> rfl

theorem specItem_run {r : SpecReader} {d d' : SpecDraft} {item : SpecItem}
    (registers : m.symbols.Registers names) (holds : m.HoldsSpec c item)
    (tells : r.Tells m.symbols d) (step : d.step item = some d') :
    ∃ r', specItem r c m = .ok r' ∧ r'.Tells m.symbols d' := by
  have other {k k' : Kind} {quote : Nat} (kind : c.kind = k') (quoted : c.quote = quote)
      (apart : quote ≠ 0 ∨ k' ≠ k) : c.is k = false := by
    refine Bool.eq_false_iff.mpr fun is_ => ?_
    obtain ⟨none, same⟩ := Cell.is_iff.mp is_
    rcases apart with more | apart
    · exact more (quoted.symm.trans none)
    · exact apart (kind.symm.trans same)
  cases item with
  | tag name =>
      have holds : m.HoldsTag c name := holds
      have noText : c.is .text = false := other holds.2.1 holds.1 (.inr (by decide))
      rw [specItem, noText, if_neg Bool.false_ne_true, if_pos holds.is_tag]
      rw [bind_ok holds.cellText_run]
      simp only [SpecDraft.step, SpecDraft.tagged] at step
      split at step <;> cases step
      · exact ⟨_, rfl, tells.params, rfl, tells.flags⟩
      · exact ⟨_, rfl, tells.params, tells.locals,
          congrArg (· ||| Flags.defersLookback) tells.flags⟩
      · exact ⟨_, rfl, tells.params, tells.locals, congrArg (· ||| Flags.postpones) tells.flags⟩
  | types items =>
      have ⟨quote, kind, _⟩ := holds
      have noText : c.is .text = false := other kind quote (.inr (by decide))
      have noTag : c.is .tag = false := other kind quote (.inr (by decide))
      have block : c.is .block = true := Cell.is_iff.mpr ⟨quote, kind⟩
      rw [specItem, noText, if_neg Bool.false_ne_true, noTag, if_neg Bool.false_ne_true,
        if_pos block]
      exact specTypes_run registers holds tells step
  | param style name =>
      have plain : c.is .text = false ∧ c.is .tag = false ∧ c.is .block = false := by
        obtain ⟨symbol, holds⟩ := holds
        cases style with
        | quoted =>
            obtain ⟨quote, kind, -⟩ := holds
            exact ⟨other kind quote (.inl Nat.one_ne_zero), other kind quote (.inl Nat.one_ne_zero),
              other kind quote (.inl Nat.one_ne_zero)⟩
        | plain | get | set | refinement =>
            obtain ⟨quote, kind, -⟩ := holds
            exact ⟨other kind quote (.inr (by decide)), other kind quote (.inr (by decide)),
              other kind quote (.inr (by decide))⟩
      rw [specItem, plain.1, if_neg Bool.false_ne_true, plain.2.1, if_neg Bool.false_ne_true,
        plain.2.2, if_neg Bool.false_ne_true]
      exact specParam_run registers holds tells step

/-- A spec on the heap is read like its text. -/
theorem spec_run {cells : List Cell} {items : List SpecItem} {r : SpecReader} {d d' : SpecDraft}
    (registers : m.symbols.Registers names) (holds : List.Forall₂ m.HoldsSpec cells items)
    (tells : r.Tells m.symbols d) (read : items.foldlM SpecDraft.step d = some d') :
    ∃ r', cells.foldlM specItem r m = .ok r' ∧ r'.Tells m.symbols d' := by
  induction holds generalizing r d with
  | nil =>
      cases read
      exact ⟨r, rfl, tells⟩
  | cons first _ ih =>
      obtain ⟨between, one, rest⟩ := Option.bind_eq_some_iff.mp read
      obtain ⟨r', ran, tells⟩ := specItem_run registers first tells one
      obtain ⟨last, ran', tells⟩ := ih tells rest
      exact ⟨last, by rw [List.foldlM_cons, bind_ok ran, ran'], tells⟩

end Query

end

end Homoicon
