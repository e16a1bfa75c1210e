import Homoicon.Machine
import Homoicon.Text.Utf8

/-!
# Contexts

A context is an array of variables whose names stand in another array, its keylist.  The first
slot of each holds no variable.  Words refer to a slot of a context, directly or relative to the
parameters of an action, of which a running call then supplies the variables.
-/

namespace Homoicon

/-- A variable: a slot of a context. -/
structure VarRef where
  context : SeriesId
  index : Nat
deriving Repr, DecidableEq, Inhabited

/-- The parameter that a cell of a keylist or paramlist describes. -/
def Cell.key? (c : Cell) : Option Typeset :=
  match c.payload with
  | .typeset t => some t
  | _ => none

/-- The slot whose name differs from a canon at most by case. -/
def Symbols.findName? (t : Symbols) (names : Array Cell) (canon : SymbolId) : Option Nat :=
  names.findIdx? fun c =>
    match c.payload with
    | .typeset { symbol := some s, .. } => t.canon s == canon
    | _ => false

namespace Query

/-- The names of a context's variables. -/
def keylist (context : SeriesId) : Query SeriesId := do
  match (← series context).link with
  | .keylist id => pure id
  | _ => defect

/-- The number of variables. -/
def contextSize (context : SeriesId) : Query Nat := do
  pure ((← size (← keylist context)) - 1)

/-- The kind of a context. -/
def contextKind (context : SeriesId) : Query Kind := do pure (← cell context 0).kind

/-- The name and conventions of a variable. -/
def key (context : SeriesId) (index : Nat) : Query Typeset := do
  expect (← cell (← keylist context) index).key?

/-- The name of a variable. -/
def keySymbol (context : SeriesId) (index : Nat) : Query SymbolId := do
  expect (← key context index).symbol

/-- The slot of the variable with a name, whatever its case. -/
def findKey? (context : SeriesId) (symbol : SymbolId) : Query (Option Nat) := do
  let names ← cells (← keylist context)
  let m ← read
  pure (m.symbols.findName? names (m.symbols.canon symbol))

/-- The names of all variables in order. -/
def contextKeys (context : SeriesId) : Query (List SymbolId) := do
  let names ← cells (← keylist context)
  (names.toList.drop 1).mapM fun c => expect (c.key?.bind (·.symbol))

/-- Fails for the variables of a call that has ended. -/
def checkAccessible (context : SeriesId) : Query Unit := do
  if !(← isLive context) then fail .seriesDataFreed
  if ← hasFlag context Flags.inaccessible then fail .seriesDataFreed

/-- The content of a variable. -/
def varContent (r : VarRef) : Query Cell := cell r.context r.index

/-- The content of the variable with a name, if there is one. -/
def contextVar? (context : SeriesId) (symbol : SymbolId) : Query (Option Cell) := do
  match ← findKey? context symbol with
  | some index => pure (some (← cell context index))
  | none => pure none

/-- The variable a word refers to; `specifier` is the running call for relative words. -/
def resolveWord (word : Cell) (specifier : Specifier) : Query VarRef := do
  let symbol ← expect word.wordSymbol?
  let index := word.wordIndex
  let unbound : Query SeriesId := do fail (.notBound (← spelling symbol))
  let context ←
    match word.binding with
    | .unbound => unbound
    | .specific context => pure context
    | .relative paramlist =>
      match specifier with
      | some varlist => do
        if (← keylist varlist) == paramlist then pure varlist
        else if (← findKey? varlist symbol) == some index then pure varlist
        else unbound
      | none => unbound
  checkAccessible context
  if index == 0 || (← size context) ≤ index then
    let _ ← unbound
  pure ⟨context, index⟩

/-- The content of the variable a word refers to. -/
def getVar (word : Cell) (specifier : Specifier) : Query Cell := do
  varContent (← resolveWord word specifier)

/-- The content of the variable a word refers to, if there is one. -/
def tryGetVar? (word : Cell) (specifier : Specifier) : Query (Option Cell) := fun m =>
  match resolveWord word specifier m with
  | .ok r => some <$> varContent r m
  | .error (.error _) => .ok none
  | .error fault => .error fault

/-- The call in which the words of an array found under `specifier` are looked up. -/
def deriveSpecifier (c : Cell) (specifier : Specifier) : Specifier :=
  match c.binding with
  | .relative _ => specifier
  | .specific context => some context
  | .unbound => none

/-- The series that a cell must have. -/
def arrayOf (c : Cell) : Query SeriesId := expect c.seriesId?

/-- The spelling of a word. -/
def wordSpelling (c : Cell) : Query String :=
  match c.wordSymbol? with
  | some symbol => spelling symbol
  | none => pure ""

/-- The text of a string-like value from its position on. -/
def cellText (c : Cell) : Query String := do
  match c.seriesId? with
  | none => pure ""
  | some id =>
    if !(← isLive id) then pure ""
    else
      match (← series id).content with
      | .text buffer => pure (buffer.slice c.index buffer.size)
      | .binary bytes => pure (Text.Utf8.decode (bytes.toList.drop c.index))
      | .array _ => pure ""

end Query

namespace Interp

/-- A new context whose variables are all null. -/
def makeContext (kind : Kind) (keys : List SymbolId) : Interp SeriesId := do
  let names := keys.map fun s => Cell.typeset (Typeset.param s .normal KindSet.anyValue)
  let keylist ← alloc ((Series.ofCells (Cell.blank :: names).toArray).withFlags
    (Flags.keylist ||| Flags.managed))
  let vars := keys.map fun _ => Cell.null
  let varlist ← alloc { (Series.ofCells (Cell.end_ :: vars).toArray).withFlags
    (Flags.varlist ||| Flags.managed) with link := .keylist keylist }
  storeCell varlist 0 (Cell.context kind varlist)
  pure varlist

/-- Adds a variable and returns its slot. -/
def appendKey (context : SeriesId) (symbol : SymbolId) (value : Cell) : Interp Nat := do
  let keylist ← Query.keylist context
  modifyCells keylist (·.push (Cell.typeset (Typeset.param symbol .normal KindSet.anyValue)))
  modifyCells context (·.push value)
  pure ((← Query.size context) - 1)

/-- Writes a variable, unless it is protected. -/
def writeVar (r : VarRef) (value : Cell) : Interp Unit := do
  if (← Query.varContent r).guarded then
    fail (.protectedWord (← Query.spelling (← Query.keySymbol r.context r.index)))
  moveCell r.context r.index value

/-- Writes the variable a word refers to. -/
def setVar (word : Cell) (specifier : Specifier) (value : Cell) : Interp Unit := do
  writeVar (← Query.resolveWord word specifier) value

/-- An array without the last occurrence of an element. -/
def eraseLast (ids : Array SeriesId) (id : SeriesId) : Array SeriesId :=
  match ids.toList.reverse.findIdx? (· == id) with
  | some back => ids.eraseIdxIfInBounds (ids.size - 1 - back)
  | none => ids

/-- Gives a series over to the collector. -/
def ensureManaged (id : SeriesId) : Interp Unit := do
  if !(← Query.hasFlag id Flags.managed) then
    setFlag id Flags.managed
    modify fun m => { m with manuals := eraseLast m.manuals id }

/-- A cell whose relative words are tied to a running call. -/
def derelativize (c : Cell) (specifier : Specifier) : Interp Cell := do
  match c.binding, specifier with
  | .relative _, some varlist =>
    ensureManaged varlist
    pure (c.withBinding (.specific varlist))
  | _, _ => pure c

/-- Runs an action for each cell of an array with its position. -/
@[specialize] def forCells (id : SeriesId) (f : Nat → Cell → Interp Unit) : Interp Unit := do
  let cells ← Query.cells id
  cells.toList.zipIdx.forM fun (c, i) => f i c

/-- A bound on how deep arrays can nest. -/
def nestingBound : Interp Nat := do pure ((← get).heap.slots.size + 1)

/-- Makes the words of an array, and of the arrays in it, refer to a context where it has their
names.  With `addSetWords` names that only set-words have are added. -/
def bindDeepIn (context : SeriesId) (addSetWords : Bool) : Nat → SeriesId → Interp Unit
  | 0, _ => throw .exhausted
  | depth + 1, array =>
    forCells array fun i c => do
      if c.kind.isAnyWord then
        match c.wordSymbol? with
        | none => pure ()
        | some symbol =>
          let slot ←
            match ← Query.findKey? context symbol with
            | some slot => pure (some slot)
            | none =>
              if addSetWords && c.kind = .setWord then
                some <$> appendKey context symbol Cell.null
              else pure none
          match slot with
          | some slot =>
            modifyCell array i fun c =>
              { c with binding := .specific context, payload := .word symbol slot }
          | none => pure ()
      else if c.kind.isAnyArray then
        match c.seriesId? with
        | some inner => bindDeepIn context addSetWords depth inner
        | none => pure ()

/-- Makes the words of an array, and of the arrays in it, refer to a context where it has their
names.  With `addSetWords` names that only set-words have are added. -/
def bindDeep (array context : SeriesId) (addSetWords : Bool) : Interp Unit := do
  bindDeepIn context addSetWords (← nestingBound) array

/-- The slot of a name among the user's variables.  A new one begins with the library's value. -/
def userSlot (symbol : SymbolId) : Interp Nat := do
  let m ← get
  let user := m.user
  let lib := m.lib
  match ← Query.findKey? user symbol with
  | some slot => pure slot
  | none =>
    let imported := ((← Query.contextVar? lib symbol).map Cell.copied).getD Cell.null
    appendKey user symbol imported

/-- Makes all words of an array refer to the user's variables. -/
def bindUserIn : Nat → SeriesId → Interp Unit
  | 0, _ => throw .exhausted
  | depth + 1, array =>
    forCells array fun i c => do
      match c.kind, c.payload with
      | .quoted, .quoted pairing _ => bindUserIn depth pairing
      | _, _ =>
        if c.kind.isAnyWord then
          match c.wordSymbol? with
          | some symbol =>
            let slot ← userSlot symbol
            let user := (← get).user
            modifyCell array i fun c =>
              { c with binding := .specific user, payload := .word symbol slot }
          | none => pure ()
        else if c.kind.isAnyArray then
          match c.seriesId? with
          | some inner => bindUserIn depth inner
          | none => pure ()

/-- Makes all words of new code refer to the user's variables. -/
def bindUser (array : SeriesId) : Interp Unit := do bindUserIn (← nestingBound) array

/-- Makes the words of a function body that name parameters relative to them. -/
def relativizeIn (paramlist : SeriesId) : Nat → SeriesId → Interp Unit
  | 0, _ => throw .exhausted
  | depth + 1, array =>
    forCells array fun i c => do
      if c.kind.isAnyWord then
        match c.wordSymbol? with
        | none => pure ()
        | some symbol =>
          let params ← Query.cells paramlist
          let symbols := (← get).symbols
          match symbols.findName? params (symbols.canon symbol) with
          | some slot =>
            modifyCell array i fun c =>
              { c with binding := .relative paramlist, payload := .word symbol slot }
          | none => pure ()
      else if c.kind.isAnyArray then
        match c.seriesId? with
        | some inner =>
          relativizeIn paramlist depth inner
          modifyCell array i (·.withBinding (.relative paramlist))
        | none => pure ()

/-- Makes the words of a function body that name parameters relative to them. -/
def relativizeDeep (array paramlist : SeriesId) : Interp Unit := do
  relativizeIn paramlist (← nestingBound) array

/-- A copy of some cells and of the arrays among them, with relative cells resolved. -/
def copyDeepIn : Nat → SeriesId → Nat → Specifier → Interp SeriesId
  | 0, _, _, _ => throw .exhausted
  | depth + 1, array, index, specifier => do
    let cells ← Query.cellsFrom array index
    let copied ← cells.mapM fun c => do
      let resolved ← derelativize c specifier
      if c.quote == 0 && c.kind.isAnyArray then
        match c.seriesId? with
        | some inner =>
          let copy ← copyDeepIn depth inner 0 (Query.deriveSpecifier c specifier)
          pure { Cell.series c.kind copy c.index with newline := c.newline }
        | none => pure resolved
      else pure resolved
    allocArray copied

/-- A deep copy of an array from a position on, with relative cells resolved. -/
def copyArrayDeep (array : SeriesId) (index : Nat) (specifier : Specifier) : Interp SeriesId := do
  copyDeepIn (← nestingBound) array index specifier

/-- A copy of the cells between two positions, with relative cells resolved. -/
def copyArrayShallow (array : SeriesId) (start stop : Nat) (specifier : Specifier) :
    Interp SeriesId := do
  let cells ← Query.cells array
  if cells.size < stop then defect
  let copied ← (cells.extract (min start stop) stop).toList.mapM (derelativize · specifier)
  allocArray copied

/-- A copy of a context.  With `deep` the arrays in it are copied too, and their words refer to the
copy. -/
def copyContext (context : SeriesId) (deep : Bool) : Interp SeriesId := do
  Query.checkAccessible context
  let kind ← Query.contextKind context
  let keys ← Query.contextKeys context
  let copy ← makeContext kind keys
  (List.range keys.length).forM fun i => do
    let value := (← Query.cell context (i + 1)).copied
    match value.seriesId? with
    | some inner =>
      if deep && value.quote == 0 && value.kind.isAnyArray then
        let array ← copyArrayDeep inner 0 none
        bindDeep array copy false
        storeCell copy (i + 1) (Cell.series value.kind array value.index)
      else storeCell copy (i + 1) value
    | none => storeCell copy (i + 1) value
  pure copy

end Interp

end Homoicon
