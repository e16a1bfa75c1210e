import Homoicon.Node.Parser

/-!
# Arranging tokens into values

Which tokens are arranged into which value, put together from its parts: a token for a scalar, the
tokens of the items between two brackets, the tokens of the parts of a path with slashes between
them, and apostrophes in front.
-/

namespace Homoicon.Node

/-- Nothing that follows can belong to the value before it: the text ends, a bracket closes, or a
blank stands in between. -/
def Apart : List Token → Prop
  | [] => True
  | token :: _ => token.joined = false ∨ ∃ bracket set, token.lexeme = .closing bracket set

/-- A unit of source text that is a value of its own. -/
def isValue : Lexeme → Bool
  | .opening .. | .closing .. | .quote _ | .slash | .setMark => false
  | _ => true

/-- A unit of source text with which a scalar, block or group begins. -/
def beginsElement : Lexeme → Bool
  | .closing .. | .quote _ | .slash | .setMark => false
  | _ => true

/-- A closing bracket. -/
def isClosing : Lexeme → Bool
  | .closing .. => true
  | _ => false

/-- Some tokens are arranged into a scalar, block or group. -/
structure SpellsElement (node : Node) (first : Token) (tokens : List Token) : Prop where
  begins : beginsElement first.lexeme = true
  arranged : ∀ lastLine fuel rest, 4 * (first :: tokens).length ≤ fuel + 1 →
    element lastLine fuel (first :: tokens ++ rest) = .ok (node, rest)

/-- Some tokens are arranged into a value, if nothing behind them belongs to it. -/
structure Spells (node : Node) (first : Token) (tokens : List Token) : Prop where
  begins : isClosing first.lexeme = false
  arranged : ∀ lastLine fuel rest, 4 * (first :: tokens).length ≤ fuel → Apart rest →
    item lastLine fuel (first :: tokens ++ rest) = .ok (node, rest)

/-- What ends a list of items: the closing bracket, with or without a mark, or the end of the
text. -/
inductive Closes : Option Bracket → List Token → Bool → List Token → Prop where
  | finish : Closes none [] false []
  | bracket {bracket : Bracket} {set : Bool} {closing : Token} {rest : List Token} :
      closing.lexeme = .closing bracket set → Closes (some bracket) (closing :: rest) set rest

/-- Some tokens are arranged into the items up to what ends them. -/
def SpellsItems (contents : List Item) (tokens : List Token) : Prop :=
  ∀ lastLine fuel reversed close behind set rest, 4 * tokens.length + 1 ≤ fuel →
    Closes close behind set rest →
    items lastLine fuel close reversed (tokens ++ behind) =
      .ok (reversed.reverse ++ contents, set, rest)

/-! ## Scalars and arrays -/

theorem spellsElement_scalar {token : Token} {lexeme : Lexeme} (same : token.lexeme = lexeme)
    (value : isValue lexeme = true) : SpellsElement (.scalar lexeme) token [] := by
  subst same
  obtain ⟨lexeme, newline, joined, line⟩ := token
  constructor
  · cases lexeme <;> first | rfl | cases value
  · intro lastLine fuel rest enough
    cases fuel with
    | zero => simp at enough
    | succ fuel => cases lexeme <;> first | rfl | cases value

/-- The shape of the arrays between brackets. -/
def bracketShape : Bracket → Shape
  | .block => .block
  | .group => .group

theorem spellsElement_array {contents : List Item} {tokens : List Token} {opening closing : Token}
    {bracket : Bracket} {mark : Mark} {set : Bool} (inside : SpellsItems contents tokens)
    (opens : opening.lexeme = .opening bracket mark)
    (closes : closing.lexeme = .closing bracket set) :
    SpellsElement (.array (bracketShape bracket) (if set then .set else mark) contents) opening
      (tokens ++ [closing]) := by
  refine ⟨by rw [opens]; rfl, fun lastLine fuel rest enough => ?_⟩
  simp only [List.length_append, List.length_cons, List.length_nil] at enough
  cases fuel with
  | zero => omega
  | succ fuel =>
      have read := inside lastLine fuel [] (some bracket) (closing :: rest) set rest (by omega)
        (.bracket closes)
      rw [List.cons_append, List.append_assoc, List.singleton_append]
      simp only [element, opens]
      rw [read]
      cases bracket <;> rfl

/-! ## Items -/

theorem pathRest_apart {rest : List Token} (apart : Apart rest) (lastLine fuel : Nat) (node : Node) :
    pathRest lastLine (fuel + 1) [node] rest = .ok (node, rest) := by
  cases rest with
  | nil => rfl
  | cons token rest =>
      obtain ⟨lexeme, newline, joined, line⟩ := token
      cases joined with
      | false => cases lexeme <;> rfl
      | true =>
          obtain ⟨bracket, set, closing⟩ := apart.resolve_left Bool.noConfusion
          cases closing
          rfl

theorem item_of_begins {token : Token} (begins : beginsElement token.lexeme = true)
    (lastLine fuel : Nat) (tokens : List Token) :
    item lastLine (fuel + 1) (token :: tokens) = (do
      let (head, rest) ← element lastLine fuel (token :: tokens)
      pathRest lastLine fuel [head] rest) := by
  obtain ⟨lexeme, newline, joined, line⟩ := token
  cases lexeme <;> first | rfl | cases begins

theorem SpellsElement.spells {node : Node} {first : Token} {tokens : List Token}
    (spells : SpellsElement node first tokens) : Spells node first tokens := by
  constructor
  · have begins := spells.begins
    revert begins
    cases first.lexeme <;> simp [beginsElement, isClosing]
  · intro lastLine fuel rest enough apart
    rw [List.length_cons] at enough
    obtain ⟨fuel, rfl⟩ : ∃ more, fuel = more + 2 := ⟨fuel - 2, by omega⟩
    have read := spells.arranged lastLine (fuel + 1) rest (by rw [List.length_cons]; omega)
    rw [List.cons_append] at read ⊢
    rw [item_of_begins spells.begins, read]
    exact pathRest_apart apart lastLine fuel node

theorem Spells.quoted {node : Node} {quote first : Token} {tokens : List Token} {depth : Nat}
    (spells : Spells node first tokens) (quotes : quote.lexeme = .quote depth) :
    Spells (.quoted depth node) quote (first :: tokens) := by
  refine ⟨by rw [quotes]; rfl, fun lastLine fuel rest enough apart => ?_⟩
  rw [List.length_cons] at enough
  obtain ⟨fuel, rfl⟩ : ∃ more, fuel = more + 1 := ⟨fuel - 1, by omega⟩
  have read := spells.arranged lastLine fuel rest (by omega) apart
  obtain ⟨lexeme, newline, joined, line⟩ := quote
  cases quotes
  rw [List.cons_append]
  simp only [item]
  rw [read]
  rfl

theorem spellsItems_nil : SpellsItems [] [] := by
  intro lastLine fuel reversed close behind set rest enough closes
  obtain ⟨fuel, rfl⟩ : ∃ more, fuel = more + 1 := ⟨fuel - 1, by omega⟩
  cases closes with
  | finish =>
      simp [items]
      rfl
  | bracket closes =>
      simp [items, closes]
      rfl

theorem items_cons {lastLine fuel : Nat} {close : Option Bracket} {reversed : List Item}
    {first : Token} {tokens : List Token} (begins : isClosing first.lexeme = false) :
    items lastLine (fuel + 1) close reversed (first :: tokens) = (do
      let (node, rest) ← item lastLine fuel (first :: tokens)
      items lastLine fuel close (.mk node first.newline :: reversed) rest) := by
  obtain ⟨lexeme, newline, joined, line⟩ := first
  cases lexeme <;> first | rfl | cases begins

/-- The first of some tokens, if there is one, is not joined to what stands before. -/
def Unjoined : List Token → Prop
  | [] => True
  | token :: _ => token.joined = false

theorem spellsItems_cons {node : Node} {first : Token} {tokens more : List Token}
    {contents : List Item} (spells : Spells node first tokens) (unjoined : Unjoined more)
    (onward : SpellsItems contents more) :
    SpellsItems (.mk node first.newline :: contents) (first :: tokens ++ more) := by
  intro lastLine fuel reversed close behind set rest enough closes
  rw [List.length_append, List.length_cons] at enough
  obtain ⟨fuel, rfl⟩ : ∃ less, fuel = less + 1 := ⟨fuel - 1, by omega⟩
  have apart : Apart (more ++ behind) := by
    cases more with
    | cons token more => exact .inl unjoined
    | nil =>
        cases closes with
        | finish => exact trivial
        | bracket closes => exact .inr ⟨_, _, closes⟩
  have read := spells.arranged lastLine fuel (more ++ behind) (by rw [List.length_cons]; omega) apart
  have later := onward lastLine fuel (.mk node first.newline :: reversed) close behind set rest
    (by omega) closes
  rw [List.append_assoc, List.cons_append, items_cons spells.begins]
  rw [List.cons_append] at read
  rw [read]
  exact later.trans (by simp)

/-! ## Paths -/

/-- Some tokens are arranged into the further parts of a path, and a mark behind a number. -/
def SpellsParts (parts : List Node) (setMark : Bool) (tokens : List Token) : Prop :=
  ∀ lastLine fuel reversed rest, 0 < fuel → 4 * tokens.length ≤ fuel →
    2 ≤ reversed.length + parts.length → Apart rest →
    pathRest lastLine fuel reversed (tokens ++ rest) = (do
      let path ← finishPath (reportLine lastLine rest) (reversed.reverse ++ parts) setMark
      pure (path, rest))

/-- A token for a slash that is joined to what stands before it. -/
def IsSlash (token : Token) : Prop := token.lexeme = .slash ∧ token.joined = true

theorem spellsParts_nil : SpellsParts [] false [] := by
  intro lastLine fuel reversed rest positive enough long apart
  obtain ⟨fuel, rfl⟩ : ∃ less, fuel = less + 1 := ⟨fuel - 1, by omega⟩
  rw [List.nil_append, List.append_nil]
  obtain ⟨last, before, reversed, rfl⟩ : ∃ last before more, reversed = last :: before :: more := by
    match reversed, long with
    | last :: before :: more, _ => exact ⟨last, before, more, rfl⟩
  cases rest with
  | nil => rfl
  | cons token rest =>
      obtain ⟨lexeme, newline, joined, line⟩ := token
      cases joined with
      | false => cases lexeme <;> rfl
      | true =>
          obtain ⟨bracket, set, closing⟩ := apart.resolve_left Bool.noConfusion
          cases closing
          rfl

theorem spellsParts_setMark {token : Token} (marks : token.lexeme = .setMark)
    (joined : token.joined = true) : SpellsParts [] true [token] := by
  intro lastLine fuel reversed rest positive enough long apart
  obtain ⟨fuel, rfl⟩ : ∃ less, fuel = less + 1 := ⟨fuel - 1, by omega⟩
  obtain ⟨last, before, reversed, rfl⟩ : ∃ last before more, reversed = last :: before :: more := by
    match reversed, long with
    | last :: before :: more, _ => exact ⟨last, before, more, rfl⟩
  obtain ⟨lexeme, newline, joined, line⟩ := token
  cases marks
  cases joined
  rw [List.append_nil]
  rfl

theorem pathRest_slash {slash : Token} (slashes : IsSlash slash) (lastLine fuel : Nat)
    (reversed : List Node) (tokens : List Token) :
    pathRest lastLine (fuel + 1) reversed (slash :: tokens) = (do
      let (part, rest) ← pathPart lastLine fuel tokens
      pathRest lastLine fuel (part :: reversed) rest) := by
  obtain ⟨lexeme, newline, joined, line⟩ := slash
  obtain ⟨isSlash, isJoined⟩ := slashes
  cases isSlash
  cases isJoined
  rfl

/-- Nothing that can be a part of a path follows directly. -/
def NoPart : List Token → Prop
  | [] => True
  | token :: _ => continuesPath token = false

theorem Apart.noPart {rest : List Token} (apart : Apart rest) : NoPart rest := by
  cases rest with
  | nil => exact trivial
  | cons token rest =>
      rcases apart with unjoined | ⟨bracket, set, closing⟩
      · simp [NoPart, continuesPath, unjoined]
      · simp [NoPart, continuesPath, closing]

theorem spellsParts_blank {slash : Token} {parts : List Node} {setMark : Bool}
    {tokens : List Token} (slashes : IsSlash slash) (empty : tokens = [] ∨ NoPart tokens)
    (onward : SpellsParts parts setMark tokens) :
    SpellsParts (.scalar .blank :: parts) setMark (slash :: tokens) := by
  intro lastLine fuel reversed rest positive enough long apart
  rw [List.length_cons] at enough long
  obtain ⟨fuel, rfl⟩ : ∃ less, fuel = less + 2 := ⟨fuel - 2, by omega⟩
  have later := onward lastLine (fuel + 1) (.scalar .blank :: reversed) rest (by omega) (by omega)
    (by rw [List.length_cons]; omega) apart
  have nothing : pathPart lastLine (fuel + 1) (tokens ++ rest) =
      .ok (.scalar .blank, tokens ++ rest) := by
    have noPart : NoPart (tokens ++ rest) := by
      cases tokens with
      | nil => exact apart.noPart
      | cons token tokens => exact empty.resolve_left (List.cons_ne_nil _ _)
    generalize tokens ++ rest = following at noPart
    cases following with
    | nil => rfl
    | cons token following =>
        simp only [pathPart, show continuesPath token = false from noPart]
        rfl
  rw [List.cons_append, pathRest_slash slashes, nothing]
  exact later.trans (by simp)

theorem spellsParts_element {slash first : Token} {node : Node} {parts : List Node}
    {setMark : Bool} {tokens more : List Token} (slashes : IsSlash slash)
    (spells : SpellsElement node first tokens) (joined : first.joined = true)
    (onward : SpellsParts parts setMark more) :
    SpellsParts (node :: parts) setMark (slash :: first :: tokens ++ more) := by
  intro lastLine fuel reversed rest positive enough long apart
  rw [List.length_append, List.length_cons, List.length_cons] at enough
  rw [List.length_cons] at long
  obtain ⟨fuel, rfl⟩ : ∃ less, fuel = less + 2 := ⟨fuel - 2, by omega⟩
  have later := onward lastLine (fuel + 1) (node :: reversed) rest (by omega) (by omega)
    (by rw [List.length_cons]; omega) apart
  have read := spells.arranged lastLine fuel (more ++ rest) (by rw [List.length_cons]; omega)
  have continues : continuesPath first = true := by
    have begins := spells.begins
    revert begins
    cases lexeme : first.lexeme <;> simp [continuesPath, joined, lexeme, beginsElement]
  have part : pathPart lastLine (fuel + 1) (first :: tokens ++ (more ++ rest)) =
      .ok (node, more ++ rest) := by
    rw [← read, List.cons_append]
    simp only [pathPart, continues, if_true]
  rw [List.append_assoc, List.cons_append, pathRest_slash slashes, part]
  exact later.trans (by simp)

/-- A path that begins with a part before its first slash. -/
theorem SpellsElement.path {node path : Node} {first : Token} {parts : List Node} {setMark : Bool}
    {tokens more : List Token} (spells : SpellsElement node first tokens) (long : parts ≠ [])
    (onward : SpellsParts parts setMark more)
    (finished : ∀ line, finishPath line (node :: parts) setMark = .ok path) :
    Spells path first (tokens ++ more) := by
  refine ⟨spells.spells.begins, fun lastLine fuel rest enough apart => ?_⟩
  rw [List.length_cons, List.length_append] at enough
  obtain ⟨fuel, rfl⟩ : ∃ less, fuel = less + 1 := ⟨fuel - 1, by omega⟩
  have read := spells.arranged lastLine fuel (more ++ rest) (by rw [List.length_cons]; omega)
  have later := onward lastLine fuel [node] rest (by omega) (by omega)
    (by have := List.length_pos_iff.mpr long; rw [List.length_singleton]; omega) apart
  rw [List.cons_append] at read
  rw [List.cons_append, List.append_assoc, item_of_begins spells.begins, read]
  refine later.trans ?_
  rw [List.reverse_singleton, List.singleton_append, finished]
  rfl

/-- A path that begins with a slash. -/
theorem SpellsParts.path {path : Node} {slash : Token} {parts : List Node} {setMark : Bool}
    {tokens : List Token} (slashes : slash.lexeme = .slash) (long : parts ≠ [])
    (onward : SpellsParts parts setMark ({ slash with joined := true } :: tokens))
    (finished : ∀ line, finishPath line (.scalar .blank :: parts) setMark = .ok path) :
    Spells path slash tokens := by
  refine ⟨by rw [slashes]; rfl, fun lastLine fuel rest enough apart => ?_⟩
  rw [List.length_cons] at enough
  obtain ⟨fuel, rfl⟩ : ∃ less, fuel = less + 1 := ⟨fuel - 1, by omega⟩
  have later := onward lastLine (fuel + 1) [.scalar .blank] rest (by omega)
    (by rw [List.length_cons]; omega)
    (by have := List.length_pos_iff.mpr long; rw [List.length_singleton]; omega) apart
  have joined : IsSlash { slash with joined := true } := ⟨slashes, rfl⟩
  rw [List.cons_append, pathRest_slash joined] at later
  have same : item lastLine (fuel + 1) (slash :: tokens ++ rest) = (do
      let (part, rest) ← pathPart lastLine fuel (tokens ++ rest)
      pathRest lastLine fuel [part, .scalar .blank] rest) := by
    obtain ⟨lexeme, newline, joined, line⟩ := slash
    cases slashes
    rfl
  rw [same]
  refine later.trans ?_
  rw [List.reverse_singleton, List.singleton_append, finished]
  rfl

/-! ## Whole texts -/

theorem parse_of_spellsItems {contents : List Item} {tokens : List Token}
    (spells : SpellsItems contents tokens) : parse tokens = .ok contents := by
  have read := spells ((tokens.getLast?.map (·.line)).getD 1) (4 * tokens.length + 4) [] none [] false
    [] (by omega) .finish
  rw [List.append_nil] at read
  unfold parse
  dsimp only
  rw [read]
  rfl

end Homoicon.Node
