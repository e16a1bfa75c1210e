import Homoicon.Proofs.Source.Literals
import Homoicon.Proofs.Source.Trees

/-!
# Cutting the text of a tree

The text of a tree is cut into tokens that are arranged into that tree again.  The scanner is
followed step by step: how it stands before a value decides whether the value begins a line and
whether it is joined to what precedes it, and nothing else.
-/

namespace Homoicon.Token

/-- The scanner comes from one state to another. -/
inductive Lexer.Reaches : Lexer → Lexer → Prop where
  | refl (s : Lexer) : Reaches s s
  | step {s middle last : Lexer} {c : Char} {rest : List Char} : s.rest = c :: rest →
      s.step c rest = .ok middle → middle.rest.length ≤ rest.length → Reaches middle last →
      Reaches s last

namespace Lexer.Reaches

theorem trans {s middle last : Lexer} (first : Reaches s middle) (second : Reaches middle last) :
    Reaches s last := by
  induction first with
  | refl => exact second
  | step begins stepped shortens _ ih => exact .step begins stepped shortens (ih second)

theorem one {s next : Lexer} {c : Char} {rest : List Char} (begins : s.rest = c :: rest)
    (stepped : s.step c rest = .ok next) (shortens : next.rest.length ≤ rest.length) :
    Reaches s next :=
  .step begins stepped shortens (.refl next)

/-- Reading ends where the text ends. -/
theorem run {s last : Lexer} (reaches : Reaches s last) (finished : last.rest = []) {steps : Nat}
    (enough : s.rest.length ≤ steps) : s.run steps = .ok last.reversed.reverse := by
  induction reaches generalizing steps with
  | refl s =>
      cases steps with
      | zero => rfl
      | succ steps => simp only [Lexer.run, finished]; rfl
  | step begins stepped shortens _ ih =>
      rw [begins, List.length_cons] at enough
      obtain ⟨steps, rfl⟩ : ∃ less, steps = less + 1 := ⟨steps - 1, by omega⟩
      simp only [Lexer.run, begins, stepped]
      exact ih finished (by omega)

end Lexer.Reaches

/-- What can stand behind a value: the end of the text, a blank, a new line or a closing
bracket. -/
inductive Ends : List Char → Prop where
  | finish : Ends []
  | behind {c : Char} {rest : List Char} : c ∈ [' ', '\n', ']', ')'] → Ends (c :: rest)

theorem Ends.stops {tail : List Char} (ends : Ends tail) (run : List Char) : Stops run tail := by
  cases ends with
  | finish => exact .finish
  | behind listed =>
      refine .delimiter ?_
      simp only [List.mem_cons, List.not_mem_nil, or_false] at listed
      rcases listed with rfl | rfl | rfl | rfl <;> decide

/-- From any state in front of a text, the scanner reads the text as some tokens with a property,
of which the first tells how the scanner stood. -/
def Lexes (text tail : List Char) (spelled : Token → List Token → Prop) : Prop :=
  ∀ line newline joined reversed, ∃ line' first tokens,
    Lexer.Reaches ⟨text ++ tail, line, newline, joined, reversed⟩
      ⟨tail, line', false, true, (first :: tokens).reverse ++ reversed⟩ ∧
    first.newline = newline ∧ first.joined = joined ∧ spelled first tokens

theorem Lexes.mono {text tail : List Char} {spelled spelled' : Token → List Token → Prop}
    (lexes : Lexes text tail spelled)
    (entails : ∀ first tokens, spelled first tokens → spelled' first tokens) :
    Lexes text tail spelled' := by
  intro line newline joined reversed
  obtain ⟨line', first, tokens, reaches, isNewline, isJoined, holds⟩ :=
    lexes line newline joined reversed
  exact ⟨line', first, tokens, reaches, isNewline, isJoined, entails first tokens holds⟩

/-! ## Single characters -/

namespace Lexer

variable (s : Lexer) (rest : List Char)

theorem step_text : s.step '"' rest = (do
    let (content, cursor) ← readQuoted s.line rest
    pure (s.emit (.text .text (String.ofList content)) cursor)) := rfl

theorem step_hash : s.step '#' rest = (do
    let (lexeme, cursor) ← readHash s.line rest
    pure (s.emit lexeme cursor)) := rfl

theorem step_slash : s.step '/' rest = .ok (s.emit .slash ⟨rest, s.line⟩) := rfl

theorem step_space : s.step ' ' rest = .ok { s with rest := rest, joined := false } := rfl

theorem step_newline : s.step '\n' rest =
    .ok { s with rest := rest, line := s.line + 1, newline := true, joined := false } := rfl

end Lexer

/-- The mark that is written in front of a marked array. -/
def leadMark : Mark → Mark
  | .set => .plain
  | mark => mark

theorem reaches_opening (bracket : Bracket) (mark : Mark) (rest : List Char) (line : Nat)
    (newline joined : Bool) (reversed : List Token) :
    Lexer.Reaches
      ⟨Node.leadText mark ++ Node.openText (Node.bracketShape bracket) ++ rest, line, newline,
        joined, reversed⟩
      ⟨rest, line, false, false,
        ⟨.opening bracket (leadMark mark), newline, joined, line⟩ :: reversed⟩ := by
  cases mark <;> cases bracket <;> exact .one rfl rfl (by simp)

/-- The character of a closing bracket. -/
def closingChar : Bracket → Char
  | .block => ']'
  | .group => ')'

theorem reaches_closing (bracket : Bracket) (mark : Mark) {rest : List Char}
    (unmarked : rest.head? ≠ some ':') (line : Nat) (newline joined : Bool)
    (reversed : List Token) :
    Lexer.Reaches
      ⟨Node.closeText (Node.bracketShape bracket) ++ Node.trailText mark ++ rest, line, newline,
        joined, reversed⟩
      ⟨rest, line, false, true,
        ⟨.closing bracket (mark = .set), newline, joined, line⟩ :: reversed⟩ := by
  have plain (s : Lexer) : s.step (closingChar bracket) rest =
      .ok (s.emit (.closing bracket false) ⟨rest, s.line⟩) := by
    unfold Lexer.step
    cases bracket
    all_goals
      iterate 4 rw [if_neg (by decide)]
      rw [if_pos (by decide)]
      dsimp only
      split
      · exact absurd rfl unmarked
      · rfl
  cases mark with
  | set => cases bracket <;> exact .one rfl rfl (Nat.le_succ _)
  | plain | get | sym => cases bracket <;> exact .one rfl (plain _) (Nat.le_refl _)

theorem reaches_break (indent : Nat) (rest : List Char) (line : Nat) (newline joined : Bool)
    (reversed : List Token) :
    Lexer.Reaches ⟨Node.breakText indent ++ rest, line, newline, joined, reversed⟩
      ⟨rest, line + 1, true, false, reversed⟩ := by
  have spaces (n : Nat) : Lexer.Reaches
      ⟨List.replicate n ' ' ++ rest, line + 1, true, false, reversed⟩
      ⟨rest, line + 1, true, false, reversed⟩ := by
    induction n with
    | zero => exact .refl _
    | succ n ih => exact .step rfl (Lexer.step_space _ _) (Nat.le_refl _) ih
  exact .step rfl (Lexer.step_newline _ _) (Nat.le_refl _) (spaces (4 * indent))

/-! ## Scalars -/

/-- A text that one step reads as a scalar. -/
theorem lexes_scalar {c : Char} {cs tail : List Char} {lexeme : Lexeme}
    (value : Node.isValue lexeme = true)
    (stepped : ∀ s : Lexer, s.rest = c :: cs ++ tail →
      s.step c (cs ++ tail) = .ok (s.emit lexeme ⟨tail, s.line⟩)) :
    Lexes (c :: cs) tail (Node.SpellsElement (.scalar lexeme)) := by
  intro line newline joined reversed
  have read := stepped ⟨c :: cs ++ tail, line, newline, joined, reversed⟩ rfl
  exact ⟨line, _, [], .one rfl read (by simp), rfl, rfl, Node.spellsElement_scalar rfl value⟩

theorem Reads.lexes {first : Char} {later tail : List Char} {lexeme : Lexeme}
    (reads : Reads first later lexeme) (value : Node.isValue lexeme = true)
    (stops : Stops (first :: later) tail) :
    Lexes (first :: later) tail (Node.SpellsElement (.scalar lexeme)) :=
  lexes_scalar value fun _ rest => reads.step stops rest

theorem lexes_text (s : String) (tail : List Char) :
    Lexes (Mold.quotedText s.toList).toList tail
      (Node.SpellsElement (.scalar (.text .text s))) := by
  rw [toList_quotedText]
  refine lexes_scalar rfl fun state _ => ?_
  rw [Lexer.step_text, List.append_assoc, List.singleton_append, readQuoted_escaped]
  simp [bind, Except.bind, pure, Except.pure]

/-- A literal that begins with `#`. -/
theorem lexes_hash {cs tail : List Char} {lexeme : Lexeme} (value : Node.isValue lexeme = true)
    (read : ∀ line, readHash line (cs ++ tail) = .ok (lexeme, ⟨tail, line⟩)) :
    Lexes ('#' :: cs) tail (Node.SpellsElement (.scalar lexeme)) := by
  refine lexes_scalar value fun state _ => ?_
  rw [Lexer.step_hash, read]
  rfl

/-- What can stand behind a part of a path with some mark. -/
def Follows (mark : Mark) (tail : List Char) : Prop :=
  Ends tail ∨ mark ≠ .set ∧ ∃ rest, tail = '/' :: rest

theorem Reads.stops {first : Char} {later tail : List Char} {lexeme : Lexeme} {mark : Mark}
    (reads : Reads first later lexeme) (follows : Follows mark tail)
    (unset : mark ≠ .set → (first :: later).getLast? ≠ some ':') : Stops (first :: later) tail := by
  rcases follows with ends | ⟨other, rest, rfl⟩
  · exact ends.stops _
  · refine .slash ?_
    have last := unset other
    rw [List.getLast?_eq_head?_reverse] at last
    have plain : ∀ c ∈ (first :: later).reverse, c ≠ '/' := fun c member =>
      (reads.plain c (List.mem_reverse.mp member)).2
    cases reverse : (first :: later).reverse with
    | nil => exact trivial
    | cons c before =>
        rw [reverse] at last plain
        exact ⟨fun same => last (by rw [same]; rfl), plain c List.mem_cons_self⟩

/-- The text of a word with its mark is read as one unit. -/
theorem reads_word {name : String} (isName : IsName name) (mark : Mark) :
    ∃ first later, (Mold.wordText mark name).toList = first :: later ∧
      Reads first later (.word name mark) ∧
      (mark ≠ .set → (first :: later).getLast? ≠ some ':') := by
  obtain ⟨first, later, spelled, chars⟩ := isName.chars
  have same : String.ofList (first :: later) = name := by rw [← spelled, String.ofList_toList]
  have reads := chars.reads_plain
  have last := chars.last
  cases mark with
  | plain =>
      rw [same] at reads
      exact ⟨first, later, spelled, reads, fun _ => last⟩
  | set =>
      have reads := chars.reads_set
      rw [same] at reads
      refine ⟨first, later ++ [':'], ?_, reads, fun other => absurd rfl other⟩
      simp [Mold.wordText, String.toList_append, spelled]
  | get =>
      have reads := chars.reads_get
      rw [same] at reads
      refine ⟨':', first :: later, ?_, reads, fun _ => ?_⟩
      · simp [Mold.wordText, String.toList_append, spelled]
      · rwa [List.getLast?_cons_cons]
  | sym =>
      have reads := chars.reads_sym
      rw [same] at reads
      refine ⟨'@', first :: later, ?_, reads, fun _ => ?_⟩
      · simp [Mold.wordText, String.toList_append, spelled]
      · rwa [List.getLast?_cons_cons]

theorem lexes_construct {name : String} (noClose : ']' ∉ name.toList)
    (noBreak : '\n' ∉ name.toList) (trimmed : Text.trimBlanks name.toList = name.toList) :
    ∃ later, (Lexeme.construct name).molded.toList = '#' :: later ∧
      ∀ tail, Lexes ('#' :: later) tail (Node.SpellsElement (.scalar (.construct name))) := by
  refine ⟨'[' :: (name.toList ++ [']']), ?_, fun tail => lexes_hash rfl fun line => ?_⟩
  · simp [Lexeme.molded, String.toList_append]
  · rw [List.cons_append, List.append_assoc, List.singleton_append]
    exact readHash_construct noClose noBreak trimmed line tail

/-- How the text of a literal is read: as a run of characters up to a delimiter, or up to the end
that its first character asks for. -/
theorem literal_cases {lexeme : Lexeme} (literal : lexeme.Literal) :
    (∃ first later, lexeme.molded.toList = first :: later ∧ Reads first later lexeme ∧
      ((Node.scalar lexeme).mark ≠ .set → (first :: later).getLast? ≠ some ':')) ∨
    ∃ first later, lexeme.molded.toList = first :: later ∧ first ∈ ['"', '#'] ∧
      ∀ tail, Lexes (first :: later) tail (Node.SpellsElement (.scalar lexeme)) := by
  cases literal with
  | blank =>
      have reads : Reads '_' [] .blank := by
        refine ⟨by simp; decide, by decide, by simp, fun _ => rfl, by simp⟩
      exact .inl ⟨'_', [], rfl, reads, fun _ => by decide⟩
  | bar =>
      have reads : Reads '|' [] .bar := by
        refine ⟨by simp; decide, by decide, by simp, fun _ => rfl, by simp⟩
      exact .inl ⟨'|', [], rfl, reads, fun _ => by decide⟩
  | void =>
      obtain ⟨later, text, lexes⟩ := @lexes_construct "void" (by decide) (by decide) (by decide)
      exact .inr ⟨'#', later, text, by decide, lexes⟩
  | logic b =>
      obtain ⟨later, text, lexes⟩ : ∃ later,
          (Lexeme.construct (if b then "true" else "false")).molded.toList = '#' :: later ∧ ∀ tail,
            Lexes ('#' :: later) tail
              (Node.SpellsElement (.scalar (.construct (if b then "true" else "false")))) := by
        cases b <;> exact lexes_construct (by decide) (by decide) (by decide)
      exact .inr ⟨'#', later, text, by decide, lexes⟩
  | integer fits =>
      obtain ⟨first, later, text, reads, noMark, -⟩ := reads_integer fits
      exact .inl ⟨first, later, text, reads, fun _ last => noMark (List.mem_of_getLast? last)⟩
  | char c =>
      refine .inr ⟨'#', (Mold.quotedText [c]).toList, ?_, by decide,
        fun tail => lexes_hash rfl (readHash_char c · tail)⟩
      simp [Lexeme.molded, String.toList_append]
  | text s =>
      refine .inr ⟨'"', s.toList.flatMap Mold.escapeChar ++ ['"'], ?_, by decide, fun tail => ?_⟩
      · exact toList_quotedText _
      · have lexes := lexes_text s tail
        rwa [toList_quotedText] at lexes
  | binary bytes =>
      refine .inr ⟨'#', '\x7b' :: (hexText bytes ++ ['\x7d']), ?_, by decide,
        fun tail => lexes_hash rfl fun line => ?_⟩
      · exact toList_binaryText bytes
      · rw [List.cons_append, List.append_assoc, List.singleton_append]
        exact readHash_binary bytes line tail
  | tuple long short =>
      obtain ⟨first, later, text, reads, noMark⟩ := reads_tuple long short
      exact .inl ⟨first, later, text, reads, fun _ last => noMark (List.mem_of_getLast? last)⟩
  | word mark isName => exact .inl (reads_word isName mark)

theorem Lexeme.Literal.isValue {lexeme : Lexeme} (literal : lexeme.Literal) :
    Node.isValue lexeme = true := by
  cases literal <;> rfl

/-- The text of a literal is read as the literal. -/
theorem lexes_literal {lexeme : Lexeme} (literal : lexeme.Literal) {tail : List Char}
    (follows : Follows (Node.scalar lexeme).mark tail) :
    Lexes lexeme.molded.toList tail (Node.SpellsElement (.scalar lexeme)) := by
  rcases literal_cases literal with ⟨first, later, text, reads, unset⟩ | ⟨first, later, text, -, lexes⟩
  · rw [text]
    exact reads.lexes (Lexeme.Literal.isValue literal) (reads.stops follows unset)
  · rw [text]
    exact lexes tail

/-! ## Items and arrays -/

/-- What stands in front of an item of a block or group. -/
def gapText (indent : Nat) (newline first : Bool) : List Char :=
  if newline then Node.breakText indent else if first then [] else [' ']

theorem reaches_gap (indent : Nat) (newline : Bool) {first joined : Bool}
    (fresh : first = true → joined = false) (rest : List Char) (line : Nat) (reversed : List Token) :
    ∃ line', Lexer.Reaches ⟨gapText indent newline first ++ rest, line, false, joined, reversed⟩
      ⟨rest, line', newline, false, reversed⟩ := by
  unfold gapText
  cases newline with
  | true => exact ⟨_, reaches_break indent rest line false joined reversed⟩
  | false =>
      cases first with
      | true =>
          rw [fresh rfl]
          exact ⟨line, .refl _⟩
      | false => exact ⟨line, .one rfl (Lexer.step_space _ _) (Nat.le_refl _)⟩

theorem itemsText_cons (indent : Nat) (first newline : Bool) (node : Node) (rest : List Item) :
    Node.itemsText indent first (.mk node newline :: rest) =
      gapText indent newline first ++ (node.text indent ++ Node.itemsText indent false rest) := by
  rw [Node.itemsText, gapText, List.append_assoc]

theorem ends_itemsText {indent : Nat} {items : List Item} {tail : List Char} (ends : Ends tail) :
    Ends (Node.itemsText indent false items ++ tail) := by
  cases items with
  | nil => exact ends
  | cons item rest =>
      obtain ⟨node, newline⟩ := item
      rw [itemsText_cons]
      cases newline <;> exact .behind (by simp)

/-- The items of a block or group are read back from their text. -/
theorem lexes_items {items : List Item} {indent : Nat}
    (each : ∀ item ∈ items, ∀ tail, Ends tail →
      Lexes (item.node.text indent) tail (Node.Spells item.node))
    {tail : List Char} (ends : Ends tail) (first : Bool) (line : Nat) (joined : Bool)
    (fresh : first = true → joined = false) (reversed : List Token) :
    ∃ line' joined' tokens,
      Lexer.Reaches ⟨Node.itemsText indent first items ++ tail, line, false, joined, reversed⟩
        ⟨tail, line', false, joined', tokens.reverse ++ reversed⟩ ∧
      Node.SpellsItems items tokens ∧ Node.Unjoined tokens := by
  induction items generalizing first line joined reversed with
  | nil => exact ⟨line, joined, [], .refl _, Node.spellsItems_nil, trivial⟩
  | cons item rest ih =>
      obtain ⟨node, newline⟩ := item
      obtain ⟨line₁, gap⟩ := reaches_gap indent newline fresh
        (node.text indent ++ (Node.itemsText indent false rest ++ tail)) line reversed
      obtain ⟨line₂, token, tokens, read, isNewline, isJoined, spells⟩ :=
        each _ List.mem_cons_self _ (ends_itemsText ends) line₁ newline false reversed
      obtain ⟨line₃, joined', more, onward, spellsRest, unjoined⟩ :=
        ih (fun item member => each item (List.mem_cons_of_mem _ member)) false line₂
          true (fun absurd => nomatch absurd) ((token :: tokens).reverse ++ reversed)
      refine ⟨line₃, joined', token :: tokens ++ more, ?_, ?_, isJoined⟩
      · simp only [itemsText_cons, List.append_assoc, List.reverse_append]
        exact gap.trans (read.trans onward)
      · rw [← isNewline]
        exact Node.spellsItems_cons spells unjoined spellsRest

theorem head?_ne_mark_of_follows {mark : Mark} {tail : List Char} (follows : Follows mark tail) :
    tail.head? ≠ some ':' := by
  rcases follows with ends | ⟨-, rest, rfl⟩
  · cases ends with
    | finish => simp
    | behind listed =>
        simp only [List.mem_cons, List.not_mem_nil, or_false] at listed
        rcases listed with rfl | rfl | rfl | rfl <;> simp
  · simp

/-- A block or group is read back from its text. -/
theorem lexes_array (bracket : Bracket) (mark : Mark) {items : List Item} {indent : Nat}
    (each : ∀ item ∈ items, ∀ tail, Ends tail →
      Lexes (item.node.text (indent + 1)) tail (Node.Spells item.node))
    {tail : List Char} (follows : Follows mark tail) :
    Lexes ((Node.array (Node.bracketShape bracket) mark items).text indent) tail
      (Node.SpellsElement (.array (Node.bracketShape bracket) mark items)) := by
  intro line newline joined reversed
  have shape : Node.bracketShape bracket ≠ .path := by cases bracket <;> decide
  have closed : Ends (Node.closeText (Node.bracketShape bracket) ++ (Node.trailText mark ++ tail)) := by
    cases bracket <;> exact .behind (by simp)
  have marks : (if decide (mark = .set) then Mark.set else leadMark mark) = mark := by
    cases mark <;> rfl
  have behind : ∃ gap, (if items.any Item.newline then Node.breakText indent else []) = gap ∧
      Ends (gap ++ (Node.closeText (Node.bracketShape bracket) ++ (Node.trailText mark ++ tail))) ∧
      ∀ rest line joined reversed, ∃ line' newline joined', Lexer.Reaches
        ⟨gap ++ rest, line, false, joined, reversed⟩ ⟨rest, line', newline, joined', reversed⟩ := by
    by_cases broken : items.any Item.newline = true
    · exact ⟨_, if_pos broken, .behind (by simp), fun rest line joined reversed =>
        ⟨_, _, _, reaches_break indent rest line false joined reversed⟩⟩
    · exact ⟨_, if_neg broken, closed, fun rest line joined reversed =>
        ⟨_, _, _, .refl _⟩⟩
  obtain ⟨gap, isGap, ends, crosses⟩ := behind
  obtain ⟨line₁, joined₁, tokens, inside, spells, -⟩ := lexes_items each ends true line false
    (fun _ => rfl) (⟨.opening bracket (leadMark mark), newline, joined, line⟩ :: reversed)
  obtain ⟨line₂, newline₂, joined₂, crossed⟩ := crosses
    (Node.closeText (Node.bracketShape bracket) ++ (Node.trailText mark ++ tail)) line₁ joined₁
    (tokens.reverse ++ ⟨.opening bracket (leadMark mark), newline, joined, line⟩ :: reversed)
  have ended := reaches_closing bracket mark (head?_ne_mark_of_follows follows) line₂ newline₂
    joined₂ (tokens.reverse ++ ⟨.opening bracket (leadMark mark), newline, joined, line⟩ :: reversed)
  have opened := reaches_opening bracket mark (Node.itemsText (indent + 1) true items ++
    (gap ++ (Node.closeText (Node.bracketShape bracket) ++ (Node.trailText mark ++ tail)))) line
    newline joined reversed
  have array : Node.SpellsElement
      (.array (Node.bracketShape bracket)
        (if decide (mark = .set) then Mark.set else leadMark mark) items)
      ⟨.opening bracket (leadMark mark), newline, joined, line⟩
      (tokens ++ [⟨.closing bracket (mark = .set), newline₂, joined₂, line₂⟩]) :=
    Node.spellsElement_array spells rfl rfl
  rw [marks] at array
  refine ⟨line₂, _, _, ?_, rfl, rfl, array⟩
  rw [List.append_assoc] at ended
  rw [Node.text, if_neg shape, isGap]
  simp only [List.append_assoc, List.reverse_cons, List.reverse_append, List.reverse_nil,
    List.nil_append, List.cons_append] at opened ⊢
  exact opened.trans (inside.trans (crossed.trans ended))

/-! ## Paths -/

/-- A value that is read back from its text with any mark, also as a part of a path. -/
def LexesMarked (node : Node) : Prop :=
  ∀ mark indent tail, Follows (node.marked mark).mark tail →
    Lexes ((node.marked mark).text indent) tail (Node.SpellsElement (node.marked mark))

/-- A part of a path that can be read back. -/
structure LexesPart (part : Node) : Prop where
  isPart : part.IsPart
  structural : part.Structural
  lexes : part.isBlank = false → LexesMarked part

theorem marked_plain {part : Node} (isPart : part.IsPart) : part.marked .plain = part := by
  cases isPart <;> rfl

/-- The text of a part behind a slash. -/
def slashText (indent : Nat) (part : Node) : List Char :=
  '/' :: if part.isBlank then [] else part.text indent

/-- The text of the parts behind the first. -/
def behindText (indent : Nat) (parts : List Node) : List Char :=
  Node.partsText indent false (parts.map (Item.mk · false))

theorem behindText_cons (indent : Nat) (part : Node) (parts : List Node) :
    behindText indent (part :: parts) = slashText indent part ++ behindText indent parts := by
  simp [behindText, Node.partsText, slashText]

/-- The tokens of the parts of a path that follow the first. -/
def SpellsBehind (parts : List Node) (setMark : Bool) (first : Token) (tokens : List Token) : Prop :=
  first.lexeme = .slash ∧
    Node.SpellsParts parts setMark ({ first with joined := true } :: tokens)

/-- What is read directly behind a slash. -/
def LexesBehind (text tail : List Char) (parts : List Node) (setMark : Bool) : Prop :=
  ∀ line newline joined reversed, ∃ line' tokens,
    Lexer.Reaches ⟨text ++ tail, line, false, true, ⟨.slash, newline, joined, line⟩ :: reversed⟩
      ⟨tail, line', false, true, tokens.reverse ++ ⟨.slash, newline, joined, line⟩ :: reversed⟩ ∧
    ∀ slash, Node.IsSlash slash → Node.SpellsParts parts setMark (slash :: tokens)

theorem LexesBehind.lexes {text tail : List Char} {parts : List Node} {setMark : Bool}
    (behind : LexesBehind text tail parts setMark) :
    Lexes ('/' :: text) tail (SpellsBehind parts setMark) := by
  intro line newline joined reversed
  obtain ⟨line', tokens, reaches, spells⟩ := behind line newline joined reversed
  refine ⟨line', ⟨.slash, newline, joined, line⟩, tokens, ?_, rfl, rfl, rfl, spells _ ⟨rfl, rfl⟩⟩
  rw [List.reverse_cons, List.append_assoc, List.singleton_append]
  exact .step rfl (Lexer.step_slash _ _) (Nat.le_refl _) reaches

/-- A part behind a slash, in front of further parts. -/
theorem lexes_part {part : Node} {parts : List Node} {setMark : Bool} {indent : Nat}
    {text tail : List Char} (lexes : LexesPart part)
    (onward : Lexes text tail (SpellsBehind parts setMark))
    (slash : ∃ rest, text ++ tail = '/' :: rest) :
    Lexes (slashText indent part ++ text) tail (SpellsBehind (part :: parts) setMark) := by
  refine LexesBehind.lexes fun line newline joined reversed => ?_
  cases blank : part.isBlank with
  | true =>
      obtain ⟨line', first, tokens, reaches, -, isJoined, isSlash, spells⟩ :=
        onward line false true (⟨.slash, newline, joined, line⟩ :: reversed)
      have noPart : Node.NoPart ({ first with joined := true } :: tokens) := by
        simp [Node.NoPart, Node.continuesPath, isSlash]
      have same : { first with joined := true } = first := by rw [← isJoined]
      rw [same] at noPart spells
      have isBlank : part = .scalar .blank := by
        have isPart := lexes.isPart
        revert blank
        cases isPart <;> simp [Node.isBlank]
      refine ⟨line', first :: tokens, reaches, fun slash slashes => ?_⟩
      rw [isBlank]
      exact Node.spellsParts_blank slashes (.inr noPart) spells
  | false =>
      obtain ⟨rest, next⟩ := slash
      have mark : part.mark = .plain := by cases lexes.isPart <;> rfl
      have read := lexes.lexes blank .plain indent (text ++ tail)
      rw [marked_plain lexes.isPart] at read
      obtain ⟨line₁, token, inner, here, -, isJoined, element⟩ :=
        read (.inr ⟨by rw [mark]; decide, rest, next⟩) line false true
          (⟨.slash, newline, joined, line⟩ :: reversed)
      obtain ⟨line₂, first, tokens, reaches, -, joinedFirst, -, spells⟩ := onward line₁ false true
        ((token :: inner).reverse ++ ⟨.slash, newline, joined, line⟩ :: reversed)
      have same : { first with joined := true } = first := by rw [← joinedFirst]
      rw [same] at spells
      refine ⟨line₂, token :: inner ++ first :: tokens, ?_, fun slash slashes =>
        Node.spellsParts_element slashes element isJoined spells⟩
      rw [List.reverse_append, List.append_assoc]
      have whole := here.trans reaches
      rw [← List.append_assoc] at whole
      exact whole

/-- The mark that is written behind a path. -/
def trailMark : Mark → Mark
  | .set => .set
  | _ => .plain

/-- The mark of a path is written behind a number. -/
def marksNumber (mark : Mark) : Node → Bool
  | .scalar (.integer _) => mark = .set
  | _ => false

theorem lexesBehind_element {node : Node} {text tail : List Char}
    (read : Lexes text tail (Node.SpellsElement node)) : LexesBehind text tail [node] false := by
  intro line newline joined reversed
  obtain ⟨line', first, tokens, reaches, -, isJoined, element⟩ :=
    read line false true (⟨.slash, newline, joined, line⟩ :: reversed)
  refine ⟨line', first :: tokens, reaches, fun slash slashes => ?_⟩
  have spells := Node.spellsParts_element slashes element isJoined Node.spellsParts_nil
  rwa [List.append_nil] at spells

theorem lexesBehind_blank (tail : List Char) : LexesBehind [] tail [.scalar .blank] false :=
  fun line _ _ _ => ⟨line, [], .refl _, fun _ slashes =>
    Node.spellsParts_blank slashes (.inl rfl) Node.spellsParts_nil⟩

/-- A number behind a slash, with the mark of the path. -/
theorem lexesBehind_number {i : Int} (natural : 0 ≤ i) (fits : Bits.fits64 i = true)
    {tail : List Char} (ends : Ends tail) :
    LexesBehind ((toString i).toList ++ [':']) tail [.scalar (.integer i)] true := by
  intro line newline joined reversed
  obtain ⟨first, later, text, reads, noMark, digit⟩ := reads_integer fits
  have stepped := reads.step_setMark (digit natural) noMark (ends.stops _)
    (s := ⟨first :: later ++ ':' :: tail, line, false, true,
      ⟨.slash, newline, joined, line⟩ :: reversed⟩) rfl rfl
  refine ⟨line, [⟨.integer i, false, true, line⟩, ⟨.setMark, false, true, line⟩], ?_,
    fun slash slashes => Node.spellsParts_element slashes (Node.spellsElement_scalar rfl rfl) rfl
      (Node.spellsParts_setMark rfl rfl)⟩
  rw [text, List.append_assoc, List.singleton_append]
  exact .one rfl stepped (by simp; omega)

/-- The last part of a path, with the mark of the path if that is written behind it. -/
theorem lexes_last {last : Node} {mark : Mark} {indent : Nat} (lexes : LexesPart last)
    (carries : mark = .set → last ≠ .scalar .blank) {tail : List Char} (ends : Ends tail) :
    Lexes (slashText indent last ++ Node.trailText mark) tail
      (SpellsBehind [last.marked (trailMark mark)] (marksNumber mark last)) := by
  have cut : slashText indent last ++ Node.trailText mark =
      '/' :: ((if last.isBlank then [] else last.text indent) ++ Node.trailText mark) := rfl
  rw [cut]
  refine LexesBehind.lexes ?_
  by_cases set : mark = .set
  · subst set
    have read := lexes.lexes
    cases lexes.isPart with
    | blank => exact absurd rfl (carries rfl)
    | word name =>
        have text : ((Node.scalar (.word name .plain)).marked .set).text indent =
            (Node.scalar (.word name .plain)).text indent ++ [':'] := by
          simp [Node.marked, Node.text, Lexeme.molded, Mold.wordText, String.toList_append]
        have element := read rfl .set indent tail (.inl ends)
        rw [text] at element
        exact lexesBehind_element element
    | integer natural =>
        cases lexes.structural with
        | scalar literal =>
            cases literal with
            | integer fits => exact lexesBehind_number natural fits ends
    | group items =>
        have text : ((Node.array .group .plain items).marked .set).text indent =
            (Node.array .group .plain items).text indent ++ [':'] := by
          simp [Node.marked, Node.text, Node.leadText, Node.trailText]
        have element := read rfl .set indent tail (.inl ends)
        rw [text] at element
        exact lexesBehind_element element
  · have trail : Node.trailText mark = [] := by cases mark <;> first | rfl | exact absurd rfl set
    have plain : trailMark mark = .plain := by cases mark <;> first | rfl | exact absurd rfl set
    have noNumber : marksNumber mark last = false := by
      unfold marksNumber
      split
      · exact decide_eq_false set
      · rfl
    rw [trail, plain, noNumber, marked_plain lexes.isPart, List.append_nil]
    cases blank : last.isBlank with
    | true =>
        have isBlank : last = .scalar .blank := by
          have isPart := lexes.isPart
          revert blank
          cases isPart <;> simp [Node.isBlank]
        rw [isBlank]
        exact lexesBehind_blank tail
    | false =>
        have read := lexes.lexes blank .plain indent tail (.inl ends)
        rw [marked_plain lexes.isPart] at read
        exact lexesBehind_element read

/-- The parts of a path behind the first are read back. -/
theorem lexes_behind {middle : List Node} {last : Node} {mark : Mark} {indent : Nat}
    (lexes : ∀ part ∈ middle ++ [last], LexesPart part)
    (carries : mark = .set → last ≠ .scalar .blank) {tail : List Char} (ends : Ends tail) :
    Lexes (behindText indent (middle ++ [last]) ++ Node.trailText mark) tail
      (SpellsBehind (middle ++ [last.marked (trailMark mark)]) (marksNumber mark last)) := by
  induction middle with
  | nil =>
      have empty : behindText indent [] = [] := rfl
      rw [List.nil_append, behindText_cons, empty, List.append_nil]
      exact lexes_last (lexes last List.mem_cons_self) carries ends
  | cons part middle ih =>
      have onward := ih fun part member => lexes part (List.mem_cons_of_mem _ member)
      rw [List.cons_append, behindText_cons, List.append_assoc]
      refine lexes_part (lexes part List.mem_cons_self) onward ?_
      cases middle <;> exact ⟨_, rfl⟩

theorem mark_marked {part : Node} (isPart : part.IsPart)
    (carries : part ≠ .scalar .blank ∧ ∀ i, part ≠ .scalar (.integer i)) (mark : Mark) :
    (part.marked mark).mark = mark ∧ (part.marked mark).unmarked = part := by
  cases isPart with
  | blank => exact absurd rfl carries.1
  | integer natural => exact absurd rfl (carries.2 _)
  | word name | group items => exact ⟨rfl, rfl⟩

/-- The marks on the outer parts of a path are the mark of the path. -/
theorem finishPath_marked {head last : Node} {middle : List Node} {mark : Mark}
    (parts : ∀ part ∈ head :: (middle ++ [last]), part.IsPart)
    (carries : Node.CarriesMark mark (Node.markedEnd mark head last)) (line : Nat) :
    Node.finishPath line
        (head.marked (leadMark mark) :: (middle ++ [last.marked (trailMark mark)]))
        (marksNumber mark last) =
      .ok (.array .path mark ((head :: (middle ++ [last])).map (Item.mk · false))) := by
  have isHead := parts head List.mem_cons_self
  have isLast := parts last (by simp)
  have plainHead : head.mark = .plain := by cases isHead <;> rfl
  have plainLast : last.mark = .plain := by cases isLast <;> rfl
  have ends (first final : Node) : (first :: (middle ++ [final])).getLast? = some final := by
    rw [← List.cons_append, List.getLast?_concat]
  have front (first final : Node) : (first :: (middle ++ [final])).dropLast = first :: middle := by
    rw [← List.cons_append, List.dropLast_concat]
  unfold Node.finishPath
  cases mark with
  | plain =>
      have noNumber : marksNumber .plain last = false := by cases isLast <;> rfl
      simp only [leadMark, trailMark, marked_plain isHead, marked_plain isLast, plainHead, ends,
        plainLast, noNumber]
      rfl
  | set =>
      simp only [leadMark, marked_plain isHead, plainHead, ends, front]
      cases isLast with
      | blank => exact absurd rfl carries
      | word name | integer natural | group items => rfl
  | get | sym =>
      have noNumber (mark : Mark) (other : mark ≠ .set) : marksNumber mark last = false := by
        cases isLast <;> simp [marksNumber, other]
      simp only [leadMark, trailMark, marked_plain isLast, mark_marked isHead carries, ends,
        plainLast, noNumber _ (by decide : Mark.get ≠ .set), noNumber _ (by decide : Mark.sym ≠ .set)]
      rfl

/-! ## Whole values -/

theorem text_head (head : Node) (rest : List Node) (indent : Nat) :
    Node.partsText indent true ((head :: rest).map (Item.mk · false)) =
      (if head.isBlank then [] else head.text indent) ++ behindText indent rest := by
  simp [Node.partsText, behindText]

theorem text_path (mark : Mark) (head : Node) (rest : List Node) (indent : Nat) :
    (Node.array .path mark ((head :: rest).map (Item.mk · false))).text indent =
      Node.leadText mark ++ (if head.isBlank then [] else head.text (indent + 1)) ++
        (behindText (indent + 1) rest ++ Node.trailText mark) := by
  rw [Node.text, if_pos rfl, text_head]
  simp [Node.openText, Node.closeText]

/-- A mark in front of a path is one on its first part. -/
theorem text_lead {head : Node} {mark : Mark} (isPart : head.IsPart)
    (carries : leadMark mark ≠ .plain → ∀ i, head ≠ .scalar (.integer i))
    (noBlank : head.isBlank = false) (indent : Nat) :
    (head.marked (leadMark mark)).text indent = Node.leadText mark ++ head.text indent := by
  cases isPart with
  | blank => cases noBlank
  | word name => cases mark <;>
      simp [leadMark, Node.leadText, Node.marked, Node.text, Lexeme.molded, Mold.wordText,
        String.toList_append]
  | group items => cases mark <;>
      simp [leadMark, Node.leadText, Node.trailText, Node.marked, Node.text]
  | integer natural =>
      cases mark with
      | plain | set => rfl
      | get | sym => exact absurd rfl (carries (by decide) _)

/-- A path is read back from its text. -/
theorem lexes_path {head last : Node} {middle : List Node} {mark : Mark}
    (lexes : ∀ part ∈ head :: (middle ++ [last]), LexesPart part)
    (carries : Node.CarriesMark mark (Node.markedEnd mark head last)) (indent : Nat)
    {tail : List Char} (ends : Ends tail) :
    Lexes ((Node.array .path mark ((head :: (middle ++ [last])).map (Item.mk · false))).text indent)
      tail (Node.Spells (.array .path mark ((head :: (middle ++ [last])).map (Item.mk · false)))) := by
  have isHead := lexes head List.mem_cons_self
  have finished := finishPath_marked (fun part member => (lexes part member).isPart) carries
  have carriesLast : mark = .set → last ≠ .scalar .blank := by
    rintro rfl
    exact carries
  have behind : Lexes (behindText (indent + 1) (middle ++ [last]) ++ Node.trailText mark) tail
      (SpellsBehind (middle ++ [last.marked (trailMark mark)]) (marksNumber mark last)) :=
    lexes_behind (fun part member => lexes part (List.mem_cons_of_mem _ member)) carriesLast ends
  have long : middle ++ [last.marked (trailMark mark)] ≠ [] := by simp
  rw [text_path]
  cases blank : head.isBlank with
  | true =>
      have isBlank : head = .scalar .blank := by
        have isPart := isHead.isPart
        revert blank
        cases isPart <;> simp [Node.isBlank]
      subst isBlank
      have noLead : Node.leadText mark = [] := by
        cases mark with
        | plain | set => rfl
        | get | sym => exact absurd rfl carries.1
      rw [noLead]
      exact behind.mono fun first tokens spells => spells.2.path spells.1 long finished
  | false =>
      have noNumber : leadMark mark ≠ .plain → ∀ i, head ≠ .scalar (.integer i) := by
        cases mark with
        | plain | set => exact fun absurd => (absurd rfl).elim
        | get | sym => exact fun _ => carries.2
      have lead := text_lead isHead.isPart noNumber blank (indent + 1)
      intro line newline joined reversed
      have unset : (head.marked (leadMark mark)).mark ≠ .set := by
        cases isHead.isPart <;> cases mark <;> exact Mark.noConfusion
      obtain ⟨rest, next⟩ : ∃ rest, behindText (indent + 1) (middle ++ [last]) ++
          Node.trailText mark ++ tail = '/' :: rest := by
        cases middle <;> exact ⟨_, rfl⟩
      obtain ⟨line₁, first, tokens, here, isNewline, isJoined, element⟩ :=
        isHead.lexes blank (leadMark mark) (indent + 1) _ (.inr ⟨unset, rest, next⟩) line newline
          joined reversed
      obtain ⟨line₂, slash, more, reaches, -, joinedSlash, -, spells⟩ :=
        behind line₁ false true ((first :: tokens).reverse ++ reversed)
      have same : { slash with joined := true } = slash := by rw [← joinedSlash]
      rw [same] at spells
      refine ⟨line₂, first, tokens ++ slash :: more, ?_, isNewline, isJoined,
        element.path long spells finished⟩
      rw [lead] at here
      have whole := here.trans reaches
      rw [if_neg Bool.false_ne_true]
      simpa using whole

/-- A text that begins a value: neither blank nor an apostrophe nor a closing bracket. -/
def Starts (text : List Char) : Prop :=
  ∃ first later, text = first :: later ∧ Text.isBlank first = false ∧ first ∉ ['\'', ']', ')']

theorem Starts.append {text : List Char} (starts : Starts text) (tail : List Char) :
    Starts (text ++ tail) := by
  obtain ⟨first, later, rfl, holds⟩ := starts
  exact ⟨first, later ++ tail, rfl, holds⟩

theorem starts_literal {lexeme : Lexeme} (literal : lexeme.Literal) :
    Starts lexeme.molded.toList := by
  rcases literal_cases literal with ⟨first, later, text, reads, -⟩ | ⟨first, later, text, listed, -⟩
  · have plain := (reads.plain first List.mem_cons_self).1
    have noQuote : first ≠ '\'' := fun same => reads.begins (by simp [same])
    refine ⟨first, later, text, ?_, ?_⟩
    · unfold isDelimiter at plain
      exact (Bool.or_eq_false_iff.mp plain).1
    · simpa using ⟨noQuote, ne_of_not_isDelimiter plain (by decide),
        ne_of_not_isDelimiter plain (by decide)⟩
  · refine ⟨first, later, text, ?_⟩
    revert first
    simp only [List.mem_cons, List.not_mem_nil, or_false]
    rintro first - (rfl | rfl) <;> decide

theorem starts_array (bracket : Bracket) (mark : Mark) (items : List Item) (indent : Nat) :
    Starts ((Node.array (Node.bracketShape bracket) mark items).text indent) := by
  rw [Node.text]
  simp only [List.append_assoc]
  cases mark <;> cases bracket <;> exact ⟨_, _, rfl, by decide, by decide⟩

/-- What is not quoted begins neither with a blank nor with an apostrophe. -/
theorem starts_text {node : Node} (structural : node.Structural)
    (unquoted : ∀ depth inner, node ≠ .quoted depth inner) (indent : Nat) :
    Starts (node.text indent) := by
  cases structural with
  | scalar literal =>
      rw [Node.text]
      exact starts_literal literal
  | array bracket mark => exact starts_array bracket mark _ indent
  | quoted => exact absurd rfl (unquoted _ _)
  | @path mark head last middle structural parts carries =>
      rw [text_path]
      have slash : Starts (behindText (indent + 1) (middle ++ [last]) ++ Node.trailText mark) := by
        cases middle <;> exact ⟨_, _, rfl, by decide, by decide⟩
      have starts : Starts ((if head.isBlank then [] else head.text (indent + 1)) ++
          (behindText (indent + 1) (middle ++ [last]) ++ Node.trailText mark)) := by
        have isHead := parts head List.mem_cons_self
        have structural := structural head List.mem_cons_self
        cases isHead with
        | blank => exact slash
        | word | integer =>
            cases structural with
            | scalar literal =>
                refine Starts.append ?_ _
                rw [Node.text]
                exact starts_literal literal
        | group items => exact (starts_array .group .plain items (indent + 1)).append _
      rw [List.append_assoc]
      cases mark with
      | plain | set => exact starts
      | get | sym => exact ⟨_, _, rfl, by decide, by decide⟩

theorem step_quotes (s : Lexer) (depth : Nat) {rest : List Char} (starts : Starts rest) :
    s.step '\'' (List.replicate depth '\'' ++ rest) =
      .ok (s.emit (.quote (depth + 1)) ⟨rest, s.line⟩) := by
  obtain ⟨first, later, rfl, noBlank, listed⟩ := starts
  obtain ⟨noQuote, noBlock, noGroup⟩ : first ≠ '\'' ∧ first ≠ ']' ∧ first ≠ ')' := by
    simpa using listed
  have taken : (List.replicate depth '\'' ++ first :: later).takeWhile (· == '\'') =
      List.replicate depth '\'' := by
    rw [List.takeWhile_append_of_pos (by simp)]
    simp [noQuote]
  have dropped : (List.replicate depth '\'' ++ first :: later).dropWhile (· == '\'') =
      first :: later := by
    rw [List.dropWhile_append_of_pos (by simp)]
    simp [noQuote]
  unfold Lexer.step
  iterate 5 rw [if_neg (by decide)]
  rw [if_neg (by simp), if_pos (by decide)]
  dsimp only
  rw [taken, dropped]
  dsimp only
  rw [if_neg (by simp [noBlank, noBlock, noGroup]), List.length_replicate]
  rfl

theorem lexes_quoted {node : Node} {depth indent : Nat} (positive : 0 < depth)
    (starts : Starts (node.text indent)) {tail : List Char}
    (lexes : Lexes (node.text indent) tail (Node.Spells node)) :
    Lexes ((Node.quoted depth node).text indent) tail (Node.Spells (.quoted depth node)) := by
  intro line newline joined reversed
  obtain ⟨depth, rfl⟩ : ∃ less, depth = less + 1 := ⟨depth - 1, by omega⟩
  obtain ⟨line', first, tokens, reaches, -, -, spells⟩ :=
    lexes line false true (⟨.quote (depth + 1), newline, joined, line⟩ :: reversed)
  refine ⟨line', ⟨.quote (depth + 1), newline, joined, line⟩, first :: tokens, ?_, rfl, rfl,
    spells.quoted rfl⟩
  have quoted := step_quotes
    ⟨'\'' :: (List.replicate depth '\'' ++ (node.text indent ++ tail)), line, newline, joined,
      reversed⟩ depth (starts.append tail)
  rw [Node.text, List.reverse_cons, List.append_assoc, List.append_assoc]
  exact .step rfl quoted (by simp [Lexer.emit]) reaches

theorem Lexeme.Literal.marked {lexeme : Lexeme} (literal : lexeme.Literal) (mark : Mark) :
    ∃ same, (Node.scalar lexeme).marked mark = .scalar same ∧ same.Literal := by
  cases literal with
  | word _ isName => exact ⟨_, rfl, .word mark isName⟩
  | _ => exact ⟨_, rfl, by constructor <;> assumption⟩

/-- A value that is no path and is not quoted is read back with any mark. -/
theorem lexesMarked_array (bracket : Bracket) (mark : Mark) {items : List Item}
    (each : ∀ item ∈ items, ∀ indent tail, Ends tail →
      Lexes (item.node.text indent) tail (Node.Spells item.node)) :
    LexesMarked (.array (Node.bracketShape bracket) mark items) :=
  fun other _ _ follows => lexes_array bracket other
    (fun item member tail ends => each item member _ tail ends) follows

theorem lexesMarked_literal {lexeme : Lexeme} (literal : lexeme.Literal) :
    LexesMarked (.scalar lexeme) := by
  intro mark indent tail follows
  obtain ⟨same, marked, literal⟩ := Lexeme.Literal.marked literal mark
  rw [marked] at follows ⊢
  rw [Node.text]
  exact lexes_literal literal follows

theorem LexesMarked.lexes {node : Node} (lexes : LexesMarked node)
    (same : node.marked node.mark = node) (indent : Nat) {tail : List Char} (ends : Ends tail) :
    Lexes (node.text indent) tail (Node.Spells node) := by
  have read := lexes node.mark indent tail (.inl ends)
  rw [same] at read
  exact read.mono fun _ _ spells => spells.spells

/-- Every tree that can be written is read back from its text. -/
theorem lexes_structural {node : Node} (structural : node.Structural) :
    (node.IsPart → LexesMarked node) ∧
      ∀ indent tail, Ends tail → Lexes (node.text indent) tail (Node.Spells node) := by
  induction structural with
  | @scalar lexeme literal =>
      have lexes := lexesMarked_literal literal
      have same : (Node.scalar lexeme).marked (Node.scalar lexeme).mark = .scalar lexeme := by
        cases literal <;> rfl
      exact ⟨fun _ => lexes, fun indent tail => lexes.lexes same indent⟩
  | array bracket mark _ ih =>
      have lexes := lexesMarked_array bracket mark fun item member => (ih item member).2
      exact ⟨fun _ => lexes, fun indent tail => lexes.lexes rfl indent⟩
  | path structural parts carries ih =>
      refine ⟨fun isPart => (nomatch isPart), fun indent tail ends => lexes_path ?_ carries indent ends⟩
      exact fun part member => ⟨parts part member, structural part member,
        fun _ => (ih part member).1 (parts part member)⟩
  | quoted positive _ unquoted structural ih =>
      refine ⟨fun isPart => (nomatch isPart), fun indent tail ends => ?_⟩
      exact lexes_quoted positive (starts_text structural unquoted indent) (ih.2 indent tail ends)

/-- The text of some trees is scanned as these trees. -/
theorem scan_itemsText {items : List Item} (structural : ∀ item ∈ items, item.node.Structural)
    {source : String} (written : source.toList = Node.itemsText 0 true items) :
    Node.scan source = .ok items := by
  have each : ∀ item ∈ items, ∀ tail, Ends tail →
      Lexes (item.node.text 0) tail (Node.Spells item.node) :=
    fun item member tail ends => (lexes_structural (structural item member)).2 0 tail ends
  obtain ⟨line, joined, tokens, reaches, spells, -⟩ :=
    lexes_items each .finish true 1 false (fun _ => rfl) []
  rw [List.append_nil, ← written] at reaches
  have cut : tokenize source = .ok tokens := by
    have ran := reaches.run rfl (Nat.le_refl _)
    rwa [List.append_nil, List.reverse_reverse] at ran
  unfold Node.scan
  rw [cut]
  exact Node.parse_of_spellsItems spells

/-- A text that is read as a literal, up to its end, is scanned as that one value. -/
theorem scan_of_lexes {cs : List Char} {lexeme : Lexeme}
    (lexes : Lexes cs [] (Node.SpellsElement (.scalar lexeme))) {source : String}
    (written : source.toList = cs) : Node.scan source = .ok [.mk (.scalar lexeme) false] := by
  obtain ⟨line, first, tokens, reaches, newline, -, spells⟩ := lexes 1 false false []
  rw [List.append_nil, ← written] at reaches
  have cut : tokenize source = .ok (first :: tokens) := by
    have ran := reaches.run rfl (Nat.le_refl _)
    rwa [List.append_nil, List.reverse_reverse] at ran
  have unjoined : Node.Unjoined [] := trivial
  have items := Node.spellsItems_cons spells.spells unjoined Node.spellsItems_nil
  rw [newline, List.append_nil] at items
  rw [Node.scan, cut]
  exact Node.parse_of_spellsItems items

end Homoicon.Token
