import Homoicon.Proofs.Source.Bare
import Homoicon.Proofs.Source.Continuing
import Homoicon.Proofs.Source.Exactness
import Homoicon.Proofs.Source.Signs

/-!
# Every token in its place

The values that a text is arranged into, read off from left to right, are its tokens again, and its
brackets match; a text whose brackets do not match is refused.  A mark that is a token of its own
can only become that of a path because the scanner puts it nowhere else.
-/

namespace Homoicon.Node

/-! ## Where marks stand -/

/-- Not a mark behind a number, nor an opening bracket with a mark behind it. -/
def isOrdinary : Lexeme → Bool
  | .setMark | .opening _ .set => false
  | _ => true

/-- A mark of its own stands only behind a number that stands behind a slash, all three without
blanks between them. -/
inductive Placed : List Token → Prop where
  | nil : Placed []
  | cons {token : Token} {tokens : List Token} : isOrdinary token.lexeme = true → Placed tokens →
      Placed (token :: tokens)
  | marked {slash number mark : Token} {tokens : List Token} : slash.lexeme = .slash →
      Token.isNumber number.lexeme = true → number.joined = true → mark.lexeme = .setMark →
      mark.joined = true → Placed tokens → Placed (slash :: number :: mark :: tokens)

theorem Placed.concat {tokens : List Token} (placed : Placed tokens) {token : Token}
    (ordinary : isOrdinary token.lexeme = true) : Placed (tokens ++ [token]) := by
  induction placed with
  | nil => exact .cons ordinary .nil
  | cons first _ ih => exact .cons first ih
  | marked slash number joined mark joined' _ ih => exact .marked slash number joined mark joined' ih

theorem Placed.concat_marked {tokens : List Token} {slash number mark : Token}
    (placed : Placed (tokens ++ [slash])) (slashes : slash.lexeme = .slash)
    (isNumber : Token.isNumber number.lexeme = true) (joined : number.joined = true)
    (marks : mark.lexeme = .setMark) (joined' : mark.joined = true) :
    Placed (tokens ++ [slash, number, mark]) := by
  generalize whole : tokens ++ [slash] = all at placed
  induction placed generalizing tokens with
  | nil => simp at whole
  | @cons first later ordinary placed ih =>
      cases tokens with
      | nil =>
          cases whole
          exact .marked slashes isNumber joined marks joined' .nil
      | cons first tokens =>
          cases whole
          exact .cons ordinary (ih rfl)
  | @marked slash' number' mark' later slashes' isNumber' near marks' near' placed ih =>
      match tokens with
      | [] => cases whole
      | [_] => cases whole
      | [_, _] =>
          cases whole
          rw [slashes] at marks'
          cases marks'
      | _ :: _ :: _ :: tokens =>
          cases whole
          exact .marked slashes' isNumber' near marks' near' (ih rfl)

theorem isOrdinary_of_isValue {lexeme : Lexeme} (value : isValue lexeme = true) :
    isOrdinary lexeme = true := by
  cases lexeme <;> first | rfl | cases value

end Homoicon.Node

namespace Homoicon.Token

theorem isValue_of_isNumber {lexeme : Lexeme} (number : isNumber lexeme = true) :
    Node.isValue lexeme = true := by
  cases lexeme <;> first | rfl | cases number

theorem RunLiteral.isValue {cs : List Char} {lexeme : Lexeme} (literal : RunLiteral cs lexeme) :
    Node.isValue lexeme = true := by
  cases literal with
  | number number => exact isValue_of_isNumber number
  | blank | bar | money | address | word => rfl

theorem HashLiteral.isValue {cs : List Char} {lexeme : Lexeme} (literal : HashLiteral cs lexeme) :
    Node.isValue lexeme = true := by
  cases literal <;> rfl

/-- What is found keeps marks where they may stand. -/
inductive Found.Fits (afterSlash : Bool) : Found → Prop where
  | lineBreak {rest : List Char} : Fits afterSlash (.lineBreak rest)
  | gap {rest : List Char} : Fits afterSlash (.gap rest)
  | comment {rest : List Char} : Fits afterSlash (.comment rest)
  | opening {bracket : Char} {mark : Mark} {rest : List Char} : mark ≠ .set →
      Fits afterSlash (.opening bracket mark rest)
  | token {lexeme : Lexeme} {cursor : Cursor} : Node.isOrdinary lexeme = true →
      Fits afterSlash (.token lexeme cursor)
  | marked {lexeme : Lexeme} {rest : List Char} : afterSlash = true → isNumber lexeme = true →
      Fits afterSlash (.marked lexeme rest)

theorem findRun_fits {line : Nat} {afterSlash : Bool} {cs : List Char} {found : Found}
    (finds : findRun line afterSlash cs = .ok found) : found.Fits afterSlash := by
  unfold findRun at finds
  dsimp only at finds
  split_ifs at finds with marked
  · obtain ⟨value, classified, given⟩ := Except.bind_eq_ok finds
    cases given
    simp only [Bool.and_eq_true] at marked
    exact .marked marked.1.1.2 (classify_digit marked.1.2 (by simpa using marked.2) classified)
  · obtain ⟨value, classified, given⟩ := Except.bind_eq_ok finds
    cases given
    exact .token (Node.isOrdinary_of_isValue (classify_literal classified).isValue)

theorem Stands.fits {line : Nat} {afterSlash : Bool} {c : Char} {rest : List Char} {found : Found}
    (stands : Stands line afterSlash c rest found) : found.Fits afterSlash := by
  cases stands with
  | lineBreak => exact .lineBreak
  | gap => exact .gap
  | comment => exact .comment
  | opening => exact .opening (by decide)
  | leading => exact .opening (by split <;> decide)
  | closing | quote | slash | text | file | tag => exact .token rfl
  | hash read => exact .token (Node.isOrdinary_of_isValue (readHash_literal read).isValue)
  | run _ finds => exact findRun_fits finds

theorem Lexer.reversed_of_afterSlash {s : Lexer} (after : s.afterSlash = true) :
    s.joined = true ∧ ∃ slash before, s.reversed = slash :: before ∧ slash.lexeme = .slash := by
  unfold afterSlash at after
  rw [Bool.and_eq_true] at after
  refine ⟨after.1, ?_⟩
  have last := after.2
  split at last
  · rename_i newline joined line before reversed
    exact ⟨_, before, reversed, rfl⟩
  · cases last

theorem Lexer.placed_record {s : Lexer} (placed : Node.Placed s.reversed.reverse) {found : Found}
    (fits : found.Fits s.afterSlash) : Node.Placed (s.record found).reversed.reverse := by
  cases fits with
  | lineBreak | gap | comment => exact placed
  | opening unset =>
      have ordinary (bracket : Bracket) {mark : Mark} (unset : mark ≠ .set) :
          Node.isOrdinary (.opening bracket mark) = true := by
        cases mark <;> first | rfl | exact absurd rfl unset
      refine (congrArg Node.Placed (List.reverse_cons ..)).mpr (placed.concat ?_)
      exact ordinary _ unset
  | token ordinary =>
      exact (congrArg Node.Placed (List.reverse_cons ..)).mpr (placed.concat ordinary)
  | marked after number =>
      obtain ⟨joined, slash, before, reversed, slashes⟩ := reversed_of_afterSlash after
      rw [reversed, List.reverse_cons] at placed
      simp only [record, emit, reversed, List.reverse_cons, List.append_assoc, List.cons_append,
        List.nil_append]
      exact placed.concat_marked slashes number joined rfl rfl

/-- The scanner puts marks only where they may stand. -/
theorem placed_of_tokenize {source : String} {tokens : List Token}
    (read : tokenize source = .ok tokens) : Node.Placed tokens := by
  obtain ⟨last, reaches, -, rfl⟩ := reaches_of_tokenize read
  have kept {s last : Lexer} (reaches : Lexer.Reaches s last) :
      Node.Placed s.reversed.reverse → Node.Placed last.reversed.reverse := by
    induction reaches with
    | refl => exact id
    | @step s _ _ c rest begins stepped _ _ ih =>
        rw [Lexer.step_eq s begins] at stepped
        obtain ⟨found, finds, rfl⟩ := Except.map_eq_ok stepped
        exact fun placed => ih (Lexer.placed_record placed (find_stands _ _ _ _ found finds).fits)
  exact kept reaches .nil

end Homoicon.Token

namespace Homoicon.Node

/-! ## Arranging tokens -/

theorem Placed.tail {token : Token} {tokens : List Token} (placed : Placed (token :: tokens))
    (noSlash : token.lexeme ≠ .slash) : isOrdinary token.lexeme = true ∧ Placed tokens := by
  cases placed with
  | cons ordinary later => exact ⟨ordinary, later⟩
  | marked slash => exact absurd slash noSlash

theorem Placed.ne_setMark {token : Token} {tokens : List Token} (placed : Placed (token :: tokens)) :
    token.lexeme ≠ .setMark := by
  intro marks
  cases placed with
  | cons ordinary =>
      rw [marks] at ordinary
      cases ordinary
  | marked slash =>
      rw [marks] at slash
      cases slash

/-- Behind a part of a path that has no mark of its own a mark may stand. -/
inductive Ready (part : Node) : List Token → Prop where
  | placed {tokens : List Token} : Placed tokens → Ready part tokens
  | marked {mark : Token} {tokens : List Token} : part.takesMark = false →
      mark.lexeme = .setMark → mark.joined = true → Placed tokens → Ready part (mark :: tokens)

/-- The tokens from `start` on have been read up to some others, as a value or as the parts of a
path, the last part first. -/
inductive Begun (start : List Token) : List Node → List Token → Prop where
  | single {head : Node} {tokens : List Token} : Placed tokens →
      Accounts (head.signs head.mark) start tokens → Begun start [head] tokens
  | several {part : Node} {before : List Node} {tokens : List Token} : before ≠ [] →
      Ready part tokens → Accounts (partsSigns (part :: before).reverse) start tokens →
      Begun start (part :: before) tokens

/-- A reader of values accounts for each token that it takes. -/
def Reads (read : Nat → Nat → List Token → Scan (Node × List Token)) (fuel : Nat) : Prop :=
  ∀ lastLine tokens node rest, Placed tokens → read lastLine fuel tokens = .ok (node, rest) →
    Placed rest ∧ Accounts (node.signs node.mark) tokens rest

/-- The same for the items between two brackets. -/
def ReadsItems (fuel : Nat) : Prop :=
  ∀ lastLine close tokens contents set rest, Placed tokens →
    items lastLine fuel close [] tokens = .ok (contents, set, rest) →
    Placed rest ∧
      ∃ behind, Accounts (itemsSigns contents) tokens behind ∧ Closes close behind set rest

/-- The same for the part of a path behind a slash. -/
def ReadsPart (fuel : Nat) : Prop :=
  ∀ lastLine slash tokens part rest, slash.lexeme = .slash → Placed (slash :: tokens) →
    pathPart lastLine fuel tokens = .ok (part, rest) →
    Ready part rest ∧ Accounts (partSigns part) tokens rest

/-- The same for the further parts of a path. -/
def ReadsRest (fuel : Nat) : Prop :=
  ∀ lastLine start reversed tokens node rest, Begun start reversed tokens →
    pathRest lastLine fuel reversed tokens = .ok (node, rest) →
    Placed rest ∧ Accounts (node.signs node.mark) start rest

/-- The readers that call each other. -/
structure AllRead (fuel : Nat) : Prop where
  items : ReadsItems fuel
  item : Reads item fuel
  pathPart : ReadsPart fuel
  pathRest : ReadsRest fuel
  element : Reads element fuel

variable {fuel : Nat}

theorem items_read (all : AllRead fuel) : ReadsItems (fuel + 1) := by
  intro lastLine close tokens contents set rest placed read
  cases tokens with
  | nil =>
      cases close with
      | some => cases read
      | none =>
          cases read
          exact ⟨.nil, [], .nil, .finish⟩
  | cons token tokens =>
      by_cases closes : isClosing token.lexeme = true
      · obtain ⟨lexeme, newline, joined, line⟩ := token
        cases lexeme <;> cases closes
        simp only [items] at read
        split_ifs at read with same
        · cases read
          subst same
          exact ⟨(placed.tail (by rintro ⟨⟩)).2, _, .nil, .bracket rfl⟩
        · cases read
      · rw [items_cons (Bool.eq_false_iff.mpr closes)] at read
        obtain ⟨⟨node, behind⟩, one, onward⟩ := Token.Except.bind_eq_ok read
        dsimp only at onward
        rw [items_reversed] at onward
        obtain ⟨⟨later, set', rest'⟩, remaining, given⟩ := Token.Except.map_eq_ok onward
        cases given
        obtain ⟨placed, first⟩ := all.item _ _ _ _ placed one
        obtain ⟨placed, ended, second, closed⟩ := all.items _ _ _ _ _ _ placed remaining
        exact ⟨placed, ended, first.append second, closed⟩

/-- The parts of a path go on behind a slash. -/
theorem ReadsPart.begun (reads : ReadsPart fuel) {start tokens rest : List Token} {slash : Token}
    {before : List Node} {lastLine : Nat} {part : Node} (some : before ≠ [])
    (slashes : slash.lexeme = .slash) (placed : Placed (slash :: tokens))
    (accounts : Accounts (partsSigns before.reverse) start (slash :: tokens))
    (read : pathPart lastLine fuel tokens = .ok (part, rest)) :
    Begun start (part :: before) rest := by
  obtain ⟨ready, accounts'⟩ := reads _ _ _ _ _ slashes placed read
  refine .several some ready ?_
  rw [List.reverse_cons, partsSigns_concat (by simpa using some)]
  exact accounts.append (.cons slashes rfl accounts')

theorem item_read (all : AllRead fuel) : Reads item (fuel + 1) := by
  intro lastLine tokens node rest placed read
  unfold item at read
  split at read
  · obtain ⟨⟨inner, behind⟩, one, given⟩ := Token.Except.bind_eq_ok read
    cases given
    obtain ⟨placed, accounts⟩ := all.item _ _ _ _ (placed.tail nofun).2 one
    exact ⟨placed, .cons rfl rfl accounts⟩
  · obtain ⟨⟨part, behind⟩, one, onward⟩ := Token.Except.bind_eq_ok read
    have nothing (tokens : List Token) :
        Accounts (partsSigns [Node.scalar .blank].reverse) tokens tokens := .gap
    exact all.pathRest _ _ _ _ _ _
      (all.pathPart.begun (List.cons_ne_nil _ _) rfl placed (nothing _) one) onward
  · obtain ⟨⟨head, behind⟩, one, onward⟩ := Token.Except.bind_eq_ok read
    obtain ⟨placed, accounts⟩ := all.element _ _ _ _ placed one
    exact all.pathRest _ _ _ _ _ _ (.single placed accounts) onward

theorem element_value {lastLine : Nat} {token : Token} {tokens rest : List Token} {node : Node}
    (value : isValue token.lexeme = true)
    (read : element lastLine fuel (token :: tokens) = .ok (node, rest)) :
    node = .scalar token.lexeme ∧ rest = tokens := by
  obtain ⟨lexeme, newline, joined, line⟩ := token
  cases fuel with
  | zero => cases read
  | succ fuel =>
      cases lexeme with
      | opening | closing | quote | slash | setMark => cases value
      | _ =>
          cases read
          exact ⟨rfl, rfl⟩

theorem Placed.behind_slash {slash : Token} {tokens : List Token}
    (placed : Placed (slash :: tokens)) : Placed tokens ∨
    ∃ number mark later, tokens = number :: mark :: later ∧
      Token.isNumber number.lexeme = true ∧ number.joined = true ∧ mark.lexeme = .setMark ∧
      mark.joined = true ∧ Placed later := by
  cases placed with
  | cons _ later => exact .inl later
  | marked _ number joined mark joined' later =>
      exact .inr ⟨_, _, _, rfl, number, joined, mark, joined', later⟩

theorem takesMark_of_isNumber {lexeme : Lexeme} (number : Token.isNumber lexeme = true) :
    (scalar lexeme).takesMark = false := by
  cases lexeme <;> first | rfl | cases number

theorem continuesPath_of_isNumber {token : Token} (number : Token.isNumber token.lexeme = true)
    (joined : token.joined = true) : continuesPath token = true := by
  obtain ⟨lexeme, newline, near, line⟩ := token
  cases joined
  cases lexeme <;> first | rfl | cases number

theorem isBracket_of_isValue {lexeme : Lexeme} (value : isValue lexeme = true) :
    isBracket lexeme = false := by
  cases lexeme <;> first | rfl | cases value

theorem Accounts.scalar {token : Token} {tokens : List Token} (value : isValue token.lexeme = true) :
    Accounts ((Node.scalar token.lexeme).signs (Node.scalar token.lexeme).mark) (token :: tokens)
      tokens := by
  have same : (Node.scalar token.lexeme).signs (Node.scalar token.lexeme).mark =
      [.unit token.lexeme] := by
    cases token.lexeme <;> rfl
  rw [same]
  exact .unit rfl (isBracket_of_isValue value)

theorem pathPart_read (all : AllRead fuel) : ReadsPart (fuel + 1) := by
  intro lastLine slash tokens part rest slashes placed read
  cases tokens with
  | nil =>
      cases read
      exact ⟨.placed .nil, .gap⟩
  | cons token tokens =>
      simp only [pathPart] at read
      rcases placed.behind_slash with placed | ⟨_, mark, later, ⟨⟩, number, near, marks, near', placed⟩
      · split_ifs at read
        · obtain ⟨placed, accounts⟩ := all.element _ _ _ _ placed read
          exact ⟨.placed placed, accounts.part⟩
        · cases read
          exact ⟨.placed placed, .gap⟩
      · rw [if_pos (continuesPath_of_isNumber number near)] at read
        have value := Token.isValue_of_isNumber number
        obtain ⟨rfl, rfl⟩ := element_value value read
        exact ⟨.marked (takesMark_of_isNumber number) marks near' placed, (Accounts.scalar value).part⟩

theorem signs_of_finished {lastLine : Nat} {part node : Node} {before : List Node} {setMark : Bool}
    {tokens rest : List Token} (some : before ≠ []) (number : setMark = true → part.takesMark = false)
    (given : finished lastLine (part :: before) setMark tokens = .ok (node, rest)) :
    rest = tokens ∧ node.signs node.mark =
      partsSigns (part :: before).reverse ++ if setMark then [.unit .setMark] else [] := by
  refine ⟨(finished_eq_ok given).1, ?_⟩
  obtain ⟨first, middle, reversed⟩ := List.exists_cons_of_ne_nil (List.reverse_ne_nil_iff.mpr some)
  have parts : (part :: before).reverse = first :: (middle ++ [part]) := by
    rw [List.reverse_cons, reversed, List.cons_append]
  unfold finished at given
  split at given
  · rename_i single
    cases single
    exact absurd rfl some
  · obtain ⟨path, made, given⟩ := Token.Except.bind_eq_ok given
    cases given
    rw [parts] at made ⊢
    exact signs_of_finishPath made number

/-- A slash or the end of a path stands behind parts that are accounted for. -/
theorem Begun.parts {start tokens : List Token} {reversed : List Node} {token : Token}
    (begun : Begun start reversed (token :: tokens)) (noMark : token.lexeme ≠ .setMark) :
    reversed ≠ [] ∧ Placed (token :: tokens) ∧
      Accounts (partsSigns reversed.reverse) start (token :: tokens) := by
  cases begun with
  | @single head _ placed accounts =>
      have alone : partsSigns [head].reverse = partSigns head := List.append_nil _
      exact ⟨List.cons_ne_nil _ _, placed, alone ▸ accounts.part⟩
  | several some ready accounts =>
      cases ready with
      | placed placed => exact ⟨List.cons_ne_nil _ _, placed, accounts⟩
      | marked _ marks => exact absurd marks noMark

theorem pathRest_read (all : AllRead fuel) : ReadsRest (fuel + 1) := by
  intro lastLine start reversed tokens node rest begun read
  rcases pathRest_cases tokens with ⟨newline, line, tokens, rfl⟩ | ⟨newline, line, tokens, rfl⟩ | ends
  · rw [pathRest_slashed] at read
    obtain ⟨⟨part, behind⟩, one, onward⟩ := Token.Except.bind_eq_ok read
    obtain ⟨some, placed, accounts⟩ := begun.parts nofun
    exact all.pathRest _ _ _ _ _ _ (all.pathPart.begun some rfl placed accounts one) onward
  · rw [pathRest_marked] at read
    cases begun with
    | single placed => exact absurd rfl placed.ne_setMark
    | several some ready accounts =>
        cases ready with
        | placed placed => exact absurd rfl placed.ne_setMark
        | marked markless marks near placed =>
            obtain ⟨rfl, whole⟩ := signs_of_finished some (fun _ => markless) read
            rw [whole]
            exact ⟨placed, accounts.append (.unit rfl rfl)⟩
  · rw [pathRest_ended ends] at read
    cases begun with
    | single placed accounts =>
        cases read
        exact ⟨placed, accounts⟩
    | several some ready accounts =>
        cases ready with
        | placed placed =>
            obtain ⟨rfl, whole⟩ := signs_of_finished some (by exact nofun) read
            rw [whole]
            exact ⟨placed, accounts.append .nil⟩
        | marked markless marks near => exact absurd marks (ends near).2

theorem element_read (all : AllRead fuel) : Reads element (fuel + 1) := by
  intro lastLine tokens node rest placed read
  obtain ⟨first, later, rfl, begins⟩ := element_begins read
  have noSlash : first.lexeme ≠ .slash := by
    intro same
    rw [same] at begins
    cases begins
  obtain ⟨ordinary, placed'⟩ := placed.tail noSlash
  obtain ⟨lexeme, newline, joined, line⟩ := first
  by_cases value : isValue lexeme = true
  · obtain ⟨rfl, rfl⟩ := element_value value read
    exact ⟨placed', .scalar value⟩
  · cases lexeme with
    | opening bracket mark =>
        obtain ⟨⟨children, set, behind⟩, inner, given⟩ := Token.Except.bind_eq_ok read
        cases given
        obtain ⟨placed, ended, accounts, closes⟩ := all.items _ _ _ _ _ _ placed' inner
        have unset : mark ≠ .set := by
          rintro rfl
          cases ordinary
        cases closes with
        | bracket closes =>
            refine ⟨placed, ?_⟩
            have opens : (⟨.opening bracket mark, newline, joined, line⟩ : Token).lexeme =
                .opening bracket mark := rfl
            have whole := Accounts.bracketed opens unset accounts closes
            cases bracket <;> exact whole
    | closing | quote | slash | setMark => cases begins
    | _ => exact absurd rfl value

theorem all_read (fuel : Nat) : AllRead fuel := by
  induction fuel with
  | zero =>
      exact ⟨fun _ _ _ _ _ _ _ read => (nomatch read), fun _ _ _ _ _ read => (nomatch read),
        fun _ _ _ _ _ _ _ read => (nomatch read), fun _ _ _ _ _ _ _ read => (nomatch read),
        fun _ _ _ _ _ read => (nomatch read)⟩
  | succ fuel ih =>
      exact ⟨items_read ih, item_read ih, pathPart_read ih, pathRest_read ih, element_read ih⟩

/-! ## Fuel -/

/-- A reader that can be entered four times for each token does not run out of fuel. -/
def Suffices {α : Type} (room : Nat) (read : Nat → Nat → List Token → Scan α) (fuel : Nat) : Prop :=
  ∀ lastLine tokens, 4 * tokens.length + room ≤ fuel → Token.Steady (read lastLine fuel tokens)

/-- The readers that call each other. -/
structure AllSuffice (fuel : Nat) : Prop where
  items : ∀ close reversed, Suffices 3 (items · · close reversed ·) fuel
  item : Suffices 2 item fuel
  pathPart : Suffices 2 pathPart fuel
  pathRest : ∀ reversed, Suffices 1 (pathRest · · reversed ·) fuel
  element : Suffices 1 element fuel

theorem finishPath_steady (line : Nat) (parts : List Node) (setMark : Bool) :
    Token.Steady (finishPath line parts setMark) := by
  unfold finishPath
  dsimp only
  split
  all_goals
    repeat' first
      | exact .pure _
      | exact .refuse _ _
      | refine .ite (fun _ => ?_) (fun _ => ?_)

theorem items_suffice (all : AllSuffice fuel) (close : Option Bracket) (reversed : List Item) :
    Suffices 3 (items · · close reversed ·) (fuel + 1) := by
  intro lastLine tokens enough
  cases tokens with
  | nil =>
      cases close with
      | none => exact .pure _
      | some => exact .refuse _ _
  | cons token tokens =>
      by_cases closes : isClosing token.lexeme = true
      · obtain ⟨lexeme, newline, joined, line⟩ := token
        cases lexeme <;> cases closes
        exact .ite (fun _ => .pure _) fun _ => .refuse _ _
      · dsimp only
        rw [items_cons (Bool.eq_false_iff.mpr closes)]
        refine .bind (all.item _ _ (by omega)) fun read one => ?_
        obtain ⟨shorter, -⟩ := (all_continue fuel).item _ _ _ _ one
        exact all.items _ _ _ _ (by omega)

theorem item_suffices (all : AllSuffice fuel) : Suffices 2 item (fuel + 1) := by
  intro lastLine tokens enough
  unfold item
  split
  · rw [List.length_cons] at enough
    exact .bind (all.item _ _ (by omega)) fun _ _ => .pure _
  · rw [List.length_cons] at enough
    refine .bind (all.pathPart _ _ (by omega)) fun read one => ?_
    obtain ⟨shorter, -⟩ := (all_continue fuel).pathPart _ _ _ _ one
    exact all.pathRest _ _ _ (by omega)
  · refine .bind (all.element _ _ (by omega)) fun read one => ?_
    obtain ⟨shorter, -⟩ := (all_continue fuel).element _ _ _ _ one
    exact all.pathRest _ _ _ (by omega)

theorem pathPart_suffices (all : AllSuffice fuel) : Suffices 2 pathPart (fuel + 1) := by
  intro lastLine tokens enough
  cases tokens with
  | nil => exact .pure _
  | cons token tokens => exact .ite (fun _ => all.element _ _ (by omega)) fun _ => .pure _

theorem finished_steady (lastLine : Nat) (reversed : List Node) (setMark : Bool)
    (rest : List Token) : Token.Steady (finished lastLine reversed setMark rest) := by
  unfold finished
  split
  · exact .pure _
  · exact .bind (finishPath_steady _ _ _) fun _ _ => .pure _

theorem pathRest_suffices (all : AllSuffice fuel) (reversed : List Node) :
    Suffices 1 (pathRest · · reversed ·) (fuel + 1) := by
  intro lastLine tokens enough
  dsimp only
  rcases pathRest_cases tokens with ⟨newline, line, tokens, rfl⟩ | ⟨newline, line, tokens, rfl⟩ | ends
  · rw [List.length_cons] at enough
    rw [pathRest_slashed]
    refine .bind (all.pathPart _ _ (by omega)) fun read one => ?_
    obtain ⟨shorter, -⟩ := (all_continue fuel).pathPart _ _ _ _ one
    exact all.pathRest _ _ _ (by omega)
  · rw [pathRest_marked]
    exact finished_steady _ _ _ _
  · rw [pathRest_ended ends]
    exact finished_steady _ _ _ _

theorem element_suffices (all : AllSuffice fuel) : Suffices 1 element (fuel + 1) := by
  intro lastLine tokens enough
  cases tokens with
  | nil => exact .refuse _ _
  | cons token tokens =>
      rw [List.length_cons] at enough
      obtain ⟨lexeme, newline, joined, line⟩ := token
      cases lexeme with
      | opening => exact .bind (all.items _ _ _ _ (by omega)) fun _ _ => .pure _
      | closing | quote | slash | setMark => exact .refuse _ _
      | _ => exact .pure _

theorem all_suffice (fuel : Nat) : AllSuffice fuel := by
  induction fuel with
  | zero =>
      have none {α : Type} {room : Nat} (positive : 0 < room)
          (read : Nat → Nat → List Token → Scan α) : Suffices room read 0 :=
        fun _ _ enough => by omega
      exact ⟨fun _ _ => none (by decide) _, none (by decide) _, none (by decide) _,
        fun _ => none (by decide) _, none (by decide) _⟩
  | succ fuel ih =>
      exact ⟨items_suffice ih, item_suffices ih, pathPart_suffices ih, pathRest_suffices ih,
        element_suffices ih⟩

theorem parse_steady (tokens : List Token) : Token.Steady (parse tokens) := by
  unfold parse
  exact .bind ((all_suffice _).items none [] _ _ (by omega)) fun _ _ => .pure _

theorem accounts_of_parse {tokens : List Token} (placed : Placed tokens) {contents : List Item}
    (read : parse tokens = .ok contents) : Accounts (itemsSigns contents) tokens [] := by
  obtain ⟨lastLine, set, rest, arranged⟩ := items_of_parse read
  obtain ⟨-, behind, accounts, closes⟩ := (all_read _).items _ _ _ _ _ _ placed arranged
  cases closes
  exact accounts

/-- Read off from left to right, the values that a text is arranged into are its tokens, and its
brackets match.  A text whose brackets do not match is refused. -/
theorem parse_accounts {source : String} {tokens : List Token}
    (read : Token.tokenize source = .ok tokens) :
    (∀ contents, parse tokens = .ok contents →
      Matched tokens ∧ Writes (itemsSigns contents) tokens []) ∧
    (¬ Matched tokens → ∃ error, parse tokens = .error (.refused error)) := by
  have placed := Token.placed_of_tokenize read
  have matched {contents : List Item} (arranged : parse tokens = .ok contents) : Matched tokens :=
    (accounts_of_parse placed arranged).nests []
  refine ⟨fun contents arranged => ⟨matched arranged, (accounts_of_parse placed arranged).writes⟩,
    fun unmatched => ?_⟩
  cases arranged : parse tokens with
  | ok contents => exact absurd (matched arranged) unmatched
  | error fault =>
      cases fault with
      | refused error => exact ⟨error, rfl⟩
      | defect => exact absurd arranged (parse_steady tokens)

/-- The tokens of `'a/(b)/2: /_`. -/
def sampleRow : List Token :=
  [⟨.quote 1, false, false, 1⟩, ⟨.word "a" .plain, false, true, 1⟩, ⟨.slash, false, true, 1⟩,
    ⟨.opening .group .plain, false, true, 1⟩, ⟨.word "b" .plain, false, false, 1⟩,
    ⟨.closing .group false, false, true, 1⟩, ⟨.slash, false, true, 1⟩,
    ⟨.integer 2, false, true, 1⟩, ⟨.setMark, false, true, 1⟩, ⟨.slash, false, false, 1⟩,
    ⟨.blank, false, true, 1⟩]

/-- A quoted path with a mark and a path of two empty parts, the second of which is written. -/
def sampleValues : List Item :=
  [.mk (.quoted 1 (.array .path .set
    [.mk (.scalar (.word "a" .plain)) false,
      .mk (.array .group .plain [.mk (.scalar (.word "b" .plain)) false]) false,
      .mk (.scalar (.integer 2)) false])) false,
    .mk (.array .path .plain [.mk (.scalar .blank) false, .mk (.scalar .blank) false]) false]

/-- The tokens of `(a]`. -/
def sampleMismatch : List Token :=
  [⟨.opening .group .plain, false, false, 1⟩, ⟨.word "a" .plain, false, false, 1⟩,
    ⟨.closing .block false, false, true, 1⟩]

theorem parse_accounts_sampleRow :
    (Token.tokenize "'a/(b)/2: /_" = .ok sampleRow ∧ parse sampleRow = .ok sampleValues ∧
      Matched sampleRow ∧ Writes (itemsSigns sampleValues) sampleRow []) ∧
    Token.tokenize "(a]" = .ok sampleMismatch ∧ ¬ Matched sampleMismatch ∧
      ∃ error, parse sampleMismatch = .error (.refused error) := by
  have cut : Token.tokenize "'a/(b)/2: /_" = .ok sampleRow := by rfl
  have cut' : Token.tokenize "(a]" = .ok sampleMismatch := by rfl
  have unmatched : ¬ Matched sampleMismatch := by decide
  exact ⟨⟨cut, rfl, (parse_accounts cut).1 _ rfl⟩, cut', unmatched, (parse_accounts cut').2 unmatched⟩

end Homoicon.Node
