import Homoicon.Proofs.Source.Arranging
import Homoicon.Proofs.Source.Lines

/-!
# Arranging line by line

The values of a text stay what they are when more text follows on the next line.
-/

namespace Homoicon

/-- The item as the first one on its line. -/
def Item.atLineStart (item : Item) : Item := .mk item.node true

namespace Node

/-- The tokens some lines further down, with others behind them. -/
def continued (k : Nat) (more tokens : List Token) : List Token := tokens.map (Token.below k) ++ more

/-- A reader of values takes some tokens, `taken` at least, and does the same where more tokens
follow that are not joined to them. -/
def Continues (taken : Nat) (read : Nat → Nat → List Token → Scan (Node × List Token))
    (fuel : Nat) : Prop :=
  ∀ lastLine tokens node rest, read lastLine fuel tokens = .ok (node, rest) →
    rest.length + taken ≤ tokens.length ∧ ∀ lastLine' extra k more, Unjoined more →
      read lastLine' (fuel + extra) (continued k more tokens) = .ok (node, continued k more rest)

/-- The same for the items between two brackets. -/
def ItemsContinue (fuel : Nat) : Prop :=
  ∀ lastLine bracket reversed tokens contents set rest,
    items lastLine fuel (some bracket) reversed tokens = .ok (contents, set, rest) →
      rest.length + 1 ≤ tokens.length ∧ ∀ lastLine' extra k more, Unjoined more →
        items lastLine' (fuel + extra) (some bracket) reversed (continued k more tokens) =
          .ok (contents, set, continued k more rest)

/-- The readers that call each other. -/
structure AllContinue (fuel : Nat) : Prop where
  items : ItemsContinue fuel
  item : Continues 1 item fuel
  pathPart : Continues 0 pathPart fuel
  pathRest : ∀ reversed, Continues 0 (pathRest · · reversed ·) fuel
  element : Continues 1 element fuel

theorem finishPath_lineless (parts : List Node) (setMark : Bool) :
    Token.Lineless (finishPath · parts setMark) := by
  unfold finishPath
  dsimp only
  split
  all_goals
    repeat' first
      | exact .pure _
      | exact .refuse _
      | refine .ite ?_ ?_

variable {fuel : Nat}

theorem items_continue (all : AllContinue fuel) : ItemsContinue (fuel + 1) := by
  intro lastLine bracket reversed tokens contents set rest read
  cases tokens with
  | nil => cases read
  | cons token tokens =>
      by_cases closes : isClosing token.lexeme = true
      · obtain ⟨lexeme, newline, joined, line⟩ := token
        cases lexeme <;> cases closes
        rename_i bracket' set'
        simp only [items] at read
        split_ifs at read with same
        · cases read
          refine ⟨Nat.le_refl _, fun lastLine' extra k more unjoined => ?_⟩
          rw [Nat.add_right_comm]
          simp only [continued, List.map_cons, List.cons_append, items, Token.below, if_pos same]
          rfl
        · cases read
      · have begins := Bool.eq_false_iff.mpr closes
        rw [items_cons begins] at read
        obtain ⟨⟨node, behind⟩, one, onward⟩ := Token.Except.bind_eq_ok read
        obtain ⟨shorter, again⟩ := all.item _ _ _ _ one
        obtain ⟨shorter', onward⟩ := all.items _ _ _ _ _ _ _ onward
        refine ⟨by rw [List.length_cons] at shorter ⊢; omega, fun lastLine' extra k more unjoined => ?_⟩
        have begins' : isClosing (token.below k).lexeme = false := begins
        rw [Nat.add_right_comm, continued, List.map_cons, List.cons_append, items_cons begins']
        have read' := again lastLine' extra k more unjoined
        rw [continued, List.map_cons, List.cons_append] at read'
        rw [read']
        exact onward lastLine' extra k more unjoined

theorem continued_cons (k : Nat) (more : List Token) (token : Token) (tokens : List Token) :
    continued k more (token :: tokens) = token.below k :: continued k more tokens := rfl

theorem element_begins {lastLine : Nat} {tokens rest : List Token} {node : Node}
    (read : element lastLine fuel tokens = .ok (node, rest)) :
    ∃ first later, tokens = first :: later ∧ beginsElement first.lexeme = true := by
  cases fuel with
  | zero => cases read
  | succ fuel =>
      cases tokens with
      | nil => cases read
      | cons first later =>
          refine ⟨first, later, rfl, ?_⟩
          obtain ⟨lexeme, newline, joined, line⟩ := first
          cases lexeme <;> first | rfl | cases read

/-- A value begins with an apostrophe, with a slash or with an element. -/
theorem item_continues (all : AllContinue fuel) : Continues 1 item (fuel + 1) := by
  intro lastLine tokens node rest read
  unfold item at read
  split at read
  · rename_i depth newline joined line tokens
    obtain ⟨⟨inner, behind⟩, one, given⟩ := Token.Except.bind_eq_ok read
    cases given
    obtain ⟨shorter, again⟩ := all.item _ _ _ _ one
    refine ⟨by rw [List.length_cons]; omega, fun lastLine' extra k more unjoined => ?_⟩
    rw [Nat.add_right_comm, continued_cons]
    simp only [item, Token.below, again lastLine' extra k more unjoined]
    rfl
  · rename_i newline joined line tokens
    obtain ⟨⟨part, behind⟩, one, onward⟩ := Token.Except.bind_eq_ok read
    obtain ⟨shorter, again⟩ := all.pathPart _ _ _ _ one
    obtain ⟨shorter', onward⟩ := all.pathRest _ _ _ _ _ onward
    refine ⟨by rw [List.length_cons]; omega, fun lastLine' extra k more unjoined => ?_⟩
    rw [Nat.add_right_comm, continued_cons]
    simp only [item, Token.below, again lastLine' extra k more unjoined]
    exact onward lastLine' extra k more unjoined
  · rename_i noQuote noSlash
    obtain ⟨⟨head, behind⟩, one, onward⟩ := Token.Except.bind_eq_ok read
    obtain ⟨shorter, again⟩ := all.element _ _ _ _ one
    obtain ⟨shorter', onward⟩ := all.pathRest _ _ _ _ _ onward
    refine ⟨by omega, fun lastLine' extra k more unjoined => ?_⟩
    obtain ⟨first, later, rfl, begins⟩ := element_begins one
    have begins' : beginsElement (first.below k).lexeme = true := begins
    have again := again lastLine' extra k more unjoined
    rw [continued_cons] at again
    rw [Nat.add_right_comm, continued_cons, item_of_begins begins', again]
    exact onward lastLine' extra k more unjoined

theorem pathPart_continues (all : AllContinue fuel) : Continues 0 pathPart (fuel + 1) := by
  intro lastLine tokens node rest read
  unfold pathPart at read
  split at read
  · rename_i token tokens
    split_ifs at read with goesOn
    · obtain ⟨shorter, again⟩ := all.element _ _ _ _ read
      refine ⟨by omega, fun lastLine' extra k more unjoined => ?_⟩
      have goesOn' : continuesPath (token.below k) = true := goesOn
      have again := again lastLine' extra k more unjoined
      rw [continued_cons] at again
      rw [Nat.add_right_comm, continued_cons]
      simp only [pathPart, if_pos goesOn', again]
    · cases read
      refine ⟨Nat.le_refl _, fun lastLine' extra k more unjoined => ?_⟩
      have ends : ¬ continuesPath (token.below k) = true := goesOn
      rw [Nat.add_right_comm, continued_cons]
      simp only [pathPart, if_neg ends]
      rfl
  · cases read
    refine ⟨Nat.le_refl _, fun lastLine' extra k more unjoined => ?_⟩
    rw [Nat.add_right_comm]
    cases more with
    | nil => rfl
    | cons token more =>
        have ends : ¬ continuesPath token = true := by
          simp [continuesPath, show token.joined = false from unjoined]
        simp only [continued, List.map_nil, List.nil_append, pathPart, if_neg ends]
        rfl

/-- The first of some tokens, if there is one, belongs to no path before it. -/
def EndsPath : List Token → Prop
  | [] => True
  | token :: _ => token.joined = true → token.lexeme ≠ .slash ∧ token.lexeme ≠ .setMark

theorem pathRest_slashed (lastLine fuel : Nat) (reversed : List Node) (newline : Bool) (line : Nat)
    (tokens : List Token) :
    pathRest lastLine (fuel + 1) reversed (⟨.slash, newline, true, line⟩ :: tokens) = (do
      let (part, rest) ← pathPart lastLine fuel tokens
      pathRest lastLine fuel (part :: reversed) rest) := rfl

/-- The value that some parts make up, a path unless there is one part only. -/
def finished (lastLine : Nat) (reversed : List Node) (setMark : Bool) (rest : List Token) :
    Scan (Node × List Token) :=
  match reversed with
  | [single] => pure (single, rest)
  | _ => do
    let path ← finishPath (reportLine lastLine rest) reversed.reverse setMark
    pure (path, rest)

theorem finished_eq_ok {lastLine : Nat} {reversed : List Node} {setMark : Bool}
    {tokens rest : List Token} {node : Node}
    (given : finished lastLine reversed setMark tokens = .ok (node, rest)) :
    rest = tokens ∧ ∀ lastLine' behind,
      finished lastLine' reversed setMark behind = .ok (node, behind) := by
  unfold finished at given ⊢
  split at given
  · cases given
    exact ⟨rfl, fun _ _ => rfl⟩
  · rename_i several
    obtain ⟨path, made, given⟩ := Token.Except.bind_eq_ok given
    cases given
    refine ⟨rfl, fun lastLine' behind => ?_⟩
    have again : finishPath (reportLine lastLine' behind) reversed.reverse setMark = .ok node :=
      finishPath_lineless _ _ _ _ _ made
    rw [again]
    rfl

theorem pathRest_marked (lastLine fuel : Nat) (reversed : List Node) (newline : Bool) (line : Nat)
    (tokens : List Token) :
    pathRest lastLine (fuel + 1) reversed (⟨.setMark, newline, true, line⟩ :: tokens) =
      finished lastLine reversed true tokens := by
  rfl

theorem pathRest_ended {tokens : List Token} (ends : EndsPath tokens) (lastLine fuel : Nat)
    (reversed : List Node) :
    pathRest lastLine (fuel + 1) reversed tokens = finished lastLine reversed false tokens := by
  cases tokens with
  | nil => rfl
  | cons token tokens =>
      obtain ⟨lexeme, newline, joined, line⟩ := token
      cases joined with
      | false => cases lexeme <;> rfl
      | true =>
          obtain ⟨noSlash, noMark⟩ := ends rfl
          cases lexeme with
          | slash => exact absurd rfl noSlash
          | setMark => exact absurd rfl noMark
          | _ => rfl

theorem EndsPath.continued {tokens more : List Token} (ends : EndsPath tokens)
    (unjoined : Unjoined more) (k : Nat) : EndsPath (continued k more tokens) := by
  cases tokens with
  | cons token tokens => exact ends
  | nil =>
      cases more with
      | nil => exact trivial
      | cons token more =>
          intro joined
          rw [show token.joined = false from unjoined] at joined
          cases joined

theorem pathRest_cases (tokens : List Token) :
    (∃ newline line rest, tokens = ⟨.slash, newline, true, line⟩ :: rest) ∨
    (∃ newline line rest, tokens = ⟨.setMark, newline, true, line⟩ :: rest) ∨ EndsPath tokens := by
  cases tokens with
  | nil => exact .inr (.inr trivial)
  | cons token rest =>
      obtain ⟨lexeme, newline, joined, line⟩ := token
      cases joined with
      | false => exact .inr (.inr nofun)
      | true =>
          cases lexeme with
          | slash => exact .inl ⟨newline, line, rest, rfl⟩
          | setMark => exact .inr (.inl ⟨newline, line, rest, rfl⟩)
          | _ => exact .inr (.inr fun _ => ⟨nofun, nofun⟩)

theorem pathRest_continues (all : AllContinue fuel) (reversed : List Node) :
    Continues 0 (pathRest · · reversed ·) (fuel + 1) := by
  intro lastLine tokens node rest read
  dsimp only at read ⊢
  rcases pathRest_cases tokens with ⟨newline, line, rest', rfl⟩ | ⟨newline, line, rest', rfl⟩ | ends
  · rw [pathRest_slashed] at read
    obtain ⟨⟨part, behind⟩, one, onward⟩ := Token.Except.bind_eq_ok read
    obtain ⟨shorter, again⟩ := all.pathPart _ _ _ _ one
    obtain ⟨shorter', onward⟩ := all.pathRest _ _ _ _ _ onward
    refine ⟨by rw [List.length_cons]; omega, fun lastLine' extra k more unjoined => ?_⟩
    rw [Nat.add_right_comm, continued_cons]
    simp only [Token.below, pathRest_slashed, again lastLine' extra k more unjoined]
    exact onward lastLine' extra k more unjoined
  · rw [pathRest_marked] at read
    obtain ⟨rfl, again⟩ := finished_eq_ok read
    refine ⟨Nat.le_succ _, fun lastLine' extra k more unjoined => ?_⟩
    rw [Nat.add_right_comm, continued_cons]
    simp only [Token.below, pathRest_marked, again]
  · rw [pathRest_ended ends] at read
    obtain ⟨rfl, again⟩ := finished_eq_ok read
    refine ⟨Nat.le_refl _, fun lastLine' extra k more unjoined => ?_⟩
    rw [Nat.add_right_comm, pathRest_ended (ends.continued unjoined k), again]

theorem element_continues (all : AllContinue fuel) : Continues 1 element (fuel + 1) := by
  intro lastLine tokens node rest read
  obtain ⟨first, later, rfl, begins⟩ := element_begins read
  obtain ⟨lexeme, newline, joined, line⟩ := first
  cases lexeme with
  | opening bracket mark =>
      obtain ⟨⟨children, set, behind⟩, inner, given⟩ := Token.Except.bind_eq_ok read
      cases given
      obtain ⟨shorter, again⟩ := all.items _ _ _ _ _ _ _ inner
      refine ⟨by rw [List.length_cons]; omega, fun lastLine' extra k more unjoined => ?_⟩
      rw [Nat.add_right_comm, continued_cons]
      simp only [element, Token.below, again lastLine' extra k more unjoined]
      rfl
  | closing | quote | slash | setMark => cases begins
  | _ =>
      cases read
      refine ⟨Nat.le_refl _, fun lastLine' extra k more unjoined => ?_⟩
      rw [Nat.add_right_comm]
      rfl

theorem all_continue (fuel : Nat) : AllContinue fuel := by
  induction fuel with
  | zero =>
      exact ⟨fun _ _ _ _ _ _ _ read => (nomatch read), fun _ _ _ _ read => (nomatch read),
        fun _ _ _ _ read => (nomatch read), fun _ _ _ _ _ read => (nomatch read),
        fun _ _ _ _ read => (nomatch read)⟩
  | succ fuel ih =>
      exact ⟨items_continue ih, item_continues ih, pathPart_continues ih, pathRest_continues ih,
        element_continues ih⟩

/-! ## Items in sequence -/

/-- The items read so far only come before those still to be read. -/
theorem items_reversed (lastLine : Nat) {fuel : Nat} {close : Option Bracket} {reversed : List Item}
    {tokens : List Token} : items lastLine fuel close reversed tokens =
      (fun read => (reversed.reverse ++ read.1, read.2)) <$> items lastLine fuel close [] tokens := by
  induction fuel generalizing reversed tokens with
  | zero => rfl
  | succ fuel ih =>
      cases tokens with
      | nil =>
          cases close with
          | none => simp [items]
          | some => rfl
      | cons token tokens =>
          by_cases closes : isClosing token.lexeme = true
          · obtain ⟨lexeme, newline, joined, line⟩ := token
            cases lexeme <;> cases closes
            simp only [items]
            split_ifs
            · simp
            · rfl
          · have begins := Bool.eq_false_iff.mpr closes
            rw [items_cons begins, items_cons begins]
            cases item lastLine fuel (token :: tokens) with
            | error fault => rfl
            | ok read =>
                obtain ⟨node, rest⟩ := read
                refine ih.trans ?_
                show _ = _ <$> items lastLine fuel close [.mk node token.newline] rest
                rw [@ih [.mk node token.newline] rest]
                cases items lastLine fuel close [] rest <;> simp

/-- The items of a text are read before those of the text on the lines behind it. -/
theorem items_follow {lastLine fuel : Nat} {reversed : List Item} {tokens : List Token}
    {contents : List Item} {set : Bool} {rest : List Token}
    (read : items lastLine fuel none reversed tokens = .ok (contents, set, rest))
    (lastLine' extra k : Nat) {more : List Token} (unjoined : Unjoined more) :
    ∃ left, fuel + extra ≤ left + tokens.length ∧
      items lastLine' (fuel + extra) none reversed (continued k more tokens) =
        items lastLine' left none contents.reverse more := by
  induction fuel generalizing reversed tokens with
  | zero => cases read
  | succ fuel ih =>
      cases tokens with
      | nil =>
          cases read
          exact ⟨fuel + 1 + extra, Nat.le_refl _, by rw [List.reverse_reverse]; rfl⟩
      | cons token tokens =>
          by_cases closes : isClosing token.lexeme = true
          · obtain ⟨lexeme, newline, joined, line⟩ := token
            cases lexeme <;> cases closes
            cases read
          · have begins := Bool.eq_false_iff.mpr closes
            rw [items_cons begins] at read
            obtain ⟨⟨node, behind⟩, one, onward⟩ := Token.Except.bind_eq_ok read
            obtain ⟨shorter, again⟩ := (all_continue fuel).item _ _ _ _ one
            obtain ⟨left, enough, onward⟩ := ih onward
            have begins' : isClosing (token.below k).lexeme = false := begins
            have again := again lastLine' extra k more unjoined
            rw [continued_cons] at again
            rw [List.length_cons] at shorter
            refine ⟨left, by rw [List.length_cons]; omega, ?_⟩
            rw [Nat.add_right_comm, continued_cons, items_cons begins', again]
            exact onward

theorem item_atLineStart (lastLine fuel : Nat) (token : Token) (tokens : List Token) :
    item lastLine fuel (token.atLineStart :: tokens) = item lastLine fuel (token :: tokens) := by
  obtain ⟨lexeme, newline, joined, line⟩ := token
  cases fuel with
  | zero => rfl
  | succ fuel => cases lexeme <;> cases fuel <;> rfl

/-- A text that begins a line is arranged into the same items, the first of which begins a line. -/
theorem items_atLineStart (lastLine fuel : Nat) (tokens : List Token) {contents : List Item}
    {set : Bool} {rest : List Token}
    (read : items lastLine fuel none [] tokens = .ok (contents, set, rest)) :
    items lastLine fuel none [] (tokens.modifyHead Token.atLineStart) =
      .ok (contents.modifyHead Item.atLineStart, set, rest) := by
  cases fuel with
  | zero => cases read
  | succ fuel =>
      cases tokens with
      | nil =>
          cases read
          rfl
      | cons token tokens =>
          by_cases closes : isClosing token.lexeme = true
          · obtain ⟨lexeme, newline, joined, line⟩ := token
            cases lexeme <;> cases closes
            cases read
          · have begins := Bool.eq_false_iff.mpr closes
            have begins' : isClosing token.atLineStart.lexeme = false := begins
            rw [items_cons begins] at read
            obtain ⟨⟨node, behind⟩, one, onward⟩ := Token.Except.bind_eq_ok read
            rw [List.modifyHead_cons, items_cons begins', item_atLineStart, one]
            dsimp only at onward
            rw [items_reversed] at onward
            obtain ⟨⟨later, set', rest'⟩, remaining, given⟩ := Token.Except.map_eq_ok onward
            cases given
            show items lastLine fuel none [.mk node true] behind = _
            rw [items_reversed, remaining]
            rfl

theorem items_of_parse {tokens : List Token} {contents : List Item}
    (read : parse tokens = .ok contents) :
    ∃ lastLine set rest, items lastLine (4 * tokens.length + 4) none [] tokens =
      .ok (contents, set, rest) := by
  obtain ⟨⟨_, set, rest⟩, arranged, given⟩ := Token.Except.bind_eq_ok read
  cases given
  exact ⟨_, set, rest, arranged⟩

/-- Two texts that are arranged into items are arranged one after the other. -/
theorem parse_lines (k : Nat) {first second : List Token} {contents later : List Item}
    (unjoined : Unjoined second) (readFirst : parse first = .ok contents)
    (readSecond : parse second = .ok later) :
    parse (first ++ Token.onLaterLines k second) =
      .ok (contents ++ later.modifyHead Item.atLineStart) := by
  obtain ⟨_, _, _, itemsFirst⟩ := items_of_parse readFirst
  obtain ⟨_, _, _, itemsSecond⟩ := items_of_parse readSecond
  have apart : Unjoined (Token.onLaterLines k second) := by
    cases second with
    | nil => exact trivial
    | cons token tokens => exact unjoined
  unfold parse
  dsimp only
  generalize ((first ++ Token.onLaterLines k second).getLast?.map (·.line)).getD 1 = lastLine
  -- the items of the first text leave enough fuel for those of the second
  obtain ⟨left, enough, follow⟩ := items_follow itemsFirst lastLine (4 * second.length) 0 apart
  obtain ⟨extra, rfl⟩ : ∃ extra, left = 4 * second.length + 4 + extra :=
    ⟨left - (4 * second.length + 4), by omega⟩
  obtain ⟨left', enough', ended⟩ := items_follow itemsSecond lastLine extra k
    (show Unjoined [] from trivial)
  obtain ⟨left', rfl⟩ : ∃ less, left' = less + 1 := ⟨left' - 1, by omega⟩
  have arranged : items lastLine (4 * second.length + 4 + extra) none []
      (second.map (Token.below k)) = .ok (later, false, []) := by
    rw [continued, List.append_nil] at ended
    rw [ended, items, List.reverse_reverse]
    rfl
  have length : 4 * (first ++ Token.onLaterLines k second).length + 4 =
      4 * first.length + 4 + 4 * second.length := by
    simp [Token.onLaterLines]
    omega
  rw [continued, Token.map_below_zero] at follow
  rw [length, follow, items_reversed, List.reverse_reverse, Token.onLaterLines,
    items_atLineStart _ _ _ arranged]
  rfl

end Node

namespace Token

namespace Lexer

theorem unjoined_emit {s : Lexer} (settled : s.Settled) (unjoined : Node.Unjoined s.reversed.reverse)
    (lexeme : Lexeme) (cursor : Cursor) :
    Node.Unjoined (s.emit lexeme cursor).reversed.reverse := by
  rw [emit, List.reverse_cons]
  cases reversed : s.reversed.reverse with
  | cons token more =>
      rw [reversed] at unjoined
      exact unjoined
  | nil =>
      show s.joined = false
      cases joined : s.joined with
      | false => rfl
      | true => exact absurd (List.reverse_eq_nil_iff.mp reversed) (settled joined)

theorem unjoined_record {s : Lexer} (settled : s.Settled)
    (unjoined : Node.Unjoined s.reversed.reverse) (found : Found) :
    Node.Unjoined (s.record found).reversed.reverse := by
  cases found with
  | lineBreak | gap | comment => exact unjoined
  | opening | token => exact unjoined_emit settled unjoined _ _
  | marked lexeme rest =>
      exact unjoined_emit (settled.record (.token lexeme ⟨rest, s.line⟩))
        (unjoined_emit settled unjoined _ _) _ _

theorem Reaches.unjoined {s last : Lexer} (reaches : Reaches s last) (settled : s.Settled)
    (unjoined : Node.Unjoined s.reversed.reverse) : Node.Unjoined last.reversed.reverse := by
  induction reaches with
  | refl => exact unjoined
  | step begins stepped _ _ ih =>
      refine ih (settled.step begins stepped) ?_
      rw [step_eq _ begins] at stepped
      obtain ⟨found, -, rfl⟩ := Except.map_eq_ok stepped
      exact unjoined_record settled unjoined found

end Lexer

/-- The first token of a text is not joined to anything. -/
theorem unjoined_tokenize {source : String} {tokens : List Token}
    (read : tokenize source = .ok tokens) : Node.Unjoined tokens := by
  obtain ⟨last, reaches, -, rfl⟩ := reaches_of_tokenize read
  exact reaches.unjoined (Lexer.settled_start _) trivial

end Token

/-- Texts are scanned line by line: a text, a line break and another text have the tokens and the
items of the one followed by those of the other. -/
theorem Node.scan_lines {a b : String} {first second : List Token} {contents later : List Item}
    (cutFirst : Token.tokenize a = .ok first) (arrangedFirst : parse first = .ok contents)
    (cutSecond : Token.tokenize b = .ok second) (arrangedSecond : parse second = .ok later) :
    Token.tokenize (a ++ "\n" ++ b) =
        .ok (first ++ Token.onLaterLines (Token.newlines a.toList + 1) second) ∧
      scan (a ++ "\n" ++ b) = .ok (contents ++ later.modifyHead Item.atLineStart) := by
  have cut := Token.tokenize_lines cutFirst cutSecond
  refine ⟨cut, ?_⟩
  unfold scan
  rw [cut]
  exact parse_lines _ (Token.unjoined_tokenize cutSecond) arrangedFirst arrangedSecond

/-- The tokens of a path that ends in a slash, with a comment behind it. -/
def sampleFirst : List Token :=
  [⟨.word "f" .plain, false, false, 1⟩, ⟨.slash, false, true, 1⟩]

/-- The tokens of a quoted word. -/
def sampleSecond : List Token :=
  [⟨.quote 1, false, false, 1⟩, ⟨.word "g" .plain, false, true, 1⟩]

theorem Node.scan_lines_comment :
    (Token.tokenize "f/ ;end" = .ok sampleFirst ∧
      parse sampleFirst = .ok [.mk (.array .path .plain
        [.mk (.scalar (.word "f" .plain)) false, .mk (.scalar .blank) false]) false]) ∧
    (Token.tokenize "'g" = .ok sampleSecond ∧
      parse sampleSecond = .ok [.mk (.quoted 1 (.scalar (.word "g" .plain))) false]) ∧
    Token.tokenize ("f/ ;end" ++ "\n" ++ "'g") =
      .ok (sampleFirst ++ Token.onLaterLines 1 sampleSecond) ∧
    scan ("f/ ;end" ++ "\n" ++ "'g") = .ok [.mk (.array .path .plain
        [.mk (.scalar (.word "f" .plain)) false, .mk (.scalar .blank) false]) false,
      .mk (.quoted 1 (.scalar (.word "g" .plain))) true] := by
  have cutFirst : Token.tokenize "f/ ;end" = .ok sampleFirst := by rfl
  have cutSecond : Token.tokenize "'g" = .ok sampleSecond := by rfl
  exact ⟨⟨cutFirst, rfl⟩, ⟨cutSecond, rfl⟩, scan_lines cutFirst rfl cutSecond rfl⟩

end Homoicon
