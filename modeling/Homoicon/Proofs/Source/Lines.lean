import Homoicon.Proofs.Source.Finding
import Homoicon.Proofs.Source.Lexing

/-!
# Scanning line by line

A line break cuts off whatever the scanner carries along: no literal, comment or look ahead that
ends before it depends on what comes behind.
-/

namespace Homoicon.Token

/-! ## Reading does not depend on the line -/

/-- What is read is the same on every line; only the place of a refusal differs. -/
def Lineless {α : Type} (read : Nat → Scan α) : Prop :=
  ∀ (line line' : Nat) (a : α), read line = .ok a → read line' = .ok a

namespace Lineless

variable {α β : Type}

theorem pure (a : α) : Lineless fun _ => Pure.pure a :=
  fun _ _ _ given => given

theorem refuse (cause : ScanCause) : Lineless fun line => (refuse line cause : Scan α) :=
  fun _ _ _ given => nomatch given

theorem throw (fault : ScanFault) : Lineless fun _ => (throw fault : Scan α) :=
  fun _ _ _ given => nomatch given

theorem const (read : Scan α) : Lineless fun _ => read :=
  fun _ _ _ given => given

theorem map {read : Nat → Scan α} (lineless : Lineless read) (f : α → β) :
    Lineless fun line => f <$> read line := by
  intro line line' b given
  obtain ⟨a, found, rfl⟩ := Except.map_eq_ok given
  exact congrArg (f <$> ·) (lineless line line' a found)

theorem bind {read : Nat → Scan α} {next : α → Nat → Scan β} (lineless : Lineless read)
    (onward : ∀ a, Lineless (next a)) : Lineless fun line => read line >>= (next · line) := by
  intro line line' b given
  obtain ⟨a, found, later⟩ := Except.bind_eq_ok given
  exact (congrArg (· >>= (next · line')) (lineless line line' a found)).trans
    (onward a line line' b later)

theorem ite {p : Prop} [Decidable p] {yes no : Nat → Scan α} (first : Lineless yes)
    (second : Lineless no) : Lineless fun line => if p then yes line else no line := by
  by_cases holds : p
  · simpa only [if_pos holds] using first
  · simpa only [if_neg holds] using second

theorem orRefuse (cause : String → ScanCause) (cs : List Char) (value : Option α) :
    Lineless fun line => orRefuse line cause cs value := by
  cases value with
  | none => exact refuse _
  | some a => exact pure a

end Lineless

theorem readTime_lineless (cs : List Char) : Lineless (readTime · cs) :=
  .bind (.orRefuse _ _ _) fun _ => .const _

theorem readNumber_lineless (cs : List Char) : Lineless (readNumber · cs) := by
  unfold readNumber
  dsimp only
  cases splitFirst? 'x' (cs.drop 1) with
  | some parts =>
      obtain ⟨before, y⟩ := parts
      dsimp only
      cases Decimal.readChars? (cs.take 1 ++ before) with
      | none => exact .refuse _
      | some dx =>
          cases Decimal.readChars? y with
          | none => exact .refuse _
          | some dy => exact .pure _
  | none =>
      refine .ite (.bind (.orRefuse _ _ _) fun _ => .pure _) (.ite (.map (readTime_lineless cs) _)
        (.ite (.bind (.orRefuse _ _ _) fun _ => .pure _) (.ite (.map (.orRefuse _ _ _) _)
          (.ite (.map (.orRefuse _ _ _) _) (.map (.orRefuse _ _ _) _)))))

theorem readWord_lineless (cs : List Char) : Lineless (readWord · cs) := by
  unfold readWord
  exact .ite (.refuse _) (.pure _)

theorem classify_lineless (cs : List Char) : Lineless (classify · cs) := by
  cases cs with
  | nil => exact .refuse _
  | cons first later =>
      by_cases blank : first :: later = ['_']
      · cases blank
        exact .pure _
      by_cases bar : first :: later = ['|']
      · cases bar
        exact .pure _
      have rest (line : Nat) : classify line (first :: later) =
          if hasScheme (first :: later) ||
              ("mailto:".toList.isPrefixOf (first :: later) && 7 < (first :: later).length) then
            pure (.text .url (String.ofList (first :: later)))
          else if first == '$' then
            Lexeme.money <$> orRefuse line .badMoney (first :: later) (Decimal.readChars? later)
          else if first.isDigit || ((first == '-' || first == '+' || first == '.') &&
              (later.head?.map Char.isDigit).getD false) then
            readNumber line (first :: later)
          else if (first :: later).contains '@' && first != '@' &&
              (first :: later).getLast? != some ':' then
            pure (.text .email (String.ofList (first :: later)))
          else readWord line (first :: later) := by
        unfold classify
        split
        · rename_i same
          cases same
        · rename_i same
          exact absurd same blank
        · rename_i same
          exact absurd same bar
        · rename_i same
          cases same
          rfl
      simp only [rest]
      exact .ite (.pure _) (.ite (.map (.orRefuse _ _ _) _) (.ite (readNumber_lineless _)
        (.ite (.pure _) (readWord_lineless _))))

theorem hexBytes_lineless (digits : String) : (cs : List Char) → Lineless (hexBytes · digits cs)
  | [] => .pure _
  | [c] => by
      unfold hexBytes
      exact .ite (.refuse _) (.ite (.throw _) (.throw _))
  | c :: d :: rest => by
      unfold hexBytes
      refine .ite (.refuse _) (.ite (.throw _) (.ite (.throw _) ?_))
      cases readHex? [c, d] with
      | none => exact .refuse _
      | some value => exact .map (hexBytes_lineless digits rest) _

/-! ## Reading does not look behind a line break -/

/-- The text ends or the line does. -/
def Breaks : List Char → Prop
  | [] => True
  | c :: _ => c = '\n'

/-- The cursor some lines further down, in a text with more behind it. -/
def Cursor.moved (k : Nat) (tail : List Char) (cursor : Cursor) : Cursor :=
  ⟨cursor.rest ++ tail, cursor.line + k⟩

section

variable {tail : List Char}

theorem Breaks.head? (breaks : Breaks tail) {c : Char} (other : c ≠ '\n') (cs : List Char) :
    ((cs ++ tail).head? == some c) = (cs.head? == some c) := by
  cases cs with
  | cons => rfl
  | nil =>
      cases tail with
      | nil => rfl
      | cons d tail => simpa [show d = '\n' from breaks] using Ne.symm other

theorem takeLexeme_tail (breaks : Breaks tail) (stop : Bool) (seen : List Char) (scheme : Bool)
    (cs : List Char) : takeLexeme stop seen scheme (cs ++ tail) =
      ((takeLexeme stop seen scheme cs).1, (takeLexeme stop seen scheme cs).2 ++ tail) := by
  induction cs generalizing seen scheme with
  | nil =>
      cases tail with
      | nil => simp [takeLexeme.eq_def]
      | cons d tail =>
          cases breaks
          exact takeLexeme_delimiter stop scheme (by decide)
  | cons c cs ih =>
      rw [List.cons_append, takeLexeme.eq_def, takeLexeme.eq_def stop seen scheme (c :: cs)]
      dsimp only
      rw [breaks.head? (by decide) cs]
      split_ifs
      · rfl
      · rfl
      · rw [ih]

theorem readString_moved (k : Nat) (tail : List Char) {braced : Bool} {depth : Nat}
    {escape : Escape} {reversed : List Char} {line : Nat} {cs content : List Char}
    {cursor : Cursor}
    (read : readString braced depth escape reversed line cs = .ok (content, cursor)) :
    readString braced depth escape reversed (line + k) (cs ++ tail) =
      .ok (content, cursor.moved k tail) := by
  have later (c : Char) (line : Nat) : lineAfter c (line + k) = lineAfter c line + k := by
    unfold lineAfter
    split <;> omega
  induction cs generalizing depth escape reversed line with
  | nil => cases escape <;> cases read
  | cons c cs ih =>
      cases escape with
      | caret =>
          unfold readString at read ⊢
          simp only [List.cons_append, later] at read ⊢
          split_ifs at read ⊢ <;> exact ih read
      | name name =>
          unfold readString at read ⊢
          simp only [List.cons_append, later] at read ⊢
          split_ifs at read ⊢
          · split at read
            · exact ih read
            · cases read
          · exact ih read
      | none =>
          unfold readString at read ⊢
          simp only [List.cons_append, later] at read ⊢
          split_ifs at read ⊢
          · exact ih read
          · exact ih read
          · cases depth with
            | zero =>
                cases read
                rfl
            | succ depth => exact ih read
          · exact ih read
          · cases read
            rfl
          · cases read
          · exact ih read

theorem takeWhile_of_dropWhile {α : Type} {p : α → Bool} {cs rest : List α} {c : α}
    (found : cs.dropWhile p = c :: rest) (tail : List α) :
    (cs ++ tail).takeWhile p = cs.takeWhile p ∧ (cs ++ tail).dropWhile p = c :: (rest ++ tail) := by
  induction cs with
  | nil => cases found
  | cons d cs ih =>
      cases holds : p d with
      | true =>
          rw [List.dropWhile_cons_of_pos holds] at found
          obtain ⟨taken, dropped⟩ := ih found
          exact ⟨by simp [holds, taken], by simpa [holds] using dropped⟩
      | false =>
          rw [List.dropWhile_cons_of_neg (by simp [holds])] at found
          cases found
          exact ⟨by simp [holds], by simp [holds]⟩

theorem readBinary_moved (k : Nat) (tail : List Char) {line : Nat} {cs : List Char}
    {lexeme : Lexeme} {cursor : Cursor} (read : readBinary line cs = .ok (lexeme, cursor)) :
    readBinary (line + k) (cs ++ tail) = .ok (lexeme, cursor.moved k tail) := by
  unfold readBinary at read ⊢
  dsimp only at read ⊢
  split at read
  · cases read
  · rename_i found
    obtain ⟨taken, dropped⟩ := takeWhile_of_dropWhile found tail
    rw [taken, dropped]
    dsimp only
    split_ifs at read ⊢
    · cases read
    obtain ⟨bytes, digits, given⟩ := Except.bind_eq_ok read
    cases given
    have again := hexBytes_lineless _ _ _ (line + k + newlines (cs.takeWhile (· != '\x7d'))) _ digits
    dsimp only at again
    rw [again]
    simp only [Cursor.moved, Nat.add_right_comm]
    rfl

theorem readConstruct_moved (k : Nat) (tail : List Char) {line : Nat} {cs : List Char}
    {lexeme : Lexeme} {cursor : Cursor} (read : readConstruct line cs = .ok (lexeme, cursor)) :
    readConstruct (line + k) (cs ++ tail) = .ok (lexeme, cursor.moved k tail) := by
  unfold readConstruct at read ⊢
  dsimp only at read ⊢
  split at read
  · cases read
  · rename_i found
    obtain ⟨taken, dropped⟩ := takeWhile_of_dropWhile found tail
    rw [taken, dropped]
    cases read
    simp only [Cursor.moved, Nat.add_right_comm]
    rfl

/-- What follows a `#` is neither a character nor a binary literal nor a construction. -/
def NamesIssue (cs : List Char) : Prop :=
  ∀ c ∈ ['"', '\x7b', '['], ¬ (cs.head? == some c) = true

theorem readHash_issue {cs : List Char} (names : NamesIssue cs) (line : Nat) :
    readHash line cs = .ok (.text .issue (String.ofList (takeLexeme true [] false cs).1),
      ⟨(takeLexeme true [] false cs).2, line⟩) := by
  unfold readHash
  split
  · exact absurd rfl (names '"' (by decide))
  · exact absurd rfl (names '\x7b' (by decide))
  · exact absurd rfl (names '[' (by decide))
  · rfl

theorem readHash_moved (k : Nat) (breaks : Breaks tail) {line : Nat} {cs : List Char}
    {lexeme : Lexeme} {cursor : Cursor} (read : readHash line cs = .ok (lexeme, cursor)) :
    readHash (line + k) (cs ++ tail) = .ok (lexeme, cursor.moved k tail) := by
  unfold readHash at read
  split at read
  · rename_i rest
    obtain ⟨⟨content, after⟩, quoted, given⟩ := Except.bind_eq_ok read
    have moved := readString_moved k tail quoted
    simp only [List.cons_append, readHash, readQuoted] at moved ⊢
    rw [moved]
    dsimp only at given
    split at given
    · cases given
      rfl
    · cases given
  · exact readBinary_moved k tail read
  · exact readConstruct_moved k tail read
  · rename_i noText noBinary noConstruct
    cases read
    have names : NamesIssue (cs ++ tail) := by
      intro c listed
      simp only [List.mem_cons, List.not_mem_nil, or_false] at listed
      rcases listed with rfl | rfl | rfl <;> rw [breaks.head? (by decide)]
      · exact head?_ne noText
      · exact head?_ne noBinary
      · exact head?_ne noConstruct
    rw [readHash_issue names, takeLexeme_tail breaks]
    rfl

theorem takeWhile_tail (breaks : Breaks tail) (cs : List Char) :
    (cs ++ tail).takeWhile (· != '\n') = cs.takeWhile (· != '\n') := by
  induction cs with
  | nil =>
      cases tail with
      | nil => rfl
      | cons c tail =>
          cases breaks
          rfl
  | cons c cs ih => simp only [List.cons_append, List.takeWhile_cons, ih]

theorem dropWhile_tail (breaks : Breaks tail) (cs : List Char) :
    (cs ++ tail).dropWhile (· != '\n') = cs.dropWhile (· != '\n') ++ tail := by
  induction cs with
  | nil =>
      cases tail with
      | nil => rfl
      | cons c tail =>
          cases breaks
          rfl
  | cons c cs ih =>
      simp only [List.cons_append, List.dropWhile_cons, ih]
      split <;> rfl

theorem opensTag_tail (breaks : Breaks tail) (cs : List Char) :
    opensTag (cs ++ tail) = opensTag cs := by
  cases cs with
  | nil =>
      cases tail with
      | nil => rfl
      | cons c tail =>
          cases breaks
          rfl
  | cons c cs => simp only [List.cons_append, opensTag, takeWhile_tail breaks]

end

/-! ## One step with more behind it -/

/-- What is found some lines further down, in a text with more behind it. -/
def Found.moved (k : Nat) (tail : List Char) : Found → Found
  | .lineBreak rest => .lineBreak (rest ++ tail)
  | .gap rest => .gap (rest ++ tail)
  | .comment rest => .comment (rest ++ tail)
  | .opening bracket mark rest => .opening bracket mark (rest ++ tail)
  | .token lexeme cursor => .token lexeme (cursor.moved k tail)
  | .marked lexeme rest => .marked lexeme (rest ++ tail)

theorem findRun_moved (k : Nat) {tail : List Char} (breaks : Breaks tail) {line : Nat}
    {afterSlash : Bool} {cs : List Char} {found : Found}
    (finds : findRun line afterSlash cs = .ok found) :
    findRun (line + k) afterSlash (cs ++ tail) = .ok (found.moved k tail) := by
  unfold findRun at finds ⊢
  rw [takeLexeme_tail breaks]
  dsimp only at finds ⊢
  split_ifs at finds ⊢
  · obtain ⟨lexeme, classified, given⟩ := Except.bind_eq_ok finds
    cases given
    have again : classify (line + k) _ = .ok lexeme := classify_lineless _ line _ _ classified
    rw [again]
    rfl
  · obtain ⟨lexeme, classified, given⟩ := Except.bind_eq_ok finds
    cases given
    have again : classify (line + k) _ = .ok lexeme := classify_lineless _ line _ _ classified
    rw [again]
    rfl

/-- What is found in a text is found again in another one, some lines further down and with more
behind it. -/
def Moves (k : Nat) (tail : List Char) (here there : Scan Found) : Prop :=
  ∀ found, here = .ok found → there = .ok (found.moved k tail)

namespace Moves

variable {k : Nat} {tail : List Char}

theorem pure {found : Found} :
    Moves k tail (Pure.pure found) (Pure.pure (found.moved k tail)) := by
  rintro _ ⟨⟩
  rfl

theorem refuse (line : Nat) (cause : ScanCause) (there : Scan Found) :
    Moves k tail (refuse line cause) there := nofun

theorem bind {α : Type} {here there : Scan (α × Cursor)} {next : α × Cursor → Scan Found}
    (read : ∀ a cursor, here = .ok (a, cursor) → there = .ok (a, cursor.moved k tail))
    (onward : ∀ a cursor, Moves k tail (next (a, cursor)) (next (a, cursor.moved k tail))) :
    Moves k tail (here >>= next) (there >>= next) := by
  intro found finds
  obtain ⟨⟨a, cursor⟩, given, later⟩ := Except.bind_eq_ok finds
  rw [read a cursor given]
  exact onward a cursor found later

theorem ite {p : Prop} [Decidable p] {yes no yes' no' : Scan Found}
    (first : p → Moves k tail yes yes') (second : ¬ p → Moves k tail no no') :
    Moves k tail (if p then yes else no) (if p then yes' else no') := by
  split_ifs with holds
  · exact first holds
  · exact second holds

end Moves

theorem find_moved (k : Nat) {tail : List Char} (breaks : Breaks tail) (line : Nat)
    (afterSlash : Bool) (c : Char) (rest : List Char) :
    Moves k tail (find line afterSlash c rest) (find (line + k) afterSlash c (rest ++ tail)) := by
  unfold find
  -- the text behind a line break decides none of the cases
  rw [breaks.head? (by decide), breaks.head? (by decide), breaks.head? (by decide),
    breaks.head? (by decide), opensTag_tail breaks]
  refine .ite (fun _ => .pure) fun _ => .ite (fun _ => .pure) fun _ =>
    .ite (fun _ => ?comment) fun _ => .ite (fun _ => .pure) fun _ =>
    .ite (fun _ => ?closing) fun _ => .ite (fun marked => ?leading) fun _ =>
    .ite (fun _ => ?quote) fun _ => .ite (fun _ => .pure) fun _ =>
    .ite (fun _ => .bind (fun _ _ => readString_moved k tail) fun _ _ => .pure) fun _ =>
    .ite (fun _ => .bind (fun _ _ => readString_moved k tail) fun _ _ => .pure) fun _ =>
    .ite (fun _ => .refuse _ _ _) fun _ =>
    .ite (fun _ => .bind (fun _ _ => readHash_moved k breaks) fun _ _ => .pure) fun _ =>
    .ite (fun _ => ?file) fun _ => .ite (fun tag => ?tag) fun _ _ => findRun_moved k breaks
  case comment =>
    rw [dropWhile_tail breaks]
    exact .pure
  case closing =>
    refine .ite (fun set => ?_) fun _ => .pure
    rw [List.tail_append_of_ne_nil (by rintro rfl; cases set)]
    exact .pure
  case leading =>
    rw [Bool.and_eq_true] at marked
    cases rest with
    | nil => cases marked.2
    | cons d rest => exact .pure
  case quote =>
    dsimp only
    split
    · rename_i next later found
      obtain ⟨taken, dropped⟩ := takeWhile_of_dropWhile found tail
      rw [taken, dropped, found]
      exact .ite (fun _ => .refuse _ _ _) fun _ => .pure
    · exact .refuse _ _ _
  case file =>
    refine .ite (fun quoted => ?_) fun _ => ?_
    · rw [List.tail_append_of_ne_nil (by rintro rfl; cases quoted)]
      exact .bind (fun _ _ => readString_moved k tail) fun _ _ => .pure
    · rw [takeLexeme_tail breaks]
      exact .pure
  case tag =>
    rw [Bool.and_eq_true] at tag
    obtain ⟨⟨later, found⟩, -⟩ := closes_of_opensTag tag.2
    obtain ⟨taken, dropped⟩ := takeWhile_of_dropWhile found tail
    dsimp only
    rw [taken, dropped, found]
    exact .pure

/-! ## States -/

/-- The token some lines further down. -/
def below (k : Nat) (token : Token) : Token := { token with line := token.line + k }

/-- The token as the first one on its line. -/
def atLineStart (token : Token) : Token := { token with newline := true }

/-- The tokens, last first, as those of a text that begins a line. -/
def openFirst : List Token → List Token
  | [] => []
  | [token] => [token.atLineStart]
  | token :: earlier :: more => token :: openFirst (earlier :: more)

theorem reverse_openFirst (reversed : List Token) :
    (openFirst reversed).reverse = reversed.reverse.modifyHead atLineStart := by
  induction reversed with
  | nil => rfl
  | cons token earlier ih =>
      cases earlier with
      | nil => rfl
      | cons before more =>
          rw [openFirst, List.reverse_cons, ih]
          simp only [List.reverse_cons]
          cases more.reverse <;> rfl

namespace Lexer

/-- The state some lines further down, with more text behind and more tokens before. -/
def moved (k : Nat) (tail : List Char) (before : List Token) (s : Lexer) : Lexer :=
  { rest := s.rest ++ tail, line := s.line + k, newline := s.newline, joined := s.joined,
    reversed := s.reversed.map (below k) ++ before }

/-- The state if the text began a line. -/
def opened (s : Lexer) : Lexer :=
  { s with newline := s.newline || s.reversed.isEmpty, reversed := openFirst s.reversed }

/-- A token can only be joined to one that was read before. -/
def Settled (s : Lexer) : Prop := s.joined = true → s.reversed ≠ []

theorem settled_start (cs : List Char) : ({ rest := cs } : Lexer).Settled := by
  intro joined
  cases joined

theorem Settled.record {s : Lexer} (settled : s.Settled) (found : Found) :
    (s.record found).Settled := by
  cases found with
  | lineBreak | gap | opening => exact nofun
  | comment => exact settled
  | token | marked => exact fun _ => List.cons_ne_nil _ _

theorem record_moved (k : Nat) (tail : List Char) (before : List Token) (s : Lexer)
    (found : Found) :
    (s.moved k tail before).record (found.moved k tail) =
      (s.record found).moved k tail before := by
  cases found with
  | lineBreak => simp only [record, moved, Found.moved, Nat.add_right_comm]
  | gap | comment | opening | token | marked => rfl

theorem record_opened (s : Lexer) (found : Found) :
    s.opened.record found = (s.record found).opened := by
  cases found with
  | lineBreak | gap | comment => rfl
  | opening | token | marked =>
      cases reversed : s.reversed <;>
        simp [record, emitOpening, emit, opened, openFirst, atLineStart, reversed]

theorem afterSlash_congr {s s' : Lexer} (joined : s.joined = s'.joined)
    (last : s.reversed.head?.map (·.lexeme) = s'.reversed.head?.map (·.lexeme)) :
    s.afterSlash = s'.afterSlash := by
  unfold afterSlash
  rw [joined]
  cases reversed : s.reversed with
  | nil =>
      cases reversed' : s'.reversed with
      | nil => rfl
      | cons => simp [reversed, reversed'] at last
  | cons token more =>
      cases reversed' : s'.reversed with
      | nil => simp [reversed, reversed'] at last
      | cons token' more' =>
          obtain ⟨lexeme, _, _, _⟩ := token
          obtain ⟨lexeme', _, _, _⟩ := token'
          obtain rfl : lexeme = lexeme' := by simpa [reversed, reversed'] using last
          cases lexeme <;> rfl

theorem afterSlash_moved (k : Nat) (tail : List Char) (before : List Token) {s : Lexer}
    (settled : s.Settled) : (s.moved k tail before).afterSlash = s.afterSlash := by
  cases joined : s.joined with
  | false => simp [afterSlash, moved, joined]
  | true =>
      refine afterSlash_congr rfl ?_
      cases reversed : s.reversed with
      | nil => exact absurd reversed (settled joined)
      | cons => simp [moved, reversed, below]

theorem afterSlash_opened (s : Lexer) : s.opened.afterSlash = s.afterSlash := by
  refine afterSlash_congr rfl ?_
  match reversed : s.reversed with
  | [] | [_] | _ :: _ :: _ => simp [opened, reversed, openFirst, atLineStart]

/-- What a step leads to, whatever the state it is taken in. -/
theorem step_moved (k : Nat) {tail : List Char} (breaks : Breaks tail) (before : List Token)
    {s next : Lexer} (settled : s.Settled) {c : Char} {rest : List Char}
    (begins : s.rest = c :: rest) (stepped : s.step c rest = .ok next) :
    (s.moved k tail before).step c (rest ++ tail) = .ok (next.moved k tail before) := by
  rw [step_eq s begins] at stepped
  obtain ⟨found, finds, rfl⟩ := Except.map_eq_ok stepped
  have begins' : (s.moved k tail before).rest = c :: (rest ++ tail) := by simp [moved, begins]
  rw [step_eq _ begins', afterSlash_moved k tail before settled]
  exact (congrArg (_ <$> ·) (find_moved k breaks _ _ _ _ found finds)).trans
    (congrArg Except.ok (record_moved k tail before s found))

theorem step_opened {s next : Lexer} {c : Char} {rest : List Char} (begins : s.rest = c :: rest)
    (stepped : s.step c rest = .ok next) : s.opened.step c rest = .ok next.opened := by
  rw [step_eq s begins] at stepped
  obtain ⟨found, finds, rfl⟩ := Except.map_eq_ok stepped
  rw [step_eq s.opened begins, afterSlash_opened]
  exact (congrArg (_ <$> ·) finds).trans (congrArg Except.ok (record_opened s found))

/-! ## Runs -/

theorem Settled.step {s next : Lexer} (settled : s.Settled) {c : Char} {rest : List Char}
    (begins : s.rest = c :: rest) (stepped : s.step c rest = .ok next) : next.Settled := by
  rw [step_eq s begins] at stepped
  obtain ⟨found, -, rfl⟩ := Except.map_eq_ok stepped
  exact settled.record found

theorem Reaches.moved (k : Nat) {tail : List Char} (breaks : Breaks tail) (before : List Token)
    {s last : Lexer} (settled : s.Settled) (reaches : Reaches s last) :
    Reaches (s.moved k tail before) (last.moved k tail before) := by
  induction reaches with
  | refl s => exact .refl _
  | @step s middle last c rest begins stepped shortens _ ih =>
      refine .step (by simp [Lexer.moved, begins]) (step_moved k breaks before settled begins stepped)
        ?_ (ih (settled.step begins stepped))
      simpa [Lexer.moved] using shortens

theorem Reaches.opened {s last : Lexer} (reaches : Reaches s last) :
    Reaches s.opened last.opened := by
  induction reaches with
  | refl s => exact .refl _
  | step begins stepped shortens _ ih => exact .step begins (step_opened begins stepped) shortens ih

theorem reaches_of_run {s : Lexer} {steps : Nat} {tokens : List Token}
    (enough : s.rest.length ≤ steps) (read : s.run steps = .ok tokens) :
    ∃ last, Reaches s last ∧ last.rest = [] ∧ tokens = last.reversed.reverse := by
  induction steps generalizing s with
  | zero =>
      cases read
      exact ⟨s, .refl s, List.eq_nil_of_length_eq_zero (Nat.le_zero.mp enough), rfl⟩
  | succ steps ih =>
      unfold run at read
      split at read
      · rename_i finished
        cases read
        exact ⟨s, .refl s, finished, rfl⟩
      · rename_i c rest begins
        obtain ⟨next, stepped, onward⟩ := Except.bind_eq_ok read
        have shortens : next.rest.length ≤ rest.length := (step_spans begins stepped).length_le
        rw [begins, List.length_cons] at enough
        obtain ⟨last, reaches, finished, same⟩ := ih (by omega) onward
        exact ⟨last, .step begins stepped shortens reaches, finished, same⟩

theorem Reaches.newlines_eq {s last : Lexer} (reaches : Reaches s last) :
    last.line + newlines last.rest = s.line + newlines s.rest := by
  induction reaches with
  | refl s => rfl
  | step begins stepped _ _ ih =>
      rw [ih, begins]
      exact ((step_spans begins stepped).cons).newlines_eq

end Lexer

/-! ## Two texts with a line break between them -/

/-- The tokens of a text that follows a number of lines. -/
def onLaterLines (lines : Nat) (tokens : List Token) : List Token :=
  (tokens.map (below lines)).modifyHead atLineStart

theorem reaches_of_tokenize {source : String} {tokens : List Token}
    (read : tokenize source = .ok tokens) :
    ∃ last, Lexer.Reaches { rest := source.toList } last ∧ last.rest = [] ∧
      tokens = last.reversed.reverse :=
  Lexer.reaches_of_run (Nat.le_refl _) read

theorem map_below_zero (tokens : List Token) : tokens.map (below 0) = tokens :=
  List.map_id' tokens

theorem tokenize_lines {a b : String} {first second : List Token}
    (readFirst : tokenize a = .ok first) (readSecond : tokenize b = .ok second) :
    tokenize (a ++ "\n" ++ b) =
      .ok (first ++ onLaterLines (newlines a.toList + 1) second) := by
  obtain ⟨lastA, reachesA, finishedA, rfl⟩ := reaches_of_tokenize readFirst
  obtain ⟨lastB, reachesB, finishedB, rfl⟩ := reaches_of_tokenize readSecond
  have lineA : lastA.line = 1 + newlines a.toList := by
    simpa [finishedA, newlines] using reachesA.newlines_eq
  -- the first text with more behind it, then the line break, then the second text further down
  have movedA := reachesA.moved 0 (show Breaks ('\n' :: b.toList) from rfl) []
    (Lexer.settled_start _)
  have begins : (lastA.moved 0 ('\n' :: b.toList) []).rest = '\n' :: b.toList := by
    simp [Lexer.moved, finishedA]
  have broken : Lexer.Reaches (lastA.moved 0 ('\n' :: b.toList) [])
      (({ rest := b.toList } : Lexer).opened.moved (newlines a.toList + 1) [] lastA.reversed) := by
    refine .one begins ?_ ?_
    · simp only [Lexer.step_newline, Lexer.moved, Lexer.opened, lineA, map_below_zero]
      simp [openFirst, Nat.add_comm]
    · simp [Lexer.moved, Lexer.opened]
  have settledB : ({ rest := b.toList } : Lexer).opened.Settled := by
    intro joined
    cases joined
  have movedB := reachesB.opened.moved (newlines a.toList + 1) (show Breaks [] from trivial)
    lastA.reversed settledB
  have text : (a ++ "\n" ++ b).toList = a.toList ++ '\n' :: b.toList := by simp
  have tokens : (lastB.opened.moved (newlines a.toList + 1) [] lastA.reversed).reversed.reverse =
      lastA.reversed.reverse ++ onLaterLines (newlines a.toList + 1) lastB.reversed.reverse := by
    simp only [Lexer.moved, Lexer.opened, List.reverse_append, onLaterLines, ← List.map_reverse,
      reverse_openFirst]
    cases lastB.reversed.reverse <;> rfl
  unfold tokenize
  rw [text, ← tokens]
  exact (movedA.trans (broken.trans movedB)).run (by simp [Lexer.moved, Lexer.opened, finishedB])
    (Nat.le_refl _)

end Homoicon.Token
