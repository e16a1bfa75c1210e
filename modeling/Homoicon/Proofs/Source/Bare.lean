import Homoicon.Proofs.Source.Exactness
import Homoicon.Proofs.Source.Lines
import Homoicon.Proofs.Source.RoundTrip
import Mathlib.Data.List.TakeWhile

/-!
# Literals written without escapes

Files, tags, addresses and issues are molded as they are, with a delimiter at most.  What the
scanner admits into a tag, an address or an issue is read back from there.  A file can be written
in quotes with escapes, and its name is read back only if it needs none.
-/

namespace Homoicon.Token

/-! ## Runs of characters -/

/-- The second slash of a scheme does not end a run. -/
theorem takeLexeme_schemeSlash (stop scheme : Bool) (before rest : List Char) :
    (takeLexeme stop ('/' :: ':' :: before) scheme ('/' :: rest)).1.head? = some '/' := by
  rw [takeLexeme.eq_def]
  have plain : isDelimiter '/' = false := by decide
  simp [plain]

/-- A run is cut off where it was before. -/
theorem takeLexeme_again (stop : Bool) (seen : List Char) (scheme : Bool) (cs : List Char) :
    takeLexeme stop seen scheme (takeLexeme stop seen scheme cs).1 =
      ((takeLexeme stop seen scheme cs).1, []) := by
  induction cs generalizing seen scheme with
  | nil => simp [takeLexeme.eq_def]
  | cons c cs ih =>
      rw [takeLexeme.eq_def stop seen scheme (c :: cs)]
      dsimp only
      split_ifs with delimits slash
      · simp [takeLexeme.eq_def]
      · simp [takeLexeme.eq_def]
      · rw [takeLexeme.eq_def]
        dsimp only
        rw [if_neg delimits, if_neg, ih]
        -- a slash behind a colon was taken because another one follows, which was taken too
        intro ends
        refine slash ?_
        simp only [Bool.and_eq_true, Bool.not_eq_true', Bool.or_eq_false_iff] at ends ⊢
        refine ⟨ends.1, ends.2.1, ?_⟩
        obtain ⟨⟨same, -⟩, -, apart⟩ := ends
        cases beq_iff_eq.mp same
        split at apart
        · cases apart
        · refine Bool.eq_false_iff.mpr fun next => ?_
          rw [eq_cons_of_head? next] at apart
          simp [takeLexeme_schemeSlash] at apart
        · rfl

theorem takeLexeme_false {cs : List Char} (plain : ∀ c ∈ cs, isDelimiter c = false)
    (seen : List Char) (scheme : Bool) : takeLexeme false seen scheme cs = (cs, []) := by
  induction cs generalizing seen scheme with
  | nil => rw [takeLexeme.eq_def]
  | cons c cs ih =>
      rw [takeLexeme.eq_def]
      have here := plain c List.mem_cons_self
      simp [here, ih fun d member => plain d (List.mem_cons_of_mem c member)]

/-! ## Texts that the scanner finds -/

/-- The texts that are found as literals of a form. -/
inductive Bare : TextForm → List Char → Prop where
  | file (cs : List Char) : Bare .file cs
  | tag {cs : List Char} : opensTag (cs ++ ['>']) = true → '>' ∉ cs → Bare .tag cs
  | issue {cs : List Char} : takeLexeme true [] false cs = (cs, []) → Bare .issue cs
  | address {first : Char} {later : List Char} {form : TextForm} : form = .url ∨ form = .email →
      Begins first later → takeLexeme true [] false (first :: later) = (first :: later, []) →
      (∀ line, classify line (first :: later) = .ok (.text form (String.ofList (first :: later)))) →
      Bare form (first :: later)

theorem opensTag_takeWhile {rest : List Char} (opens : opensTag rest = true) :
    opensTag (rest.takeWhile (· != '>') ++ ['>']) = true := by
  have unbroken := (closes_of_opensTag opens).2
  cases rest with
  | nil => cases opens
  | cons c rest =>
      rw [opensTag, Bool.and_eq_true] at opens
      have other : c ≠ '>' := by
        rintro rfl
        cases opens.1
      have taken : (c :: rest).takeWhile (· != '>') = c :: rest.takeWhile (· != '>') := by
        simp [other]
      rw [taken] at unbroken ⊢
      have all : ∀ d ∈ rest.takeWhile (· != '>') ++ ['>'], (d != '\n') = true := by
        intro d member
        rcases List.mem_append.mp member with member | member
        · exact bne_iff_ne.mpr fun same => unbroken (same ▸ List.mem_cons_of_mem c member)
        · cases List.mem_singleton.mp member
          rfl
      rw [List.cons_append, opensTag, List.takeWhile_eq_self_iff.mpr all, Bool.and_eq_true]
      exact ⟨opens.1, by simp⟩

/-- The part of a text that stands on the line opens no tag if the text opens none. -/
theorem opensTag_of_start {cs rest : List Char} (front : cs <+: rest) (unbroken : '\n' ∉ cs)
    (opens : opensTag cs = true) : opensTag rest = true := by
  obtain ⟨behind, rfl⟩ := front
  cases cs with
  | nil => cases opens
  | cons c cs =>
      rw [opensTag, Bool.and_eq_true, List.contains_iff_mem] at opens
      rw [List.cons_append, opensTag, Bool.and_eq_true, List.contains_iff_mem]
      refine ⟨opens.1, ?_⟩
      have all : ∀ d ∈ cs, (d != '\n') = true := fun d member => bne_iff_ne.mpr fun same =>
        unbroken (List.mem_cons_of_mem c (same ▸ member))
      rw [List.takeWhile_append_of_pos all]
      exact List.mem_append_left _ ((List.takeWhile_sublist _).subset opens.2)

theorem Begins.of_start {c : Char} {later rest : List Char} (begins : Begins c rest)
    (front : later <+: rest) (plain : ∀ d ∈ later, isDelimiter d = false) : Begins c later where
  plain := begins.plain
  noSlash := begins.noSlash
  noQuote := begins.noQuote
  noHash := begins.noHash
  noFile := begins.noFile
  noTag tag := Bool.eq_false_iff.mpr fun opens => by
    have unbroken : '\n' ∉ later := fun member => absurd (plain '\n' member) (by decide)
    have closed := begins.noTag tag
    rw [opensTag_of_start front unbroken opens] at closed
    cases closed
  noBracket _ := by
    have apart (bracket : Char) (delimits : isDelimiter bracket = true) :
        later.head? ≠ some bracket := fun same => by
      rw [plain bracket (List.mem_of_head? same)] at delimits
      cases delimits
    exact ⟨apart '[' (by decide), apart '(' (by decide)⟩

/-- What a run of characters between delimiters can be. -/
inductive RunLiteral (cs : List Char) : Lexeme → Prop where
  | blank : RunLiteral cs .blank
  | bar : RunLiteral cs .bar
  | money (value : Float) : RunLiteral cs (.money value)
  | number {lexeme : Lexeme} : isNumber lexeme = true → RunLiteral cs lexeme
  | address {form : TextForm} : form = .url ∨ form = .email →
      RunLiteral cs (.text form (String.ofList cs))
  | word (name : String) (mark : Mark) : RunLiteral cs (.word name mark)

theorem classify_literal {line : Nat} {cs : List Char} {lexeme : Lexeme}
    (read : classify line cs = .ok lexeme) : RunLiteral cs lexeme := by
  unfold classify at read
  split at read
  · cases read
  · cases read
    exact .blank
  · cases read
    exact .bar
  · split_ifs at read
    · cases read
      exact .address (.inl rfl)
    · obtain ⟨value, -, rfl⟩ := Except.map_eq_ok read
      exact .money value
    · exact .number (readNumber_isNumber read)
    · cases read
      exact .address (.inr rfl)
    · unfold readWord at read
      cases (ite_refuse_eq_ok read).2
      exact .word _ _

/-- A run that is a number is read as one. -/
theorem readNumber_of_classify {line : Nat} {cs : List Char} {lexeme : Lexeme}
    (read : classify line cs = .ok lexeme) (number : isNumber lexeme = true) :
    readNumber line cs = .ok lexeme := by
  unfold classify at read
  split at read
  · cases read
  · cases read
    cases number
  · cases read
    cases number
  · split_ifs at read
    · cases read
      cases number
    · obtain ⟨_, -, rfl⟩ := Except.map_eq_ok read
      cases number
    · exact read
    · cases read
      cases number
    · unfold readWord at read
      cases (ite_refuse_eq_ok read).2
      cases number

/-- A run that is a string-like literal is an address. -/
theorem classify_text {line : Nat} {cs : List Char} {form : TextForm} {s : String}
    (read : classify line cs = .ok (.text form s)) :
    (form = .url ∨ form = .email) ∧ s = String.ofList cs := by
  cases classify_literal read with
  | number number => cases number
  | address address => exact ⟨address, rfl⟩

/-- What begins with a digit and has no mark in it is a number. -/
theorem classify_digit {line : Nat} {cs : List Char} {lexeme : Lexeme}
    (digit : (cs.head?.map Char.isDigit).getD false = true) (noMark : ':' ∉ cs)
    (read : classify line cs = .ok lexeme) : isNumber lexeme = true := by
  cases cs with
  | nil => cases digit
  | cons first later =>
      have first : first.isDigit = true := digit
      rw [classify_number (by simp [first]) noMark] at read
      exact readNumber_isNumber read

theorem findRun_address {line : Nat} {afterSlash : Bool} {c : Char} {rest : List Char}
    {found : Found} {form : TextForm} {s : String} (begins : Begins c rest)
    (finds : findRun line afterSlash (c :: rest) = .ok found)
    (holds : found.lexeme? = some (.text form s)) : Bare form s.toList := by
  obtain ⟨whole, plain⟩ := takeLexeme_parts true [] false (c :: rest)
  have again := takeLexeme_again true [] false (c :: rest)
  unfold findRun at finds
  generalize takeLexeme true [] false (c :: rest) = parts at finds whole plain again
  obtain ⟨lexeme, behind⟩ := parts
  dsimp only at finds again
  split_ifs at finds with marked
  · obtain ⟨value, classified, given⟩ := Except.bind_eq_ok finds
    cases given
    cases holds
    simp only [Bool.and_eq_true] at marked
    cases classify_digit marked.1.2 (by simpa using marked.2) classified
  · obtain ⟨value, classified, given⟩ := Except.bind_eq_ok finds
    cases given
    cases holds
    obtain ⟨form, rfl⟩ := classify_text classified
    cases lexeme with
    | nil => cases classified
    | cons d later =>
        cases whole
        rw [String.toList_ofList]
        refine .address form (begins.of_start ⟨behind, rfl⟩ fun d member =>
          plain d (List.mem_cons_of_mem _ member)) again fun line' =>
            classify_lineless _ line line' _ classified

/-- What a token that begins with `#` can be. -/
inductive HashLiteral (cs : List Char) : Lexeme → Prop where
  | char (c : Char) : HashLiteral cs (.char c)
  | binary (bytes : List UInt8) : HashLiteral cs (.binary bytes)
  | construct (name : String) : HashLiteral cs (.construct name)
  | issue : HashLiteral cs (.text .issue (String.ofList (takeLexeme true [] false cs).1))

theorem readHash_literal {line : Nat} {cs : List Char} {lexeme : Lexeme} {cursor : Cursor}
    (read : readHash line cs = .ok (lexeme, cursor)) : HashLiteral cs lexeme := by
  unfold readHash at read
  split at read
  · obtain ⟨⟨content, after⟩, -, given⟩ := Except.bind_eq_ok read
    dsimp only at given
    split at given <;> cases given
    exact .char _
  · unfold readBinary at read
    dsimp only at read
    split at read
    · cases read
    · split_ifs at read
      · cases read
      · obtain ⟨bytes, -, given⟩ := Except.bind_eq_ok read
        cases given
        exact .binary bytes
  · unfold readConstruct at read
    dsimp only at read
    split at read <;> cases read
    exact .construct _
  · cases read
    exact .issue

theorem readHash_text {line : Nat} {cs : List Char} {form : TextForm} {s : String}
    {cursor : Cursor} (read : readHash line cs = .ok (.text form s, cursor)) :
    Bare form s.toList := by
  cases readHash_literal read
  rw [String.toList_ofList]
  exact .issue (takeLexeme_again true [] false cs)

theorem Stands.bare {line : Nat} {afterSlash : Bool} {c : Char} {rest : List Char} {found : Found}
    {form : TextForm} {s : String} (stands : Stands line afterSlash c rest found)
    (holds : found.lexeme? = some (.text form s)) (unquoted : form ≠ .text) :
    Bare form s.toList := by
  cases stands with
  | lineBreak | gap | comment | opening | leading | closing | quote | slash => cases holds
  | text =>
      cases holds
      exact absurd rfl unquoted
  | hash read =>
      cases holds
      exact readHash_text read
  | file =>
      cases holds
      exact .file _
  | tag opens =>
      cases holds
      rw [String.toList_ofList]
      refine .tag (opensTag_takeWhile opens) fun member => ?_
      simpa using List.mem_takeWhile_imp member
  | run begins finds => exact findRun_address begins finds holds

/-- What holds of the units that a step finds, and of opening brackets and marks, holds of every
token of a text. -/
structure Settles (P : Lexeme → Prop) : Prop where
  opening : ∀ bracket mark, P (.opening bracket mark)
  setMark : P .setMark
  found : ∀ {line afterSlash c rest found lexeme}, Stands line afterSlash c rest found →
    found.lexeme? = some lexeme → P lexeme

namespace Settles

variable {P : Lexeme → Prop}

theorem record (settles : Settles P) {s : Lexer} {found : Found}
    (known : ∀ token ∈ s.reversed, P token.lexeme)
    (holds : ∀ lexeme, found.lexeme? = some lexeme → P lexeme) :
    ∀ token ∈ (s.record found).reversed, P token.lexeme := by
  cases found with
  | lineBreak | gap | comment => exact known
  | opening => exact List.forall_mem_cons.mpr ⟨settles.opening _ _, known⟩
  | token lexeme => exact List.forall_mem_cons.mpr ⟨holds lexeme rfl, known⟩
  | marked lexeme =>
      exact List.forall_mem_cons.mpr
        ⟨settles.setMark, List.forall_mem_cons.mpr ⟨holds lexeme rfl, known⟩⟩

theorem reaches (settles : Settles P) {s last : Lexer} (reaches : Lexer.Reaches s last)
    (known : ∀ token ∈ s.reversed, P token.lexeme) : ∀ token ∈ last.reversed, P token.lexeme := by
  induction reaches with
  | refl => exact known
  | @step s _ _ c rest begins stepped _ _ ih =>
      rw [Lexer.step_eq s begins] at stepped
      obtain ⟨found, finds, rfl⟩ := Except.map_eq_ok stepped
      exact ih (settles.record known fun lexeme => settles.found (find_stands _ _ _ _ found finds))

theorem tokenize (settles : Settles P) {source : String} {tokens : List Token}
    (read : tokenize source = .ok tokens) : ∀ token ∈ tokens, P token.lexeme := by
  obtain ⟨last, reaches, -, rfl⟩ := reaches_of_tokenize read
  intro token member
  exact settles.reaches reaches (List.forall_mem_nil _) token (List.mem_reverse.mp member)

end Settles

/-- The string-like literals among the tokens are such as the scanner finds. -/
theorem settles_bare : Settles fun lexeme =>
    ∀ form s, lexeme = .text form s → form ≠ .text → Bare form s.toList where
  opening _ _ := nofun
  setMark := nofun
  found stands holds _ _ same := stands.bare (holds.trans (congrArg some same))

/-! ## Reading a single literal -/

/-- The scanner at the beginning of a text. -/
theorem tokenize_cons {source : String} {c : Char} {rest : List Char}
    (text : source.toList = c :: rest) :
    tokenize source = (({ rest := c :: rest } : Lexer).step c rest >>= Lexer.run rest.length) := by
  rw [tokenize, text]
  rfl

/-- A text that one step reads is one token. -/
theorem tokenize_one {source : String} {c : Char} {rest : List Char} {lexeme : Lexeme}
    (text : source.toList = c :: rest)
    (stepped : ({ rest := c :: rest } : Lexer).step c rest =
      .ok (({ rest := c :: rest } : Lexer).emit lexeme ⟨[], 1⟩)) :
    tokenize source = .ok [⟨lexeme, false, false, 1⟩] := by
  rw [tokenize_cons text, stepped]
  exact (Lexer.Reaches.refl (({ rest := c :: rest } : Lexer).emit lexeme ⟨[], 1⟩)).run rfl
    (Nat.zero_le _)

/-- The first token stays the first. -/
theorem Lexer.Reaches.reversed_suffix {s last : Lexer} (reaches : Lexer.Reaches s last) :
    s.reversed <:+ last.reversed := by
  induction reaches with
  | refl => exact List.suffix_refl _
  | @step s _ _ c rest begins stepped _ _ ih =>
      rw [Lexer.step_eq s begins] at stepped
      obtain ⟨found, -, rfl⟩ := Except.map_eq_ok stepped
      refine List.IsSuffix.trans ?_ ih
      cases found with
      | lineBreak | gap | comment => exact List.suffix_refl _
      | opening | token => exact List.suffix_cons _ _
      | marked => exact (List.suffix_cons _ _).trans (List.suffix_cons _ _)

theorem lexeme_of_tokenize_one {source : String} {c : Char} {rest : List Char} {lexeme : Lexeme}
    {cursor : Cursor} {token : Token} (text : source.toList = c :: rest)
    (stepped : ({ rest := c :: rest } : Lexer).step c rest =
      .ok (({ rest := c :: rest } : Lexer).emit lexeme cursor))
    (shortens : cursor.rest.length ≤ rest.length) (read : tokenize source = .ok [token]) :
    token.lexeme = lexeme := by
  rw [tokenize_cons text, stepped] at read
  obtain ⟨last, reaches, -, same⟩ := Lexer.reaches_of_run shortens read
  obtain ⟨more, whole⟩ := reaches.reversed_suffix
  have alone : last.reversed = [token] := by
    rw [← List.reverse_reverse last.reversed, ← same]
    rfl
  rw [alone] at whole
  cases more with
  | nil => exact congrArg Token.lexeme (List.cons.inj whole).1.symm
  | cons => simp [Lexer.emit] at whole

/-- A text reads back as a literal if it is cut into that one token. -/
def ReadsBack (source : String) (lexeme : Lexeme) : Prop :=
  ∃ token, tokenize source = .ok [token] ∧ token.lexeme = lexeme

theorem readsBack_tag {cs : List Char} (opens : opensTag (cs ++ ['>']) = true)
    (unclosed : '>' ∉ cs) :
    ReadsBack (Mold.stringText .tag (String.ofList cs)) (.text .tag (String.ofList cs)) := by
  have text : (Mold.stringText .tag (String.ofList cs)).toList = '<' :: (cs ++ ['>']) := by
    simp [Mold.stringText]
  have each : ∀ d ∈ cs, (d != '>') = true := fun d member =>
    bne_iff_ne.mpr fun same => unclosed (same ▸ member)
  refine ⟨_, tokenize_one text ?_, rfl⟩
  rw [Lexer.step_eq _ rfl]
  unfold find
  iterate 5 rw [if_neg (by decide)]
  rw [if_neg (by simp)]
  iterate 7 rw [if_neg (by decide)]
  rw [if_pos (by rw [opens]; rfl), List.takeWhile_append_of_pos each,
    List.dropWhile_append_of_pos each]
  simp [Lexer.record, pure, Except.pure]

theorem namesIssue_of_run {cs : List Char} (run : takeLexeme true [] false cs = (cs, [])) :
    NamesIssue cs := by
  intro c listed first
  have plain := (takeLexeme_parts true [] false cs).2
  rw [run] at plain
  have here := plain c (List.mem_of_head? (by simpa using first))
  simp only [List.mem_cons, List.not_mem_nil, or_false] at listed
  rcases listed with rfl | rfl | rfl <;> exact absurd here (by decide)

theorem readsBack_issue {cs : List Char} (run : takeLexeme true [] false cs = (cs, [])) :
    ReadsBack (Mold.stringText .issue (String.ofList cs)) (.text .issue (String.ofList cs)) := by
  have text : (Mold.stringText .issue (String.ofList cs)).toList = '#' :: cs := by
    simp [Mold.stringText]
  refine ⟨_, tokenize_one text ?_, rfl⟩
  rw [Lexer.step_hash, readHash_issue (namesIssue_of_run run), run]
  rfl

theorem readsBack_address {first : Char} {later : List Char} {form : TextForm}
    (begins : Begins first later)
    (run : takeLexeme true [] false (first :: later) = (first :: later, []))
    (classified : ∀ line, classify line (first :: later) =
      .ok (.text form (String.ofList (first :: later)))) :
    ReadsBack (String.ofList (first :: later)) (.text form (String.ofList (first :: later))) := by
  refine ⟨_, tokenize_one (String.toList_ofList) ?_, rfl⟩
  rw [begins.step, Lexer.readRun]
  dsimp only
  rw [run, if_neg (by simp [Lexer.afterSlash]), classified]
  rfl

/-! ## Files -/

/-- A character that a quoted text writes as an escape or cannot hold. -/
def needsEscape (c : Char) : Bool := c == '"' || c == '^' || c == '\n'

/-- A name that a file can have without escapes.  One without a blank is not written in quotes and
ends at the first delimiter. -/
def PlainName (cs : List Char) : Prop :=
  if ' ' ∈ cs then ∀ c ∈ cs, needsEscape c = false else ∀ c ∈ cs, isDelimiter c = false

instance (cs : List Char) : Decidable (PlainName cs) :=
  inferInstanceAs (Decidable (if ' ' ∈ cs then _ else _))

theorem readString_plain {cs : List Char} (plain : ∀ c ∈ cs, needsEscape c = false)
    (reversed : List Char) (line : Nat) (tail : List Char) :
    readString false 0 .none reversed line (cs ++ tail) =
      readString false 0 .none (cs.reverse ++ reversed) line tail := by
  induction cs generalizing reversed with
  | nil => rfl
  | cons c cs ih =>
      have here := plain c List.mem_cons_self
      simp only [needsEscape, Bool.or_eq_false_iff] at here
      rw [List.cons_append, readString]
      simp only [here, Bool.false_eq_true, if_false]
      rw [ih fun d member => plain d (List.mem_cons_of_mem c member), List.reverse_cons,
        List.append_assoc]
      rfl

/-- A string has at most as many characters as are read for it. -/
theorem readString_length {braced : Bool} {depth : Nat} {escape : Escape} {reversed : List Char}
    {line : Nat} {cs content : List Char} {cursor : Cursor}
    (read : readString braced depth escape reversed line cs = .ok (content, cursor)) :
    content.length + cursor.rest.length + 1 ≤ reversed.length + cs.length := by
  induction cs generalizing depth escape reversed line with
  | nil => cases escape <;> cases read
  | cons c cs ih =>
      have shorter {less : List Char}
          (given : content.length + cursor.rest.length + 1 ≤ less.length + cs.length)
          (most : less.length ≤ reversed.length + 1) :
          content.length + cursor.rest.length + 1 ≤ reversed.length + (c :: cs).length := by
        rw [List.length_cons]
        omega
      cases escape with
      | caret =>
          unfold readString at read
          split_ifs at read
          · exact shorter (ih read) (Nat.le_succ _)
          · exact shorter (ih read) (Nat.le_refl _)
      | name name =>
          unfold readString at read
          dsimp only at read
          split_ifs at read
          · split at read
            · exact shorter (ih read) (Nat.le_refl _)
            · cases read
          · exact shorter (ih read) (Nat.le_succ _)
      | none =>
          unfold readString at read
          split_ifs at read
          · exact shorter (ih read) (Nat.le_succ _)
          · exact shorter (ih read) (Nat.le_refl _)
          · cases depth with
            | zero =>
                cases read
                rw [List.length_reverse, List.length_cons]
                exact Nat.le_refl _
            | succ depth => exact shorter (ih read) (Nat.le_refl _)
          · exact shorter (ih read) (Nat.le_refl _)
          · cases read
            rw [List.length_reverse, List.length_cons]
            exact Nat.le_refl _
          · cases read
          · exact shorter (ih read) (Nat.le_refl _)

/-- What is read between quotes is shorter than a text that needs escapes. -/
theorem readQuoted_shorter {line : Nat} {cs content : List Char} {cursor : Cursor}
    (escapes : ∃ c ∈ cs, needsEscape c = true)
    (read : readQuoted line (cs ++ ['"']) = .ok (content, cursor)) :
    content.length < cs.length := by
  obtain ⟨c, special, front, behind, rfl, plain⟩ :
      ∃ c, needsEscape c = true ∧ ∃ front behind, cs = front ++ c :: behind ∧
        ∀ d ∈ front, needsEscape d = false := by
    obtain ⟨c, found⟩ := Option.isSome_iff_exists.mp (List.find?_isSome.mpr escapes)
    obtain ⟨special, front, behind, whole, plain⟩ := List.find?_eq_some_iff_append.mp found
    exact ⟨c, special, front, behind, whole, fun d member => by simpa using plain d member⟩
  rw [readQuoted, List.append_assoc, readString_plain plain, List.append_nil, List.cons_append,
    readString] at read
  simp only [needsEscape, Bool.or_eq_true, beq_iff_eq] at special
  rcases special with (rfl | rfl) | rfl
  · cases read
    simp
  · have bound := readString_length read
    simp only [List.length_append, List.length_reverse, List.length_cons, List.length_nil] at bound ⊢
    omega
  · cases read

theorem step_file {rest : List Char} (unquoted : rest.head? ≠ some '"') (s : Lexer) :
    s.step '%' rest =
      .ok (s.emit (.text .file (String.ofList (takeLexeme false [] false rest).1))
        ⟨(takeLexeme false [] false rest).2, s.line⟩) := by
  unfold Lexer.step
  iterate 5 rw [if_neg (by decide)]
  rw [if_neg (by simp)]
  iterate 6 rw [if_neg (by decide)]
  rw [if_pos (by decide)]
  split
  · exact absurd rfl unquoted
  · rfl

theorem step_quotedFile {rest : List Char} (s : Lexer) :
    s.step '%' ('"' :: rest) = (do
      let (content, cursor) ← readQuoted s.line rest
      pure (s.emit (.text .file (String.ofList content)) cursor)) := rfl

/-- A file whose name holds a blank is written in quotes. -/
theorem toList_file (cs : List Char) :
    (Mold.stringText .file (String.ofList cs)).toList =
      '%' :: if ' ' ∈ cs then '"' :: (cs ++ ['"']) else cs := by
  unfold Mold.stringText
  dsimp only
  split_ifs <;> simp_all

theorem readQuoted_of_readsBack {source : String} {rest cs : List Char}
    (text : source.toList = '%' :: '"' :: rest)
    (reads : ReadsBack source (.text .file (String.ofList cs))) :
    ∃ cursor, readQuoted 1 rest = .ok (cs, cursor) := by
  obtain ⟨token, read, same⟩ := reads
  have started := read
  rw [tokenize_cons text] at started
  obtain ⟨_, stepped, -⟩ := Except.bind_eq_ok started
  obtain ⟨⟨content, cursor⟩, quoted, -⟩ := Except.bind_eq_ok (by rwa [step_quotedFile] at stepped)
  have emitted : ({ rest := '%' :: '"' :: rest } : Lexer).step '%' ('"' :: rest) =
      .ok (({ rest := '%' :: '"' :: rest } : Lexer).emit
        (.text .file (String.ofList content)) cursor) := by
    rw [step_quotedFile, quoted]
    rfl
  have found := lexeme_of_tokenize_one text emitted
    (Nat.le_succ_of_le (readString_shortens quoted)) read
  rw [same] at found
  injection found with _ found
  exact ⟨cursor, by rw [String.ofList_injective found]; exact quoted⟩

theorem plainName_of_readsBack {cs : List Char}
    (reads : ReadsBack (Mold.stringText .file (String.ofList cs)) (.text .file (String.ofList cs))) :
    PlainName cs := by
  have text := toList_file cs
  unfold PlainName
  split_ifs at text ⊢ with blank
  · obtain ⟨cursor, quoted⟩ := readQuoted_of_readsBack text reads
    intro c member
    by_contra escapes
    have shorter := readQuoted_shorter ⟨c, member, by simpa using escapes⟩ quoted
    exact absurd shorter (Nat.lt_irrefl _)
  · by_cases unquoted : cs.head? = some '"'
    · have whole := eq_cons_of_head? (beq_iff_eq.mpr unquoted)
      obtain ⟨cursor, quoted⟩ :=
        readQuoted_of_readsBack (text.trans (congrArg ('%' :: ·) whole)) reads
      have bound := readString_length quoted
      have length := congrArg List.length whole
      simp only [List.length_nil, List.length_cons] at bound length
      omega
    · obtain ⟨token, read, same⟩ := reads
      have found := lexeme_of_tokenize_one text (step_file unquoted _)
        (takeLexeme_shortens false [] false cs) read
      rw [same] at found
      injection found with _ found
      intro c member
      rw [String.ofList_injective found] at member
      exact (takeLexeme_parts false [] false cs).2 c member

theorem readsBack_file {cs : List Char} (plain : PlainName cs) :
    ReadsBack (Mold.stringText .file (String.ofList cs)) (.text .file (String.ofList cs)) := by
  have text := toList_file cs
  unfold PlainName at plain
  split_ifs at text plain with blank
  · refine ⟨_, tokenize_one text ?_, rfl⟩
    rw [step_quotedFile, readQuoted, readString_plain plain]
    simp [readString, bind, Except.bind, pure, Except.pure]
  · refine ⟨_, tokenize_one text ?_, rfl⟩
    have unquoted : cs.head? ≠ some '"' := fun first =>
      absurd (plain '"' (List.mem_of_head? first)) (by decide)
    rw [step_file unquoted, takeLexeme_false plain]

/-! ## Molded values -/

/-- The literals that the scanner finds are read back from their text, a file just if its name is
plain. -/
theorem Bare.readsBack_iff {form : TextForm} {s : String} (bare : Bare form s.toList) :
    ReadsBack (Mold.stringText form.kind s) (.text form s) ↔
      (form = .file → PlainName s.toList) := by
  obtain ⟨cs, rfl⟩ : ∃ cs, s = String.ofList cs := ⟨s.toList, String.ofList_toList.symm⟩
  rw [String.toList_ofList] at bare ⊢
  cases bare with
  | file => exact ⟨fun reads _ => plainName_of_readsBack reads, fun plain => readsBack_file (plain rfl)⟩
  | tag opens unclosed => exact iff_of_true (readsBack_tag opens unclosed) nofun
  | issue run => exact iff_of_true (readsBack_issue run) nofun
  | address isAddress begins run classified =>
      have reads := readsBack_address begins run classified
      rcases isAddress with rfl | rfl <;> exact iff_of_true reads nofun

/-- A string-like value is molded as a literal of its kind. -/
theorem mold_textSeries {m : Machine} {id : SeriesId} {index : Nat} {s : String}
    (content : Mold.stringContent id index m = .ok s) (form : TextForm) :
    Query.mold (Cell.series form.kind id index) m = .ok (Mold.stringText form.kind s) := by
  have written : (Mold.stringContent id index >>= fun s =>
      pure (({} : Molder).write (Mold.stringText form.kind s)) : Query Molder) m =
        .ok (({} : Molder).write (Mold.stringText form.kind s)) := by
    rw [Query.bind_ok content]
    rfl
  have cell : Mold.cell (Mold.nesting m) (Cell.series form.kind id index) {} m =
      .ok (({} : Molder).write (Mold.stringText form.kind s)) := by
    cases form <;> exact written
  unfold Query.mold
  rw [Query.bind_ok (Query.read_run m), Query.bind_ok cell]
  simp [Molder.write]

theorem mold_literal (form : TextForm) (s : String) (m : Machine) :
    ∃ c m', Interp.lexemeCell (.text form s) m = .ok c m' ∧
      Query.mold c m' = .ok (Mold.stringText form.kind s) := by
  have held : Query.text (m.heap.alloc (Series.ofText s).managed).1
      { m with heap := (m.heap.alloc (Series.ofText s).managed).2 } =
        .ok (Text.Buffer.ofString s) :=
    Query.text_eq_ok.mpr ⟨_, Machine.get?_alloc_self m _, rfl⟩
  have content := @Machine.stringContent_eq _ _ 0 _ held
  rw [Text.Buffer.slice_ofString] at content
  exact ⟨_, _, rfl, mold_textSeries content form⟩

/-- A file, tag, address or issue of a source text is molded as a text that is cut into one token,
with the same form and the same text; of a file this holds just if its name is plain. -/
theorem reads_back_molded {source : String} {tokens : List Token}
    (read : tokenize source = .ok tokens) {token : Token} (member : token ∈ tokens)
    {form : TextForm} {s : String} (literal : token.lexeme = .text form s) (unquoted : form ≠ .text)
    (m : Machine) :
    ∃ c m' molded, Interp.lexemeCell token.lexeme m = .ok c m' ∧ Query.mold c m' = .ok molded ∧
      (ReadsBack molded token.lexeme ↔ (form = .file → PlainName s.toList)) := by
  obtain ⟨c, m', made, molded⟩ := mold_literal form s m
  rw [literal]
  exact ⟨c, m', _, made, molded,
    (settles_bare.tokenize read token member form s literal unquoted).readsBack_iff⟩

theorem reads_back_molded_sampleFile :
    ∃ tokens, tokenize "%\"a b\"" = .ok tokens ∧
      ∃ token ∈ tokens, token.lexeme = .text .file "a b" ∧ TextForm.file ≠ .text ∧
        ∃ c m' molded, Interp.lexemeCell token.lexeme Machine.sampleStore = .ok c m' ∧
          Query.mold c m' = .ok molded ∧
          (ReadsBack molded token.lexeme ↔ (TextForm.file = .file → PlainName "a b".toList)) :=
  ⟨[⟨.text .file "a b", false, false, 1⟩], rfl, ⟨.text .file "a b", false, false, 1⟩, by simp, rfl,
    by decide,
    reads_back_molded
      (show tokenize "%\"a b\"" = .ok [⟨.text .file "a b", false, false, 1⟩] from rfl)
      (by simp) rfl (by decide) Machine.sampleStore⟩

end Homoicon.Token
