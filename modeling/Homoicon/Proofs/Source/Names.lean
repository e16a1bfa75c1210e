import Mathlib.Tactic.SplitIfs
import Homoicon.Token.Lexer

/-!
# Names

The spellings that are read as one plain word.  Their characters neither end a word nor begin
anything else, so a name is read back with any of the four marks, whatever follows it.
-/

namespace Homoicon.Token

/-! ## Runs of characters -/

section

variable {seen rest tail : List Char} {c : Char}

theorem takeLexeme_delimiter (stop scheme : Bool) (delimits : isDelimiter c = true) :
    takeLexeme stop seen scheme (c :: rest) = ([], c :: rest) := by
  rw [takeLexeme.eq_def]
  simp only [delimits, if_true]

theorem takeLexeme_plain (stop scheme : Bool) (plain : isDelimiter c = false) (noSlash : c ≠ '/') :
    takeLexeme stop seen scheme (c :: rest) =
      (c :: (takeLexeme stop (c :: seen) scheme rest).1,
        (takeLexeme stop (c :: seen) scheme rest).2) := by
  rw [takeLexeme.eq_def]
  have other : (c == '/') = false := beq_eq_false_iff_ne.mpr noSlash
  simp only [plain, other, Bool.false_and, Bool.or_false, Bool.false_eq_true, if_false]

/-- What was read so far does not make a slash that follows part of an address. -/
def EndsAtSlash : List Char → Prop
  | c :: _ => c ≠ ':' ∧ c ≠ '/'
  | [] => True

theorem takeLexeme_slash (ends : EndsAtSlash seen) :
    takeLexeme true seen false ('/' :: rest) = ([], '/' :: rest) := by
  rw [takeLexeme.eq_def]
  have plain : ¬ isDelimiter '/' = true := by decide
  dsimp only
  rw [if_neg plain, if_pos]
  cases seen with
  | nil => rfl
  | cons c before =>
      split
      · rename_i same
        cases same
        exact absurd rfl ends.2
      · rename_i same
        cases same
        exact absurd rfl ends.1
      · rfl

end

/-- What can stand behind a run of characters: the end of the text, a character that ends words, or
a slash if the run has no `:` at its end. -/
inductive Stops (run : List Char) : List Char → Prop where
  | finish : Stops run []
  | delimiter {c : Char} {rest : List Char} : isDelimiter c = true → Stops run (c :: rest)
  | slash {rest : List Char} : EndsAtSlash run.reverse → Stops run ('/' :: rest)

theorem takeLexeme_append {run tail : List Char} (seen : List Char)
    (plain : ∀ c ∈ run, isDelimiter c = false ∧ c ≠ '/') (stops : Stops (seen.reverse ++ run) tail) :
    takeLexeme true seen false (run ++ tail) = (run, tail) := by
  induction run generalizing seen with
  | nil =>
      rw [List.append_nil] at stops
      cases stops with
      | finish => rfl
      | delimiter delimits => exact takeLexeme_delimiter true false delimits
      | slash ends =>
          rw [List.reverse_reverse] at ends
          exact takeLexeme_slash ends
  | cons c run ih =>
      have here := plain c List.mem_cons_self
      have onward := ih (c :: seen) (fun d member => plain d (List.mem_cons_of_mem c member))
        (by simpa using stops)
      rw [List.cons_append, takeLexeme_plain true false here.1 here.2, onward]

/-- A run ends here, or takes one character and goes on. -/
theorem takeLexeme_cons (stop : Bool) (seen : List Char) (scheme : Bool) (c : Char)
    (cs : List Char) : takeLexeme stop seen scheme (c :: cs) = ([], c :: cs) ∨
      isDelimiter c = false ∧ ∃ scheme', takeLexeme stop seen scheme (c :: cs) =
        (c :: (takeLexeme stop (c :: seen) scheme' cs).1,
          (takeLexeme stop (c :: seen) scheme' cs).2) := by
  rw [takeLexeme.eq_def]
  dsimp only
  split_ifs with delimits slash
  · exact .inl rfl
  · exact .inl rfl
  · exact .inr ⟨Bool.eq_false_iff.mpr delimits, _, rfl⟩

theorem takeLexeme_parts (stop : Bool) (seen : List Char) (scheme : Bool) (cs : List Char) :
    (takeLexeme stop seen scheme cs).1 ++ (takeLexeme stop seen scheme cs).2 = cs ∧
      ∀ c ∈ (takeLexeme stop seen scheme cs).1, isDelimiter c = false := by
  induction cs generalizing seen scheme with
  | nil => exact ⟨rfl, by simp [takeLexeme.eq_def]⟩
  | cons c cs ih =>
      rcases takeLexeme_cons stop seen scheme c cs with ends | ⟨plain, scheme', goesOn⟩
      · rw [ends]
        exact ⟨rfl, by simp⟩
      · obtain ⟨whole, each⟩ := ih (c :: seen) scheme'
        rw [goesOn]
        refine ⟨congrArg (c :: ·) whole, fun d member => ?_⟩
        rcases List.mem_cons.mp member with rfl | member
        · exact plain
        · exact each d member

/-- Only an address can have a slash in it, and it has a `:` before. -/
theorem slash_notMem_takeLexeme (seen cs : List Char)
    (noMark : ':' ∉ seen.reverse ++ (takeLexeme true seen false cs).1) (noSlash : '/' ∉ seen) :
    '/' ∉ (takeLexeme true seen false cs).1 := by
  induction cs generalizing seen with
  | nil => simp [takeLexeme.eq_def]
  | cons c cs ih =>
      by_cases delimits : isDelimiter c = true
      · simp [takeLexeme_delimiter true false delimits]
      · have plain : isDelimiter c = false := Bool.eq_false_iff.mpr delimits
        by_cases slash : c = '/'
        · subst slash
          have ends : EndsAtSlash seen := by
            cases seen with
            | nil => exact trivial
            | cons d before =>
                exact ⟨fun same => noMark (by simp [same]), fun same => noSlash (by simp [same])⟩
          rw [takeLexeme_slash ends]
          exact List.not_mem_nil
        · rw [takeLexeme_plain true false plain slash] at noMark ⊢
          have later := ih (c :: seen) (by simpa using noMark)
            (List.not_mem_cons_of_ne_of_not_mem (Ne.symm slash) noSlash)
          exact List.not_mem_cons_of_ne_of_not_mem (Ne.symm slash) later

/-! ## Steps that read a run -/

/-- A character with which a run begins, and not something else. -/
structure Begins (c : Char) (rest : List Char) : Prop where
  plain : isDelimiter c = false
  noSlash : c ≠ '/'
  noQuote : c ≠ '\''
  noHash : c ≠ '#'
  noFile : c ≠ '%'
  noTag : c = '<' → opensTag rest = false
  noBracket : c = ':' ∨ c = '@' → rest.head? ≠ some '[' ∧ rest.head? ≠ some '('

theorem ne_of_not_isDelimiter {c d : Char} (plain : isDelimiter c = false)
    (delimits : isDelimiter d = true) : c ≠ d := by
  rintro rfl
  rw [plain] at delimits
  cases delimits

theorem Begins.step {c : Char} {rest : List Char} (begins : Begins c rest) (s : Lexer) :
    s.step c rest = s.readRun := by
  have apart (d : Char) (delimits : isDelimiter d = true := by decide) : (c == d) = false :=
    beq_eq_false_iff_ne.mpr (ne_of_not_isDelimiter begins.plain delimits)
  have noBlank : Text.isBlank c = false := by
    have plain := begins.plain
    simp only [isDelimiter, Bool.or_eq_false_iff] at plain
    exact plain.1
  have noBracket : ((c == ':' || c == '@') &&
      (rest.head? == some '[' || rest.head? == some '(')) = false := by
    rw [Bool.and_eq_false_iff]
    by_cases marked : c = ':' ∨ c = '@'
    · have := begins.noBracket marked
      simp [this.1, this.2]
    · left
      simpa using marked
  have noTag : (c == '<' && opensTag rest) = false := by
    by_cases tag : c = '<'
    · simp [begins.noTag tag]
    · simp [tag]
  have noQuote : (c == '\'') = false := beq_eq_false_iff_ne.mpr begins.noQuote
  have noSlash : (c == '/') = false := beq_eq_false_iff_ne.mpr begins.noSlash
  have noHash : (c == '#') = false := beq_eq_false_iff_ne.mpr begins.noHash
  have noFile : (c == '%') = false := beq_eq_false_iff_ne.mpr begins.noFile
  unfold Lexer.step
  simp only [apart '\n', noBlank, apart ';', apart '[', apart '(', apart ']', apart ')', noBracket,
    noQuote, noSlash, apart '"', apart '\x7b', apart '\x7d', noHash, noFile, noTag, Bool.or_self,
    Bool.false_eq_true, if_false]

/-! ## What is read as a name -/

theorem readString_shortens {braced : Bool} {depth : Nat} {escape : Escape}
    {reversed : List Char} {line : Nat} {cs content : List Char} {cursor : Cursor}
    (read : readString braced depth escape reversed line cs = .ok (content, cursor)) :
    cursor.rest.length ≤ cs.length := by
  induction cs generalizing depth escape reversed line with
  | nil => cases escape <;> cases read
  | cons c cs ih =>
      refine Nat.le_succ_of_le ?_
      cases escape with
      | caret =>
          unfold readString at read
          split_ifs at read <;> exact ih read
      | name name =>
          unfold readString at read
          dsimp only at read
          split_ifs at read
          · split at read
            · exact ih read
            · cases read
          · exact ih read
      | none =>
          unfold readString at read
          split_ifs at read
          · exact ih read
          · exact ih read
          · cases depth with
            | zero =>
                cases read
                exact Nat.le_refl _
            | succ depth => exact ih read
          · exact ih read
          · cases read
            exact Nat.le_refl _
          · cases read
          · exact ih read

/-- Whether a unit of source text is a word. -/
def isWord : Lexeme → Bool
  | .word .. => true
  | _ => false

theorem takeLexeme_shortens (stop : Bool) (seen : List Char) (scheme : Bool) (cs : List Char) :
    (takeLexeme stop seen scheme cs).2.length ≤ cs.length := by
  have whole := congrArg List.length (takeLexeme_parts stop seen scheme cs).1
  rw [List.length_append] at whole
  omega

theorem length_dropWhile_le (p : Char → Bool) (cs : List Char) :
    (cs.dropWhile p).length ≤ cs.length :=
  (List.dropWhile_sublist p).length_le

theorem readHash_noWord {line : Nat} {cs : List Char} {lexeme : Lexeme} {cursor : Cursor}
    (read : readHash line cs = .ok (lexeme, cursor)) :
    cursor.rest.length ≤ cs.length ∧ isWord lexeme = false := by
  unfold readHash at read
  split at read
  · rename_i rest
    cases quoted : readQuoted line rest with
    | error fault =>
        rw [quoted] at read
        cases read
    | ok result =>
        obtain ⟨content, after⟩ := result
        have shorter := readString_shortens quoted
        rw [quoted] at read
        simp only [bind, Except.bind] at read
        split at read
        · cases read
          exact ⟨Nat.le_succ_of_le shorter, rfl⟩
        · cases read
  · rename_i rest
    unfold readBinary at read
    have shorter := length_dropWhile_le (· != '\x7d') rest
    dsimp only at read
    split at read
    · cases read
    · rename_i found
      rw [found, List.length_cons] at shorter
      split_ifs at read
      · cases read
      · generalize hexBytes _ _ _ = bytes at read
        cases bytes with
        | error fault => cases read
        | ok bytes =>
            cases read
            exact ⟨by simp only [List.length_cons]; omega, rfl⟩
  · rename_i rest
    unfold readConstruct at read
    have shorter := length_dropWhile_le (· != ']') rest
    dsimp only at read
    split at read
    · cases read
    · rename_i found
      rw [found, List.length_cons] at shorter
      cases read
      exact ⟨by simp only [List.length_cons]; omega, rfl⟩
  · cases read
    exact ⟨takeLexeme_shortens _ _ _ _, rfl⟩

theorem Except.bind_eq_ok {ε α β : Type} {x : Except ε α} {f : α → Except ε β} {b : β}
    (given : x >>= f = .ok b) : ∃ a, x = .ok a ∧ f a = .ok b := by
  cases x with
  | error fault => cases given
  | ok a => exact ⟨a, rfl, given⟩

theorem Except.map_eq_ok {ε α β : Type} {x : Except ε α} {f : α → β} {b : β}
    (given : f <$> x = .ok b) : ∃ a, x = .ok a ∧ f a = b := by
  cases x with
  | error fault => cases given
  | ok a =>
      cases given
      exact ⟨a, rfl, rfl⟩

/-- What is found, if anything is, has a property. -/
def Finds {α : Type} (p : α → Prop) (finds : Scan α) : Prop := ∀ found, finds = .ok found → p found

namespace Finds

variable {α β : Type} {p : β → Prop}

theorem pure {found : β} (holds : p found) : Finds p (Pure.pure found) := by
  rintro _ ⟨⟩
  exact holds

theorem refuse (line : Nat) (cause : ScanCause) : Finds p (refuse line cause) := nofun

theorem bind {read : Scan α} {next : α → Scan β}
    (onward : ∀ a, read = .ok a → Finds p (next a)) : Finds p (read >>= next) := by
  intro found finds
  obtain ⟨a, given, later⟩ := Except.bind_eq_ok finds
  exact onward a given found later

theorem ite {q : Prop} [Decidable q] {yes no : Scan β} (first : q → Finds p yes)
    (second : ¬ q → Finds p no) : Finds p (if q then yes else no) := by
  split_ifs with holds
  · exact first holds
  · exact second holds

end Finds

namespace Lexer

/-- A step that reads no word. -/
structure Wordless (s : Lexer) (rest : List Char) (next : Lexer) : Prop where
  shortens : next.rest.length ≤ rest.length
  reversed : ∃ new, next.reversed = new ++ s.reversed ∧ ∀ token ∈ new, isWord token.lexeme = false

theorem Wordless.silent {s next : Lexer} {rest : List Char}
    (shortens : next.rest.length ≤ rest.length) (same : next.reversed = s.reversed) :
    s.Wordless rest next :=
  ⟨shortens, [], same, fun _ member => nomatch member⟩

theorem Wordless.token {s next : Lexer} {rest : List Char} {token : Token}
    (shortens : next.rest.length ≤ rest.length) (one : next.reversed = token :: s.reversed)
    (noWord : isWord token.lexeme = false) : s.Wordless rest next :=
  ⟨shortens, [token], one, fun t member => by rwa [List.mem_singleton.mp member]⟩

/-- A step reads no word, unless it reads a run of characters between delimiters. -/
theorem step_cases (s : Lexer) (c : Char) (rest : List Char) :
    Finds (fun next => s.Wordless rest next ∨ Begins c rest ∧ s.readRun = .ok next)
      (s.step c rest) := by
  have whole := Nat.le_refl rest.length
  unfold step
  refine .ite (fun _ => .pure (.inl (.silent whole rfl))) fun newline =>
    .ite (fun _ => .pure (.inl (.silent whole rfl))) fun blank =>
    .ite (fun _ => .pure (.inl (.silent (length_dropWhile_le _ _) rfl))) fun comment =>
    .ite (fun _ => .pure (.inl (.token whole rfl rfl))) fun opening =>
    .ite (fun _ => ?closing) fun closing => .ite (fun _ => .pure (.inl ?leading)) fun marked =>
    .ite (fun _ => ?quote) fun quote =>
    .ite (fun _ => .pure (.inl (.token whole rfl rfl))) fun slash =>
    .ite (fun _ => .bind fun _ read => .pure (.inl ?text)) fun text =>
    .ite (fun _ => .bind fun _ read => .pure (.inl ?braced)) fun braced =>
    .ite (fun _ => .refuse _ _) fun stray =>
    .ite (fun _ => .bind fun _ read => .pure (.inl ?hash)) fun hash =>
    .ite (fun _ => ?file) fun file => .ite (fun _ => .pure (.inl ?tag)) fun tag _ ran =>
    .inr ⟨?begins, ran⟩
  case closing =>
    dsimp only
    split
    · exact .pure (.inl (.token (Nat.le_succ _) rfl rfl))
    · exact .pure (.inl (.token whole rfl rfl))
  case leading => exact .token (List.length_tail ▸ Nat.sub_le _ _) rfl rfl
  case quote =>
    have shorter := length_dropWhile_le (· == '\'') rest
    dsimp only
    split
    · exact .ite (fun _ => .refuse _ _) fun _ => .pure (.inl (.token shorter rfl rfl))
    · exact .refuse _ _
  case text | braced => exact .token (readString_shortens read) rfl rfl
  case hash => exact .token (readHash_noWord read).1 rfl (readHash_noWord read).2
  case file =>
    split
    · exact .bind fun _ read =>
        .pure (.inl (.token (Nat.le_succ_of_le (readString_shortens read)) rfl rfl))
    · exact .pure (.inl (.token (takeLexeme_shortens _ _ _ _) rfl rfl))
  case tag =>
    have shorter := length_dropWhile_le (· != '>') rest
    exact .token (Nat.le_trans (List.length_tail ▸ Nat.sub_le _ _) shorter) rfl rfl
  case begins =>
    simp only [Bool.not_eq_true, Bool.or_eq_false_iff, beq_eq_false_iff_ne, Bool.and_eq_false_iff]
      at newline blank comment opening closing marked quote slash text braced stray hash file tag
    refine ⟨?_, slash, quote, hash, file, fun same => ?_, fun sign => ?_⟩
    · simp [isDelimiter, blank, comment, opening, closing, text, braced, stray]
    · exact tag.resolve_left (absurd same)
    · exact marked.resolve_left fun apart => sign.elim apart.1 apart.2

end Lexer

theorem readNumber_noWord {line : Nat} {cs : List Char} {lexeme : Lexeme}
    (read : readNumber line cs = .ok lexeme) : isWord lexeme = false := by
  unfold readNumber at read
  dsimp only at read
  split at read
  · split at read
    · cases read
      rfl
    · cases read
  · split_ifs at read
    · obtain ⟨_, -, given⟩ := Except.bind_eq_ok read
      cases given
      rfl
    · obtain ⟨_, -, given⟩ := Except.map_eq_ok read
      cases given
      rfl
    · obtain ⟨_, -, given⟩ := Except.bind_eq_ok read
      cases given
      rfl
    · obtain ⟨_, -, given⟩ := Except.map_eq_ok read
      cases given
      rfl
    · obtain ⟨_, -, given⟩ := Except.map_eq_ok read
      cases given
      rfl
    · obtain ⟨_, -, given⟩ := Except.map_eq_ok read
      cases given
      rfl

/-- What a run of characters is not if it is read as a word. -/
structure Wordlike (first : Char) (later : List Char) : Prop where
  noBlank : first :: later ≠ ['_']
  noBar : first :: later ≠ ['|']
  noAddress : (hasScheme (first :: later) ||
    ("mailto:".toList.isPrefixOf (first :: later) && 7 < (first :: later).length)) = false
  noMoney : (first == '$') = false
  noNumber : (first.isDigit || ((first == '-' || first == '+' || first == '.') &&
    (later.head?.map Char.isDigit).getD false)) = false
  noEmail : ((first :: later).contains '@' && first != '@' &&
    (first :: later).getLast? != some ':') = false

theorem Wordlike.classify {first : Char} {later : List Char} (wordlike : Wordlike first later)
    (line : Nat) : classify line (first :: later) = readWord line (first :: later) := by
  unfold Token.classify
  split
  · rename_i same
    cases same
  · rename_i same
    exact absurd same wordlike.noBlank
  · rename_i same
    exact absurd same wordlike.noBar
  · rename_i same
    cases same
    simp only [wordlike.noAddress, wordlike.noMoney, wordlike.noNumber, wordlike.noEmail,
      Bool.false_eq_true, if_false]

theorem classify_word {line : Nat} {cs : List Char} {name : String} {mark : Mark}
    (read : classify line cs = .ok (.word name mark)) :
    ∃ first later, cs = first :: later ∧ Wordlike first later ∧
      readWord line cs = .ok (.word name mark) := by
  unfold classify at read
  split at read
  · cases read
  · cases read
  · cases read
  · rename_i first later noBlank noBar
    by_cases address : (hasScheme (first :: later) ||
        ("mailto:".toList.isPrefixOf (first :: later) && 7 < (first :: later).length)) = true
    · rw [if_pos address] at read
      cases read
    rw [if_neg address] at read
    by_cases money : (first == '$') = true
    · rw [if_pos money] at read
      obtain ⟨_, -, given⟩ := Except.map_eq_ok read
      cases given
    rw [if_neg money] at read
    by_cases number : (first.isDigit || ((first == '-' || first == '+' || first == '.') &&
        (later.head?.map Char.isDigit).getD false)) = true
    · rw [if_pos number] at read
      cases readNumber_noWord read
    rw [if_neg number] at read
    by_cases email : ((first :: later).contains '@' && first != '@' &&
        (first :: later).getLast? != some ':') = true
    · rw [if_pos email] at read
      cases read
    rw [if_neg email] at read
    exact ⟨first, later, rfl, ⟨by simpa using noBlank, by simpa using noBar, Bool.eq_false_iff.mpr address,
      Bool.eq_false_iff.mpr money, Bool.eq_false_iff.mpr number, Bool.eq_false_iff.mpr email⟩, read⟩

theorem ite_refuse_eq_ok {α : Type} {refused : Prop} [Decidable refused] {line : Nat}
    {cause : ScanCause} {a b : α}
    (read : (if refused then refuse line cause else pure a : Scan α) = .ok b) :
    ¬ refused ∧ a = b := by
  by_cases holds : refused
  · rw [if_pos holds] at read
    cases read
  · rw [if_neg holds] at read
    exact ⟨holds, Except.ok.inj read⟩

theorem readWord_eq_ok {line : Nat} {cs : List Char} {name : String} {mark : Mark}
    (read : readWord line cs = .ok (.word name mark)) :
    name.toList.length ≤ cs.length ∧
      (mark = .plain → name.toList = cs ∧ cs.head? ≠ some ':' ∧ cs.head? ≠ some '@' ∧ ':' ∉ cs) := by
  unfold readWord at read
  dsimp only at read
  split at read
  · obtain ⟨-, same⟩ := ite_refuse_eq_ok read
    cases same
    exact ⟨by simp, by simp⟩
  · obtain ⟨-, same⟩ := ite_refuse_eq_ok read
    cases same
    exact ⟨by simp, by simp⟩
  · rename_i noGet noSym
    by_cases set : (cs.getLast? == some ':') = true
    · simp only [if_pos set] at read
      obtain ⟨-, same⟩ := ite_refuse_eq_ok read
      cases same
      exact ⟨by simp, by simp⟩
    · simp only [if_neg set] at read
      obtain ⟨accepted, same⟩ := ite_refuse_eq_ok read
      cases same
      refine ⟨by simp, fun _ => ⟨by simp, ?_, ?_, ?_⟩⟩
      · cases cs with
        | nil => simp
        | cons c cs => simpa using fun same => noGet cs (by rw [same])
      · cases cs with
        | nil => simp
        | cons c cs => simpa using fun same => noSym cs (by rw [same])
      · simp only [Bool.or_eq_true, not_or, List.contains_iff_mem] at accepted
        exact accepted.1.2

/-- The words among some tokens have at most so many characters. -/
def WordsWithin (length : Nat) (tokens : List Token) : Prop :=
  ∀ token ∈ tokens, ∀ name mark, token.lexeme = .word name mark → name.toList.length ≤ length

theorem wordsWithin_of_isWord {length : Nat} {tokens : List Token}
    (noWord : ∀ token ∈ tokens, isWord token.lexeme = false) : WordsWithin length tokens := by
  intro token member name mark word
  have wordless := noWord token member
  rw [word] at wordless
  cases wordless

theorem length_of_classify {line length : Nat} {cs : List Char} {name : String} {mark : Mark}
    (read : classify line cs = .ok (.word name mark)) (short : cs.length ≤ length) :
    name.toList.length ≤ length := by
  obtain ⟨_, _, -, -, word⟩ := classify_word read
  exact Nat.le_trans (readWord_eq_ok word).1 short

theorem Lexer.readRun_words {s next : Lexer} (read : s.readRun = .ok next) :
    next.rest.length ≤ s.rest.length ∧ ∃ new, next.reversed = new ++ s.reversed ∧
      WordsWithin s.rest.length new := by
  have whole := congrArg List.length (takeLexeme_parts true [] false s.rest).1
  rw [List.length_append] at whole
  unfold readRun at read
  dsimp only at read
  split_ifs at read with marked
  · obtain ⟨lexeme, classified, given⟩ := Except.bind_eq_ok read
    cases given
    refine ⟨takeLexeme_shortens _ _ _ _, [_, _], rfl, fun token member name mark word => ?_⟩
    rcases List.mem_cons.mp member with rfl | member
    · cases word
    · cases List.mem_singleton.mp member
      cases word
      refine length_of_classify classified ?_
      rw [List.length_dropLast]
      omega
  · obtain ⟨lexeme, classified, given⟩ := Except.bind_eq_ok read
    cases given
    refine ⟨takeLexeme_shortens _ _ _ _, [_], rfl, fun token member name mark word => ?_⟩
    cases List.mem_singleton.mp member
    cases word
    exact length_of_classify classified (by omega)

/-- The words of a text are no longer than the text. -/
theorem Lexer.run_words {steps : Nat} {s : Lexer} {tokens : List Token}
    (read : s.run steps = .ok tokens) : ∃ new, tokens = s.reversed.reverse ++ new ∧
      WordsWithin s.rest.length new := by
  induction steps generalizing s with
  | zero =>
      cases read
      exact ⟨[], by simp, fun _ member => nomatch member⟩
  | succ steps ih =>
      unfold run at read
      split at read
      · cases read
        exact ⟨[], by simp, fun _ member => nomatch member⟩
      · rename_i c rest begins
        obtain ⟨next, stepped, onward⟩ := Except.bind_eq_ok read
        obtain ⟨later, tokensEq, within⟩ := ih onward
        have added : next.rest.length ≤ s.rest.length ∧ ∃ new, next.reversed = new ++ s.reversed ∧
            WordsWithin s.rest.length new := by
          rcases step_cases _ _ _ next stepped with wordless | ⟨-, ran⟩
          · obtain ⟨new, same, noWord⟩ := wordless.reversed
            have shorter := wordless.shortens
            exact ⟨by rw [begins, List.length_cons]; omega, new, same, wordsWithin_of_isWord noWord⟩
          · exact readRun_words ran
        obtain ⟨shorter, new, same, withinNew⟩ := added
        refine ⟨new.reverse ++ later, by rw [tokensEq, same]; simp, fun token member => ?_⟩
        rcases List.mem_append.mp member with member | member
        · exact withinNew token (List.mem_reverse.mp member)
        · intro name mark word
          exact Nat.le_trans (within token member name mark word) shorter

/-- A spelling that is read as one plain word, and cannot be taken for the beginning of a tag. -/
structure IsName (name : String) : Prop where
  reads : ∃ token, tokenize name = .ok [token] ∧ token.lexeme = .word name .plain
  noTag : name.toList.head? ≠ some '<'

/-- What makes a spelling a name: the run of its characters is read as that word. -/
theorem IsName.run {name : String} (isName : IsName name) :
    ∃ first later, name.toList = first :: later ∧ Begins first later ∧
      takeLexeme true [] false (first :: later) = (first :: later, []) ∧
      classify 1 (first :: later) = .ok (.word name .plain) := by
  obtain ⟨token, tokenized, word⟩ := isName.reads
  unfold tokenize at tokenized
  cases spelled : name.toList with
  | nil =>
      rw [spelled] at tokenized
      cases tokenized
  | cons first later =>
      rw [spelled, List.length_cons] at tokenized
      unfold Lexer.run at tokenized
      dsimp only at tokenized
      obtain ⟨next, stepped, onward⟩ := Except.bind_eq_ok tokenized
      obtain ⟨new, tokens, within⟩ := Lexer.run_words onward
      refine ⟨first, later, rfl, ?_⟩
      rcases Lexer.step_cases _ _ _ next stepped with wordless | ⟨begins, ran⟩
      · exfalso
        obtain ⟨early, same, noWord⟩ := wordless.reversed
        have member : token ∈ next.reversed.reverse ++ new := by
          rw [← tokens]
          exact List.mem_singleton.mpr rfl
        rcases List.mem_append.mp member with member | member
        · have wordless := noWord token (by simpa [same] using member)
          rw [word] at wordless
          cases wordless
        · have short := within token member name .plain word
          have shorter := wordless.shortens
          rw [spelled, List.length_cons] at short
          omega
      · refine ⟨begins, ?_⟩
        unfold Lexer.readRun at ran
        dsimp only at ran
        split_ifs at ran with marked
        · obtain ⟨lexeme, -, given⟩ := Except.bind_eq_ok ran
          cases given
          have count := congrArg List.length tokens
          simp [Lexer.emit] at count
        · obtain ⟨lexeme, classified, given⟩ := Except.bind_eq_ok ran
          cases given
          simp only [Lexer.emit, List.reverse_cons, List.reverse_nil, List.nil_append,
            List.cons_append, List.cons.injEq] at tokens
          obtain ⟨same, -⟩ := tokens
          rw [same] at word
          dsimp only at word
          rw [word] at classified
          obtain ⟨_, _, -, -, asWord⟩ := classify_word classified
          have run := ((readWord_eq_ok asWord).2 rfl).1
          have whole := (takeLexeme_parts true [] false (first :: later)).1
          rw [← run, spelled, List.append_right_eq_self] at whole
          rw [← run, spelled] at classified
          exact ⟨Prod.ext (run.symm.trans spelled) whole, classified⟩

/-! ## Runs that are read back -/

/-- A run of characters that is read as one unit, whatever follows it. -/
structure Reads (first : Char) (later : List Char) (lexeme : Lexeme) : Prop where
  plain : ∀ c ∈ first :: later, isDelimiter c = false ∧ c ≠ '/'
  begins : first ∉ ['\'', '#', '%', '<']
  marked : first = ':' ∨ first = '@' → later ≠ []
  classified : ∀ line, classify line (first :: later) = .ok lexeme
  unset : (first :: later).getLast? = some ':' → first.isDigit = false

theorem Reads.beginsRun {first : Char} {later : List Char} {lexeme : Lexeme}
    (reads : Reads first later lexeme) (tail : List Char) : Begins first (later ++ tail) := by
  obtain ⟨noQuote, noHash, noFile, noTag⟩ : first ≠ '\'' ∧ first ≠ '#' ∧ first ≠ '%' ∧ first ≠ '<' := by
    simpa using reads.begins
  have here := reads.plain first List.mem_cons_self
  refine ⟨here.1, here.2, noQuote, noHash, noFile, fun same => absurd same noTag, fun sign => ?_⟩
  cases later with
  | nil => exact absurd rfl (reads.marked sign)
  | cons next later =>
      have plain := (reads.plain next (by simp)).1
      have block : next ≠ '[' := ne_of_not_isDelimiter plain (by decide)
      have group : next ≠ '(' := ne_of_not_isDelimiter plain (by decide)
      simpa using ⟨block, group⟩

theorem Reads.step {first : Char} {later : List Char} {lexeme : Lexeme}
    (reads : Reads first later lexeme) {tail : List Char} (stops : Stops (first :: later) tail)
    {s : Lexer} (rest : s.rest = first :: later ++ tail) :
    s.step first (later ++ tail) = .ok (s.emit lexeme ⟨tail, s.line⟩) := by
  have taken : takeLexeme true [] false s.rest = (first :: later, tail) := by
    rw [rest]
    exact takeLexeme_append [] reads.plain stops
  rw [(reads.beginsRun tail).step]
  unfold Lexer.readRun
  rw [taken]
  dsimp only
  rw [if_neg, reads.classified]
  · rfl
  · rw [Bool.and_eq_true, Bool.and_eq_true, Bool.and_eq_true]
    rintro ⟨⟨⟨set, -⟩, digit⟩, -⟩
    have set := beq_iff_eq.mp set
    cases later with
    | nil => simp at digit
    | cons next later =>
        rw [List.dropLast_cons_of_ne_nil (List.cons_ne_nil _ _)] at digit
        have plain := reads.unset set
        simp [plain] at digit

/-- Behind a slash the mark of a number is a unit of its own. -/
theorem Reads.step_setMark {first : Char} {later : List Char} {lexeme : Lexeme}
    (reads : Reads first later lexeme) (digit : first.isDigit = true)
    (noMark : ':' ∉ first :: later) {tail : List Char}
    (stops : Stops (first :: later ++ [':']) tail) {s : Lexer} (behind : s.afterSlash = true)
    (rest : s.rest = first :: later ++ ':' :: tail) :
    s.step first (later ++ ':' :: tail) =
      .ok ((s.emit lexeme ⟨tail, s.line⟩).emit .setMark ⟨tail, s.line⟩) := by
  have plain : ∀ c ∈ first :: later ++ [':'], isDelimiter c = false ∧ c ≠ '/' := by
    intro c member
    rcases List.mem_append.mp member with member | member
    · exact reads.plain c member
    · cases List.mem_singleton.mp member
      decide
  have taken : takeLexeme true [] false s.rest = (first :: later ++ [':'], tail) := by
    rw [rest, List.append_cons]
    exact takeLexeme_append [] plain stops
  rw [(reads.beginsRun _).step]
  unfold Lexer.readRun
  rw [taken]
  dsimp only
  rw [List.dropLast_concat, List.getLast?_concat, behind, if_pos, reads.classified]
  · rfl
  · simpa [digit] using noMark

/-- The characters of a name. -/
structure NameChars (first : Char) (later : List Char) : Prop where
  plain : ∀ c ∈ first :: later, isDelimiter c = false ∧ c ≠ '/' ∧ c ≠ ':' ∧ c ≠ '@'
  begins : first ∉ ['\'', '#', '%', '<']
  wordlike : Wordlike first later

theorem IsName.chars {name : String} (isName : IsName name) :
    ∃ first later, name.toList = first :: later ∧ NameChars first later := by
  obtain ⟨first, later, spelled, begins, taken, classified⟩ := isName.run
  obtain ⟨_, _, same, wordlike, word⟩ := classify_word classified
  cases same
  obtain ⟨-, noGet, noSym, noMark⟩ := (readWord_eq_ok word).2 rfl
  have parts := (takeLexeme_parts true [] false (first :: later)).2
  have noSlash := slash_notMem_takeLexeme [] (first :: later)
  rw [taken] at parts noSlash
  have noAt : '@' ∉ first :: later := by
    intro member
    have last : (first :: later).getLast? ≠ some ':' :=
      fun ends => noMark (List.mem_of_getLast? ends)
    have email := wordlike.noEmail
    have notFirst : first ≠ '@' := fun same => noSym (by simp [same])
    rw [List.contains_iff_mem.mpr member] at email
    simp [notFirst, last] at email
  have noTag : first ≠ '<' := by
    intro same
    exact isName.noTag (by simp [spelled, same])
  refine ⟨first, later, spelled, fun c member => ⟨parts c member, ?_, ?_, ?_⟩, ?_, wordlike⟩
  · exact fun same => noSlash noMark List.not_mem_nil (same ▸ member)
  · exact fun same => noMark (same ▸ member)
  · exact fun same => noAt (same ▸ member)
  · simpa using ⟨begins.noQuote, begins.noHash, begins.noFile, noTag⟩

theorem hasScheme_of_noSlash {cs : List Char} (noSlash : '/' ∉ cs) : hasScheme cs = false := by
  induction cs with
  | nil => rfl
  | cons c cs ih =>
      have later : '/' ∉ cs := fun member => noSlash (List.mem_cons_of_mem c member)
      have noPrefix : ['/', '/'].isPrefixOf cs = false := by
        cases cs with
        | nil => rfl
        | cons d cs =>
            have other : ('/' == d) = false :=
              beq_eq_false_iff_ne.mpr fun same => later (same ▸ List.mem_cons_self)
            simp [List.isPrefixOf, other]
      simp [hasScheme, noPrefix, ih later]

/-- A name with a mark behind it is not an address, even if it is `mailto`. -/
theorem noMail_of_noMark {cs : List Char} (noMark : ':' ∉ cs) :
    ("mailto:".toList.isPrefixOf (cs ++ [':']) && 7 < (cs ++ [':']).length) = false := by
  rw [Bool.and_eq_false_iff]
  by_cases mail : "mailto:".toList.isPrefixOf (cs ++ [':']) = true
  · right
    obtain ⟨more, whole⟩ := List.isPrefixOf_iff_prefix.mp mail
    rcases List.eq_nil_or_concat more with rfl | ⟨front, last, rfl⟩
    · simp [← whole]
    · refine absurd ?_ noMark
      rw [List.concat_eq_append, ← List.append_assoc] at whole
      rw [← (List.append_inj' whole rfl).1]
      exact List.mem_append_left _ (by decide)
  · exact .inl (Bool.eq_false_iff.mpr mail)

namespace NameChars

variable {first : Char} {later : List Char}

theorem noSlash (chars : NameChars first later) : '/' ∉ first :: later :=
  fun member => (chars.plain '/' member).2.1 rfl

theorem noMark (chars : NameChars first later) : ':' ∉ first :: later :=
  fun member => (chars.plain ':' member).2.2.1 rfl

theorem noAt (chars : NameChars first later) : '@' ∉ first :: later :=
  fun member => (chars.plain '@' member).2.2.2 rfl

theorem noDigit (chars : NameChars first later) : first.isDigit = false := by
  have number := chars.wordlike.noNumber
  rw [Bool.or_eq_false_iff] at number
  exact number.1

theorem last (chars : NameChars first later) : (first :: later).getLast? ≠ some ':' :=
  fun ends => chars.noMark (List.mem_of_getLast? ends)

/-- The text of a name with a mark is the run that is read as the marked word. -/
theorem reads_plain (chars : NameChars first later) :
    Reads first later (.word (String.ofList (first :: later)) .plain) where
  plain c member := ⟨(chars.plain c member).1, (chars.plain c member).2.1⟩
  begins := chars.begins
  marked sign := by
    have here := chars.plain first List.mem_cons_self
    exact sign.elim (absurd · here.2.2.1) (absurd · here.2.2.2)
  classified line := by
    have here := chars.plain first List.mem_cons_self
    rw [chars.wordlike.classify]
    simp [readWord, here.2.2.1, here.2.2.2, chars.last, chars.noMark, chars.noDigit]
    rfl
  unset _ := chars.noDigit

theorem reads_set (chars : NameChars first later) :
    Reads first (later ++ [':']) (.word (String.ofList (first :: later)) .set) where
  plain c member := by
    rw [← List.cons_append] at member
    rcases List.mem_append.mp member with member | member
    · exact ⟨(chars.plain c member).1, (chars.plain c member).2.1⟩
    · cases List.mem_singleton.mp member
      decide
  begins := chars.begins
  marked _ := List.append_ne_nil_of_right_ne_nil _ (List.cons_ne_nil _ _)
  classified line := by
    have here := chars.plain first List.mem_cons_self
    have last : (first :: (later ++ [':'])).getLast? = some ':' := by
      rw [← List.cons_append, List.getLast?_concat]
    have front : (first :: (later ++ [':'])).dropLast = first :: later := by
      rw [← List.cons_append, List.dropLast_concat]
    have wordlike : Wordlike first (later ++ [':']) := by
      have number := chars.wordlike.noNumber
      refine ⟨by simp, by simp, ?_, chars.wordlike.noMoney, ?_, ?_⟩
      · rw [← List.cons_append, noMail_of_noMark chars.noMark, Bool.or_false]
        exact hasScheme_of_noSlash (by simpa using chars.noSlash)
      · cases later with
        | nil => simp [chars.noDigit]
        | cons next later => simpa using number
      · rw [last]
        simp
    rw [wordlike.classify]
    simp [readWord, here.2.2.1, here.2.2.2, last, front, chars.noMark, chars.noDigit]
    rfl
  unset _ := chars.noDigit

theorem reads_get (chars : NameChars first later) :
    Reads ':' (first :: later) (.word (String.ofList (first :: later)) .get) where
  plain c member := by
    rcases List.mem_cons.mp member with rfl | member
    · decide
    · exact ⟨(chars.plain c member).1, (chars.plain c member).2.1⟩
  begins := by decide
  marked _ := List.cons_ne_nil _ _
  classified line := by
    have wordlike : Wordlike ':' (first :: later) := by
      have noAt := chars.noAt
      refine ⟨by simp, by simp, ?_, rfl, rfl, ?_⟩
      · rw [hasScheme_of_noSlash (by simpa using chars.noSlash)]
        rfl
      · have absent : (':' :: first :: later).contains '@' = false := by
          simpa using noAt
        rw [absent]
        rfl
    rw [wordlike.classify]
    simp [readWord, chars.noMark, chars.noDigit]
    rfl
  unset _ := rfl

theorem reads_sym (chars : NameChars first later) :
    Reads '@' (first :: later) (.word (String.ofList (first :: later)) .sym) where
  plain c member := by
    rcases List.mem_cons.mp member with rfl | member
    · decide
    · exact ⟨(chars.plain c member).1, (chars.plain c member).2.1⟩
  begins := by decide
  marked _ := List.cons_ne_nil _ _
  classified line := by
    have wordlike : Wordlike '@' (first :: later) := by
      refine ⟨by simp, by simp, ?_, rfl, rfl, by simp⟩
      rw [hasScheme_of_noSlash (by simpa using chars.noSlash)]
      rfl
    rw [wordlike.classify]
    simp [readWord, chars.noMark, chars.noDigit]
    rfl
  unset _ := rfl

end NameChars

end Homoicon.Token
