import Homoicon.Proofs.Source.Finding
import Homoicon.Proofs.Source.Numerals

/-!
# Tokens stand for what is written

The scanner comes to an end on every text.  It breaks only at a binary literal that holds a
character of several bytes, and at a time whose nanoseconds are reckoned beyond 64 bits; a literal
made of whole numbers stands for the number written, and any other that is out of range is refused.
-/

namespace Homoicon.Token

/-! ## What cannot break -/

/-- A text is read or refused. -/
def Steady {α : Type} (read : Scan α) : Prop := read ≠ .error .defect

namespace Steady

variable {α β : Type}

theorem pure (a : α) : Steady (Pure.pure a) := nofun

theorem refuse (line : Nat) (cause : ScanCause) : Steady (refuse line cause : Scan α) := nofun

theorem bind {read : Scan α} {next : α → Scan β} (steady : Steady read)
    (onward : ∀ a, read = .ok a → Steady (next a)) : Steady (read >>= next) := by
  cases read with
  | error fault =>
      intro broken
      cases broken
      exact steady rfl
  | ok a => exact onward a rfl

theorem map {read : Scan α} (steady : Steady read) (f : α → β) : Steady (f <$> read) := by
  cases read with
  | error fault =>
      intro broken
      cases broken
      exact steady rfl
  | ok a => exact nofun

theorem ite {p : Prop} [Decidable p] {yes no : Scan α} (first : p → Steady yes)
    (second : ¬ p → Steady no) : Steady (if p then yes else no) := by
  split_ifs with holds
  · exact first holds
  · exact second holds

theorem orRefuse (line : Nat) (cause : String → ScanCause) (cs : List Char) (value : Option α) :
    Steady (orRefuse line cause cs value) := by
  cases value <;> exact nofun

end Steady

theorem readNumber_breaks {line : Nat} {cs : List Char}
    (broken : readNumber line cs = .error .defect) : SpellsVast cs := by
  by_contra reckoned
  have time : Steady (Lexeme.time <$> readTime line cs) :=
    .map (fun fault => reckoned (readTime_exact.2 fault)) _
  refine absurd broken (?_ : Steady _)
  unfold readNumber
  dsimp only
  split
  · split
    · exact .pure _
    · exact .refuse _ _
  · repeat' first
      | exact time
      | exact .pure _
      | exact .orRefuse _ _ _ _
      | refine .ite (fun _ => ?_) (fun _ => ?_)
      | refine .map ?_ _

theorem classify_breaks {line : Nat} {cs : List Char}
    (broken : classify line cs = .error .defect) : SpellsVast cs := by
  by_contra reckoned
  have number : Steady (readNumber line cs) := fun fault => reckoned (readNumber_breaks fault)
  refine absurd broken (?_ : Steady _)
  unfold classify
  split
  · exact .refuse _ _
  · exact .pure _
  · exact .pure _
  · refine .ite (fun _ => .pure _) fun _ => .ite (fun _ => .map (.orRefuse _ _ _ _) _) fun _ =>
      .ite (fun _ => number) fun _ => .ite (fun _ => .pure _) fun _ => ?_
    unfold readWord
    exact .ite (fun _ => .refuse _ _) fun _ => .pure _

theorem readString_steady (braced : Bool) (depth : Nat) (escape : Escape) (reversed : List Char)
    (line : Nat) (cs : List Char) : Steady (readString braced depth escape reversed line cs) := by
  induction cs generalizing depth escape reversed line with
  | nil => cases escape <;> exact nofun
  | cons c cs ih =>
      cases escape with
      | caret =>
          unfold readString
          exact .ite (fun _ => ih _ _ _ _) fun _ => ih _ _ _ _
      | name name =>
          unfold readString
          refine .ite (fun _ => ?_) fun _ => ih _ _ _ _
          split
          · exact ih _ _ _ _
          · exact .refuse _ _
      | none =>
          unfold readString
          refine .ite (fun _ => ih _ _ _ _) fun _ => .ite (fun _ => .ite (fun _ => ih _ _ _ _)
            fun _ => .ite (fun _ => ?_) fun _ => ih _ _ _ _) fun _ => .ite (fun _ => .pure _)
              fun _ => .ite (fun _ => .refuse _ _) fun _ => ih _ _ _ _
          cases depth with
          | zero => exact .pure _
          | succ depth => exact ih _ _ _ _

/-! ## Binary literals -/

/-- Characters of one byte each. -/
def Narrow (cs : List Char) : Prop := ∀ c ∈ cs, c.utf8Size = 1

theorem Narrow.utf8ByteSize {cs : List Char} (narrow : Narrow cs) :
    (String.ofList cs).utf8ByteSize = cs.length := by
  induction cs with
  | nil => rfl
  | cons c cs ih =>
      have one := narrow c List.mem_cons_self
      have more := ih fun d member => narrow d (List.mem_cons_of_mem c member)
      rw [String.ofList_cons, String.utf8ByteSize_append, String.utf8ByteSize_singleton, one, more,
        List.length_cons, Nat.add_comm]

theorem Narrow.hexBytes_steady (line : Nat) (digits : String) : {cs : List Char} → Narrow cs →
    cs.length % 2 = 0 → Steady (hexBytes line digits cs)
  | [], _, _ => .pure _
  | [_], _, odd => nomatch odd
  | c :: d :: cs, narrow, even => by
      have first : c.utf8Size = 1 := narrow c (by simp)
      have second : d.utf8Size = 1 := narrow d (by simp)
      have later : Narrow cs := fun e member => narrow e (by simp [member])
      unfold hexBytes
      simp only [first, second]
      refine .ite (fun wide => nomatch wide) fun _ => .ite (fun wide => nomatch wide) fun _ =>
        .ite (fun wide => nomatch wide) fun _ => ?_
      split
      · exact .map (later.hexBytes_steady line digits (by rw [List.length_cons, List.length_cons] at even; omega)) _
      · exact .refuse _ _

/-- A binary literal that holds a character of several bytes stands in a text. -/
def WideBinary (cs : List Char) : Prop :=
  ∃ content, '#' :: '\x7b' :: (content ++ ['\x7d']) <:+: cs ∧ ∃ c ∈ content, c.utf8Size ≠ 1

theorem WideBinary.mono {cs ds : List Char} (wide : WideBinary cs) (inside : cs <:+: ds) :
    WideBinary ds :=
  wide.imp fun _ holds => holds.imp_left (·.trans inside)

theorem takeWhile_close {close c : Char} {cs rest : List Char}
    (found : cs.dropWhile (· != close) = c :: rest) :
    cs.takeWhile (· != close) ++ [close] <+: cs ∧ close ∉ cs.takeWhile (· != close) := by
  cases eq_of_dropWhile found
  refine ⟨⟨rest, ?_⟩, fun member => ?_⟩
  · rw [List.append_assoc, List.singleton_append, ← found, List.takeWhile_append_dropWhile]
  · have all := List.all_takeWhile (p := (· != close)) (l := cs)
    rw [List.all_eq_true] at all
    simpa using all close member

theorem readBinary_breaks {line : Nat} {cs : List Char}
    (broken : readBinary line cs = .error .defect) : WideBinary ('#' :: '\x7b' :: cs) := by
  unfold readBinary at broken
  dsimp only at broken
  split at broken
  · cases broken
  · rename_i found
    refine ⟨cs.takeWhile (· != '\x7d'), ?_, ?_⟩
    · exact List.IsPrefix.isInfix (by simpa using (takeWhile_close found).1)
    · by_contra wide
      have narrow : Narrow ((cs.takeWhile (· != '\x7d')).filter (!Text.isBlank ·)) :=
        fun c member => by
          by_contra more
          exact wide ⟨c, List.mem_of_mem_filter member, more⟩
      refine absurd broken (Steady.ite (fun _ => .refuse _ _) fun even => ?_)
      rw [narrow.utf8ByteSize] at even
      exact .bind (narrow.hexBytes_steady _ _ (by simpa using even)) fun _ _ => .pure _

theorem readHash_breaks {line : Nat} {cs : List Char}
    (broken : readHash line cs = .error .defect) : WideBinary ('#' :: cs) := by
  unfold readHash at broken
  split at broken
  · refine absurd broken (Steady.bind (readString_steady _ _ _ _ _ _) fun read _ => ?_)
    dsimp only
    split
    · exact .pure _
    · exact .refuse _ _
  · exact readBinary_breaks broken
  · unfold readConstruct at broken
    dsimp only at broken
    split at broken <;> cases broken
  · cases broken

/-- A time that cannot be reckoned in 64 bits stands in a text. -/
def VastTime (cs : List Char) : Prop := ∃ text, text <:+: cs ∧ SpellsVast text

theorem VastTime.mono {cs ds : List Char} (vast : VastTime cs) (inside : cs <:+: ds) :
    VastTime ds :=
  vast.imp fun _ holds => holds.imp_left (·.trans inside)

theorem findRun_breaks {line : Nat} {afterSlash : Bool} {cs : List Char}
    (broken : findRun line afterSlash cs = .error .defect) : VastTime cs := by
  obtain ⟨whole, -⟩ := takeLexeme_parts true [] false cs
  have run : (takeLexeme true [] false cs).1 <+: cs := ⟨_, whole⟩
  by_contra reckoned
  have steady {text : List Char} (begun : text <+: cs) : Steady (classify line text) :=
    fun fault => reckoned ⟨text, begun.isInfix, classify_breaks fault⟩
  refine absurd broken (?_ : Steady _)
  unfold findRun
  exact .ite (fun _ => .bind (steady ((List.dropLast_prefix _).trans run)) fun _ _ => .pure _)
    fun _ => .bind (steady run) fun _ _ => .pure _

theorem find_steady {line : Nat} {afterSlash : Bool} {c : Char} (other : c ≠ '#')
    {rest : List Char} (run : Steady (findRun line afterSlash (c :: rest))) :
    Steady (find line afterSlash c rest) := by
  unfold find
  refine .ite (fun _ => .pure _) fun _ => .ite (fun _ => .pure _) fun _ =>
    .ite (fun _ => .pure _) fun _ => .ite (fun _ => .pure _) fun _ =>
    .ite (fun _ => .ite (fun _ => .pure _) fun _ => .pure _) fun _ =>
    .ite (fun _ => .pure _) fun _ => .ite (fun _ => ?quote) fun _ => .ite (fun _ => .pure _) fun _ =>
    .ite (fun _ => .bind (readString_steady _ _ _ _ _ _) fun _ _ => .pure _) fun _ =>
    .ite (fun _ => .bind (readString_steady _ _ _ _ _ _) fun _ _ => .pure _) fun _ =>
    .ite (fun _ => .refuse _ _) fun _ => .ite (fun hash => absurd (beq_iff_eq.mp hash) other) fun _ =>
    .ite (fun _ => .ite (fun _ => .bind (readString_steady _ _ _ _ _ _) fun _ _ => .pure _) fun _ => .pure _)
    fun _ => .ite (fun _ => .pure _) fun _ => run
  dsimp only
  split
  · exact .ite (fun _ => .refuse _ _) fun _ => .pure _
  · exact .refuse _ _

/-- Something stands in a text at which the scanner breaks. -/
def Breaking (cs : List Char) : Prop := WideBinary cs ∨ VastTime cs

theorem Breaking.mono {cs ds : List Char} (breaking : Breaking cs) (inside : cs <:+: ds) :
    Breaking ds :=
  breaking.imp (·.mono inside) (·.mono inside)

theorem find_breaks {line : Nat} {afterSlash : Bool} {c : Char} {rest : List Char}
    (broken : find line afterSlash c rest = .error .defect) : Breaking (c :: rest) := by
  by_cases hash : c = '#'
  · subst hash
    have broken : (readHash line rest >>= fun read => pure (.token read.1 read.2) : Scan Found) =
      .error .defect := broken
    refine .inl ?_
    by_contra narrow
    exact Steady.bind (fun fault => narrow (readHash_breaks fault)) (fun _ _ => .pure _) broken
  · refine .inr ?_
    by_contra reckoned
    exact find_steady hash (fun fault => reckoned (findRun_breaks fault)) broken

/-! ## Tokens -/

/-- The lexeme that was found. -/
def Found.lexeme? : Found → Option Lexeme
  | .token lexeme _ | .marked lexeme _ => some lexeme
  | _ => none

theorem findRun_spelled {line : Nat} {afterSlash : Bool} {cs : List Char} {found : Found}
    {lexeme : Lexeme} (finds : findRun line afterSlash cs = .ok found)
    (holds : found.lexeme? = some lexeme) (counts : countsOut lexeme = true) :
    ∃ text, text <+: cs ∧ Spelled text lexeme := by
  obtain ⟨whole, -⟩ := takeLexeme_parts true [] false cs
  have run : (takeLexeme true [] false cs).1 <+: cs := ⟨_, whole⟩
  unfold findRun at finds
  dsimp only at finds
  split_ifs at finds
  · obtain ⟨value, classified, given⟩ := Except.bind_eq_ok finds
    cases given
    cases holds
    exact ⟨_, (List.dropLast_prefix _).trans run, classify_spelled classified counts⟩
  · obtain ⟨value, classified, given⟩ := Except.bind_eq_ok finds
    cases given
    cases holds
    exact ⟨_, run, classify_spelled classified counts⟩

theorem readHash_spelled {line : Nat} {cs : List Char} {lexeme : Lexeme} {cursor : Cursor}
    (read : readHash line cs = .ok (lexeme, cursor)) (counts : countsOut lexeme = true) :
    ∃ text, text <+: '#' :: cs ∧ Spelled text lexeme := by
  unfold readHash at read
  split at read
  · obtain ⟨⟨content, after⟩, -, given⟩ := Except.bind_eq_ok read
    dsimp only at given
    split at given
    · cases given
      cases counts
    · cases given
  · rename_i rest
    unfold readBinary at read
    dsimp only at read
    split at read
    · cases read
    · rename_i found
      split_ifs at read
      · cases read
      obtain ⟨bytes, hex, given⟩ := Except.bind_eq_ok read
      cases given
      obtain ⟨closed, apart⟩ := takeWhile_close found
      exact ⟨_, by simpa using closed, .binary apart (hexBytes_eq_ok hex)⟩
  · unfold readConstruct at read
    dsimp only at read
    split at read
    · cases read
    · cases read
      cases counts
  · cases read
    cases counts

/-- What is found, if anything is, is spelled at the beginning of a text if it counts out. -/
def Faithful (cs : List Char) (finds : Scan Found) : Prop :=
  ∀ found, finds = .ok found → ∀ lexeme, found.lexeme? = some lexeme → countsOut lexeme = true →
    ∃ text, text <+: cs ∧ Spelled text lexeme

namespace Faithful

variable {cs : List Char}

theorem pure {found : Found}
    (silent : ∀ lexeme, found.lexeme? = some lexeme → countsOut lexeme = false) :
    Faithful cs (Pure.pure found) := by
  rintro _ ⟨⟩ lexeme holds counts
  rw [silent lexeme holds] at counts
  cases counts

theorem token {lexeme : Lexeme} {cursor : Cursor} (silent : countsOut lexeme = false) :
    Faithful cs (Pure.pure (.token lexeme cursor)) :=
  .pure fun _ holds => by
    cases holds
    exact silent

theorem refuse (line : Nat) (cause : ScanCause) : Faithful cs (refuse line cause) := nofun

theorem bind {α : Type} {read : Scan α} {next : α → Scan Found}
    (onward : ∀ a, Faithful cs (next a)) : Faithful cs (read >>= next) := by
  intro found finds
  obtain ⟨a, -, given⟩ := Except.bind_eq_ok finds
  exact onward a found given

theorem ite {p : Prop} [Decidable p] {yes no : Scan Found} (first : p → Faithful cs yes)
    (second : ¬ p → Faithful cs no) : Faithful cs (if p then yes else no) := by
  split_ifs with holds
  · exact first holds
  · exact second holds

end Faithful

theorem find_faithful (line : Nat) (afterSlash : Bool) (c : Char) (rest : List Char) :
    Faithful (c :: rest) (find line afterSlash c rest) := by
  have quiet {found : Found} (none : found.lexeme? = none) :
      Faithful (c :: rest) (pure found) := .pure fun _ holds => by
    rw [none] at holds
    cases holds
  unfold find
  refine .ite (fun _ => quiet rfl) fun _ => .ite (fun _ => quiet rfl) fun _ =>
    .ite (fun _ => quiet rfl) fun _ => .ite (fun _ => quiet rfl) fun _ =>
    .ite (fun _ => .ite (fun _ => .token rfl) fun _ => .token rfl) fun _ =>
    .ite (fun _ => quiet rfl) fun _ => .ite (fun _ => ?quote) fun _ => .ite (fun _ => .token rfl)
    fun _ => .ite (fun _ => .bind fun _ => .token rfl) fun _ =>
    .ite (fun _ => .bind fun _ => .token rfl) fun _ => .ite (fun _ => .refuse _ _) fun _ =>
    .ite (fun hash => ?hash) fun _ =>
    .ite (fun _ => .ite (fun _ => .bind fun _ => .token rfl) fun _ => .token rfl) fun _ =>
    .ite (fun _ => .token rfl) fun _ _ finds _ => findRun_spelled finds
  case quote =>
    dsimp only
    split
    · exact .ite (fun _ => .refuse _ _) fun _ => .token rfl
    · exact .refuse _ _
  case hash =>
    intro found finds lexeme holds counts
    obtain ⟨⟨literal, cursor⟩, read, given⟩ := Except.bind_eq_ok finds
    cases given
    cases holds
    rw [beq_iff_eq.mp hash]
    exact readHash_spelled read counts

/-- The tokens that count out are spelled in a text. -/
def AllSpelled (cs : List Char) (tokens : List Token) : Prop :=
  ∀ token ∈ tokens, countsOut token.lexeme = true → ∃ text, text <:+: cs ∧ Spelled text token.lexeme

theorem Lexer.mem_record {s : Lexer} {found : Found} {token : Token}
    (member : token ∈ (s.record found).reversed) (counts : countsOut token.lexeme = true) :
    token ∈ s.reversed ∨ found.lexeme? = some token.lexeme := by
  cases found with
  | lineBreak | gap | comment => exact .inl member
  | opening =>
      rcases List.mem_cons.mp member with rfl | member
      · cases counts
      · exact .inl member
  | token =>
      rcases List.mem_cons.mp member with rfl | member
      · exact .inr rfl
      · exact .inl member
  | marked =>
      rcases List.mem_cons.mp member with rfl | member
      · cases counts
      · rcases List.mem_cons.mp member with rfl | member
        · exact .inr rfl
        · exact .inl member

/-- A step breaks at a wide binary or a vast time only, and what it reads is spelled where it
stands. -/
theorem Lexer.step_exact {s : Lexer} {c : Char} {rest cs : List Char} (begins : s.rest = c :: rest)
    (inside : s.rest <:+ cs) (spelled : AllSpelled cs s.reversed) :
    (s.step c rest = .error .defect → Breaking cs) ∧
      ∀ next, s.step c rest = .ok next → next.rest <:+ cs ∧ AllSpelled cs next.reversed := by
  rw [begins] at inside
  refine ⟨fun broken => ?_, fun next stepped => ⟨?_, fun token member counts => ?_⟩⟩
  · rw [step_eq s begins] at broken
    cases finds : find s.line s.afterSlash c rest with
    | ok => rw [finds] at broken; cases broken
    | error fault =>
        rw [finds] at broken
        cases broken
        exact (find_breaks finds).mono inside.isInfix
  · obtain ⟨passed, whole, -⟩ := step_spans begins stepped
    exact (List.IsSuffix.trans ⟨passed, whole⟩ (List.suffix_cons c rest)).trans inside
  · rw [step_eq s begins] at stepped
    obtain ⟨found, finds, rfl⟩ := Except.map_eq_ok stepped
    rcases mem_record member counts with earlier | holds
    · exact spelled token earlier counts
    · obtain ⟨text, begun, spells⟩ := find_faithful _ _ _ _ found finds _ holds counts
      exact ⟨text, begun.isInfix.trans inside.isInfix, spells⟩

theorem Lexer.run_exact {cs : List Char} {steps : Nat} {s : Lexer} (inside : s.rest <:+ cs)
    (spelled : AllSpelled cs s.reversed) :
    (s.run steps = .error .defect → Breaking cs) ∧
      ∀ tokens, s.run steps = .ok tokens → AllSpelled cs tokens := by
  have finished : AllSpelled cs s.reversed.reverse :=
    fun token member => spelled token (List.mem_reverse.mp member)
  induction steps generalizing s with
  | zero => exact ⟨nofun, fun tokens ends => by cases ends; exact finished⟩
  | succ steps ih =>
      unfold run
      split
      · exact ⟨nofun, fun tokens ends => by cases ends; exact finished⟩
      · rename_i c rest begins
        obtain ⟨breaks, onward⟩ := step_exact begins inside spelled
        cases stepped : s.step c rest with
        | error fault =>
            refine ⟨fun broken => breaks ?_, nofun⟩
            cases broken
            exact stepped
        | ok next =>
            obtain ⟨later, known⟩ := onward next stepped
            exact ih later known fun token member => known token (List.mem_reverse.mp member)

end Homoicon.Token
