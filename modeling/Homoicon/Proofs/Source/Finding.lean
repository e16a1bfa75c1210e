import Homoicon.Proofs.Source.Names

/-!
# What one step of the scanner finds

A step looks at the text, at the line it is on and at whether a slash stands right before, and at
nothing else of the state.  What it finds is a value of its own here, which the state then records,
so that facts about single steps are facts about texts.
-/

namespace Homoicon.Token

/-- What stands at the beginning of a text, with the text behind it. -/
inductive Found where
  | lineBreak (rest : List Char)
  | gap (rest : List Char)
  | comment (rest : List Char)
  | opening (bracket : Char) (mark : Mark) (rest : List Char)
  | token (lexeme : Lexeme) (cursor : Cursor)
  /-- A number at the end of a path with the mark of the whole path. -/
  | marked (lexeme : Lexeme) (rest : List Char)

/-- Looks at a run of characters between delimiters. -/
def findRun (line : Nat) (afterSlash : Bool) (cs : List Char) : Scan Found := do
  let (lexeme, rest) := takeLexeme true [] false cs
  let stem := lexeme.dropLast
  if lexeme.getLast? == some ':' && afterSlash && (stem.head?.map Char.isDigit).getD false &&
      !stem.contains ':' then
    let value ← classify line stem
    pure (.marked value rest)
  else
    let value ← classify line lexeme
    pure (.token value ⟨rest, line⟩)

/-- Looks at the beginning of a text. -/
def find (line : Nat) (afterSlash : Bool) (c : Char) (rest : List Char) : Scan Found :=
  if c == '\n' then pure (.lineBreak rest)
  else if Text.isBlank c then pure (.gap rest)
  else if c == ';' then pure (.comment (rest.dropWhile (· != '\n')))
  else if c == '[' || c == '(' then pure (.opening c .plain rest)
  else if c == ']' || c == ')' then
    let bracket := if c == ']' then Bracket.block else Bracket.group
    if rest.head? == some ':' then pure (.token (.closing bracket true) ⟨rest.tail, line⟩)
    else pure (.token (.closing bracket false) ⟨rest, line⟩)
  else if (c == ':' || c == '@') && (rest.head? == some '[' || rest.head? == some '(') then
    pure (.opening (rest.headD '[') (if c == ':' then .get else .sym) rest.tail)
  else if c == '\'' then
    let depth := (rest.takeWhile (· == '\'')).length + 1
    let rest := rest.dropWhile (· == '\'')
    match rest with
    | next :: _ =>
      if Text.isBlank next || next == ']' || next == ')' then refuse line .loneApostrophe
      else pure (.token (.quote depth) ⟨rest, line⟩)
    | [] => refuse line .loneApostrophe
  else if c == '/' then pure (.token .slash ⟨rest, line⟩)
  else if c == '"' then do
    let (content, cursor) ← readQuoted line rest
    pure (.token (.text .text (String.ofList content)) cursor)
  else if c == '\x7b' then do
    let (content, cursor) ← readBraced line rest
    pure (.token (.text .text (String.ofList content)) cursor)
  else if c == '\x7d' then refuse line .strayBrace
  else if c == '#' then do
    let (lexeme, cursor) ← readHash line rest
    pure (.token lexeme cursor)
  else if c == '%' then
    if rest.head? == some '"' then do
      let (content, cursor) ← readQuoted line rest.tail
      pure (.token (.text .file (String.ofList content)) cursor)
    else
      let (lexeme, rest) := takeLexeme false [] false rest
      pure (.token (.text .file (String.ofList lexeme)) ⟨rest, line⟩)
  else if c == '<' && opensTag rest then
    let content := rest.takeWhile (· != '>')
    pure (.token (.text .tag (String.ofList content)) ⟨(rest.dropWhile (· != '>')).tail, line⟩)
  else findRun line afterSlash (c :: rest)

/-- The state after something was found. -/
def Lexer.record (s : Lexer) : Found → Lexer
  | .lineBreak rest => { s with rest := rest, line := s.line + 1, newline := true, joined := false }
  | .gap rest => { s with rest := rest, joined := false }
  | .comment rest => { s with rest := rest }
  | .opening bracket mark rest => s.emitOpening bracket mark rest
  | .token lexeme cursor => s.emit lexeme cursor
  | .marked lexeme rest => (s.emit lexeme ⟨rest, s.line⟩).emit .setMark ⟨rest, s.line⟩

theorem Lexer.readRun_eq (s : Lexer) :
    s.readRun = s.record <$> findRun s.line s.afterSlash s.rest := by
  unfold readRun findRun
  dsimp only
  split_ifs
  · cases classify s.line (takeLexeme true [] false s.rest).1.dropLast <;> rfl
  · cases classify s.line (takeLexeme true [] false s.rest).1 <;> rfl

theorem head?_ne {c : Char} {cs : List Char} (other : ∀ rest, cs = c :: rest → False) :
    ¬ (cs.head? == some c) = true := by
  cases cs with
  | nil => simp
  | cons d cs => simpa using fun same => other cs (by rw [same])

/-- Both sides of an equation decide alike. -/
theorem ite_eq_map {α β : Type} {f : α → β} {p : Prop} [Decidable p] {yes no : Scan β}
    {yes' no' : Scan α} (first : p → yes = f <$> yes') (second : ¬ p → no = f <$> no') :
    (if p then yes else no) = f <$> (if p then yes' else no') := by
  split_ifs with holds
  · exact first holds
  · exact second holds

/-- A step records what it finds. -/
theorem Lexer.step_eq (s : Lexer) {c : Char} {rest : List Char} (begins : s.rest = c :: rest) :
    s.step c rest = s.record <$> find s.line s.afterSlash c rest := by
  unfold step find
  refine ite_eq_map (fun _ => rfl) fun _ => ite_eq_map (fun _ => rfl) fun _ =>
    ite_eq_map (fun _ => rfl) fun _ => ite_eq_map (fun _ => rfl) fun _ =>
    ite_eq_map (fun _ => ?closing) fun _ => ite_eq_map (fun _ => rfl) fun _ =>
    ite_eq_map (fun _ => ?quote) fun _ => ite_eq_map (fun _ => rfl) fun _ =>
    ite_eq_map (fun _ => ?text) fun _ => ite_eq_map (fun _ => ?braced) fun _ =>
    ite_eq_map (fun _ => rfl) fun _ => ite_eq_map (fun _ => ?hash) fun _ =>
    ite_eq_map (fun _ => ?file) fun _ => ite_eq_map (fun _ => rfl) fun _ => ?run
  case closing =>
    dsimp only
    split
    · rfl
    · rename_i noMark
      rw [if_neg (head?_ne noMark)]
      rfl
  case quote =>
    dsimp only
    cases rest.dropWhile (· == '\'') with
    | nil => rfl
    | cons next later => exact ite_eq_map (fun _ => rfl) fun _ => rfl
  case text => cases readQuoted s.line rest <;> rfl
  case braced => cases readBraced s.line rest <;> rfl
  case hash => cases readHash s.line rest <;> rfl
  case file =>
    split
    · rename_i later _
      rw [if_pos (by rfl), List.tail_cons]
      cases readQuoted s.line later <;> rfl
    · rename_i noQuote
      rw [if_neg (head?_ne noQuote)]
      rfl
  case run => rw [readRun_eq, begins]

/-! ## What a step passes over -/

/-- A cursor further on in a text, on the line that the line breaks in between lead to. -/
def Spans (line : Nat) (cs : List Char) (cursor : Cursor) : Prop :=
  ∃ passed, passed ++ cursor.rest = cs ∧ cursor.line = line + newlines passed

namespace Spans

variable {line : Nat} {cs : List Char} {cursor : Cursor}

theorem length_le (spans : Spans line cs cursor) : cursor.rest.length ≤ cs.length := by
  obtain ⟨passed, rfl, -⟩ := spans
  simp

theorem newlines_eq (spans : Spans line cs cursor) :
    cursor.line + newlines cursor.rest = line + newlines cs := by
  obtain ⟨passed, rfl, lines⟩ := spans
  simp only [newlines, List.count_append] at lines ⊢
  omega

theorem refl (line : Nat) (cs : List Char) : Spans line cs ⟨cs, line⟩ := ⟨[], rfl, rfl⟩

theorem cons (c : Char) (spans : Spans (lineAfter c line) cs cursor) :
    Spans line (c :: cs) cursor := by
  obtain ⟨passed, rfl, lines⟩ := spans
  refine ⟨c :: passed, rfl, ?_⟩
  rw [lines]
  by_cases same : c = '\n'
  · simp [lineAfter, newlines, same]
    omega
  · simp [lineAfter, newlines, same]

theorem skip {c : Char} (other : c ≠ '\n') (spans : Spans line cs cursor) :
    Spans line (c :: cs) cursor :=
  .cons c (by rwa [lineAfter, if_neg (by simpa using other)])

theorem append (line : Nat) {passed : List Char} (unbroken : '\n' ∉ passed) (rest : List Char) :
    Spans line (passed ++ rest) ⟨rest, line⟩ :=
  ⟨passed, rfl, by simp [newlines, List.count_eq_zero.mpr unbroken]⟩

end Spans

theorem takeLexeme_spans (stop : Bool) (line : Nat) (cs : List Char) :
    Spans line cs ⟨(takeLexeme stop [] false cs).2, line⟩ := by
  obtain ⟨whole, plain⟩ := takeLexeme_parts stop [] false cs
  have unbroken : '\n' ∉ (takeLexeme stop [] false cs).1 := fun member =>
    absurd (plain '\n' member) (by decide)
  simpa only [whole] using Spans.append line unbroken (takeLexeme stop [] false cs).2

theorem readString_spans {braced : Bool} {depth : Nat} {escape : Escape} {reversed : List Char}
    {line : Nat} {cs content : List Char} {cursor : Cursor}
    (read : readString braced depth escape reversed line cs = .ok (content, cursor)) :
    Spans line cs cursor := by
  induction cs generalizing depth escape reversed line with
  | nil => cases escape <;> cases read
  | cons c cs ih =>
      cases escape with
      | caret =>
          unfold readString at read
          split_ifs at read <;> exact .cons c (ih read)
      | name name =>
          unfold readString at read
          dsimp only at read
          split_ifs at read
          · split at read
            · exact .cons c (ih read)
            · cases read
          · exact .cons c (ih read)
      | none =>
          unfold readString at read
          split_ifs at read with caret opens opening closing closing stray
          · exact .skip (by rintro rfl; cases caret) (ih read)
          · exact .skip (by rintro rfl; cases opening) (ih read)
          · have other : c ≠ '\n' := by rintro rfl; cases closing
            cases depth with
            | zero =>
                cases read
                exact .skip other (.refl _ _)
            | succ depth => exact .skip other (ih read)
          · exact .cons c (ih read)
          · cases read
            exact .skip (by rintro rfl; cases closing) (.refl _ _)
          · cases read
          · exact .skip (by rintro rfl; exact stray rfl) (ih read)

theorem eq_of_dropWhile {close c : Char} {cs rest : List Char}
    (found : cs.dropWhile (· != close) = c :: rest) : c = close := by
  have ends := List.head_dropWhile_not (· != close) (l := cs) (by rw [found]; exact nofun)
  simpa only [found, List.head_cons, bne_eq_false_iff_eq] using ends

theorem spans_through (close : Char) (other : close ≠ '\n') (line : Nat) {cs rest : List Char}
    {c : Char} (found : cs.dropWhile (· != close) = c :: rest) :
    Spans line cs ⟨rest, line + newlines (cs.takeWhile (· != close))⟩ := by
  cases eq_of_dropWhile found
  refine ⟨cs.takeWhile (· != close) ++ [close], ?_, ?_⟩
  · rw [List.append_assoc, List.singleton_append, ← found, List.takeWhile_append_dropWhile]
  · simp [newlines, List.count_append, other]

theorem readHash_spans {line : Nat} {cs : List Char} {lexeme : Lexeme} {cursor : Cursor}
    (read : readHash line cs = .ok (lexeme, cursor)) : Spans line cs cursor := by
  unfold readHash at read
  split at read
  · obtain ⟨⟨content, after⟩, quoted, given⟩ := Except.bind_eq_ok read
    dsimp only at given
    split at given
    · cases given
      exact .skip (by decide) (readString_spans quoted)
    · cases given
  · unfold readBinary at read
    dsimp only at read
    split at read
    · cases read
    · rename_i found
      split_ifs at read
      · cases read
      obtain ⟨bytes, -, given⟩ := Except.bind_eq_ok read
      cases given
      exact .skip (by decide) (spans_through '\x7d' (by decide) line found)
  · unfold readConstruct at read
    dsimp only at read
    split at read
    · cases read
    · rename_i found
      cases read
      exact .skip (by decide) (spans_through ']' (by decide) line found)
  · cases read
    exact takeLexeme_spans true line cs

theorem spans_dropWhile {p : Char → Bool} (stops : p '\n' = false) (line : Nat) (cs : List Char) :
    Spans line cs ⟨cs.dropWhile p, line⟩ := by
  have unbroken : '\n' ∉ cs.takeWhile p := fun member => by
    have holds := List.all_takeWhile (p := p) (l := cs)
    rw [List.all_eq_true] at holds
    exact absurd (holds '\n' member) (by simp [stops])
  simpa using Spans.append line unbroken (cs.dropWhile p)

theorem eq_cons_of_head? {c : Char} {cs : List Char} (first : (cs.head? == some c) = true) :
    cs = c :: cs.tail := by
  cases cs with
  | nil => cases first
  | cons d cs => simpa using first

theorem spans_tail {c : Char} (other : c ≠ '\n') (line : Nat) {cs : List Char}
    (first : (cs.head? == some c) = true) : Spans line cs ⟨cs.tail, line⟩ := by
  rw [eq_cons_of_head? first]
  exact .skip other (.refl _ _)

theorem dropWhile_of_mem {c : Char} {cs : List Char} (member : c ∈ cs) :
    ∃ rest, cs.dropWhile (· != c) = c :: rest := by
  induction cs with
  | nil => cases member
  | cons d cs ih =>
      by_cases same : d = c
      · exact ⟨cs, by simp [same]⟩
      · obtain ⟨rest, found⟩ := ih ((List.mem_cons.mp member).resolve_left (Ne.symm same))
        exact ⟨rest, by simp [same, found]⟩

theorem unbroken_of_mem {close : Char} {cs : List Char} (closes : close ∈ cs.takeWhile (· != '\n')) :
    '\n' ∉ cs.takeWhile (· != close) := by
  induction cs with
  | nil => cases closes
  | cons c cs ih =>
      by_cases broken : c = '\n'
      · simp [broken] at closes
      · by_cases closed : c = close
        · simp [closed]
        · have later : close ∈ cs.takeWhile (· != '\n') := by
            simpa [broken, Ne.symm closed] using closes
          simpa [closed, Ne.symm broken] using ih later

/-- A tag is closed on its line. -/
theorem closes_of_opensTag {cs : List Char} (opens : opensTag cs = true) :
    (∃ rest, cs.dropWhile (· != '>') = '>' :: rest) ∧ '\n' ∉ cs.takeWhile (· != '>') := by
  cases cs with
  | nil => cases opens
  | cons c cs =>
      rw [opensTag, Bool.and_eq_true, List.contains_iff_mem] at opens
      obtain ⟨begins, closes⟩ := opens
      refine ⟨dropWhile_of_mem (List.mem_cons_of_mem c ((List.takeWhile_sublist _).subset closes)), ?_⟩
      have unbroken : c ≠ '\n' := by
        rintro rfl
        cases begins
      by_cases closed : c = '>'
      · simp [closed]
      · simpa [closed, Ne.symm unbroken] using unbroken_of_mem closes

/-- Where the text goes on behind what was found on a line. -/
def Found.cursor (line : Nat) : Found → Cursor
  | .lineBreak rest => ⟨rest, line + 1⟩
  | .gap rest | .comment rest | .opening _ _ rest | .marked _ rest => ⟨rest, line⟩
  | .token _ cursor => cursor

theorem Lexer.rest_record (s : Lexer) (found : Found) :
    (s.record found).rest = (found.cursor s.line).rest := by
  cases found <;> rfl

theorem Lexer.line_record (s : Lexer) (found : Found) :
    (s.record found).line = (found.cursor s.line).line := by
  cases found <;> rfl

theorem findRun_spans {line : Nat} {afterSlash : Bool} {cs : List Char} {found : Found}
    (finds : findRun line afterSlash cs = .ok found) :
    found.cursor line = ⟨(takeLexeme true [] false cs).2, line⟩ ∧
      (takeLexeme true [] false cs).1 ≠ [] := by
  unfold findRun at finds
  dsimp only at finds
  split_ifs at finds with marks
  · obtain ⟨lexeme, classified, given⟩ := Except.bind_eq_ok finds
    cases given
    refine ⟨rfl, fun none => ?_⟩
    simp [none] at marks
  · obtain ⟨lexeme, classified, given⟩ := Except.bind_eq_ok finds
    cases given
    refine ⟨rfl, fun none => ?_⟩
    rw [none] at classified
    cases classified

/-- Every step passes over some of the text, the character it begins with at least. -/
theorem find_spans (line : Nat) (afterSlash : Bool) (c : Char) (rest : List Char) :
    Finds (fun found => Spans (lineAfter c line) rest (found.cursor line))
      (find line afterSlash c rest) := by
  unfold find
  refine .ite (fun newline => .pure ?lineBreak) fun newline => ?_
  case lineBreak =>
    rw [lineAfter, if_pos newline]
    exact .refl _ _
  rw [lineAfter, if_neg newline]
  refine .ite (fun _ => .pure (.refl _ _)) fun _ =>
    .ite (fun _ => .pure (spans_dropWhile (by decide) line rest)) fun _ =>
    .ite (fun _ => .pure (.refl _ _)) fun _ => .ite (fun _ => ?closing) fun _ =>
    .ite (fun marked => .pure ?leading) fun _ => .ite (fun _ => ?quote) fun _ =>
    .ite (fun _ => .pure (.refl _ _)) fun _ =>
    .ite (fun _ => .bind fun _ quoted => .pure (readString_spans quoted)) fun _ =>
    .ite (fun _ => .bind fun _ braced => .pure (readString_spans braced)) fun _ =>
    .ite (fun _ => .refuse _ _) fun _ =>
    .ite (fun _ => .bind fun _ literal => .pure (readHash_spans literal)) fun _ =>
    .ite (fun _ => ?file) fun _ => .ite (fun tag => .pure ?tag) fun _ found finds => ?run
  case closing =>
    exact .ite (fun set => .pure (spans_tail (by decide) line set)) fun _ => .pure (.refl _ _)
  case leading =>
    rw [Bool.and_eq_true, Bool.or_eq_true (rest.head? == _)] at marked
    exact marked.2.elim (spans_tail (by decide) line) (spans_tail (by decide) line)
  case quote =>
    dsimp only
    split
    · exact .ite (fun _ => .refuse _ _) fun _ => .pure (spans_dropWhile (by decide) line rest)
    · exact .refuse _ _
  case file =>
    refine .ite (fun quoted => .bind fun _ closed => .pure ?_) fun _ =>
      .pure (takeLexeme_spans false line rest)
    rw [eq_cons_of_head? quoted]
    exact .skip (by decide) (readString_spans closed)
  case tag =>
    rw [Bool.and_eq_true] at tag
    obtain ⟨⟨later, found⟩, unbroken⟩ := closes_of_opensTag tag.2
    rw [Found.cursor, found, List.tail_cons]
    simpa [newlines, List.count_eq_zero.mpr unbroken] using
      spans_through '>' (by decide) line found
  case run =>
    obtain ⟨same, some⟩ := findRun_spans finds
    obtain ⟨whole, plain⟩ := takeLexeme_parts true [] false (c :: rest)
    rw [same]
    generalize takeLexeme true [] false (c :: rest) = parts at whole plain some ⊢
    obtain ⟨lexeme, behind⟩ := parts
    cases lexeme with
    | nil => exact absurd rfl some
    | cons d lexeme =>
        cases whole
        refine .append line (fun member => ?_) behind
        exact absurd (plain '\n' (List.mem_cons_of_mem c member)) (by decide)

/-- A step comes further on in the text. -/
theorem Lexer.step_spans {s next : Lexer} {c : Char} {rest : List Char}
    (begins : s.rest = c :: rest) (stepped : s.step c rest = .ok next) :
    Spans (lineAfter c s.line) rest ⟨next.rest, next.line⟩ := by
  rw [step_eq s begins] at stepped
  obtain ⟨found, finds, rfl⟩ := Except.map_eq_ok stepped
  rw [rest_record, line_record]
  exact find_spans _ _ _ _ found finds

/-! ## What can stand at the beginning of a text -/

/-- Whether a unit of source text is a number or is made of numbers. -/
def isNumber : Lexeme → Bool
  | .integer _ | .decimal _ | .percent _ | .pair .. | .tuple _ | .time _ | .date .. => true
  | _ => false

theorem readNumber_isNumber {line : Nat} {cs : List Char} {lexeme : Lexeme}
    (read : readNumber line cs = .ok lexeme) : isNumber lexeme = true := by
  unfold readNumber at read
  dsimp only at read
  split at read
  · split at read
    · cases read
      rfl
    · cases read
  · split_ifs at read
    · obtain ⟨_, -, given⟩ := Except.bind_eq_ok read
      cases given
      rfl
    · obtain ⟨_, -, rfl⟩ := Except.map_eq_ok read
      rfl
    · obtain ⟨_, -, given⟩ := Except.bind_eq_ok read
      cases given
      rfl
    all_goals
      obtain ⟨_, -, rfl⟩ := Except.map_eq_ok read
      rfl

/-- What a step can find, with what it looked at. -/
inductive Stands (line : Nat) (afterSlash : Bool) : Char → List Char → Found → Prop where
  | lineBreak {rest : List Char} : Stands line afterSlash '\n' rest (.lineBreak rest)
  | gap {c : Char} {rest : List Char} : Text.isBlank c = true →
      Stands line afterSlash c rest (.gap rest)
  | comment {rest : List Char} :
      Stands line afterSlash ';' rest (.comment (rest.dropWhile (· != '\n')))
  | opening {c : Char} {rest : List Char} : c ∈ ['[', '('] →
      Stands line afterSlash c rest (.opening c .plain rest)
  | leading {c bracket : Char} {rest : List Char} : c ∈ [':', '@'] → bracket ∈ ['[', '('] →
      Stands line afterSlash c (bracket :: rest)
        (.opening bracket (if c == ':' then .get else .sym) rest)
  | closing {c : Char} {rest after : List Char} {set : Bool} : c ∈ [']', ')'] →
      Stands line afterSlash c rest
        (.token (.closing (if c == ']' then .block else .group) set) ⟨after, line⟩)
  | quote {rest after : List Char} {depth : Nat} :
      Stands line afterSlash '\'' rest (.token (.quote depth) ⟨after, line⟩)
  | slash {rest : List Char} : Stands line afterSlash '/' rest (.token .slash ⟨rest, line⟩)
  | text {c : Char} {rest content : List Char} {cursor : Cursor} :
      Stands line afterSlash c rest (.token (.text .text (String.ofList content)) cursor)
  | hash {rest : List Char} {lexeme : Lexeme} {cursor : Cursor} :
      readHash line rest = .ok (lexeme, cursor) →
      Stands line afterSlash '#' rest (.token lexeme cursor)
  | file {rest content : List Char} {cursor : Cursor} :
      Stands line afterSlash '%' rest (.token (.text .file (String.ofList content)) cursor)
  | tag {rest : List Char} : opensTag rest = true →
      Stands line afterSlash '<' rest
        (.token (.text .tag (String.ofList (rest.takeWhile (· != '>'))))
          ⟨(rest.dropWhile (· != '>')).tail, line⟩)
  | run {c : Char} {rest : List Char} {found : Found} : Begins c rest →
      findRun line afterSlash (c :: rest) = .ok found → Stands line afterSlash c rest found

/-- Each step finds one of these. -/
theorem find_stands (line : Nat) (afterSlash : Bool) (c : Char) (rest : List Char) :
    Finds (Stands line afterSlash c rest) (find line afterSlash c rest) := by
  unfold find
  refine .ite (fun same => ?lineBreak) fun newline => .ite (fun blank => .pure (.gap blank))
    fun noBlank => .ite (fun same => ?comment) fun comment => .ite (fun bracket => ?opening)
    fun opening => .ite (fun bracket => ?closing) fun closing => .ite (fun marked => ?leading)
    fun unmarked => .ite (fun same => ?quote) fun quote => .ite (fun same => ?slash) fun slash =>
    .ite (fun _ => .bind fun _ _ => .pure .text) fun text =>
    .ite (fun _ => .bind fun _ _ => .pure .text) fun braced => .ite (fun _ => .refuse _ _)
    fun stray => .ite (fun same => ?hash) fun hash => .ite (fun same => ?file) fun file =>
    .ite (fun tag => ?tag) fun noTag found finds => .run ?begins finds
  case lineBreak =>
    cases beq_iff_eq.mp same
    exact .pure .lineBreak
  case comment =>
    cases beq_iff_eq.mp same
    exact .pure .comment
  case opening => exact .pure (.opening (by simpa using bracket))
  case closing =>
    dsimp only
    exact .ite (fun _ => .pure (.closing (by simpa using bracket)))
      fun _ => .pure (.closing (by simpa using bracket))
  case leading =>
    rw [Bool.and_eq_true] at marked
    cases rest with
    | nil => cases marked.2
    | cons bracket rest => exact .pure (.leading (by simpa using marked.1) (by simpa using marked.2))
  case quote =>
    cases beq_iff_eq.mp same
    dsimp only
    split
    · exact .ite (fun _ => .refuse _ _) fun _ => .pure .quote
    · exact .refuse _ _
  case slash =>
    cases beq_iff_eq.mp same
    exact .pure .slash
  case hash =>
    cases beq_iff_eq.mp same
    exact .bind fun _ read => .pure (.hash read)
  case file =>
    cases beq_iff_eq.mp same
    exact .ite (fun _ => .bind fun _ _ => .pure .file) fun _ => .pure .file
  case tag =>
    rw [Bool.and_eq_true] at tag
    cases beq_iff_eq.mp tag.1
    exact .pure (.tag tag.2)
  case begins =>
    simp only [Bool.or_eq_true, Bool.and_eq_true, beq_iff_eq, not_or, not_and] at *
    have plain : isDelimiter c = false := by
      rw [isDelimiter, Bool.or_eq_false_iff]
      refine ⟨by simpa using noBlank, ?_⟩
      simp [opening, closing, text, braced, stray, comment]
    exact ⟨plain, slash, quote, hash, file, fun tag => by simpa using noTag tag,
      fun marked => by simpa using unmarked marked⟩

end Homoicon.Token
