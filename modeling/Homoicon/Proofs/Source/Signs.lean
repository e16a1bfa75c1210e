import Homoicon.Node.Parser

/-!
# Reading values off

What the values of a text are written with, from left to right: scalars, apostrophes, brackets
around the items of an array, and slashes between the parts of a path.  Only the empty parts of
paths need not be written.  The mark of a path is read off where the scanner found it: in front of
the first part, behind the last, or as a token of its own behind a number.
-/

namespace Homoicon.Node

/-- What a value is written with. -/
inductive Sign where
  | unit (lexeme : Lexeme)
  /-- An opening bracket with any mark, as the one behind the closing bracket counts. -/
  | opening (bracket : Bracket)
  /-- An empty part of a path. -/
  | gap

/-- Brackets, with the mark of an array on one of them. -/
def bracketed (bracket : Bracket) (mark : Mark) (inside : List Sign) : List Sign :=
  if mark = .set then .opening bracket :: (inside ++ [.unit (.closing bracket true)])
  else .unit (.opening bracket mark) :: (inside ++ [.unit (.closing bracket false)])

/-- What a part of a path is written with, given what it is written with elsewhere. -/
def asPart : Node → List Sign → List Sign
  | .scalar .blank, _ => [.gap]
  | _, signs => signs

/-- The mark in front of the first part of a path. -/
def firstMark (mark : Mark) (first : Node) : Mark :=
  match mark with
  | .get => .get
  | .sym => .sym
  | _ => first.mark

/-- The mark behind the last part of a path. -/
def lastMark (mark : Mark) (last : Node) : Mark := if mark = .set then .set else last.mark

/-- Whether a value is written with a mark of its own. -/
def takesMark : Node → Bool
  | .scalar (.word ..) | .array .. => true
  | _ => false

/-- What stands behind the last part of a path that has no mark of its own. -/
def markBehind (mark : Mark) (last : Node) : List Sign :=
  if mark = .set ∧ last.takesMark = false then [.unit .setMark] else []

mutual

/-- What a value is written with if it has some mark. -/
def signs : Node → Mark → List Sign
  | .scalar (.word name _), mark => [.unit (.word name mark)]
  | .scalar lexeme, _ => [.unit lexeme]
  | .quoted depth node, _ => .unit (.quote depth) :: signs node node.mark
  | .array .block _ items, mark => bracketed .block mark (itemsSigns items)
  | .array .group _ items, mark => bracketed .group mark (itemsSigns items)
  | .array .path _ parts, mark => pathSigns mark parts

/-- What the items of an array are written with. -/
def itemsSigns : List Item → List Sign
  | [] => []
  | .mk node _ :: later => signs node node.mark ++ itemsSigns later

/-- What a path is written with. -/
def pathSigns (mark : Mark) : List Item → List Sign
  | [] => []
  | .mk first _ :: later =>
    asPart first (signs first (firstMark mark first)) ++ laterSigns mark later

/-- What the parts of a path behind the first one are written with. -/
def laterSigns (mark : Mark) : List Item → List Sign
  | [] => []
  | [.mk last _] =>
    .unit .slash :: (asPart last (signs last (lastMark mark last)) ++ markBehind mark last)
  | .mk part _ :: later =>
    .unit .slash :: (asPart part (signs part part.mark) ++ laterSigns mark later)

end

/-- Some signs are written by the tokens before some others. -/
inductive Writes : List Sign → List Token → List Token → Prop where
  | nil {rest : List Token} : Writes [] rest rest
  | unit {token : Token} {lexeme : Lexeme} {signs : List Sign} {tokens rest : List Token} :
      token.lexeme = lexeme → Writes signs tokens rest →
      Writes (.unit lexeme :: signs) (token :: tokens) rest
  | opening {token : Token} {bracket : Bracket} {mark : Mark} {signs : List Sign}
      {tokens rest : List Token} : token.lexeme = .opening bracket mark →
      Writes signs tokens rest → Writes (.opening bracket :: signs) (token :: tokens) rest
  | empty {signs : List Sign} {tokens rest : List Token} : Writes signs tokens rest →
      Writes (.gap :: signs) tokens rest
  | blank {token : Token} {signs : List Sign} {tokens rest : List Token} :
      token.lexeme = .blank → Writes signs tokens rest → Writes (.gap :: signs) (token :: tokens) rest

theorem Writes.append {signs signs' : List Sign} {tokens rest rest' : List Token}
    (first : Writes signs tokens rest) (second : Writes signs' rest rest') :
    Writes (signs ++ signs') tokens rest' := by
  induction first with
  | nil => exact second
  | unit same _ ih => exact .unit same (ih second)
  | opening same _ ih => exact .opening same (ih second)
  | empty _ ih => exact .empty (ih second)
  | blank same _ ih => exact .blank same (ih second)

/-! ## Brackets -/

/-- The brackets that are open behind some tokens, the innermost first, given those open before
them.  A closing bracket must be that of the innermost one. -/
def openBehind : List Bracket → List Token → Option (List Bracket)
  | around, [] => some around
  | around, token :: rest =>
    match token.lexeme, around with
    | .opening bracket _, around => openBehind (bracket :: around) rest
    | .closing bracket _, innermost :: around =>
      if innermost = bracket then openBehind around rest else none
    | .closing .., [] => none
    | _, around => openBehind around rest

/-- Every bracket is closed by its like, after all those opened within. -/
def Matched (tokens : List Token) : Prop := openBehind [] tokens = some []

instance (tokens : List Token) : Decidable (Matched tokens) :=
  inferInstanceAs (Decidable (openBehind [] tokens = some []))

/-- An opening or closing bracket. -/
def isBracket : Lexeme → Bool
  | .opening .. | .closing .. => true
  | _ => false

theorem openBehind_other {token : Token} (other : isBracket token.lexeme = false)
    (around : List Bracket) (rest : List Token) :
    openBehind around (token :: rest) = openBehind around rest := by
  obtain ⟨lexeme, newline, joined, line⟩ := token
  cases lexeme <;> first | rfl | cases other

theorem openBehind_opening {token : Token} {bracket : Bracket} {mark : Mark}
    (opens : token.lexeme = .opening bracket mark) (around : List Bracket) (rest : List Token) :
    openBehind around (token :: rest) = openBehind (bracket :: around) rest := by
  simp only [openBehind, opens]

theorem openBehind_closing {token : Token} {bracket : Bracket} {set : Bool}
    (closes : token.lexeme = .closing bracket set) (around : List Bracket) (rest : List Token) :
    openBehind (bracket :: around) (token :: rest) = openBehind around rest := by
  simp only [openBehind, closes, if_true]

/-- Some signs are written by the tokens before some others, in which brackets match. -/
structure Accounts (signs : List Sign) (tokens rest : List Token) : Prop where
  writes : Writes signs tokens rest
  nests : ∀ around, openBehind around tokens = openBehind around rest

namespace Accounts

variable {signs signs' : List Sign} {tokens rest rest' : List Token}

theorem nil : Accounts [] tokens tokens := ⟨.nil, fun _ => rfl⟩

theorem gap : Accounts [.gap] tokens tokens := ⟨.empty .nil, fun _ => rfl⟩

theorem append (first : Accounts signs tokens rest) (second : Accounts signs' rest rest') :
    Accounts (signs ++ signs') tokens rest' :=
  ⟨first.writes.append second.writes, fun around => (first.nests around).trans (second.nests around)⟩

theorem unit {token : Token} {lexeme : Lexeme} (same : token.lexeme = lexeme)
    (other : isBracket lexeme = false) : Accounts [.unit lexeme] (token :: rest) rest :=
  ⟨.unit same .nil, fun around => openBehind_other (by rwa [same]) around rest⟩

theorem cons {token : Token} {lexeme : Lexeme} (same : token.lexeme = lexeme)
    (other : isBracket lexeme = false) (later : Accounts signs tokens rest) :
    Accounts (.unit lexeme :: signs) (token :: tokens) rest :=
  (unit same other).append later

theorem bracketed {opening closing : Token} {bracket : Bracket} {mark : Mark} {set : Bool}
    (opens : opening.lexeme = .opening bracket mark) (unset : mark ≠ .set)
    (inside : Accounts signs tokens (closing :: rest))
    (closes : closing.lexeme = .closing bracket set) :
    Accounts (bracketed bracket (if set then .set else mark) signs) (opening :: tokens) rest := by
  refine ⟨?_, fun around => ?_⟩
  · unfold Node.bracketed
    cases set with
    | true => exact .opening opens (inside.writes.append (.unit closes .nil))
    | false =>
        rw [if_neg Bool.false_ne_true, if_neg unset]
        exact .unit opens (inside.writes.append (.unit closes .nil))
  · rw [openBehind_opening opens, inside.nests, openBehind_closing closes]

end Accounts

/-! ## Paths -/

/-- What a part of a path is written with, with its own mark. -/
def partSigns (part : Node) : List Sign := asPart part (part.signs part.mark)

/-- What parts with slashes between them are written with. -/
def partsSigns : List Node → List Sign
  | [] => []
  | first :: later => partSigns first ++ later.flatMap fun part => .unit .slash :: partSigns part

theorem partsSigns_concat {parts : List Node} (some : parts ≠ []) (part : Node) :
    partsSigns (parts ++ [part]) = partsSigns parts ++ .unit .slash :: partSigns part := by
  cases parts with
  | nil => exact absurd rfl some
  | cons first later => simp [partsSigns]

theorem asPart_cases (part : Node) : part = .scalar .blank ∨ ∀ signs, asPart part signs = signs := by
  cases part with
  | scalar lexeme => cases lexeme <;> first | exact .inl rfl | exact .inr fun _ => rfl
  | array | quoted => exact .inr fun _ => rfl

/-- A blank may stand for an empty part. -/
theorem Accounts.part {part : Node} {tokens rest : List Token}
    (accounts : Accounts (part.signs part.mark) tokens rest) :
    Accounts (partSigns part) tokens rest := by
  unfold partSigns
  rcases asPart_cases part with rfl | same
  · refine ⟨?_, accounts.nests⟩
    cases accounts.writes with
    | unit same later => exact .blank same later
  · rwa [same]

theorem asPart_unmarked (part : Node) (signs : List Sign) :
    asPart part.unmarked signs = asPart part signs := by
  cases part with
  | scalar lexeme => cases lexeme <;> rfl
  | array | quoted => rfl

theorem signs_unmarked (node : Node) (mark : Mark) : node.unmarked.signs mark = node.signs mark := by
  cases node with
  | scalar lexeme => cases lexeme <;> rfl
  | array shape => cases shape <;> rfl
  | quoted => rfl

theorem takesMark_unmarked (node : Node) : node.unmarked.takesMark = node.takesMark := by
  cases node with
  | scalar lexeme => cases lexeme <;> rfl
  | array | quoted => rfl

theorem takesMark_of_mark {node : Node} (marked : node.mark ≠ .plain) : node.takesMark = true := by
  cases node with
  | scalar lexeme => cases lexeme <;> first | rfl | exact absurd rfl marked
  | array => rfl
  | quoted => exact absurd rfl marked

theorem laterSigns_concat (mark : Mark) (middle : List Node) (last : Node) :
    laterSigns mark ((middle ++ [last]).map (Item.mk · false)) =
      (middle.flatMap fun part => .unit .slash :: partSigns part) ++
        .unit .slash :: (asPart last (last.signs (lastMark mark last)) ++ markBehind mark last) := by
  induction middle with
  | nil => rfl
  | cons part middle ih =>
      rw [List.cons_append, List.map_cons, laterSigns, ih]
      · simp [partSigns]
      · simp

/-- How the marks of the outer parts of a path become that of the path. -/
inductive MarkMoves (first last : Node) : Bool → Mark → Node → Node → Prop where
  | leading : first.mark = .get ∨ first.mark = .sym → last.mark ≠ .set →
      MarkMoves first last false first.mark first.unmarked last
  | behind : first.mark ≠ .get → first.mark ≠ .sym → last.mark = .set →
      MarkMoves first last false .set first last.unmarked
  | token : first.mark ≠ .get → first.mark ≠ .sym → last.mark ≠ .set →
      MarkMoves first last true .set first last
  | none : first.mark ≠ .get → first.mark ≠ .sym → last.mark ≠ .set →
      MarkMoves first last false .plain first last

theorem finishPath_eq_ok {line : Nat} {first last path : Node} {middle : List Node} {setMark : Bool}
    (made : finishPath line (first :: (middle ++ [last])) setMark = .ok path) :
    ∃ mark first' last', MarkMoves first last setMark mark first' last' ∧
      path = .array .path mark ((first' :: (middle ++ [last'])).map (Item.mk · false)) := by
  have ends (first : Node) : (first :: (middle ++ [last])).getLast? = some last := by
    rw [← List.cons_append, List.getLast?_concat]
  have front (first : Node) : (first :: (middle ++ [last])).dropLast = first :: middle := by
    rw [← List.cons_append, List.dropLast_concat]
  unfold finishPath at made
  cases lead : first.mark with
  | get | sym =>
      simp only [lead, ends] at made
      by_cases trail : last.mark = .set
      · rw [if_pos trail] at made
        cases made
      · rw [if_neg trail] at made
        cases setMark with
        | true => cases made
        | false =>
            cases made
            refine ⟨_, _, _, .leading (by simp [lead]) trail, ?_⟩
            rw [lead]
  | plain | set =>
      have noGet : first.mark ≠ .get := by rw [lead]; exact nofun
      have noSym : first.mark ≠ .sym := by rw [lead]; exact nofun
      simp only [lead, ends, front] at made
      by_cases trail : last.mark = .set
      · rw [if_pos trail] at made
        cases setMark with
        | true => cases made
        | false =>
            cases made
            exact ⟨_, _, _, .behind noGet noSym trail, rfl⟩
      · rw [if_neg trail] at made
        cases setMark with
        | true =>
            cases made
            exact ⟨_, _, _, .token noGet noSym trail, rfl⟩
        | false =>
            cases made
            exact ⟨_, _, _, .none noGet noSym trail, rfl⟩

/-- A value without a mark of its own is written alike with every mark. -/
theorem signs_of_takesMark {node : Node} (markless : node.takesMark = false) (mark mark' : Mark) :
    node.signs mark = node.signs mark' := by
  cases node with
  | scalar lexeme => cases lexeme <;> first | rfl | cases markless
  | array => cases markless
  | quoted => rfl

namespace MarkMoves

variable {first last first' last' : Node} {setMark : Bool} {mark : Mark}

theorem first_signs (moves : MarkMoves first last setMark mark first' last') :
    asPart first' (first'.signs (firstMark mark first')) = partSigns first := by
  unfold partSigns
  cases moves with
  | leading lead =>
      rw [asPart_unmarked, signs_unmarked]
      rcases lead with lead | lead <;> rw [lead] <;> rfl
  | behind | token | none => rfl

theorem last_signs (moves : MarkMoves first last setMark mark first' last')
    (number : setMark = true → last.takesMark = false) :
    asPart last' (last'.signs (lastMark mark last')) = partSigns last := by
  unfold partSigns lastMark
  cases moves with
  | leading lead =>
      have unset : first.mark ≠ .set := by rcases lead with lead | lead <;> rw [lead] <;> exact nofun
      rw [if_neg unset]
  | behind noGet noSym trail => rw [if_pos rfl, asPart_unmarked, signs_unmarked, trail]
  | token => rw [signs_of_takesMark (number rfl) _ last.mark]
  | none => rfl

theorem markBehind_eq (moves : MarkMoves first last setMark mark first' last')
    (number : setMark = true → last.takesMark = false) :
    markBehind mark last' = if setMark then [.unit .setMark] else [] := by
  unfold markBehind
  cases moves with
  | leading lead =>
      have unset : first.mark ≠ .set := by rcases lead with lead | lead <;> rw [lead] <;> exact nofun
      exact if_neg fun both => unset both.1
  | behind noGet noSym trail =>
      have marked : last.takesMark = true := takesMark_of_mark (by rw [trail]; exact nofun)
      rw [takesMark_unmarked, marked]
      rfl
  | token => exact if_pos ⟨rfl, number rfl⟩
  | none => rfl

end MarkMoves

/-- A path is written with its parts as they were before their marks became that of the path. -/
theorem signs_of_finishPath {line : Nat} {first last path : Node} {middle : List Node}
    {setMark : Bool} (made : finishPath line (first :: (middle ++ [last])) setMark = .ok path)
    (number : setMark = true → last.takesMark = false) :
    path.signs path.mark = partsSigns (first :: (middle ++ [last])) ++
      if setMark then [.unit .setMark] else [] := by
  obtain ⟨mark, first', last', moves, rfl⟩ := finishPath_eq_ok made
  have read : pathSigns mark ((first' :: (middle ++ [last'])).map (Item.mk · false)) =
      partSigns first ++ ((middle.flatMap fun part => .unit .slash :: partSigns part) ++
        .unit .slash :: (partSigns last ++ if setMark then [.unit .setMark] else [])) := by
    rw [List.map_cons, pathSigns, laterSigns_concat, moves.first_signs, moves.last_signs number,
      moves.markBehind_eq number]
  exact read.trans (by simp [partsSigns])

end Homoicon.Node
