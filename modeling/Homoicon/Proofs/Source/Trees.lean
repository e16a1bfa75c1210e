import Homoicon.Mold
import Homoicon.Proofs.Source.Arranging
import Homoicon.Proofs.Source.Names

/-!
# Trees that can be written

The trees of values whose text is source code for them: literals, words, blocks and groups of
such trees, paths over words, numbers, groups and empty parts, and all these quoted.  The text of
a tree is what molding writes for it.
-/

namespace Homoicon

/-- The literals that are written as source code. -/
inductive Lexeme.Literal : Lexeme → Prop where
  | blank : Literal .blank
  | bar : Literal .bar
  | void : Literal (.construct "void")
  | logic (b : Bool) : Literal (.construct (if b then "true" else "false"))
  | integer {i : Int} : Bits.fits64 i = true → Literal (.integer i)
  | char (c : Char) : Literal (.char c)
  | text (s : String) : Literal (.text .text s)
  | binary (bytes : List UInt8) : Literal (.binary bytes)
  | tuple {bytes : List UInt8} : 3 ≤ bytes.length → bytes.length ≤ 8 → Literal (.tuple bytes)
  | word {name : String} (mark : Mark) : Token.IsName name → Literal (.word name mark)

/-- The text of a literal. -/
def Lexeme.molded : Lexeme → String
  | .blank => "_"
  | .bar => "|"
  | .construct name => "#[" ++ name ++ "]"
  | .integer i => toString i
  | .char c => "#" ++ Mold.quotedText [c]
  | .text .text s => Mold.quotedText s.toList
  | .binary bytes => Mold.binaryText bytes
  | .tuple bytes => String.intercalate "." (bytes.map fun b => toString b.toNat)
  | .word name mark => Mold.wordText mark name
  | _ => ""

namespace Node

/-! ## The trees -/

/-- What a path can be made of. -/
inductive IsPart : Node → Prop where
  | blank : IsPart (.scalar .blank)
  | word (name : String) : IsPart (.scalar (.word name .plain))
  | integer {i : Int} : 0 ≤ i → IsPart (.scalar (.integer i))
  | group (items : List Item) : IsPart (.array .group .plain items)

/-- The first or last part of a path that carries the mark of the path. -/
def CarriesMark : Mark → Node → Prop
  | .plain, _ => True
  | .set, part => part ≠ .scalar .blank
  | .get, part | .sym, part => part ≠ .scalar .blank ∧ ∀ i, part ≠ .scalar (.integer i)

/-- The part of a path on which a mark is written. -/
def markedEnd (mark : Mark) (head last : Node) : Node :=
  match mark with
  | .set => last
  | _ => head

/-- A tree that can be written as source code. -/
inductive Structural : Node → Prop where
  | scalar {lexeme : Lexeme} : lexeme.Literal → Structural (.scalar lexeme)
  | array (bracket : Bracket) (mark : Mark) {items : List Item} :
      (∀ item ∈ items, item.node.Structural) →
      Structural (.array (bracketShape bracket) mark items)
  | path {mark : Mark} {head last : Node} {middle : List Node} :
      (∀ part ∈ head :: (middle ++ [last]), part.Structural) →
      (∀ part ∈ head :: (middle ++ [last]), part.IsPart) →
      CarriesMark mark (markedEnd mark head last) →
      Structural (.array .path mark ((head :: (middle ++ [last])).map (Item.mk · false)))
  | quoted {depth : Nat} {node : Node} : 0 < depth → depth < Bits.count32 →
      (∀ more inner, node ≠ .quoted more inner) → Structural node →
      Structural (.quoted depth node)

/-- A word, block, group or path with another mark; other values have none. -/
def marked (mark : Mark) : Node → Node
  | .scalar (.word name _) => .scalar (.word name mark)
  | .array shape _ items => .array shape mark items
  | node => node

/-! ## Their text -/

/-- What stands before a marked array. -/
def leadText : Mark → List Char
  | .get => [':']
  | .sym => ['@']
  | _ => []

/-- What stands behind a marked array. -/
def trailText : Mark → List Char
  | .set => [':']
  | _ => []

/-- The beginning of a new line. -/
def breakText (indent : Nat) : List Char := '\n' :: List.replicate (4 * indent) ' '

/-- The brackets of an array. -/
def openText : Shape → List Char
  | .block => ['[']
  | .group => ['(']
  | .path => []

/-- The brackets of an array. -/
def closeText : Shape → List Char
  | .block => [']']
  | .group => [')']
  | .path => []

/-- The empty part of a path. -/
def isBlank : Node → Bool
  | .scalar .blank => true
  | _ => false

mutual

/-- The text of a tree, at some depth of indentation. -/
def text (indent : Nat) : Node → List Char
  | .scalar lexeme => lexeme.molded.toList
  | .quoted depth node => List.replicate depth '\'' ++ node.text indent
  | .array shape mark items =>
    leadText mark ++ openText shape ++
      (if shape = .path then partsText (indent + 1) true items
        else itemsText (indent + 1) true items ++
          if items.any Item.newline then breakText indent else []) ++
      closeText shape ++ trailText mark

/-- The text of the items of a block or group. -/
def itemsText (indent : Nat) (first : Bool) : List Item → List Char
  | [] => []
  | .mk node newline :: rest =>
    (if newline then breakText indent else if first then [] else [' ']) ++ node.text indent ++
      itemsText indent false rest

/-- The text of the parts of a path. -/
def partsText (indent : Nat) (first : Bool) : List Item → List Char
  | [] => []
  | .mk node _ :: rest =>
    (if first then [] else ['/']) ++ (if node.isBlank then [] else node.text indent) ++
      partsText indent false rest

end

end Node

end Homoicon
