import Homoicon.Token

/-!
# Trees of source text

Tokens arranged into values: scalars, arrays with their shape and mark, and quoted values.  An
item of an array remembers whether it began a line.
-/

namespace Homoicon

/-- The three shapes of an array. -/
inductive Shape where
  | block
  | group
  | path
deriving Repr, DecidableEq, Inhabited

mutual

/-- A value as written in source text. -/
inductive Node where
  /-- A token that stands for a single value. -/
  | scalar (lexeme : Lexeme)
  | array (shape : Shape) (mark : Mark) (items : List Item)
  | quoted (depth : Nat) (node : Node)

/-- A value within an array, with whether it begins a line. -/
inductive Item where
  | mk (node : Node) (newline : Bool)

end

instance : Inhabited Node := ⟨.scalar .blank⟩

instance : Inhabited Item := ⟨.mk default false⟩

namespace Item

/-- The value of an item. -/
def node : Item → Node
  | mk node _ => node

/-- Whether an item begins a line. -/
def newline : Item → Bool
  | mk _ newline => newline

end Item

namespace Node

/-- The mark of a word or array. -/
def mark : Node → Mark
  | scalar (.word _ mark) => mark
  | array _ mark _ => mark
  | _ => .plain

/-- The same word or array without its mark. -/
def unmarked : Node → Node
  | scalar (.word name _) => scalar (.word name .plain)
  | array shape _ items => array shape .plain items
  | node => node

end Node

end Homoicon
