import Homoicon.Token

/-!
# Kinds of values

The closed set of value kinds, their names and families, and sets of kinds.  `end` is the end
marker and `null` the absence of a value; neither may stand in an array.
-/

namespace Homoicon

/-- The kind of a value. -/
inductive Kind where
  | «end» | null | void | blank | logic | integer | decimal | percent | money | char | pair
  | tuple | time | date | datatype | typeset
  | word | setWord | getWord | symWord
  | path | setPath | getPath | symPath
  | block | setBlock | getBlock | symBlock
  | group | setGroup | getGroup | symGroup
  | binary | text | file | url | tag | email | issue | bitset | map | varargs
  | object | module | error | frame | port | action | event | handle | library | custom
  | bar | quoted
deriving Repr, DecidableEq, Inhabited

namespace Kind

/-- All kinds in order. -/
def all : List Kind :=
  [«end», null, void, blank, logic, integer, decimal, percent, money, char, pair,
    tuple, time, date, datatype, typeset, word, setWord, getWord, symWord,
    path, setPath, getPath, symPath, block, setBlock, getBlock, symBlock,
    group, setGroup, getGroup, symGroup, binary, text, file, url, tag, email, issue, bitset,
    map, varargs, object, module, error, frame, port, action, event, handle, library, custom,
    bar, quoted]

/-- The position of a kind among all kinds. -/
def index (k : Kind) : Nat := k.ctorIdx

/-- The name of the datatype. -/
def name : Kind → String
  | «end» => "end" | null => "null" | void => "void!" | blank => "blank!" | logic => "logic!"
  | integer => "integer!" | decimal => "decimal!" | percent => "percent!" | money => "money!"
  | char => "char!" | pair => "pair!" | tuple => "tuple!" | time => "time!" | date => "date!"
  | datatype => "datatype!" | typeset => "typeset!"
  | word => "word!" | setWord => "set-word!" | getWord => "get-word!" | symWord => "sym-word!"
  | path => "path!" | setPath => "set-path!" | getPath => "get-path!" | symPath => "sym-path!"
  | block => "block!" | setBlock => "set-block!" | getBlock => "get-block!"
  | symBlock => "sym-block!"
  | group => "group!" | setGroup => "set-group!" | getGroup => "get-group!"
  | symGroup => "sym-group!"
  | binary => "binary!" | text => "text!" | file => "file!" | url => "url!" | tag => "tag!"
  | email => "email!" | issue => "issue!" | bitset => "bitset!" | map => "map!"
  | varargs => "varargs!" | object => "object!" | module => "module!" | error => "error!"
  | frame => "frame!" | port => "port!" | action => "action!" | event => "event!"
  | handle => "handle!" | library => "library!" | custom => "custom!" | bar => "bar!"
  | quoted => "quoted!"

/-- The kinds that have a datatype: all but the end marker and null. -/
def named : List Kind := all.drop 2

/-- The kind whose datatype has a name. -/
def ofName? (name : String) : Option Kind := named.find? (fun k => k.name == name)

/-- A word with any mark. -/
def isAnyWord : Kind → Bool
  | word | setWord | getWord | symWord => true
  | _ => false

/-- A path with any mark. -/
def isAnyPath : Kind → Bool
  | path | setPath | getPath | symPath => true
  | _ => false

/-- A block with any mark. -/
def isAnyBlock : Kind → Bool
  | block | setBlock | getBlock | symBlock => true
  | _ => false

/-- A group with any mark. -/
def isAnyGroup : Kind → Bool
  | group | setGroup | getGroup | symGroup => true
  | _ => false

/-- A path, block or group. -/
def isAnyArray (k : Kind) : Bool := k.isAnyPath || k.isAnyBlock || k.isAnyGroup

/-- A text of any kind but an issue. -/
def isAnyString : Kind → Bool
  | text | file | url | tag | email => true
  | _ => false

/-- A sequence that has positions. -/
def isAnySeries (k : Kind) : Bool := k.isAnyArray || k.isAnyString || k = binary

/-- A set of named variables. -/
def isAnyContext : Kind → Bool
  | object | module | error | frame | port => true
  | _ => false

/-- A number. -/
def isAnyNumber : Kind → Bool
  | integer | decimal | percent | money => true
  | _ => false

/-- A kind whose values evaluate to themselves. -/
def isInert : Kind → Bool
  | block | binary | text | file | url | tag | email | issue | bitset | map | varargs | object
  | frame | module | error | port | blank | logic | integer | decimal | percent | money | char
  | pair | tuple | time | date | datatype | typeset | event | handle | library | custom
  | symWord | symPath | symBlock | symGroup => true
  | _ => false

/-- The mark of a kind. -/
def mark : Kind → Mark
  | setWord | setPath | setBlock | setGroup => .set
  | getWord | getPath | getBlock | getGroup => .get
  | symWord | symPath | symBlock | symGroup => .sym
  | _ => .plain

/-- The kind of the same family with another mark; a kind without marks stays itself. -/
def withMark (k : Kind) (m : Mark) : Kind :=
  if k.isAnyWord then
    match m with
    | .plain => word | .set => setWord | .get => getWord | .sym => symWord
  else if k.isAnyPath then
    match m with
    | .plain => path | .set => setPath | .get => getPath | .sym => symPath
  else if k.isAnyBlock then
    match m with
    | .plain => block | .set => setBlock | .get => getBlock | .sym => symBlock
  else if k.isAnyGroup then
    match m with
    | .plain => group | .set => setGroup | .get => getGroup | .sym => symGroup
  else k

end Kind

/-- A set of kinds, one bit for each; the bits above the last kind carry no meaning. -/
structure KindSet where
  bits : UInt64
deriving Repr, DecidableEq, Inhabited

namespace KindSet

/-- The bit of a kind. -/
def bit (k : Kind) : UInt64 := 1 <<< (UInt64.ofNat k.index)

/-- No kind. -/
def empty : KindSet := ⟨0⟩

/-- The kinds of a list. -/
def ofList (kinds : List Kind) : KindSet :=
  ⟨kinds.foldl (fun bits k => bits ||| bit k) 0⟩

/-- Whether a kind belongs to the set. -/
def contains (s : KindSet) (k : Kind) : Bool := s.bits &&& bit k != 0

/-- The kinds in either set. -/
def union (s t : KindSet) : KindSet := ⟨s.bits ||| t.bits⟩

/-- All kinds that are not in the set. -/
def complement (s : KindSet) : KindSet := ⟨~~~ s.bits⟩

/-- A set with one more kind. -/
def insert (s : KindSet) (k : Kind) : KindSet := ⟨s.bits ||| bit k⟩

/-- A set without a kind. -/
def erase (s : KindSet) (k : Kind) : KindSet := ⟨s.bits &&& ~~~ (bit k)⟩

/-- The kinds of a set in order. -/
def toList (s : KindSet) : List Kind := Kind.all.filter s.contains

/-- The kinds with a property. -/
def ofFamily (family : Kind → Bool) : KindSet := ofList (Kind.all.filter family)

/-- Every kind but the end marker and null. -/
def anyValue : KindSet := complement (ofList [.«end», .null])

/-- Every kind a plain variable may hold: no end marker, null, void or action. -/
def plainValue : KindSet := complement (ofList [.«end», .null, .void, .action])

end KindSet

end Homoicon
