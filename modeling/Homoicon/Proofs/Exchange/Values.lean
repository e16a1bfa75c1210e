import Homoicon.Exchange
import Homoicon.Proofs.Exchange.Documents

/-!
# Values that are exchanged

The tree that a cell stands for when it is written as JSON, and the documents that a tree may be
written as.  The fields of an object are a finite map: they may stand in any order, in the cells as
well as in the document.
-/

namespace Homoicon

/-- A value as it is exchanged: no positions, bindings or marks. -/
inductive Datum where
  | null
  | blank
  | void
  | logic (value : Bool)
  | integer (value : Int)
  | char (value : Char)
  | word (kind : Kind) (spelling : String)
  | text (kind : Kind) (content : String)
  /-- A scalar that is exchanged as source text. -/
  | literal (lexeme : Lexeme)
  | array (kind : Kind) (items : List Datum)
  | object (fields : List (String × Datum))

/-! ## Literals -/

/-- The kinds that have no counterpart in JSON and are exchanged as source text. -/
def Kind.isSource : Kind → Bool
  | .pair | .tuple | .time | .date | .binary | .issue => true
  | _ => false

/-- What a value of such a kind is made of. -/
def Payload.isSource : Payload → Bool
  | .pair _ | .tuple _ | .time _ | .date _ | .series .. => true
  | _ => false

/-- The literals that are exchanged as source text, each with the kind and the text of its value. -/
inductive Lexeme.Sourced : Lexeme → Kind → String → Prop where
  | tuple {bytes : List UInt8} : 3 ≤ bytes.length → bytes.length ≤ 8 →
      Sourced (.tuple bytes) .tuple (String.intercalate "." (bytes.map fun b => toString b.toNat))
  | date {year month day : Int} : 0 ≤ year → year ≤ Bits.greatest32 → 1 ≤ month → month ≤ 12 →
      1 ≤ day → day ≤ 31 →
      Sourced (.date year month day) .date
        (Mold.dateText (.ofDay year month.toNat day.toNat))
  | binary (bytes : List UInt8) : Sourced (.binary bytes) .binary (Mold.binaryText bytes)
  | issue {s : String} : Token.takeLexeme true [] false s.toList = (s.toList, []) →
      Sourced (.text .issue s) .issue (Mold.stringText .issue s)

/-! ## The cells of a value -/

/-- An unquoted cell of some kind with some payload. -/
structure Cell.Holds (c : Cell) (kind : Kind) (payload : Payload) : Prop where
  unquoted : c.quote = 0
  kind : c.kind = kind
  payload : c.payload = payload

/-- A cell holds the value of such a literal. -/
inductive Machine.Bears (m : Machine) (c : Cell) : Lexeme → Prop where
  | tuple {bytes : List UInt8} : c.Holds .tuple (.tuple bytes) → Bears m c (.tuple bytes)
  | date {d : Date} : c.Holds .date (.date d) → Bears m c (.date d.year d.month d.day)
  | binary {id : SeriesId} {index : Nat} {bytes : Array UInt8} :
      c.Holds .binary (.series id index) → Query.bytes id m = .ok bytes →
      Bears m c (.binary (bytes.toList.drop index))
  | issue {id : SeriesId} {index : Nat} {buffer : Text.Buffer} :
      c.Holds .issue (.series id index) → Query.text id m = .ok buffer →
      Bears m c (.text .issue (buffer.slice index buffer.size))

mutual

/-- A cell stands for a value.  No array or object that is around it lies inside it again. -/
inductive Machine.Represents (m : Machine) : List SeriesId → Cell → Datum → Prop where
  | null {around : List SeriesId} {c : Cell} : c.Holds .null .none → Represents m around c .null
  | blank {around : List SeriesId} {c : Cell} : c.Holds .blank .none →
      Represents m around c .blank
  | void {around : List SeriesId} {c : Cell} : c.Holds .void .none → Represents m around c .void
  | logic {around : List SeriesId} {c : Cell} {b : Bool} : c.Holds .logic (.logic b) →
      Represents m around c (.logic b)
  | integer {around : List SeriesId} {c : Cell} {i : Int} : Bits.fits64 i = true →
      c.Holds .integer (.integer i) → Represents m around c (.integer i)
  | char {around : List SeriesId} {c : Cell} {value : Char} : c.Holds .char (.char value) →
      Represents m around c (.char value)
  | word {around : List SeriesId} {c : Cell} {kind : Kind} {symbol : SymbolId} {index : Nat} :
      kind.isAnyWord = true → c.Holds kind (.word symbol index) →
      Represents m around c (.word kind (m.symbols.spelling symbol))
  | text {around : List SeriesId} {c : Cell} {kind : Kind} {id : SeriesId} {index : Nat}
      {buffer : Text.Buffer} : kind.isAnyString = true → c.Holds kind (.series id index) →
      Query.text id m = .ok buffer →
      Represents m around c (.text kind (buffer.slice index buffer.size))
  | literal {around : List SeriesId} {c : Cell} {lexeme : Lexeme} {kind : Kind} {text : String} :
      lexeme.Sourced kind text → m.Bears c lexeme → Represents m around c (.literal lexeme)
  | array {around : List SeriesId} {c : Cell} {kind : Kind} {id : SeriesId} {index : Nat}
      {cells : Array Cell} {items : List Datum} : kind.isAnyArray = true →
      c.Holds kind (.series id index) → id ∉ around → Query.cells id m = .ok cells →
      RepresentsItems m (id :: around) (cells.toList.drop index) items →
      Represents m around c (.array kind items)
  | object {around : List SeriesId} {c : Cell} {varlist : SeriesId} {phase : Option Action}
      {names : List SymbolId} {cells : Array Cell} {listed fields : List (String × Datum)} :
      c.Holds .object (.context varlist phase) → varlist ∉ around →
      Query.isAccessible varlist m = .ok true → Query.contextKeys varlist m = .ok names →
      Query.cells varlist m = .ok cells →
      RepresentsFields m (varlist :: around) names (cells.toList.drop 1) listed →
      listed.Perm fields → (fields.map Prod.fst).Nodup → Represents m around c (.object fields)

/-- Some cells stand for the items of an array, of which none is null. -/
inductive Machine.RepresentsItems (m : Machine) : List SeriesId → List Cell → List Datum → Prop
  where
  | nil {around : List SeriesId} : RepresentsItems m around [] []
  | cons {around : List SeriesId} {c : Cell} {cells : List Cell} {item : Datum}
      {items : List Datum} : item ≠ .null → Represents m around c item →
      RepresentsItems m around cells items →
      RepresentsItems m around (c :: cells) (item :: items)

/-- Some cells stand for the values of named variables. -/
inductive Machine.RepresentsFields (m : Machine) :
    List SeriesId → List SymbolId → List Cell → List (String × Datum) → Prop where
  | nil {around : List SeriesId} : RepresentsFields m around [] [] []
  | cons {around : List SeriesId} {symbol : SymbolId} {symbols : List SymbolId} {c : Cell}
      {cells : List Cell} {value : Datum} {fields : List (String × Datum)} :
      Represents m around c value → RepresentsFields m around symbols cells fields →
      RepresentsFields m around (symbol :: symbols) (c :: cells)
        ((m.symbols.spelling symbol, value) :: fields)

end

/-! ## The documents of a value -/

namespace Datum

/-- A content with the name of its type. -/
def tagged (name : String) (content : Json) : Json :=
  .object [("type", .string name), ("value", content)]

mutual

/-- A document is how a value may be written. -/
inductive Written : Datum → Json → Prop where
  | null : Written .null (tagged "null" .null)
  | blank : Written .blank (tagged Kind.blank.name .null)
  | void : Written .void (tagged Kind.void.name .null)
  | logic (b : Bool) : Written (.logic b) (tagged Kind.logic.name (.bool b))
  | integer {i : Int} : Bits.fits64 i = true →
      Written (.integer i) (tagged Kind.integer.name (.integer i))
  | char (c : Char) : Written (.char c) (tagged Kind.char.name (.string (String.singleton c)))
  | word {kind : Kind} (s : String) : kind.isAnyWord = true →
      Written (.word kind s) (tagged kind.name (.string s))
  | text {kind : Kind} (s : String) : kind.isAnyString = true →
      Written (.text kind s) (tagged kind.name (.string s))
  | literal {lexeme : Lexeme} {kind : Kind} {text : String} : lexeme.Sourced kind text →
      Written (.literal lexeme) (tagged kind.name (.string text))
  | array {kind : Kind} {items : List Datum} {contents : List Json} : kind.isAnyArray = true →
      WrittenItems items contents →
      Written (.array kind items) (tagged kind.name (.array contents))
  | object {listed fields : List (String × Datum)} {contents : List (String × Json)} :
      WrittenFields listed contents → listed.Perm fields → (fields.map Prod.fst).Nodup →
      Written (.object fields) (tagged Kind.object.name (.object contents))

/-- Documents are how the items of an array may be written. -/
inductive WrittenItems : List Datum → List Json → Prop where
  | nil : WrittenItems [] []
  | cons {item : Datum} {items : List Datum} {content : Json} {contents : List Json} :
      item ≠ .null → Written item content → WrittenItems items contents →
      WrittenItems (item :: items) (content :: contents)

/-- Documents are how the fields of an object may be written, in this order. -/
inductive WrittenFields : List (String × Datum) → List (String × Json) → Prop where
  | nil : WrittenFields [] []
  | cons {name : String} {value : Datum} {fields : List (String × Datum)} {content : Json}
      {contents : List (String × Json)} : Written value content → WrittenFields fields contents →
      WrittenFields ((name, value) :: fields) ((name, content) :: contents)

end

/-! ## Written values hold no decimals -/

theorem exact_tagged {name : String} {content : Json} (exact : content.Exact) :
    (tagged name content).Exact := by
  refine .object fun field member => ?_
  rcases List.mem_cons.mp member with rfl | member
  · exact .string name
  · rcases List.mem_singleton.mp member with rfl
    exact exact

mutual

theorem Written.exact : {value : Datum} → {j : Json} → Written value j → j.Exact
  | _, _, .null => exact_tagged .null
  | _, _, .blank => exact_tagged .null
  | _, _, .void => exact_tagged .null
  | _, _, .logic b => exact_tagged (.bool b)
  | _, _, .integer fits => exact_tagged (.integer fits)
  | _, _, .char c => exact_tagged (.string _)
  | _, _, .word s _ => exact_tagged (.string s)
  | _, _, .text s _ => exact_tagged (.string s)
  | _, _, .literal _ => exact_tagged (.string _)
  | _, _, .array _ items => exact_tagged (.array items.exact)
  | _, _, .object fields _ _ => exact_tagged (.object fields.exact)

theorem WrittenItems.exact : {items : List Datum} → {contents : List Json} →
    WrittenItems items contents → ∀ content ∈ contents, content.Exact
  | _, _, .nil => List.forall_mem_nil _
  | _, _, .cons _ first rest => List.forall_mem_cons.mpr ⟨first.exact, rest.exact⟩

theorem WrittenFields.exact : {fields : List (String × Datum)} →
    {contents : List (String × Json)} → WrittenFields fields contents →
    ∀ field ∈ contents, field.2.Exact
  | _, _, .nil => List.forall_mem_nil _
  | _, _, .cons first rest => List.forall_mem_cons.mpr ⟨first.exact, rest.exact⟩

end

/-! ## Fields in another order -/

theorem compareLists_eq {as bs : List Char}
    (same : compareLists (fun x y => compare x.toNat y.toNat) as bs = .eq) : as = bs := by
  induction as generalizing bs with
  | nil =>
      cases bs with
      | nil => rfl
      | cons b bs => cases same
  | cons a as induction =>
      cases bs with
      | nil => cases same
      | cons b bs =>
          rw [compareLists] at same
          cases first : compare a.toNat b.toNat with
          | lt => rw [first] at same; cases same
          | gt => rw [first] at same; cases same
          | eq =>
              rw [first] at same
              rw [Char.toNat_inj.mp (Nat.compare_eq_eq.mp first), induction same]

theorem compareText_eq {a b : String} (same : compareText a b = .eq) : a = b :=
  String.toList_inj.mp (compareLists_eq same)

theorem WrittenFields.insert {fields : List (String × Datum)} {found : List (String × Json)}
    (others : WrittenFields fields found) {name : String} {value : Datum} {content : Json}
    (written : Written value content) (fresh : name ∉ fields.map Prod.fst) :
    ∃ listed, listed.Perm ((name, value) :: fields) ∧
      WrittenFields listed (Json.insertField name content found) := by
  induction found generalizing fields with
  | nil =>
      cases others
      exact ⟨_, .refl _, .cons written .nil⟩
  | cons first found induction =>
      cases others with
      | @cons other otherValue fields otherContent _ otherWritten rest =>
          rw [List.map_cons, List.mem_cons, not_or] at fresh
          rw [Json.insertField]
          cases order : compareText name other with
          | lt => exact ⟨_, .refl _, .cons written (.cons otherWritten rest)⟩
          | eq => exact absurd (compareText_eq order) fresh.1
          | gt =>
              obtain ⟨listed, same, listedWritten⟩ := induction rest fresh.2
              exact ⟨(other, otherValue) :: listed, (same.cons _).trans (.swap _ _ _),
                .cons otherWritten listedWritten⟩

mutual

/-- A document of a value stays one when its fields are put in order. -/
theorem Written.sorted : {value : Datum} → {j : Json} → Written value j → Written value j.sorted
  | _, _, .null => .null
  | _, _, .blank => .blank
  | _, _, .void => .void
  | _, _, .logic b => .logic b
  | _, _, .integer fits => .integer fits
  | _, _, .char c => .char c
  | _, _, .word s family => .word s family
  | _, _, .text s family => .text s family
  | _, _, .literal sourced => .literal sourced
  | _, _, .array family items => .array family items.sorted
  | _, _, @Written.object listed _ _ fields same distinct => by
      have unlike : ((listed ++ []).map Prod.fst).Nodup := by
        rw [List.append_nil]
        exact (same.map Prod.fst).nodup_iff.mpr distinct
      obtain ⟨listed, order, written⟩ := fields.sorted .nil unlike
      rw [List.append_nil] at order
      exact .object written (order.trans same) distinct

theorem WrittenItems.sorted : {items : List Datum} → {contents : List Json} →
    WrittenItems items contents → WrittenItems items (Json.sortedItems contents)
  | _, _, .nil => .nil
  | _, _, .cons some_ first rest => .cons some_ first.sorted rest.sorted

theorem WrittenFields.sorted : {fields : List (String × Datum)} →
    {contents : List (String × Json)} → WrittenFields fields contents →
    {before : List (String × Datum)} → {found : List (String × Json)} →
    WrittenFields before found → ((fields ++ before).map Prod.fst).Nodup →
    ∃ listed, listed.Perm (fields ++ before) ∧
      WrittenFields listed (Json.sortedFields contents found)
  | _, _, .nil, before, _, others, _ => ⟨before, .refl _, others⟩
  | _, _, @WrittenFields.cons name value fields _ _ first rest, before, _, others, distinct => by
      have fresh : name ∉ before.map Prod.fst := by
        rw [List.cons_append, List.map_cons, List.nodup_cons, List.map_append] at distinct
        exact fun member => distinct.1 (List.mem_append_right _ member)
      obtain ⟨middle, order, written⟩ := others.insert first.sorted fresh
      have moved : (fields ++ middle).Perm ((name, value) :: fields ++ before) :=
        (order.append_left fields).trans List.perm_middle
      obtain ⟨listed, order, written⟩ :=
        rest.sorted written ((moved.map Prod.fst).nodup_iff.mpr distinct)
      exact ⟨listed, order.trans moved, written⟩

end

end Datum

end Homoicon
