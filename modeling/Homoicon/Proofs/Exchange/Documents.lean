import Homoicon.Proofs.Exchange.Reading

/-!
# Documents and back

A document without decimals whose arrays and objects nest no deeper than the reader allows is read
from its compact text, with the fields of its objects in the order of their names.  This is what is
relied on of a library that writes and reads documents.
-/

namespace Homoicon.Json

/-! ## The document that is read -/

mutual

/-- How deep arrays and objects nest. -/
def depth : Json → Nat
  | array items => itemsDepth items + 1
  | object fields => fieldsDepth fields + 1
  | _ => 0

/-- The greatest depth of some items. -/
def itemsDepth : List Json → Nat
  | [] => 0
  | item :: rest => max item.depth (itemsDepth rest)

/-- The greatest depth of the values of some fields. -/
def fieldsDepth : List (String × Json) → Nat
  | [] => 0
  | (_, value) :: rest => max value.depth (fieldsDepth rest)

end

mutual

/-- A document with the fields of its objects in the order of their names. -/
def sorted : Json → Json
  | array items => array (sortedItems items)
  | object fields => object (sortedFields fields [])
  | document => document

/-- Items whose objects have their fields in order. -/
def sortedItems : List Json → List Json
  | [] => []
  | item :: rest => item.sorted :: sortedItems rest

/-- Fields put in order among those that were found before. -/
def sortedFields : List (String × Json) → List (String × Json) → List (String × Json)
  | [], found => found
  | (name, value) :: rest, found => sortedFields rest (insertField name value.sorted found)

end

/-- A document whose numbers are all integers of 64 bits. -/
inductive Exact : Json → Prop
  | null : Exact null
  | bool (b : Bool) : Exact (bool b)
  | integer {i : Int} (fits : Bits.fits64 i = true) : Exact (integer i)
  | string (s : String) : Exact (string s)
  | array {items : List Json} (each : ∀ item ∈ items, Exact item) : Exact (array items)
  | object {fields : List (String × Json)} (each : ∀ field ∈ fields, Exact field.2) :
      Exact (object fields)

theorem depth_le_itemsDepth {items : List Json} {item : Json} (member : item ∈ items) :
    item.depth ≤ itemsDepth items := by
  induction items with
  | nil => cases member
  | cons first items induction =>
      rw [itemsDepth]
      cases member with
      | head => exact Nat.le_max_left _ _
      | tail _ member => exact Nat.le_trans (induction member) (Nat.le_max_right _ _)

theorem depth_le_fieldsDepth {fields : List (String × Json)} {field : String × Json}
    (member : field ∈ fields) : field.2.depth ≤ fieldsDepth fields := by
  induction fields with
  | nil => cases member
  | cons first fields induction =>
      rw [fieldsDepth]
      cases member with
      | head => exact Nat.le_max_left _ _
      | tail _ member => exact Nat.le_trans (induction member) (Nat.le_max_right _ _)

/-! ## The text that is written -/

/-- The characters of a field. -/
def fieldChars (field : String × Json) : List Char :=
  (quote field.1).toList ++ ':' :: field.2.render.toList

theorem toList_renderItems (item : Json) (items : List Json) :
    (renderItems (item :: items)).toList =
      item.render.toList ++ items.flatMap fun item => ',' :: item.render.toList := by
  induction items generalizing item with
  | nil => simp [renderItems]
  | cons next items induction =>
      rw [renderItems, String.toList_append, String.toList_append, induction]
      · simp
      · simp

theorem toList_renderFields (field : String × Json) (fields : List (String × Json)) :
    (renderFields (field :: fields)).toList =
      fieldChars field ++ fields.flatMap fun field => ',' :: fieldChars field := by
  induction fields generalizing field with
  | nil => simp [renderFields, fieldChars]
  | cons next fields induction =>
      rw [renderFields, String.toList_append, induction]
      · simp [fieldChars]
      · simp

theorem toList_quote (s : String) :
    (quote s).toList = '"' :: (s.toList.flatMap escapeChar ++ ['"']) := by
  rw [quote, String.toList_ofList]
  rfl

namespace Reader

/-! ## Scalars -/

theorem reads_skipSpace {b : UInt8} (plain : isSpace b = false) (rest : List UInt8) :
    Reads skipSpace [] (some b) (b :: rest) := by
  refine @Reads.skipSpace (b :: rest) ?_
  rintro other ⟨⟩
  exact plain

theorem reads_identifier {cs : List Char} (ascii : cs.all (·.toNat ≤ 127) = true)
    (rest : List UInt8) : Reads (identifier cs) (Text.Utf8.bytes cs) () rest := by
  induction cs with
  | nil => exact Reads.pure () rest
  | cons c cs induction =>
      rw [List.all_cons, Bool.and_eq_true, decide_eq_true_eq] at ascii
      have value := Text.Utf8.toNat_ofNat_byte (by omega : c.toNat < 256)
      rw [Text.Utf8.bytes_cons, Text.Utf8.utf8EncodeChar_ascii ascii.1]
      refine Reads.bind (Reads.next? (UInt8.ofNat c.toNat) _) ?_
      change Reads (if (UInt8.ofNat c.toNat).toNat == c.toNat then _ else _) _ _ _
      rw [value, if_pos (beq_self_eq_true _)]
      exact induction ascii.2

variable {inner : Option (Reader Json)} {rest : List UInt8}

theorem reads_null : Reads (valueWith inner) (Text.Utf8.bytes ['n', 'u', 'l', 'l']) null rest := by
  refine Reads.look (reads_skipSpace (b := 110) rfl _) ?_
  refine Reads.step (Reads.eat 110 _) ?_
  exact Reads.last (reads_identifier (by rfl) rest) (Reads.pure null rest)

theorem reads_bool (b : Bool) :
    Reads (valueWith inner) (Text.Utf8.bytes (render (bool b)).toList) (bool b) rest := by
  cases b with
  | true =>
      refine Reads.look (reads_skipSpace (b := 116) rfl _) ?_
      refine Reads.step (Reads.eat 116 _) ?_
      exact Reads.last (reads_identifier (by rfl) rest) (Reads.pure (bool true) rest)
  | false =>
      refine Reads.look (reads_skipSpace (b := 102) rfl _) ?_
      refine Reads.step (Reads.eat 102 _) ?_
      exact Reads.last (reads_identifier (by rfl) rest) (Reads.pure (bool false) rest)

theorem reads_string (s : String) :
    Reads (valueWith inner) (Text.Utf8.bytes (quote s).toList) (string s) rest := by
  rw [toList_quote]
  refine Reads.look (reads_skipSpace (b := 34) rfl _) ?_
  refine Reads.step (Reads.eat 34 _) ?_
  exact Reads.map string (reads_stringText s rest)

theorem isDigit_eq {b : UInt8} (digit : isDigit b = true) :
    b = 48 ∨ b = 49 ∨ b = 50 ∨ b = 51 ∨ b = 52 ∨ b = 53 ∨ b = 54 ∨ b = 55 ∨ b = 56 ∨ b = 57 := by
  simp only [isDigit, Bool.and_eq_true, decide_eq_true_eq, UInt8.le_iff_toNat_le,
    UInt8.reduceToNat] at digit
  simp only [← UInt8.toNat_inj, UInt8.reduceToNat]
  omega

theorem isDigit_printing {b : UInt8} (digit : isDigit b = true) :
    isSpace b = false ∧ b ≠ 93 := by
  rcases isDigit_eq digit with rfl | rfl | rfl | rfl | rfl | rfl | rfl | rfl | rfl | rfl <;> decide

/-- The first byte of a number is a digit. -/
theorem repr_first (n : Nat) :
    ∃ b back, Text.Utf8.bytes n.repr.toList = b :: back ∧ isDigit b = true := by
  cases spelled : n.repr.toList with
  | nil => exact absurd spelled (Token.repr_ne_nil n)
  | cons d ds =>
      obtain ⟨byte, digit, -⟩ :=
        digit_byte (Token.digits_repr n d (by rw [spelled]; exact List.mem_cons_self))
      refine ⟨UInt8.ofNat d.toNat, Text.Utf8.bytes ds, ?_, digit⟩
      rw [Text.Utf8.bytes_cons, byte]
      rfl

/-- A value that begins with a digit is a number without a sign. -/
theorem reads_natural {b : UInt8} (digit : isDigit b = true) {back : List UInt8} {j : Json}
    (read : Reads (number true) (b :: back) j rest) :
    Reads (valueWith inner) (b :: back) j rest := by
  refine Reads.look (reads_skipSpace (isDigit_printing digit).1 _) ?_
  rcases isDigit_eq digit with rfl | rfl | rfl | rfl | rfl | rfl | rfl | rfl | rfl | rfl <;>
    cases inner <;> exact read

theorem reads_integer {i : Int} (fits : Bits.fits64 i = true) (delimited : Delimited rest) :
    Reads (valueWith inner) (Text.Utf8.bytes (toString i).toList) (integer i) rest := by
  have bounds : Bits.least64 ≤ i ∧ i ≤ Bits.greatest64 := by
    simpa [Bits.fits64] using fits
  have limits : Bits.least64 = -((Bits.greatest64 : Int) + 1) ∧
      gatherLimit = 2 * Bits.greatest64 + 1 := by decide
  rw [Token.toList_toString]
  split_ifs with natural
  · have read := reads_number true delimited (n := i.toNat) (by omega)
      (by intro absurd; cases absurd)
    rw [if_pos rfl, Int.toNat_of_nonneg natural] at read
    obtain ⟨b, back, spelled, digit⟩ := repr_first i.toNat
    rw [spelled] at read ⊢
    exact reads_natural digit read
  · have read := reads_number false delimited (n := (-i).toNat) (by omega)
      (fun _ => by omega)
    have value : -((-i).toNat : Int) = i := by omega
    rw [if_neg Bool.false_ne_true, value] at read
    refine Reads.look (reads_skipSpace (b := 45) rfl _) ?_
    exact Reads.step (Reads.eat 45 _) read

/-! ## Arrays and objects -/

/-- A reader of values reads a document from its text, whatever may follow a value. -/
def Readable (reader : Reader Json) (j : Json) : Prop :=
  ∀ rest, Delimited rest → Reads reader (Text.Utf8.bytes j.render.toList) j.sorted rest

/-- No text of a document begins with white space or a closing bracket. -/
theorem render_first {j : Json} (exact : j.Exact) :
    ∃ b back, Text.Utf8.bytes j.render.toList = b :: back ∧ isSpace b = false ∧ b ≠ 93 := by
  cases exact with
  | null => exact ⟨110, _, rfl, rfl, by decide⟩
  | bool b =>
      cases b with
      | true => exact ⟨116, _, rfl, rfl, by decide⟩
      | false => exact ⟨102, _, rfl, rfl, by decide⟩
  | integer fits =>
      rw [render, Token.toList_toString]
      split_ifs
      · obtain ⟨b, back, spelled, digit⟩ := repr_first _
        exact ⟨b, back, spelled, isDigit_printing digit⟩
      · exact ⟨45, _, rfl, rfl, by decide⟩
  | string s =>
      rw [render, toList_quote]
      exact ⟨34, _, rfl, rfl, by decide⟩
  | array each =>
      rw [render, String.toList_append, String.toList_append]
      exact ⟨91, _, rfl, rfl, by decide⟩
  | object each =>
      rw [render, String.toList_append, String.toList_append]
      exact ⟨123, _, rfl, rfl, by decide⟩

variable {reader : Reader Json}

/-- What follows the first item of an array: the others behind commas, and the bracket. -/
def itemsBack (items : List Json) : List UInt8 :=
  Text.Utf8.bytes (items.flatMap fun item => ',' :: item.render.toList) ++ [93]

theorem itemsBack_cons (item : Json) (items : List Json) :
    itemsBack (item :: items) =
      44 :: (Text.Utf8.bytes item.render.toList ++ itemsBack items) := by
  have comma : String.utf8EncodeChar ',' = [44] := rfl
  rw [itemsBack, List.flatMap_cons, Text.Utf8.bytes_append, Text.Utf8.bytes_cons, itemsBack,
    comma, List.append_assoc, List.append_assoc, List.singleton_append]

theorem delimited_itemsBack (items : List Json) (rest : List UInt8) :
    Delimited (itemsBack items ++ rest) := by
  cases items with
  | nil => rintro b ⟨⟩; exact .inr (.inl rfl)
  | cons item items =>
      rw [itemsBack_cons]
      rintro b ⟨⟩
      exact .inl rfl

theorem length_le_itemsBack (items : List Json) : items.length < (itemsBack items).length := by
  induction items with
  | nil => decide
  | cons item items induction =>
      rw [itemsBack_cons, List.length_cons, List.length_cons, List.length_append]
      omega

theorem reads_itemsBack {items : List Json} (exact : ∀ item ∈ items, item.Exact)
    (each : ∀ item ∈ items, Readable reader item) (fuel : Nat) (enough : items.length < fuel)
    (last : Json) (reversed : List Json) (rest : List UInt8) :
    Reads (Reader.items reader fuel (last :: reversed)) (itemsBack items)
      ((last :: reversed).reverse ++ sortedItems items) rest := by
  induction items generalizing fuel last reversed with
  | nil =>
      cases fuel with
      | zero => cases enough
      | succ fuel =>
          rw [sortedItems, List.append_nil]
          refine Reads.look (reads_skipSpace (b := 93) rfl rest) ?_
          exact Reads.last (Reads.eat 93 rest) (Reads.pure _ rest)
  | cons item items induction =>
      cases fuel with
      | zero => cases enough
      | succ fuel =>
          obtain ⟨b, back, spelled, printing, open_⟩ := render_first (exact item List.mem_cons_self)
          have read := each item List.mem_cons_self _ (delimited_itemsBack items rest)
          have next := induction (List.forall_mem_cons.mp exact).2
            (List.forall_mem_cons.mp each).2 fuel
            (by simpa using enough) item.sorted (last :: reversed)
          rw [List.reverse_cons, List.append_assoc] at next
          rw [itemsBack_cons, sortedItems]
          refine Reads.look (reads_skipSpace (b := 44) rfl _) ?_
          refine Reads.step (Reads.eat 44 _) ?_
          rw [spelled] at read ⊢
          refine Reads.look (reads_skipSpace printing _) ?_
          split
          next absent => cases absent
          next closing => exact absurd (Option.some.inj closing) open_
          next => exact Reads.bind read next

/-- An array is read back if its items are. -/
theorem reads_array {items : List Json} (exact : ∀ item ∈ items, item.Exact)
    (each : ∀ item ∈ items, Readable reader item) (rest : List UInt8) :
    Reads (valueWith (some reader)) (Text.Utf8.bytes (render (array items)).toList)
      (array (sortedItems items)) rest := by
  cases items with
  | nil =>
      refine Reads.look (reads_skipSpace (b := 91) rfl _) ?_
      refine Reads.step (Reads.eat 91 _) ?_
      refine Reads.look (Reads.fuel _) (Reads.map array ?_)
      refine Reads.look (reads_skipSpace (b := 93) rfl rest) ?_
      exact Reads.last (Reads.eat 93 rest) (Reads.pure _ rest)
  | cons item items =>
      obtain ⟨b, back, spelled, printing, open_⟩ := render_first (exact item List.mem_cons_self)
      have read := each item List.mem_cons_self _ (delimited_itemsBack items rest)
      have text : Text.Utf8.bytes (render (array (item :: items))).toList =
          91 :: (Text.Utf8.bytes item.render.toList ++ itemsBack items) := by
        rw [render, String.toList_append, String.toList_append, toList_renderItems]
        simp only [Text.Utf8.bytes_append, List.append_assoc, itemsBack]
        rfl
      rw [text, sortedItems]
      refine Reads.look (reads_skipSpace (b := 91) rfl _) ?_
      refine Reads.step (Reads.eat 91 _) ?_
      refine Reads.look (Reads.fuel _) (Reads.map array ?_)
      rw [spelled] at read ⊢
      refine Reads.look (reads_skipSpace printing _) ?_
      split
      next absent => cases absent
      next closing => exact absurd (Option.some.inj closing) open_
      next =>
          refine Reads.bind read ?_
          refine reads_itemsBack (List.forall_mem_cons.mp exact).2
            (List.forall_mem_cons.mp each).2 _ ?_ _ [] rest
          have enough : items.length < (b :: back ++ itemsBack items ++ rest).length := by
            have long := length_le_itemsBack items
            simp only [List.length_append]
            omega
          exact enough

/-- What follows the first field of an object: the others behind commas, and the bracket. -/
def fieldsBack (fields : List (String × Json)) : List UInt8 :=
  Text.Utf8.bytes (fields.flatMap fun field => ',' :: fieldChars field) ++ [125]

theorem fieldsBack_cons (field : String × Json) (fields : List (String × Json)) :
    fieldsBack (field :: fields) =
      44 :: (Text.Utf8.bytes (fieldChars field) ++ fieldsBack fields) := by
  have comma : String.utf8EncodeChar ',' = [44] := rfl
  rw [fieldsBack, List.flatMap_cons, Text.Utf8.bytes_append, Text.Utf8.bytes_cons, fieldsBack,
    comma, List.append_assoc, List.append_assoc, List.singleton_append]

theorem delimited_fieldsBack (fields : List (String × Json)) (rest : List UInt8) :
    Delimited (fieldsBack fields ++ rest) := by
  cases fields with
  | nil => rintro b ⟨⟩; exact .inr (.inr rfl)
  | cons field fields =>
      rw [fieldsBack_cons]
      rintro b ⟨⟩
      exact .inl rfl

theorem length_le_fieldsBack (fields : List (String × Json)) :
    fields.length < (fieldsBack fields).length := by
  induction fields with
  | nil => decide
  | cons field fields induction =>
      rw [fieldsBack_cons, List.length_cons, List.length_cons, List.length_append]
      omega

/-- The bytes of a field behind its opening quote. -/
def fieldBytes (field : String × Json) : List UInt8 :=
  Text.Utf8.bytes (field.1.toList.flatMap escapeChar ++ ['"']) ++
    (58 :: Text.Utf8.bytes field.2.render.toList)

theorem bytes_fieldChars (field : String × Json) :
    Text.Utf8.bytes (fieldChars field) = 34 :: fieldBytes field := by
  rw [fieldChars, toList_quote, List.cons_append, Text.Utf8.bytes_cons, Text.Utf8.bytes_append,
    Text.Utf8.bytes_cons]
  rfl

/-- A field at whose opening quote the reader is. -/
theorem reads_field {field : String × Json} (readable : Readable reader field.2)
    (found : List (String × Json)) {rest : List UInt8} (delimited : Delimited rest) :
    Reads (Reader.field reader found) (34 :: fieldBytes field)
      (insertField field.1 field.2.sorted found) rest := by
  refine Reads.step (Reads.eat 34 _) ?_
  refine Reads.bind (reads_stringText field.1 _) ?_
  refine Reads.look (reads_skipSpace (b := 58) rfl _) ?_
  refine Reads.step (Reads.eat 58 _) ?_
  exact Reads.last (readable rest delimited) (Reads.pure _ rest)

theorem reads_fieldsBack {fields : List (String × Json)}
    (each : ∀ field ∈ fields, Readable reader field.2) (fuel : Nat) (enough : fields.length < fuel)
    (found : List (String × Json)) (rest : List UInt8) :
    Reads (Reader.fields reader fuel false found) (fieldsBack fields) (sortedFields fields found)
      rest := by
  induction fields generalizing fuel found with
  | nil =>
      cases fuel with
      | zero => cases enough
      | succ fuel =>
          refine Reads.look (reads_skipSpace (b := 125) rfl rest) ?_
          exact Reads.last (Reads.eat 125 rest) (Reads.pure _ rest)
  | cons field fields induction =>
      cases fuel with
      | zero => cases enough
      | succ fuel =>
          have read := reads_field (each field List.mem_cons_self) found
            (delimited_fieldsBack fields rest)
          have next := induction (List.forall_mem_cons.mp each).2
            fuel (by simpa using enough) (insertField field.1 field.2.sorted found)
          rw [fieldsBack_cons, bytes_fieldChars]
          refine Reads.look (reads_skipSpace (b := 44) rfl _) ?_
          refine Reads.step (Reads.eat 44 _) ?_
          refine Reads.look (reads_skipSpace (b := 34) rfl _) ?_
          exact Reads.bind read next

/-- An object is read back if the values of its fields are. -/
theorem reads_object {fields : List (String × Json)}
    (each : ∀ field ∈ fields, Readable reader field.2) (rest : List UInt8) :
    Reads (valueWith (some reader)) (Text.Utf8.bytes (render (object fields)).toList)
      (object (sortedFields fields [])) rest := by
  cases fields with
  | nil =>
      refine Reads.look (reads_skipSpace (b := 123) rfl _) ?_
      refine Reads.step (Reads.eat 123 _) ?_
      refine Reads.look (Reads.fuel _) (Reads.map object ?_)
      refine Reads.look (reads_skipSpace (b := 125) rfl rest) ?_
      exact Reads.last (Reads.eat 125 rest) (Reads.pure _ rest)
  | cons field fields =>
      have read := reads_field (each field List.mem_cons_self) []
        (delimited_fieldsBack fields rest)
      have text : Text.Utf8.bytes (render (object (field :: fields))).toList =
          123 :: (34 :: fieldBytes field ++ fieldsBack fields) := by
        rw [render, String.toList_append, String.toList_append, toList_renderFields]
        simp only [Text.Utf8.bytes_append, List.append_assoc, fieldsBack, bytes_fieldChars]
        rfl
      rw [text]
      refine Reads.look (reads_skipSpace (b := 123) rfl _) ?_
      refine Reads.step (Reads.eat 123 _) ?_
      refine Reads.look (Reads.fuel _) (Reads.map object ?_)
      refine Reads.look (reads_skipSpace (b := 34) rfl _) ?_
      refine Reads.bind read ?_
      refine reads_fieldsBack (List.forall_mem_cons.mp each).2 _
        ?_ _ rest
      have enough :
          fields.length < (34 :: fieldBytes field ++ fieldsBack fields ++ rest).length := by
        have long := length_le_fieldsBack fields
        simp only [List.length_append]
        omega
      exact enough

/-! ## Documents -/

theorem reads_scalar {j : Json} (exact : j.Exact) (flat : j.depth = 0) :
    ∀ inner rest, Delimited rest →
      Reads (valueWith inner) (Text.Utf8.bytes j.render.toList) j.sorted rest := by
  intro inner rest delimited
  cases exact with
  | null => exact reads_null
  | bool b => exact reads_bool b
  | integer fits => exact reads_integer fits delimited
  | string s => exact reads_string s
  | array each => simp [depth] at flat
  | object each => simp [depth] at flat

theorem readable_value (limit : Nat) {j : Json} (exact : j.Exact) (shallow : j.depth ≤ limit) :
    Readable (value limit) j := by
  induction limit generalizing j with
  | zero => exact reads_scalar exact (Nat.le_zero.mp shallow) none
  | succ limit induction =>
      intro rest delimited
      cases exact with
      | array each =>
          refine reads_array each (fun item member => induction (each item member) ?_) rest
          have deeper := depth_le_itemsDepth member
          simp only [depth] at shallow
          omega
      | object each =>
          refine reads_object (fun field member => induction (each field member) ?_) rest
          have deeper := depth_le_fieldsDepth member
          simp only [depth] at shallow
          omega
      | null => exact reads_scalar .null rfl _ rest delimited
      | bool b => exact reads_scalar (.bool b) rfl _ rest delimited
      | integer fits => exact reads_scalar (.integer fits) rfl _ rest delimited
      | string s => exact reads_scalar (.string s) rfl _ rest delimited

end Reader

/-- The compact text of a document is read as the document with its fields in order. -/
theorem read_render {j : Json} (exact : j.Exact) (shallow : j.depth ≤ Reader.nestingLimit) :
    Json.read j.render = .ok j.sorted := by
  have delimited : Reader.Delimited [] := by rintro b ⟨⟩
  have whole : Reads Reader.document (Text.Utf8.bytes j.render.toList) j.sorted [] := by
    refine Reads.last (Reader.readable_value _ exact shallow [] delimited) ?_
    refine Reads.look (@Reads.skipSpace [] (by rintro b ⟨⟩)) ?_
    exact Reads.pure _ _
  obtain ⟨c, ran, -⟩ := whole { rest := (Text.Utf8.encode j.render).toList }
    (by rw [Text.Utf8.toList_encode, List.append_nil])
  rw [Json.read, StateT.run, ran]
  rfl

/-! ## Libraries -/

/-- How deep arrays and objects may nest in a text that a library reads. -/
def Library.nestingLimit : Nat := 127

/-- What is relied on of a library: as deep as documents may nest it reads the text that it wrote,
as the document that it wrote but for the fields of objects, which it puts in the order of their
names. -/
structure Library.Faithful (library : Library) : Prop where
  read_write : ∀ {j : Json}, j.Exact → j.depth ≤ Library.nestingLimit →
    library.read (library.write j) = .ok j.sorted

theorem standard_faithful : standard.Faithful where
  read_write {j} exact shallow := by
    change (Json.read j.render).mapError Refusal.message = _
    rw [read_render exact shallow]
    rfl

end Homoicon.Json
