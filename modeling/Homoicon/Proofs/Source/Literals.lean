import Mathlib.Tactic.SplitIfs
import Homoicon.Mold
import Homoicon.Proofs.Source.Names

/-!
# Literals

The text of a number, a tuple, a date, a quoted text, a character or bytes is read back as the
literal that it is the text of.
-/

namespace Homoicon.Token

/-! ## Digits -/

/-- Some characters that are all digits. -/
def Digits (cs : List Char) : Prop := ∀ c ∈ cs, c.isDigit = true

theorem Digits.notMem {cs : List Char} (digits : Digits cs) {c : Char}
    (other : c.isDigit = false) : c ∉ cs := by
  intro member
  rw [digits c member] at other
  cases other

theorem Digits.all {cs : List Char} (digits : Digits cs) : cs.all Char.isDigit = true :=
  List.all_eq_true.mpr digits

theorem toNat_of_isDigit {c : Char} (digit : c.isDigit = true) : 48 ≤ c.toNat ∧ c.toNat ≤ 57 := by
  simp only [Char.isDigit, Bool.and_eq_true, decide_eq_true_eq] at digit
  exact ⟨digit.1, digit.2⟩

theorem isDelimiter_of_isDigit {c : Char} (digit : c.isDigit = true) :
    isDelimiter c = false ∧ c ≠ '/' := by
  have bounds := toNat_of_isDigit digit
  have apart (d : Char) (outside : d.toNat < 48 ∨ 57 < d.toNat) : c ≠ d := by
    rintro rfl
    omega
  have noBlank : Text.isBlank c = false := by
    simp only [Text.isBlank, Bool.or_eq_false_iff, Bool.and_eq_false_iff, decide_eq_false_iff_not,
      beq_eq_false_iff_ne]
    omega
  refine ⟨?_, apart '/' (by decide)⟩
  simp [isDelimiter, noBlank, apart '[' (by decide), apart ']' (by decide), apart '(' (by decide),
    apart ')' (by decide), apart '"' (by decide), apart '\x7b' (by decide),
    apart '\x7d' (by decide), apart ';' (by decide)]

theorem toList_repr (n : Nat) : n.repr.toList = Nat.toDigits 10 n := by
  rw [Nat.repr_eq_ofList_toDigits, String.toList_ofList]

theorem digits_repr (n : Nat) : Digits n.repr.toList := by
  rw [toList_repr]
  exact fun c member => Nat.isDigit_of_mem_toDigits (by decide) (by decide) member

theorem repr_ne_nil (n : Nat) : n.repr.toList ≠ [] := by
  rw [toList_repr]
  exact Nat.toDigits_ne_nil

theorem digitsValue_repr (n : Nat) : Decimal.digitsValue 0 n.repr.toList = n := by
  rw [toList_repr]
  exact Nat.ofDigitChars_eq_foldl.symm.trans Nat.ofDigitChars_ten_toDigits

theorem readNatural?_repr {limit n : Nat} (within : n ≤ limit) :
    Decimal.readNatural? limit n.repr.toList = some n := by
  have digits := digits_repr n
  have nonempty : n.repr.toList.isEmpty = false := by
    simpa only [List.isEmpty_eq_false_iff] using repr_ne_nil n
  have noSign : '+' ∉ n.repr.toList := digits.notMem (by decide)
  unfold Decimal.readNatural?
  split
  · rename_i same
    exact absurd (by simp [same]) noSign
  · simp only [nonempty, digits.all, digitsValue_repr, Bool.not_true, Bool.or_self,
      Bool.false_eq_true, if_false, if_pos within]

theorem toList_toString (i : Int) :
    (toString i).toList = if 0 ≤ i then i.toNat.repr.toList else '-' :: (-i).toNat.repr.toList := by
  rw [Int.toString_eq_repr, Int.repr_eq_if]
  split_ifs
  · rfl
  · rw [String.toList_append]
    rfl

theorem readInteger?_toString {limit : Nat} {i : Int} (low : -(limit + 1 : Int) ≤ i)
    (high : i ≤ limit) : Decimal.readInteger? limit (toString i).toList = some i := by
  rw [toList_toString]
  unfold Decimal.readInteger?
  split_ifs with natural
  · have digits := digits_repr i.toNat
    have noSign : '-' ∉ i.toNat.repr.toList := digits.notMem (by decide)
    split
    · rename_i same
      exact absurd (by simp [same]) noSign
    · have within : i.toNat ≤ limit := by omega
      rw [readNatural?_repr within]
      simp [Int.toNat_of_nonneg natural]
  · have digits := digits_repr (-i).toNat
    have nonempty : (-i).toNat.repr.toList.isEmpty = false := by
      simpa only [List.isEmpty_eq_false_iff] using repr_ne_nil _
    have within : (-i).toNat ≤ limit + 1 := by omega
    simp only [nonempty, digits.all, digitsValue_repr, Bool.not_true, Bool.or_self,
      Bool.false_eq_true, if_false, if_pos within]
    exact congrArg some (by omega)

theorem readInt64?_toString {i : Int} (fits : Bits.fits64 i = true) :
    Decimal.readInt64? (toString i).toList = some i := by
  obtain ⟨low, high⟩ := Bits.fits64_iff.mp fits
  exact readInteger?_toString low high

/-! ## Numbers -/

theorem splitFirst?_of_notMem {mark : Char} {cs : List Char} (absent : mark ∉ cs) :
    splitFirst? mark cs = none := by
  have dropped : cs.dropWhile (· != mark) = [] := by
    rw [← List.append_nil cs, List.dropWhile_append_of_pos]
    · rfl
    · exact fun c member => bne_iff_ne.mpr fun same => absent (same ▸ member)
  simp only [splitFirst?, dropped]

/-- The characters that make a literal something else than an integer. -/
theorem readNumber_integer {cs : List Char} {i : Int}
    (plain : ∀ mark ∈ ['x', '%', ':', '.', 'e', 'E'], mark ∉ cs) (noDate : '-' ∉ cs.drop 1)
    (value : Decimal.readInt64? cs = some i) (line : Nat) :
    readNumber line cs = .ok (.integer i) := by
  have noPair : 'x' ∉ cs.drop 1 := fun member => plain 'x' (by simp) (List.mem_of_mem_drop member)
  have noPercent : (cs.getLast? == some '%') = false :=
    beq_eq_false_iff_ne.mpr fun last => plain '%' (by simp) (List.mem_of_getLast? last)
  have absent (mark : Char) (listed : mark ∈ ['x', '%', ':', '.', 'e', 'E']) :
      cs.contains mark = false := by simpa using plain mark listed
  have noDot : ¬ 2 ≤ cs.count '.' := by
    rw [List.count_eq_zero_of_not_mem (plain '.' (by simp))]
    decide
  have noDate : (cs.drop 1).contains '-' = false := by simpa using noDate
  unfold readNumber
  simp only [splitFirst?_of_notMem noPair, noPercent, absent ':' (by simp), noDate, noDot,
    absent '.' (by simp), absent 'e' (by simp), absent 'E' (by simp), value, orRefuse,
    Bool.or_self, Bool.false_eq_true, if_false]
  rfl

theorem hasScheme_of_noMark {cs : List Char} (noMark : ':' ∉ cs) : hasScheme cs = false := by
  induction cs with
  | nil => rfl
  | cons c cs ih =>
      have here : (c == ':') = false :=
        beq_eq_false_iff_ne.mpr fun same => noMark (same ▸ List.mem_cons_self)
      simp [hasScheme, here, ih fun member => noMark (List.mem_cons_of_mem c member)]

/-- What begins like a number is read as one. -/
theorem classify_number {first : Char} {later : List Char}
    (number : (first.isDigit || ((first == '-' || first == '+' || first == '.') &&
      (later.head?.map Char.isDigit).getD false)) = true)
    (noMark : ':' ∉ first :: later) (line : Nat) :
    classify line (first :: later) = readNumber line (first :: later) := by
  have noMoney : (first == '$') = false := by
    refine beq_eq_false_iff_ne.mpr ?_
    rintro rfl
    simp at number
  have noMail : "mailto:".toList.isPrefixOf (first :: later) = false := by
    refine Bool.eq_false_iff.mpr fun mail => noMark ?_
    obtain ⟨more, whole⟩ := List.isPrefixOf_iff_prefix.mp mail
    rw [← whole]
    exact List.mem_append_left _ (by decide)
  unfold classify
  split
  · rename_i same
    cases same
  · rename_i same
    cases same
    simp at number
  · rename_i same
    cases same
    simp at number
  · rename_i same
    cases same
    simp only [hasScheme_of_noMark noMark, noMail, noMoney, number, Bool.false_and, Bool.or_self,
      Bool.false_eq_true, if_false, if_true]

/-- A character of a number. -/
def isNumeric (c : Char) : Bool := c.isDigit || c == '-' || c == '.'

theorem ne_of_isNumeric {c d : Char} (numeric : isNumeric c = true) (other : isNumeric d = false) :
    c ≠ d := by
  rintro rfl
  rw [numeric] at other
  cases other

theorem reads_number {first : Char} {later : List Char} {lexeme : Lexeme}
    (numeric : ∀ c ∈ first :: later, isNumeric c = true)
    (number : (first.isDigit || ((first == '-' || first == '+' || first == '.') &&
      (later.head?.map Char.isDigit).getD false)) = true)
    (read : ∀ line, readNumber line (first :: later) = .ok lexeme) : Reads first later lexeme := by
  have here := numeric first List.mem_cons_self
  have noMark : ':' ∉ first :: later := fun member => ne_of_isNumeric (numeric _ member) (by decide) rfl
  refine ⟨fun c member => ?_, ?_, ?_, fun line => ?_, fun last => ?_⟩
  · have numeric := numeric c member
    simp only [isNumeric, Bool.or_eq_true, beq_iff_eq] at numeric
    rcases numeric with (digit | rfl) | rfl
    · exact isDelimiter_of_isDigit digit
    · decide
    · decide
  · simp [ne_of_isNumeric here (show isNumeric '\'' = false by decide),
      ne_of_isNumeric here (show isNumeric '#' = false by decide),
      ne_of_isNumeric here (show isNumeric '%' = false by decide),
      ne_of_isNumeric here (show isNumeric '<' = false by decide)]
  · exact fun sign => sign.elim (absurd · (ne_of_isNumeric here (by decide)))
      (absurd · (ne_of_isNumeric here (by decide)))
  · rw [classify_number number noMark, read]
  · exact absurd (List.mem_of_getLast? last) noMark

/-- The characters that tell other literals apart from integers stand in no integer. -/
theorem notDigit_of_listed {mark : Char} (listed : mark ∈ ['x', '%', ':', '.', 'e', 'E']) :
    mark ≠ '-' ∧ mark.isDigit = false := by
  simp only [List.mem_cons, List.not_mem_nil, or_false] at listed
  rcases listed with rfl | rfl | rfl | rfl | rfl | rfl <;> decide

/-- The text of an integer is read as that integer. -/
theorem reads_integer {i : Int} (fits : Bits.fits64 i = true) :
    ∃ first later, (toString i).toList = first :: later ∧ Reads first later (.integer i) ∧
      ':' ∉ first :: later ∧ (0 ≤ i → first.isDigit = true) := by
  have value := readInt64?_toString fits
  rw [toList_toString] at value ⊢
  split_ifs at value ⊢ with natural
  · have digits := digits_repr i.toNat
    have nonempty := repr_ne_nil i.toNat
    generalize i.toNat.repr.toList = cs at value digits nonempty
    cases cs with
    | nil => exact absurd rfl nonempty
    | cons first later =>
        have digit := digits first List.mem_cons_self
        have noDate : '-' ∉ (first :: later).drop 1 := fun member =>
          digits.notMem (by decide) (List.mem_of_mem_drop member)
        refine ⟨first, later, rfl, reads_number (fun c member => ?_) ?_
          (readNumber_integer (fun mark listed => digits.notMem ?_) noDate value),
          digits.notMem (by decide), fun _ => digit⟩
        · simp [isNumeric, digits c member]
        · simp [digit]
        · exact (notDigit_of_listed listed).2
  · have digits := digits_repr (-i).toNat
    have nonempty := repr_ne_nil (-i).toNat
    generalize (-i).toNat.repr.toList = cs at value digits nonempty
    cases cs with
    | nil => exact absurd rfl nonempty
    | cons first later =>
        have digit := digits first List.mem_cons_self
        have noDate : '-' ∉ ('-' :: first :: later).drop 1 := digits.notMem (by decide)
        refine ⟨'-', first :: later, rfl, reads_number (fun c member => ?_) ?_
          (readNumber_integer (fun mark listed => ?_) noDate value),
          List.not_mem_cons_of_ne_of_not_mem (by decide) (digits.notMem (by decide)),
          fun positive => absurd positive natural⟩
        · rcases List.mem_cons.mp member with rfl | member
          · decide
          · simp [isNumeric, digits c member]
        · simp [digit]
        · have other := notDigit_of_listed listed
          exact List.not_mem_cons_of_ne_of_not_mem other.1 (digits.notMem other.2)

/-! ## Tuples -/

theorem splitAll_of_notMem {mark : Char} {part : List Char} (apart : mark ∉ part) :
    splitAll mark part = [part] := by
  induction part with
  | nil => rfl
  | cons c part ih =>
      have here : (c == mark) = false :=
        beq_eq_false_iff_ne.mpr fun same => apart (same ▸ List.mem_cons_self)
      simp [splitAll, here, ih fun member => apart (List.mem_cons_of_mem c member)]

theorem splitAll_append {mark : Char} {part : List Char} (apart : mark ∉ part)
    (rest : List Char) : splitAll mark (part ++ mark :: rest) = part :: splitAll mark rest := by
  induction part with
  | nil => simp [splitAll]
  | cons c part ih =>
      have here : (c == mark) = false :=
        beq_eq_false_iff_ne.mpr fun same => apart (same ▸ List.mem_cons_self)
      simp [splitAll, here, ih fun member => apart (List.mem_cons_of_mem c member)]

theorem splitAll_intercalate {mark : Char} {parts : List (List Char)} (nonempty : parts ≠ [])
    (apart : ∀ part ∈ parts, mark ∉ part) : splitAll mark ([mark].intercalate parts) = parts := by
  induction parts with
  | nil => exact absurd rfl nonempty
  | cons part parts ih =>
      have here := apart part List.mem_cons_self
      cases parts with
      | nil => rw [List.intercalate_singleton, splitAll_of_notMem here]
      | cons next parts =>
          have later := ih (List.cons_ne_nil _ _) fun p member =>
            apart p (List.mem_cons_of_mem part member)
          rw [List.intercalate_cons_cons, List.append_assoc, List.singleton_append,
            splitAll_append here, later]

theorem mem_intercalate {mark c : Char} {parts : List (List Char)}
    (member : c ∈ [mark].intercalate parts) : c = mark ∨ ∃ part ∈ parts, c ∈ part := by
  induction parts with
  | nil => cases member
  | cons part parts ih =>
      cases parts with
      | nil =>
          rw [List.intercalate_singleton] at member
          exact .inr ⟨part, List.mem_cons_self, member⟩
      | cons next parts =>
          rw [List.intercalate_cons_cons, List.append_assoc, List.singleton_append] at member
          rcases List.mem_append.mp member with here | later
          · exact .inr ⟨part, List.mem_cons_self, here⟩
          · rcases List.mem_cons.mp later with rfl | later
            · exact .inl rfl
            · exact (ih later).imp_right fun ⟨p, listed, inside⟩ =>
                ⟨p, List.mem_cons_of_mem part listed, inside⟩

theorem count_intercalate {mark : Char} {parts : List (List Char)}
    (apart : ∀ part ∈ parts, mark ∉ part) :
    ([mark].intercalate parts).count mark = parts.length - 1 := by
  induction parts with
  | nil => rfl
  | cons part parts ih =>
      have here := List.count_eq_zero_of_not_mem (apart part List.mem_cons_self)
      cases parts with
      | nil => rw [List.intercalate_singleton, here]; rfl
      | cons next parts =>
          have later := ih fun p member => apart p (List.mem_cons_of_mem part member)
          rw [List.intercalate_cons_cons, List.append_assoc, List.singleton_append,
            List.count_append, here, List.count_cons_self, later]
          simp

/-- The texts of the parts of a tuple. -/
def tupleParts (bytes : List UInt8) : List (List Char) := bytes.map fun b => b.toNat.repr.toList

theorem toList_tupleText (bytes : List UInt8) :
    (String.intercalate "." (bytes.map fun b => toString b.toNat)).toList =
      ['.'].intercalate (tupleParts bytes) := by
  rw [String.toList_intercalate, List.map_map]
  rfl

theorem digits_of_mem_tupleParts {bytes : List UInt8} {part : List Char}
    (member : part ∈ tupleParts bytes) : Digits part := by
  obtain ⟨b, -, rfl⟩ := List.mem_map.mp member
  exact digits_repr _

theorem readTuple?_tupleParts {bytes : List UInt8} (nonempty : bytes ≠ [])
    (short : bytes.length ≤ 8) :
    readTuple? (['.'].intercalate (tupleParts bytes)) = some bytes := by
  have split : splitAll '.' (['.'].intercalate (tupleParts bytes)) = tupleParts bytes :=
    splitAll_intercalate (by simpa [tupleParts] using nonempty)
      fun part member => (digits_of_mem_tupleParts member).notMem (by decide)
  have values : (tupleParts bytes).mapM (Decimal.readNatural? 255) =
      some (bytes.map UInt8.toNat) := by
    clear split nonempty short
    induction bytes with
    | nil => rfl
    | cons b bytes ih =>
        have here : Decimal.readNatural? 255 b.toNat.repr.toList = some b.toNat :=
          readNatural?_repr (Nat.le_of_lt_succ b.toNat_lt)
        change ((b.toNat.repr.toList :: tupleParts bytes).mapM _) = _
        rw [List.mapM_cons, here, ih]
        rfl
  have back : UInt8.ofNat ∘ UInt8.toNat = id := funext fun b => UInt8.ofNat_toNat
  simp only [readTuple?, split, values, List.length_map, if_pos short, List.map_map, back,
    List.map_id]

/-- The text of a tuple is read as that tuple. -/
theorem reads_tuple {bytes : List UInt8} (long : 3 ≤ bytes.length) (short : bytes.length ≤ 8) :
    ∃ first later, (String.intercalate "." (bytes.map fun b => toString b.toNat)).toList =
      first :: later ∧ Reads first later (.tuple bytes) ∧ ':' ∉ first :: later := by
  rw [toList_tupleText]
  have value := readTuple?_tupleParts (by rintro rfl; simp at long) short
  have dots : (['.'].intercalate (tupleParts bytes)).count '.' = bytes.length - 1 := by
    rw [count_intercalate fun part member => (digits_of_mem_tupleParts member).notMem (by decide)]
    simp [tupleParts]
  have chars : ∀ c ∈ ['.'].intercalate (tupleParts bytes), c.isDigit = true ∨ c = '.' := by
    intro c member
    rcases mem_intercalate member with same | ⟨part, listed, inside⟩
    · exact .inr same
    · exact .inl (digits_of_mem_tupleParts listed c inside)
  have begins : ∃ first later, ['.'].intercalate (tupleParts bytes) = first :: later ∧
      first.isDigit = true := by
    cases bytes with
    | nil => simp at long
    | cons b bytes =>
        have digits := digits_repr b.toNat
        have nonempty := repr_ne_nil b.toNat
        unfold tupleParts
        rw [List.map_cons]
        generalize b.toNat.repr.toList = cs at digits nonempty
        cases cs with
        | nil => exact absurd rfl nonempty
        | cons first later =>
            exact ⟨first, _, List.intercalate_cons_cons_left, digits first List.mem_cons_self⟩
  obtain ⟨first, later, same, digit⟩ := begins
  rw [same] at value dots chars ⊢
  have notMem (mark : Char) (other : mark.isDigit = false) (noDot : mark ≠ '.') :
      mark ∉ first :: later := by
    intro member
    rcases chars mark member with isDigit | dot
    · rw [isDigit] at other
      cases other
    · exact noDot dot
  refine ⟨first, later, rfl, reads_number (fun c member => ?_) (by simp [digit]) fun line => ?_,
    notMem ':' (by decide) (by decide)⟩
  · rcases chars c member with isDigit | dot
    · simp [isNumeric, isDigit]
    · simp [isNumeric, dot]
  · have noPair : 'x' ∉ (first :: later).drop 1 := fun member =>
      notMem 'x' (by decide) (by decide) (List.mem_of_mem_drop member)
    have noPercent : ((first :: later).getLast? == some '%') = false :=
      beq_eq_false_iff_ne.mpr fun last =>
        notMem '%' (by decide) (by decide) (List.mem_of_getLast? last)
    have noTime : (first :: later).contains ':' = false := by
      simpa using notMem ':' (by decide) (by decide)
    have noDate : ((first :: later).drop 1).contains '-' = false := by
      simpa using fun member : '-' ∈ (first :: later).drop 1 =>
        notMem '-' (by decide) (by decide) (List.mem_of_mem_drop member)
    have dots : 2 ≤ (first :: later).count '.' := by omega
    unfold readNumber
    simp only [splitFirst?_of_notMem noPair, noPercent, noTime, noDate, dots, value, orRefuse,
      Bool.false_eq_true, if_false, if_true]
    rfl

/-! ## Dates -/

/-- The name that a month is written with. -/
def monthText (month : Nat) : List Char :=
  ((Calendar.monthNames[month - 1]?).getD "???").toList

/-- The text of a date. -/
def dateChars (year month day : Nat) : List Char :=
  day.repr.toList ++ '-' :: (monthText month ++ '-' :: year.repr.toList)

/-- A character that tells no other literal from a date, and ends none. -/
def isDateChar (c : Char) : Bool :=
  !(isDelimiter c || ['x', '%', ':', '/'].contains c)

theorem toList_lowercase {cs : List Char} (ascii : cs.all (·.toNat < 0x80) = true) :
    (Text.lowercase (String.ofList cs)).toList = cs.map Char.toLower := by
  rw [Text.lowercase, String.toList_ofList, if_pos ascii, String.toList_map, String.toList_ofList]

theorem monthText_chars {month : Nat} (first : 1 ≤ month) (last : month ≤ 12) :
    readMonth? (monthText month) = some month ∧
      (monthText month).all isDateChar = true ∧ '-' ∉ monthText month := by
  have each : ∀ month < 13, 1 ≤ month →
      (Decimal.readNatural? 255 (monthText month) = none ∧
        (monthText month).all (·.toNat < 0x80) = true ∧
        Calendar.monthNames.findIdx (fun name => (name.toList.map Char.toLower).isPrefixOf
          ((monthText month).map Char.toLower)) = month - 1) ∧
      (monthText month).all isDateChar = true ∧ '-' ∉ monthText month := by decide +kernel
  obtain ⟨⟨noNumber, ascii, found⟩, chars⟩ := each month (Nat.lt_succ_of_le last) first
  refine ⟨?_, chars⟩
  unfold readMonth?
  rw [noNumber]
  dsimp only
  rw [toList_lowercase ascii, found, if_pos (by omega), Nat.sub_add_cancel first]

theorem toList_dateText (year month day : Nat) :
    (Mold.dateText (.ofDay year month day)).toList = dateChars year month day := by
  have digits : (toString (year : Int)).toList = year.repr.toList := by
    rw [toList_toString, if_pos (Int.natCast_nonneg year), Int.toNat_natCast]
  have dayDigits : (toString day).toList = day.repr.toList := rfl
  unfold Mold.dateText
  simp only [String.toList_append, digits, dayDigits, String.append_empty]
  simp [dateChars, monthText]

theorem isDateChar_of_isDigit {c : Char} (digit : c.isDigit = true) : isDateChar c = true := by
  have plain := isDelimiter_of_isDigit digit
  have bounds := toNat_of_isDigit digit
  have apart (d : Char) (outside : d.toNat < 48 ∨ 57 < d.toNat) : c ≠ d := by
    rintro rfl
    omega
  simp [isDateChar, plain, apart 'x' (by decide), apart '%' (by decide), apart ':' (by decide)]

theorem isDateChar_of_mem {year month day : Nat} (firstMonth : 1 ≤ month) (lastMonth : month ≤ 12)
    {c : Char} (member : c ∈ dateChars year month day) : isDateChar c = true := by
  have digits (n : Nat) (inside : c ∈ n.repr.toList) : isDateChar c = true :=
    isDateChar_of_isDigit (digits_repr n c inside)
  simp only [dateChars, List.mem_append, List.mem_cons] at member
  rcases member with inside | rfl | inside | rfl | inside
  · exact digits day inside
  · decide
  · exact List.all_eq_true.mp (monthText_chars firstMonth lastMonth).2.1 c inside
  · decide
  · exact digits year inside

theorem readDate?_dateChars {year month day : Nat} (small : year ≤ Bits.greatest32)
    (firstMonth : 1 ≤ month) (lastMonth : month ≤ 12) (firstDay : 1 ≤ day) (lastDay : day ≤ 31) :
    readDate? (dateChars year month day) = some ((year : Int), month, day) := by
  obtain ⟨name, -, whole⟩ := monthText_chars firstMonth lastMonth
  have noMark (n : Nat) : '-' ∉ n.repr.toList := (digits_repr n).notMem (by decide)
  have parts : splitAll '-' (dateChars year month day) =
      [day.repr.toList, monthText month, year.repr.toList] := by
    rw [dateChars, splitAll_append (noMark day), splitAll_append whole,
      splitAll_of_notMem (noMark year)]
  -- a part of four characters in front would be taken for the year
  have short : ((String.ofList day.repr.toList).utf8ByteSize == 4) = false := by
    have each : ∀ day < 32, ((String.ofList (Nat.repr day).toList).utf8ByteSize == 4) = false := by
      decide +kernel
    exact each day (Nat.lt_succ_of_le lastDay)
  have years : Decimal.readInteger? Bits.greatest32 year.repr.toList = some (year : Int) := by
    have read := @readInteger?_toString Bits.greatest32 year (by omega) (by omega)
    rwa [toList_toString, if_pos (Int.natCast_nonneg year), Int.toNat_natCast] at read
  have days : Decimal.readNatural? 255 day.repr.toList = some day := readNatural?_repr (by omega)
  simp only [readDate?, parts, short, years, name, days, Bool.false_eq_true, if_false]
  simp [firstMonth, lastMonth, firstDay, lastDay]

/-- The text of a date is read as that date. -/
theorem reads_date {year month day : Nat} (small : year ≤ Bits.greatest32)
    (firstMonth : 1 ≤ month) (lastMonth : month ≤ 12) (firstDay : 1 ≤ day) (lastDay : day ≤ 31) :
    ∃ first later, dateChars year month day = first :: later ∧
      Reads first later (.date year month day) := by
  have value := readDate?_dateChars small firstMonth lastMonth firstDay lastDay
  have chars : ∀ c ∈ dateChars year month day, isDateChar c = true :=
    fun c member => isDateChar_of_mem firstMonth lastMonth member
  obtain ⟨first, later, same, digit, dash⟩ : ∃ first later,
      dateChars year month day = first :: later ∧ first.isDigit = true ∧ '-' ∈ later := by
    have digits := digits_repr day
    have nonempty := repr_ne_nil day
    unfold dateChars
    generalize day.repr.toList = cs at digits nonempty
    cases cs with
    | nil => exact absurd rfl nonempty
    | cons first more =>
        exact ⟨first, _, rfl, digits first List.mem_cons_self, by simp⟩
  rw [same] at value chars
  have notMem (mark : Char) (other : isDateChar mark = false) : mark ∉ first :: later := by
    intro member
    rw [chars mark member] at other
    cases other
  have apart (d : Char) (other : d.isDigit = false) : first ≠ d := by
    rintro rfl
    rw [digit] at other
    cases other
  have noMark := notMem ':' (by decide)
  have noPair : 'x' ∉ later := fun member => notMem 'x' (by decide) (List.mem_cons_of_mem _ member)
  have noPercent : ((first :: later).getLast? == some '%') = false :=
    beq_eq_false_iff_ne.mpr fun last => notMem '%' (by decide) (List.mem_of_getLast? last)
  have noTime : (first :: later).contains ':' = false := by simpa using noMark
  have dashed : later.contains '-' = true := by simpa using dash
  refine ⟨first, later, same, ?_, ?_, ?_, fun line => ?_, fun last => ?_⟩
  · intro c member
    have plain := chars c member
    simp only [isDateChar, Bool.not_eq_true', Bool.or_eq_false_iff] at plain
    refine ⟨plain.1, ?_⟩
    rintro rfl
    exact absurd plain.2 (by decide)
  · simp [apart '\'' (by decide), apart '#' (by decide), apart '%' (by decide),
      apart '<' (by decide)]
  · exact fun sign => sign.elim (absurd · (apart _ (by decide))) (absurd · (apart _ (by decide)))
  · rw [classify_number (by simp [digit]) noMark]
    unfold readNumber
    simp only [List.drop_one, List.tail_cons, splitFirst?_of_notMem noPair, noPercent, noTime, dashed,
      value, orRefuse, Bool.false_eq_true, if_false, if_true]
    rfl
  · exact absurd (List.mem_of_getLast? last) noMark

/-! ## Quoted texts -/

/-- The content of a text is read back from the way it is written in quotes. -/
theorem readQuoted_escaped (cs : List Char) (line : Nat) (tail : List Char) :
    readQuoted line (cs.flatMap Mold.escapeChar ++ '"' :: tail) = .ok (cs, ⟨tail, line⟩) := by
  have gathered (reversed : List Char) :
      readString false 0 .none reversed line (cs.flatMap Mold.escapeChar ++ '"' :: tail) =
        .ok (reversed.reverse ++ cs, ⟨tail, line⟩) := by
    induction cs generalizing reversed with
    | nil =>
        simp [readString]
        rfl
    | cons c cs ih =>
        have onward := ih (c :: reversed)
        rw [List.reverse_cons, List.append_assoc, List.singleton_append] at onward
        rw [List.flatMap_cons, List.append_assoc, ← onward]
        unfold Mold.escapeChar
        split_ifs with newline tab caret null quote
        · cases beq_iff_eq.mp newline
          rfl
        · cases beq_iff_eq.mp tab
          rfl
        · cases beq_iff_eq.mp caret
          rfl
        · cases beq_iff_eq.mp null
          rfl
        · cases beq_iff_eq.mp quote
          rfl
        · simp [readString, newline, caret, quote]
  exact gathered []

theorem toList_quotedText (cs : List Char) :
    (Mold.quotedText cs).toList = '"' :: (cs.flatMap Mold.escapeChar ++ ['"']) := by
  simp [Mold.quotedText]

/-- The text of a character is read as that character. -/
theorem readHash_char (c : Char) (line : Nat) (tail : List Char) :
    readHash line ((Mold.quotedText [c]).toList ++ tail) = .ok (.char c, ⟨tail, line⟩) := by
  rw [toList_quotedText, List.cons_append, List.append_assoc, List.singleton_append]
  simp only [readHash, readQuoted_escaped]
  rfl

/-! ## Bytes -/

/-- A character that can stand in the text of bytes. -/
def isHexChar (c : Char) : Bool := c.utf8Size == 1 && c != '\x7d' && !Text.isBlank c

theorem hexByte_chars (b : UInt8) : ∃ c d, (Mold.hexByte b).toList = [c, d] ∧
    isHexChar c = true ∧ isHexChar d = true ∧ readHex? [c, d] = some b.toNat := by
  have each : ∀ n < 256, (Mold.hexByte (UInt8.ofNat n)).toList.length = 2 ∧
      (Mold.hexByte (UInt8.ofNat n)).toList.all isHexChar = true ∧
      readHex? (Mold.hexByte (UInt8.ofNat n)).toList = some n := by decide +kernel
  obtain ⟨two, digits, value⟩ := each b.toNat b.toNat_lt
  rw [UInt8.ofNat_toNat] at two digits value
  generalize (Mold.hexByte b).toList = cs at two digits value
  rcases cs with _ | ⟨c, _ | ⟨d, _ | ⟨_, _⟩⟩⟩
  · cases two
  · cases two
  · simp only [List.all_cons, List.all_nil, Bool.and_true, Bool.and_eq_true] at digits
    exact ⟨c, d, rfl, digits.1, digits.2, value⟩
  · cases two

/-- The digits of some bytes. -/
def hexText (bytes : List UInt8) : List Char := bytes.flatMap fun b => (Mold.hexByte b).toList

theorem toList_binaryText (bytes : List UInt8) :
    (Mold.binaryText bytes).toList = '#' :: '\x7b' :: (hexText bytes ++ ['\x7d']) := by
  simp [Mold.binaryText, hexText, String.toList_join, List.flatMap_map]

theorem isHexChar_of_mem_hexText {bytes : List UInt8} {c : Char} (member : c ∈ hexText bytes) :
    isHexChar c = true := by
  obtain ⟨b, -, inside⟩ := List.mem_flatMap.mp member
  obtain ⟨d, e, same, first, second, -⟩ := hexByte_chars b
  rw [same] at inside
  rcases List.mem_cons.mp inside with rfl | inside
  · exact first
  · cases List.mem_singleton.mp inside
    exact second

theorem hexBytes_hexText (bytes : List UInt8) (line : Nat) (shown : String) :
    hexBytes line shown (hexText bytes) = .ok bytes := by
  induction bytes with
  | nil => rfl
  | cons b bytes ih =>
      obtain ⟨c, d, same, first, second, value⟩ := hexByte_chars b
      have text : hexText (b :: bytes) = c :: d :: hexText bytes := by
        simp [hexText, same]
      simp only [isHexChar, Bool.and_eq_true, beq_iff_eq] at first second
      rw [text]
      simp [hexBytes, first.1.1, second.1.1, value, ih, Functor.map, Except.map]

theorem utf8ByteSize_hexText (bytes : List UInt8) :
    (String.ofList (hexText bytes)).utf8ByteSize = 2 * bytes.length := by
  induction bytes with
  | nil => rfl
  | cons b bytes ih =>
      obtain ⟨c, d, same, first, second, -⟩ := hexByte_chars b
      have text : hexText (b :: bytes) = c :: d :: hexText bytes := by
        simp [hexText, same]
      simp only [isHexChar, Bool.and_eq_true, beq_iff_eq] at first second
      rw [text]
      simp [String.utf8ByteSize_append, first.1.1, second.1.1, ih]
      omega

/-- The text of bytes is read as those bytes. -/
theorem readHash_binary (bytes : List UInt8) (line : Nat) (tail : List Char) :
    readHash line ('\x7b' :: (hexText bytes ++ '\x7d' :: tail)) =
      .ok (.binary bytes, ⟨tail, line⟩) := by
  have within : ∀ c ∈ hexText bytes, (c != '\x7d') = true ∧ Text.isBlank c = false := by
    intro c member
    have hex := isHexChar_of_mem_hexText member
    simp only [isHexChar, Bool.and_eq_true, Bool.not_eq_true'] at hex
    exact ⟨hex.1.2, hex.2⟩
  have content : (hexText bytes ++ '\x7d' :: tail).takeWhile (· != '\x7d') = hexText bytes := by
    rw [List.takeWhile_append_of_pos fun c member => (within c member).1]
    simp
  have rest : (hexText bytes ++ '\x7d' :: tail).dropWhile (· != '\x7d') = '\x7d' :: tail := by
    rw [List.dropWhile_append_of_pos fun c member => (within c member).1]
    simp
  have digits : (hexText bytes).filter (!Text.isBlank ·) = hexText bytes :=
    List.filter_eq_self.mpr fun c member => by simp [(within c member).2]
  have noBreak : newlines (hexText bytes) = 0 := by
    refine List.count_eq_zero_of_not_mem fun member => ?_
    have blank := (within _ member).2
    revert blank
    decide
  have even : ((String.ofList (hexText bytes)).utf8ByteSize % 2 != 0) = false := by
    rw [utf8ByteSize_hexText]
    simp
  simp only [readHash, readBinary, content, rest, digits, noBreak, even, hexBytes_hexText,
    Bool.false_eq_true, if_false]
  rfl

/-- The text of a named value is read as that name. -/
theorem readHash_construct {name : String} (noClose : ']' ∉ name.toList)
    (noBreak : '\n' ∉ name.toList) (trimmed : Text.trimBlanks name.toList = name.toList)
    (line : Nat) (tail : List Char) :
    readHash line ('[' :: (name.toList ++ ']' :: tail)) = .ok (.construct name, ⟨tail, line⟩) := by
  have within : ∀ c ∈ name.toList, (c != ']') = true := fun c member =>
    bne_iff_ne.mpr fun same => noClose (same ▸ member)
  have content : (name.toList ++ ']' :: tail).takeWhile (· != ']') = name.toList := by
    rw [List.takeWhile_append_of_pos within]
    simp
  have rest : (name.toList ++ ']' :: tail).dropWhile (· != ']') = ']' :: tail := by
    rw [List.dropWhile_append_of_pos within]
    simp
  have flat : newlines name.toList = 0 := List.count_eq_zero_of_not_mem noBreak
  simp only [readHash, readConstruct, content, rest, flat, trimmed, String.ofList_toList]
  rfl

end Homoicon.Token
