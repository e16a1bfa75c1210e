import Homoicon.Json.Reader
import Homoicon.Proofs.Exchange.Bytes
import Homoicon.Proofs.Source.Literals

/-!
# Reading what was written

The compact text of a document is read back as the document with the fields of its objects in the
order of their names.  A reader is described by the bytes that it passes and the value that it
gives, for any bytes that may follow.
-/

namespace Homoicon.Json

/-! ## Readers and the bytes that they pass -/

/-- In front of some bytes and a rest, a reader passes the bytes and gives a value. -/
def Reads {α : Type} (reader : Reader α) (front : List UInt8) (a : α) (rest : List UInt8) :
    Prop :=
  ∀ c : Cursor, c.rest = front ++ rest → ∃ c', reader c = .ok (a, c') ∧ c'.rest = rest

namespace Reads

variable {α β : Type} {reader : Reader α} {front back rest : List UInt8} {a : α}

theorem pure (a : α) (rest : List UInt8) : Reads (Pure.pure a) [] a rest := by
  intro c here
  exact ⟨c, rfl, here⟩

theorem bind {next : α → Reader β} {b : β} (first : Reads reader front a (back ++ rest))
    (second : Reads (next a) back b rest) : Reads (reader >>= next) (front ++ back) b rest := by
  intro c here
  obtain ⟨middle, ran, place⟩ := first c (by rw [here, List.append_assoc])
  obtain ⟨last, ranNext, placeNext⟩ := second middle place
  refine ⟨last, ?_, placeNext⟩
  change (reader c >>= fun p => next p.1 p.2) = _
  rw [ran]
  exact ranNext

/-- A reader that passes one byte. -/
theorem step {next : α → Reader β} {d : β} {b : UInt8} (first : Reads reader [b] a (back ++ rest))
    (second : Reads (next a) back d rest) : Reads (reader >>= next) (b :: back) d rest :=
  bind first second

/-- A reader that only looks. -/
theorem look {next : α → Reader β} {b : β} (first : Reads reader [] a (back ++ rest))
    (second : Reads (next a) back b rest) : Reads (reader >>= next) back b rest := by
  simpa using bind first second

/-- A reader after which nothing is passed. -/
theorem last {next : α → Reader β} {b : β} (first : Reads reader front a rest)
    (second : Reads (next a) [] b rest) : Reads (reader >>= next) front b rest := by
  rw [← List.append_nil front]
  exact bind first second

theorem map (f : α → β) (first : Reads reader front a rest) :
    Reads (f <$> reader) front (f a) rest := by
  rw [← bind_pure_comp]
  exact last first (Reads.pure _ _)

theorem eat (b : UInt8) (rest : List UInt8) : Reads Reader.eat [b] () rest := by
  intro c here
  refine ⟨c.next, rfl, ?_⟩
  rw [Cursor.next, here]
  change (if b == 10 then _ else _ : Cursor).rest = rest
  split <;> rfl

theorem peek? (rest : List UInt8) : Reads Reader.peek? [] rest.head? rest := by
  intro c here
  exact ⟨c, by rw [← List.nil_append rest, ← here]; rfl, here⟩

theorem peek (rest : List UInt8) : Reads Reader.peek [] (rest.head?.getD 0) rest :=
  last (peek? rest) (Reads.pure _ _)

theorem peek_cons (b : UInt8) (rest : List UInt8) : Reads Reader.peek [] b (b :: rest) :=
  peek (b :: rest)

theorem next? (b : UInt8) (rest : List UInt8) : Reads Reader.next? [b] (some b) rest :=
  look (peek? _) (last (eat b rest) (Reads.pure _ _))

theorem fuel (rest : List UInt8) : Reads Reader.fuel [] (rest.length + 1) rest := by
  intro c here
  exact ⟨c, by rw [← List.nil_append rest, ← here]; rfl, here⟩

/-- White space is passed only where there is some. -/
theorem skipSpace {rest : List UInt8} (plain : ∀ b ∈ rest.head?, Reader.isSpace b = false) :
    Reads Reader.skipSpace [] rest.head? rest := by
  intro c here
  rw [List.nil_append] at here
  have none : c.rest.takeWhile Reader.isSpace = [] := by
    rw [here]
    cases rest with
    | nil => rfl
    | cons b rest => simp [plain b rfl]
  refine ⟨c, ?_, here⟩
  change Except.ok ((c.advance (c.rest.takeWhile Reader.isSpace).length).rest.head?,
    c.advance (c.rest.takeWhile Reader.isSpace).length) = _
  rw [none, ← here]
  rfl

end Reads

theorem Cursor.rest_advance (n : Nat) (c : Cursor) : (c.advance n).rest = c.rest.drop n := by
  induction n generalizing c with
  | zero => rfl
  | succ n induction =>
      rw [Cursor.advance, induction, Cursor.next]
      cases here : c.rest with
      | nil => simp [here]
      | cons b rest =>
          change (if b == 10 then _ else _ : Cursor).rest.drop n = _
          split <;> rfl

/-! ## Strings -/

namespace Reader

/-- A byte that stands for itself in a string. -/
def Plain (b : UInt8) : Prop := b ≠ 34 ∧ b ≠ 92 ∧ ¬b < 32

theorem plain_of_toNat {b : UInt8} (least : 32 ≤ b.toNat) (noQuote : b.toNat ≠ 34)
    (noBackslash : b.toNat ≠ 92) : Plain b := by
  refine ⟨?_, ?_, ?_⟩
  · rintro rfl
    exact noQuote rfl
  · rintro rfl
    exact noBackslash rfl
  · rw [UInt8.lt_iff_toNat_lt]
    exact Nat.not_lt.mpr least

theorem plain_utf8EncodeChar {c : Char} (least : 32 ≤ c.toNat) (noQuote : c.toNat ≠ 34)
    (noBackslash : c.toNat ≠ 92) : ∀ b ∈ String.utf8EncodeChar c, Plain b := by
  have upper {n : Nat} (large : 128 ≤ n) (small : n < 256) : Plain (UInt8.ofNat n) := by
    have value := Text.Utf8.toNat_ofNat_byte small
    apply plain_of_toNat <;> omega
  have same : c.val.toNat = c.toNat := rfl
  intro b member
  rw [String.utf8EncodeChar.eq_1] at member
  simp only [same] at member
  split_ifs at member with one two three
  · have value := Text.Utf8.toNat_ofNat_byte (by omega : c.toNat < 256)
    rw [List.mem_singleton] at member
    subst member
    apply plain_of_toNat <;> omega
  all_goals
    simp only [List.mem_cons, List.not_mem_nil, or_false] at member
    rcases member with rfl | rfl | rfl | rfl <;> exact upper (by omega) (by omega)

theorem reads_hexEscape {digits : List UInt8} {n : Nat} (four : digits.length = 4)
    (spelled : (digits.mapM hexValue?).map (·.foldl (fun n d => n * 16 + d) 0) = some n)
    (rest : List UInt8) : Reads hexEscape digits n rest := by
  obtain ⟨values, read, rfl⟩ := Option.map_eq_some_iff.mp spelled
  intro c here
  have taken : c.rest.take 4 = digits := by
    rw [here, ← four, List.take_left]
  refine ⟨c.advance 4, ?_, ?_⟩
  · change (if (c.rest.take 4).length < 4 then _ else _ : Reader Nat)
      (c.advance (c.rest.take 4).length) = _
    rw [taken, four, if_neg (by decide), read]
    rfl
  · rw [Cursor.rest_advance, here, ← four, List.drop_left]

theorem hexDigits_spell : ∀ n < 32,
    let digits := Text.Utf8.bytes ['0', '0', hexDigit (n / 16), hexDigit (n % 16)]
    digits.length = 4 ∧
      (digits.mapM hexValue?).map (·.foldl (fun n d => n * 16 + d) 0) = some n := by
  decide

theorem reads_unicodeEscape {n : Nat} (control : n < 32) (rest : List UInt8) :
    Reads unicodeEscape (Text.Utf8.bytes ['0', '0', hexDigit (n / 16), hexDigit (n % 16)])
      (Char.ofNat n) rest := by
  obtain ⟨four, spelled⟩ := hexDigits_spell n control
  refine Reads.last (reads_hexEscape four spelled rest) ?_
  rw [if_neg (by simp; omega), if_pos (by simp; omega)]
  exact Reads.pure _ _

/-- How a character is written: as itself, or as an escape after a backslash. -/
theorem escapeChar_cases (c : Char) :
    (escapeChar c = [c] ∧ 32 ≤ c.toNat ∧ c.toNat ≠ 34 ∧ c.toNat ≠ 92) ∨
      ∃ code, escapeChar c = '\\' :: code ∧
        ∀ rest, Reads escape (Text.Utf8.bytes code) c rest := by
  have named {n : Nat} (other : c ≠ Char.ofNat n) (same : c.toNat = n) : False :=
    other (by rw [← same, Char.ofNat_toNat])
  unfold escapeChar
  split
  next => exact .inr ⟨_, rfl, fun rest => Reads.last (Reads.next? 34 rest) (Reads.pure '"' rest)⟩
  next => exact .inr ⟨_, rfl, fun rest => Reads.last (Reads.next? 92 rest) (Reads.pure '\\' rest)⟩
  next => exact .inr ⟨_, rfl, fun rest => Reads.last (Reads.next? 110 rest) (Reads.pure '\n' rest)⟩
  next => exact .inr ⟨_, rfl, fun rest => Reads.last (Reads.next? 114 rest) (Reads.pure '\r' rest)⟩
  next => exact .inr ⟨_, rfl, fun rest => Reads.last (Reads.next? 116 rest) (Reads.pure '\t' rest)⟩
  next noQuote noBackslash _ _ _ =>
    simp only [beq_iff_eq]
    split_ifs with back feed control
    · obtain rfl : c = Char.ofNat 8 := by rw [← back, Char.ofNat_toNat]
      exact .inr ⟨_, rfl, fun rest => Reads.last (Reads.next? 98 rest) (Reads.pure _ rest)⟩
    · obtain rfl : c = Char.ofNat 12 := by rw [← feed, Char.ofNat_toNat]
      exact .inr ⟨_, rfl, fun rest => Reads.last (Reads.next? 102 rest) (Reads.pure _ rest)⟩
    · refine .inr ⟨_, rfl, fun rest => ?_⟩
      have read := reads_unicodeEscape control rest
      rw [Char.ofNat_toNat] at read
      exact Reads.bind (Reads.next? 117 _) read
    · exact .inl ⟨rfl, by omega, named noQuote, named noBackslash⟩

/-- Bytes that stand for themselves are passed and kept. -/
theorem reads_plain {plain : List UInt8} (selves : ∀ b ∈ plain, Plain b)
    {fuel : Nat} {back : List UInt8} {found : List UInt8} {rest : List UInt8}
    (enough : (plain ++ back).length < fuel)
    (later : ∀ fuel reversed, back.length < fuel →
      Reads (stringBytes fuel reversed) back (reversed.reverse ++ found) rest)
    (reversed : List UInt8) :
    Reads (stringBytes fuel reversed) (plain ++ back) (reversed.reverse ++ (plain ++ found))
      rest := by
  induction plain generalizing fuel reversed with
  | nil => exact later fuel reversed enough
  | cons b plain induction =>
      obtain ⟨noQuote, noBackslash, printing⟩ := selves b List.mem_cons_self
      cases fuel with
      | zero => cases enough
      | succ fuel =>
          have next := induction (fun other member => selves other (List.mem_cons_of_mem b member))
            (by simpa using enough) (b :: reversed)
          refine Reads.step (Reads.next? b _) ?_
          change Reads (if b == 34 then _ else if b == 92 then _ else if b < 32 then _ else _) _ _ _
          rw [if_neg (by simpa using noQuote), if_neg (by simpa using noBackslash),
            if_neg printing]
          simpa using next

theorem reads_stringBytes (cs : List Char) (rest : List UInt8) :
    ∀ fuel reversed, (Text.Utf8.bytes (cs.flatMap escapeChar ++ ['"'])).length < fuel →
      Reads (stringBytes fuel reversed) (Text.Utf8.bytes (cs.flatMap escapeChar ++ ['"']))
        (reversed.reverse ++ Text.Utf8.bytes cs) rest := by
  induction cs with
  | nil =>
      intro fuel reversed enough
      cases fuel with
      | zero => cases enough
      | succ fuel =>
          rw [Text.Utf8.bytes_nil, List.append_nil]
          exact Reads.last (Reads.next? 34 rest) (Reads.pure reversed.reverse rest)
  | cons c cs induction =>
      intro fuel reversed enough
      rcases escapeChar_cases c with ⟨itself, least, noQuote, noBackslash⟩ | ⟨code, spelled, read⟩
      · rw [List.flatMap_cons, itself, List.append_assoc, List.singleton_append,
          Text.Utf8.bytes_cons] at enough ⊢
        rw [Text.Utf8.bytes_cons]
        exact reads_plain (plain_utf8EncodeChar least noQuote noBackslash) enough induction reversed
      · rw [List.flatMap_cons, spelled, List.append_assoc, List.cons_append,
          Text.Utf8.bytes_cons, Text.Utf8.bytes_append] at enough ⊢
        cases fuel with
        | zero => cases enough
        | succ fuel =>
            have shorter : (Text.Utf8.bytes (cs.flatMap escapeChar ++ ['"'])).length < fuel := by
              simp only [List.length_append] at enough
              have backslash : (String.utf8EncodeChar '\\').length = 1 := rfl
              omega
            have next := induction fuel
              ((Text.Utf8.encode (String.singleton c)).toList.reverse ++ reversed) shorter
            refine Reads.bind (Reads.next? 92 _) (Reads.bind (read _) ?_)
            simpa [Text.Utf8.toList_encode] using next

/-- A quoted string behind its opening quote is read back. -/
theorem reads_stringText (s : String) (rest : List UInt8) :
    Reads stringText (Text.Utf8.bytes (s.toList.flatMap escapeChar ++ ['"'])) s rest := by
  have read := reads_stringBytes s.toList rest
    ((Text.Utf8.bytes (s.toList.flatMap escapeChar ++ ['"']) ++ rest).length + 1) []
    (by simp only [List.length_append]; omega)
  refine Reads.look (Reads.fuel _) (Reads.last read ?_)
  rw [List.reverse_nil, List.nil_append, Text.Utf8.decode_bytes, String.ofList_toList]
  exact Reads.pure s rest

/-! ## Integers -/

/-- What may follow a value in a document: nothing, a comma or a closing bracket. -/
def Delimited (rest : List UInt8) : Prop := ∀ b ∈ rest.head?, b = 44 ∨ b = 93 ∨ b = 125

/-- No number goes on with what follows a value. -/
theorem Delimited.peek {rest : List UInt8} (delimited : Delimited rest) :
    isDigit (rest.head?.getD 0) = false ∧ rest.head?.getD 0 ≠ 46 ∧
      rest.head?.getD 0 ≠ 101 ∧ rest.head?.getD 0 ≠ 69 := by
  cases rest with
  | nil => decide
  | cons b rest =>
      rw [List.head?_cons, Option.getD_some]
      rcases delimited b rfl with rfl | rfl | rfl <;> decide

theorem digit_byte {d : Char} (digit : d.isDigit = true) :
    String.utf8EncodeChar d = [UInt8.ofNat d.toNat] ∧ isDigit (UInt8.ofNat d.toNat) = true ∧
      (UInt8.ofNat d.toNat).toNat = d.toNat := by
  have bounds := Token.toNat_of_isDigit digit
  have value := Text.Utf8.toNat_ofNat_byte (by omega : d.toNat < 256)
  refine ⟨Text.Utf8.utf8EncodeChar_ascii (by omega), ?_, value⟩
  simp only [isDigit, Bool.and_eq_true, decide_eq_true_eq, UInt8.le_iff_toNat_le, value]
  exact bounds

theorem le_digitsValue (start : Nat) (ds : List Char) : start ≤ Decimal.digitsValue start ds := by
  induction ds generalizing start with
  | nil => exact Nat.le_refl start
  | cons d ds induction => exact Nat.le_trans (by omega) (induction (10 * start + (d.toNat - 48)))

/-- Digits whose number fits are gathered to the last. -/
theorem reads_gather {rest : List UInt8} (ends : isDigit (rest.head?.getD 0) = false)
    {ds : List Char} (digits : Token.Digits ds) (fuel start count : Nat)
    (enough : ds.length < fuel) (fits : Decimal.digitsValue start ds ≤ gatherLimit) :
    Reads (gather fuel start count) (Text.Utf8.bytes ds)
      (Decimal.digitsValue start ds, count + ds.length) rest := by
  induction ds generalizing fuel start count with
  | nil =>
      cases fuel with
      | zero => cases enough
      | succ fuel =>
          refine Reads.look (Reads.peek rest) ?_
          rw [ends, Bool.false_and, if_neg Bool.false_ne_true]
          exact Reads.pure _ _
  | cons d ds induction =>
      obtain ⟨spelled, isDigit, value⟩ := digit_byte (digits d List.mem_cons_self)
      cases fuel with
      | zero => cases enough
      | succ fuel =>
          have next := induction (fun c member => digits c (List.mem_cons_of_mem d member)) fuel
            (10 * start + (d.toNat - 48)) (count + 1) (by simpa using enough) fits
          have small : start * 10 + (d.toNat - 48) ≤ gatherLimit := by
            have grown := le_digitsValue (10 * start + (d.toNat - 48)) ds
            exact Nat.le_trans (by omega) (Nat.le_trans grown fits)
          rw [Text.Utf8.bytes_cons, spelled]
          refine Reads.look (Reads.peek_cons (UInt8.ofNat d.toNat) _) ?_
          rw [value, isDigit, Bool.true_and, if_pos (decide_eq_true small)]
          refine Reads.bind (Reads.eat _ _) ?_
          rw [Nat.mul_comm start, List.length_cons, Nat.add_comm ds.length, ← Nat.add_assoc]
          exact next

theorem reads_integerPart (positive : Bool) {rest : List UInt8} (delimited : Delimited rest)
    {n : Nat} (fits : positive = false → 0 < n ∧ n ≤ Bits.greatest64 + 1) :
    Reads (integerPart positive n) [] (integer (if positive then n else -n)) rest := by
  obtain ⟨-, noPoint, noMark, noCapital⟩ := delimited.peek
  refine Reads.look (Reads.peek _) ?_
  simp only [List.nil_append, beq_iff_eq, if_neg noPoint, noMark, noCapital, Bool.or_eq_true,
    or_self, if_false]
  cases positive with
  | true => exact Reads.pure _ _
  | false =>
      obtain ⟨least, most⟩ := fits rfl
      simp only [Bool.false_eq_true, if_false]
      rw [if_neg (by simp; omega)]
      exact Reads.pure _ _

/-- The digits of a number begin with zero only if there are no others. -/
theorem toDigits_zero_first (n : Nat) {later : List Char}
    (first : Nat.toDigits 10 n = '0' :: later) : later = [] := by
  induction n using Nat.strongRecOn generalizing later with
  | ind n induction =>
      by_cases small : n < 10
      · rw [Nat.toDigits_of_lt_base small] at first
        exact (List.cons.inj first).2.symm
      · rw [Nat.toDigits_of_base_le (by decide) (by omega)] at first
        cases front : Nat.toDigits 10 (n / 10) with
        | nil => exact absurd front Nat.toDigits_ne_nil
        | cons c cs =>
            rw [front, List.cons_append] at first
            obtain ⟨rfl, -⟩ := List.cons.inj first
            obtain rfl := induction (n / 10) (by omega) front
            have value := Nat.ofDigitChars_ten_toDigits (n := n / 10)
            rw [front] at value
            exact absurd value (by change 0 ≠ n / 10; omega)

theorem reads_number (positive : Bool) {rest : List UInt8} (delimited : Delimited rest) {n : Nat}
    (small : n ≤ gatherLimit)
    (fits : positive = false → 0 < n ∧ n ≤ Bits.greatest64 + 1) :
    Reads (number positive) (Text.Utf8.bytes n.repr.toList)
      (integer (if positive then n else -n)) rest := by
  have ends := delimited.peek.1
  have whole := Token.digitsValue_repr n
  have digits := Token.digits_repr n
  cases spelled : n.repr.toList with
  | nil => exact absurd spelled (Token.repr_ne_nil n)
  | cons d ds =>
      rw [spelled] at whole digits
      obtain ⟨byte, isDigit, value⟩ := digit_byte (digits d List.mem_cons_self)
      rw [Text.Utf8.bytes_cons, byte]
      refine Reads.bind (Reads.next? (UInt8.ofNat d.toNat) _) ?_
      change Reads
        (if UInt8.ofNat d.toNat == 48 then _ else if Reader.isDigit _ then _ else _) _ _ _
      by_cases zero : d = '0'
      · subst zero
        rw [Token.toList_repr] at spelled
        obtain rfl := toDigits_zero_first n spelled
        obtain rfl : 0 = n := whole
        refine Reads.look (Reads.peek rest) ?_
        rw [ends, if_neg Bool.false_ne_true]
        exact reads_integerPart positive delimited fits
      · have other : ¬(UInt8.ofNat d.toNat == 48) = true := by
          rw [beq_iff_eq, ← UInt8.toNat_inj, value]
          exact fun same => zero (Char.toNat_inj.mp same)
        have later : Token.Digits ds := fun c member => digits c (List.mem_cons_of_mem d member)
        have total : Decimal.digitsValue (d.toNat - 48) ds = n := by
          rw [← whole, Decimal.digitsValue, Decimal.digitsValue, List.foldl_cons]
          simp
        rw [if_neg other, if_pos isDigit, value]
        refine Reads.look (Reads.fuel _) (Reads.last (reads_gather ends later _ _ 0 ?_ ?_) ?_)
        · have long := Text.Utf8.length_le_bytes ds
          rw [List.length_append]
          omega
        · rw [total]
          exact small
        · refine Reads.look (Reads.peek rest) ?_
          rw [ends, if_neg Bool.false_ne_true, total]
          exact reads_integerPart positive delimited fits

end Reader

end Homoicon.Json
