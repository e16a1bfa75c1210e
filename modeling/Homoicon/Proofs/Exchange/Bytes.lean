import Mathlib.Tactic.SplitIfs
import Homoicon.Text.Utf8

/-!
# Bytes and back

The bytes of a text are those of its characters one after the other, and reading them gives the
text again.
-/

namespace Homoicon.Text.Utf8

/-- The bytes of some characters. -/
def bytes (cs : List Char) : List UInt8 := cs.flatMap String.utf8EncodeChar

@[simp] theorem bytes_nil : bytes [] = [] := rfl

@[simp] theorem bytes_cons (c : Char) (cs : List Char) :
    bytes (c :: cs) = String.utf8EncodeChar c ++ bytes cs :=
  List.flatMap_cons

@[simp] theorem bytes_append (cs ds : List Char) : bytes (cs ++ ds) = bytes cs ++ bytes ds :=
  List.flatMap_append

theorem toList_encode (s : String) : (encode s).toList = bytes s.toList := by
  obtain ⟨cs, rfl⟩ : ∃ cs, s = String.ofList cs := ⟨s.toList, String.ofList_toList.symm⟩
  rw [String.toList_ofList]
  have encoded : (String.ofList cs).toByteArray = (bytes cs).toByteArray :=
    String.toByteArray_ofList
  rw [encode, String.toUTF8, encoded]
  simp

theorem length_le_bytes (cs : List Char) : cs.length ≤ (bytes cs).length := by
  induction cs with
  | nil => exact Nat.le_refl 0
  | cons c cs induction =>
      have some_byte : 0 < (String.utf8EncodeChar c).length := by
        rw [String.length_utf8EncodeChar]
        exact Char.utf8Size_pos c
      rw [bytes_cons, List.length_cons, List.length_append]
      omega

/-! ## One character -/

theorem utf8EncodeChar_ascii {c : Char} (small : c.toNat ≤ 127) :
    String.utf8EncodeChar c = [UInt8.ofNat c.toNat] := by
  rw [String.utf8EncodeChar.eq_1, if_pos (show c.val.toNat ≤ 127 from small)]
  rfl

theorem toNat_valid (c : Char) : c.toNat < 0xD800 ∨ 0xDFFF < c.toNat ∧ c.toNat < 0x110000 := by
  simpa [UInt32.isValidChar, Nat.isValidChar] using c.valid

theorem toNat_ofNat_byte {n : Nat} (small : n < 256) : (UInt8.ofNat n).toNat = n := by
  rw [UInt8.toNat_ofNat', Nat.mod_eq_of_lt small]

/-- A byte that continues a character gives its six bits back. -/
theorem isContinuation_ofNat {n : Nat} (small : n < 64) :
    isContinuation (UInt8.ofNat (n + 128)) = true ∧ payload (UInt8.ofNat (n + 128)) = n := by
  have value := toNat_ofNat_byte (by omega : n + 128 < 256)
  constructor
  · simp only [isContinuation, Bool.and_eq_true, decide_eq_true_eq, UInt8.le_iff_toNat_le, value]
    constructor
    · exact Nat.le_add_left 128 n
    · exact Nat.le_of_lt_succ (by omega : n + 128 < 192)
  · rw [payload, value]
    omega

theorem decodeOne_one {v : Nat} (small : v ≤ 127) (rest : List UInt8) :
    decodeOne (UInt8.ofNat v) rest = (Char.ofNat v, 0) := by
  have value := toNat_ofNat_byte (by omega : v < 256)
  have below : UInt8.ofNat v < 0x80 := by
    rw [UInt8.lt_iff_toNat_lt, value]
    exact Nat.lt_succ_of_le small
  unfold decodeOne
  rw [if_pos below, value]

theorem decodeOne_two {high low : Nat} (least : 2 ≤ high) (most : high < 32) (small : low < 64)
    (rest : List UInt8) :
    decodeOne (UInt8.ofNat (high + 192)) (UInt8.ofNat (low + 128) :: rest) =
      (Char.ofNat (high * 64 + low), 1) := by
  have value := toNat_ofNat_byte (by omega : high + 192 < 256)
  have many : ¬UInt8.ofNat (high + 192) < 0x80 := by
    rw [UInt8.lt_iff_toNat_lt, value]
    change ¬high + 192 < 128
    omega
  have two : (0xC2 ≤ UInt8.ofNat (high + 192) && UInt8.ofNat (high + 192) ≤ 0xDF) = true := by
    simp only [Bool.and_eq_true, decide_eq_true_eq, UInt8.le_iff_toNat_le, value]
    change 194 ≤ high + 192 ∧ high + 192 ≤ 223
    omega
  obtain ⟨continues, bits⟩ := isContinuation_ofNat small
  have sixBits : (high + 192) % 32 = high := by omega
  unfold decodeOne
  rw [if_neg many, if_pos two]
  simp only [continues, if_true, bits, value, sixBits]

/-- The second byte of a longer character is one that the first allows. -/
def SecondFits (first second : UInt8) : Prop :=
  ((secondRange first).1 ≤ second && second ≤ (secondRange first).2) = true

theorem secondFits_three {high middle : Nat} (most : high < 16) (small : middle < 64)
    (long : high = 0 → 32 ≤ middle) (noSurrogate : high = 13 → middle < 32) :
    SecondFits (UInt8.ofNat (high + 224)) (UInt8.ofNat (middle + 128)) := by
  have first := toNat_ofNat_byte (by omega : high + 224 < 256)
  have second := toNat_ofNat_byte (by omega : middle + 128 < 256)
  have equal (n : UInt8) : (UInt8.ofNat (high + 224) == n) = true ↔ high + 224 = n.toNat := by
    rw [beq_iff_eq, ← UInt8.toNat_inj, first]
  unfold SecondFits secondRange
  split_ifs with e0 ed f0 f4
  all_goals
    simp only [equal, UInt8.reduceToNat] at *
    simp only [Bool.and_eq_true, decide_eq_true_eq, UInt8.le_iff_toNat_le, second,
      UInt8.reduceToNat]
    omega

theorem secondFits_four {high middle : Nat} (most : high < 5) (small : middle < 64)
    (long : high = 0 → 16 ≤ middle) (within : high = 4 → middle < 16) :
    SecondFits (UInt8.ofNat (high + 240)) (UInt8.ofNat (middle + 128)) := by
  have first := toNat_ofNat_byte (by omega : high + 240 < 256)
  have second := toNat_ofNat_byte (by omega : middle + 128 < 256)
  have equal (n : UInt8) : (UInt8.ofNat (high + 240) == n) = true ↔ high + 240 = n.toNat := by
    rw [beq_iff_eq, ← UInt8.toNat_inj, first]
  unfold SecondFits secondRange
  split_ifs with e0 ed f0 f4
  all_goals
    simp only [equal, UInt8.reduceToNat] at *
    simp only [Bool.and_eq_true, decide_eq_true_eq, UInt8.le_iff_toNat_le, second,
      UInt8.reduceToNat]
    omega

theorem decodeOne_three {high middle low : Nat} (most : high < 16) (small : middle < 64)
    (smallLow : low < 64) (long : high = 0 → 32 ≤ middle) (noSurrogate : high = 13 → middle < 32)
    (rest : List UInt8) :
    decodeOne (UInt8.ofNat (high + 224))
        (UInt8.ofNat (middle + 128) :: UInt8.ofNat (low + 128) :: rest) =
      (Char.ofNat ((high * 64 + middle) * 64 + low), 2) := by
  have value := toNat_ofNat_byte (by omega : high + 224 < 256)
  have allowed := secondFits_three most small long noSurrogate
  obtain ⟨-, middleBits⟩ := isContinuation_ofNat small
  obtain ⟨continues, lowBits⟩ := isContinuation_ofNat smallLow
  have fourBits : (high + 224) % 16 = high := by omega
  unfold SecondFits at allowed
  unfold decodeOne
  simp only [UInt8.lt_iff_toNat_lt, UInt8.le_iff_toNat_le, value, UInt8.reduceToNat]
  rw [if_neg (by omega), if_neg (by simp), if_pos (by simp; omega)]
  simp only [UInt8.le_iff_toNat_le] at allowed
  simp only [allowed, if_true, continues, if_pos (by omega : high + 224 < 240), fourBits,
    middleBits, lowBits]

theorem decodeOne_four {high upper middle low : Nat} (most : high < 5) (small : upper < 64)
    (smallMiddle : middle < 64) (smallLow : low < 64) (long : high = 0 → 16 ≤ upper)
    (within : high = 4 → upper < 16) (rest : List UInt8) :
    decodeOne (UInt8.ofNat (high + 240))
        (UInt8.ofNat (upper + 128) :: UInt8.ofNat (middle + 128) ::
          UInt8.ofNat (low + 128) :: rest) =
      (Char.ofNat (((high * 64 + upper) * 64 + middle) * 64 + low), 3) := by
  have value := toNat_ofNat_byte (by omega : high + 240 < 256)
  have allowed := secondFits_four most small long within
  obtain ⟨-, upperBits⟩ := isContinuation_ofNat small
  obtain ⟨middleContinues, middleBits⟩ := isContinuation_ofNat smallMiddle
  obtain ⟨continues, lowBits⟩ := isContinuation_ofNat smallLow
  have threeBits : (high + 240) % 8 = high := by omega
  unfold SecondFits at allowed
  unfold decodeOne
  simp only [UInt8.lt_iff_toNat_lt, UInt8.le_iff_toNat_le, value, UInt8.reduceToNat]
  rw [if_neg (by omega), if_neg (by simp), if_pos (by simp; omega)]
  simp only [UInt8.le_iff_toNat_le] at allowed
  simp only [allowed, if_true, continues, middleContinues,
    if_neg (by omega : ¬high + 240 < 240), threeBits, upperBits, middleBits, lowBits]

/-- The bytes of a character are read as that character. -/
theorem decodeOne_utf8EncodeChar (c : Char) (tail : List UInt8) :
    ∃ first later, String.utf8EncodeChar c = first :: later ∧
      decodeOne first (later ++ tail) = (c, later.length) := by
  have valid := toNat_valid c
  have whole {n : Nat} (same : n = c.toNat) : Char.ofNat n = c := by
    rw [same, Char.ofNat_toNat]
  have same : c.val.toNat = c.toNat := rfl
  rw [String.utf8EncodeChar.eq_1]
  simp only [same]
  split_ifs with one two three
  · refine ⟨_, _, rfl, ?_⟩
    rw [List.nil_append]
    exact (decodeOne_one one tail).trans (by rw [Char.ofNat_toNat]; rfl)
  · refine ⟨_, _, rfl, ?_⟩
    refine (decodeOne_two (by omega) (by omega) (by omega) tail).trans ?_
    exact Prod.ext (whole (by omega)) rfl
  · refine ⟨_, _, rfl, ?_⟩
    refine (decodeOne_three (by omega) (by omega) (by omega) (by omega) (by omega) tail).trans ?_
    exact Prod.ext (whole (by omega)) rfl
  · refine ⟨_, _, rfl, ?_⟩
    refine (decodeOne_four (by omega) (by omega) (by omega) (by omega) (by omega) (by omega)
      tail).trans ?_
    exact Prod.ext (whole (by omega)) rfl

/-! ## A whole text -/

theorem decodeFrom_append (front tail : List UInt8) :
    decodeFrom front.length (front ++ tail) = decodeFrom 0 tail := by
  induction front with
  | nil => rfl
  | cons b front induction => simpa [decodeFrom] using induction

theorem decodeFrom_bytes (cs : List Char) : decodeFrom 0 (bytes cs) = cs := by
  induction cs with
  | nil => rfl
  | cons c cs induction =>
      obtain ⟨first, later, spelled, read⟩ := decodeOne_utf8EncodeChar c (bytes cs)
      rw [bytes_cons, spelled, List.cons_append, decodeFrom, read]
      simp only [decodeFrom_append, induction]

theorem decode_bytes (cs : List Char) : decode (bytes cs) = String.ofList cs := by
  rw [decode, decodeFrom_bytes]

end Homoicon.Text.Utf8
