import Homoicon.Proofs.Decimals.Rounding
import Mathlib.Tactic.Linarith

/-!
# Integers as decimals

An integer of at most 53 bits is a decimal exactly, and so is a small product of two of them.  A
longer one is rounded to a decimal of the same sign that is no shorter than 53 bits.
-/

namespace Homoicon.Decimal

open Float.Model Float.Model.UnpackedFloat

variable {s : Sign} {m : Nat} {e : Int} {pos : 0 < m}

/-- The sign of an integer. -/
def signOf (i : Int) : Sign := if i < 0 then .negative else .positive

/-- A decimal has the value of an integer. -/
def Equals (d : Float) (i : Int) : Prop :=
  (i = 0 ∧ ∃ s, d.toModel.unpack = .zero s) ∨
    ∃ m e, ∃ pos : 0 < m, d.toModel.unpack = .finite (signOf i) m e pos ∧ m.log2 = 52 ∧
      m * 2 ^ e.toNat = i.natAbs * 2 ^ (-e).toNat

variable {d d' : Float} {i j : Int}

theorem nonzero_of_scaled {k k' : Nat} (pos : 0 < m) (value : m * 2 ^ k = i.natAbs * 2 ^ k') :
    i ≠ 0 := by
  rintro rfl
  rw [Int.natAbs_zero, Nat.zero_mul] at value
  exact absurd value (Nat.ne_of_gt (Nat.mul_pos pos (Nat.two_pow_pos k)))

theorem zero_fields {b : BitVec 64} (unpacked : UnpackedFloat.unpack .binary64 b = .zero s) :
    (exponentField b).toNat = 0 ∧ (fractionField b).toNat = 0 := by
  unfold UnpackedFloat.unpack at unpacked
  dsimp only at unpacked
  split at unpacked
  · split at unpacked <;> cases unpacked
  · split at unpacked
    · rename_i low
      split at unpacked
      · rename_i none
        exact ⟨congrArg BitVec.toNat low, congrArg BitVec.toNat none⟩
      · cases unpacked
    · cases unpacked

theorem truncate_zero (unpacked : d.toModel.unpack = .zero s) : truncate d = 0 := by
  obtain ⟨exponent, fraction⟩ := zero_fields unpacked
  have biased : ((d.toBits >>> 52) &&& 0x7FF).toNat = 0 := (exponentField_toNat _).trans exponent
  have part : (d.toBits &&& 0xFFFFFFFFFFFFF).toNat = 0 := (fractionField_toNat _).trans fraction
  unfold truncate decompose
  simp [biased, part]

theorem decompose_finite (unpacked : d.toModel.unpack = .finite s m e pos) (normal : m.log2 = 52) :
    (decompose d).significand = m ∧ (decompose d).exponent = e ∧
      ((decompose d).negative = true ↔ s = .negative) := by
  have above := ((Nat.log2_eq_iff (Nat.ne_of_gt pos)).mp normal).1
  obtain ⟨exponent, -, scaled, mantissa, sign⟩ : (exponentField d.toBits.toBitVec).toNat ≠ 0 ∧
      (exponentField d.toBits.toBitVec).toNat ≠ 2047 ∧
      e = (exponentField d.toBits.toBitVec).toNat - 1075 ∧
      m = (fractionField d.toBits.toBitVec).toNat + leadingBit ∧
      s = Sign.ofBitVec (signField d.toBits.toBitVec) := unpacked_fields unpacked above
  have biased : ((d.toBits >>> 52) &&& 0x7FF).toNat = (exponentField d.toBits.toBitVec).toNat :=
    exponentField_toNat _
  have part : (d.toBits &&& 0xFFFFFFFFFFFFF).toNat = (fractionField d.toBits.toBitVec).toNat :=
    fractionField_toNat _
  have split : decompose d = ⟨d.toBits >>> 63 == 1, (fractionField d.toBits.toBitVec).toNat +
      leadingBit, ((exponentField d.toBits.toBitVec).toNat : Int) - 1075⟩ := by
    unfold decompose
    simp only [biased, part]
    rw [if_neg (by simpa using exponent)]
  rw [split]
  refine ⟨mantissa.symm, scaled.symm, ?_⟩
  rw [sign, ofBitVec_negative]
  change (d.toBits >>> 63 == 1) = true ↔ _
  rw [beq_iff_eq, ← UInt64.toNat_inj, signField_toNat]
  rfl

/-- The integer part of a normal number, without its sign. -/
def magnitude (m : Nat) (e : Int) : Nat := if 0 ≤ e then m <<< e.toNat else m >>> (-e).toNat

theorem truncate_finite (unpacked : d.toModel.unpack = .finite s m e pos)
    (normal : m.log2 = 52) :
    (s = .negative → truncate d = -(magnitude m e : Int)) ∧
      (s = .positive → truncate d = magnitude m e) := by
  obtain ⟨significand, exponent, negative⟩ := decompose_finite unpacked normal
  have value : truncate d =
      if (decompose d).negative = true then -(magnitude m e : Int) else magnitude m e := by
    unfold truncate
    simp only [significand, exponent]
    rfl
  rw [value]
  refine ⟨fun sign => if_pos (negative.mpr sign), fun sign => if_neg (mt negative.mp ?_)⟩
  rw [sign]
  exact nofun

theorem magnitude_eq {n : Nat} (value : m * 2 ^ e.toNat = n * 2 ^ (-e).toNat) :
    magnitude m e = n := by
  unfold magnitude
  split_ifs with whole
  · rw [Nat.shiftLeft_eq, value, show (-e).toNat = 0 by omega, pow_zero, Nat.mul_one]
  · rw [show e.toNat = 0 by omega, pow_zero, Nat.mul_one] at value
    rw [Nat.shiftRight_eq_div_pow, value, Nat.mul_div_cancel _ (Nat.two_pow_pos _)]

theorem Equals.truncate_eq (equals : Equals d i) : truncate d = i := by
  obtain ⟨rfl, s, unpacked⟩ | ⟨m, e, pos, unpacked, normal, value⟩ := equals
  · exact truncate_zero unpacked
  · obtain ⟨negative, positive⟩ := truncate_finite unpacked normal
    rw [magnitude_eq value] at negative positive
    by_cases less : i < 0
    · rw [negative (if_pos less)]
      omega
    · rw [positive (if_neg less)]
      omega

/-- A decimal that is an integer is finite. -/
theorem Equals.finite (equals : Equals d i) : d.isNaN = false ∧ d.isInf = false := by
  obtain ⟨-, s, unpacked⟩ | ⟨m, e, pos, unpacked, -⟩ := equals <;>
    exact ⟨congrArg UnpackedFloat.isNaN unpacked, congrArg UnpackedFloat.isInf unpacked⟩

theorem Equals.toInteger_eq (equals : Equals d i) : toInteger d = Bits.clamp64 i := by
  obtain ⟨number, finite⟩ := equals.finite
  rw [toInteger, number, finite, if_neg Bool.false_ne_true, if_neg Bool.false_ne_true,
    equals.truncate_eq]

/-- A decimal that is a small integer has as many trailing zeros as it needs. -/
theorem Equals.small (equals : Equals d i) (nonzero : i ≠ 0) (small : i.natAbs < 2 ^ 53) :
    ∃ k : Nat, ∃ pos : 0 < i.natAbs * 2 ^ k,
      d.toModel.unpack = .finite (signOf i) (i.natAbs * 2 ^ k) (-k) pos ∧
        (i.natAbs * 2 ^ k).log2 = 52 := by
  obtain ⟨rfl, -⟩ | ⟨m, e, pos, unpacked, normal, value⟩ := equals
  · exact absurd rfl nonzero
  · have above := ((Nat.log2_eq_iff (Nat.ne_of_gt pos)).mp normal).1
    have whole : e ≤ 0 := by
      by_contra positive
      have : 2 ^ 1 ≤ 2 ^ e.toNat := Nat.pow_le_pow_right (by decide) (by omega)
      have : 2 ^ 52 * 2 ^ 1 ≤ m * 2 ^ e.toNat := Nat.mul_le_mul above this
      rw [value, show (-e).toNat = 0 by omega] at this
      omega
    rw [show e.toNat = 0 by omega, pow_zero, Nat.mul_one] at value
    subst value
    refine ⟨(-e).toNat, pos, ?_, normal⟩
    rw [unpacked]
    simp only [UnpackedFloat.finite.injEq, true_and]
    omega

theorem Equals.of_unpack {n k : Nat} {pos : 0 < n * 2 ^ k} (normal : (n * 2 ^ k).log2 = 52)
    (same : i.natAbs = n) (unpacked : d.toModel.unpack = .finite (signOf i) (n * 2 ^ k) (-k) pos) :
    Equals d i := by
  refine .inr ⟨_, _, pos, unpacked, normal, ?_⟩
  rw [same, show (-(k : Int)).toNat = 0 by omega, show (- -(k : Int)).toNat = k by omega, pow_zero,
    Nat.mul_one]

theorem normalized {n : Nat} (pos : 0 < n) (small : n < 2 ^ 53) :
    (n * 2 ^ (52 - n.log2)).log2 = 52 := by
  have size : n.log2 < 53 := (Nat.log2_lt (Nat.ne_of_gt pos)).mpr small
  have low := Nat.log2_self_le (Nat.ne_of_gt pos)
  have high := Nat.lt_log2_self (n := n)
  refine (Nat.log2_eq_iff (Nat.ne_of_gt (Nat.mul_pos pos (Nat.two_pow_pos _)))).mpr ⟨?_, ?_⟩
  · refine le_trans (le_of_eq ?_) (Nat.mul_le_mul_right _ low)
    rw [← Nat.pow_add]
    congr 1
    omega
  · refine lt_of_lt_of_le (Nat.mul_lt_mul_of_pos_right high (Nat.two_pow_pos _)) (le_of_eq ?_)
    rw [← Nat.pow_add]
    congr 1
    omega

/-- Rounding finds a small integer behind a longer significand. -/
theorem round_small {n k : Nat} (pos : 0 < n) (small : n < 2 ^ 53) (long : 52 - n.log2 ≤ k) :
    ∃ pos' : 0 < n * 2 ^ (52 - n.log2),
      (Float.Model.pack (roundWithAccuracy .binary64 s (n * 2 ^ k) (-k) .exact)).unpack =
        .finite s (n * 2 ^ (52 - n.log2)) (-(52 - n.log2 : Nat)) pos' := by
  have normal := normalized pos small
  have pos' : 0 < n * 2 ^ (52 - n.log2) := Nat.mul_pos pos (Nat.two_pow_pos _)
  have split : n * 2 ^ k = n * 2 ^ (52 - n.log2) * 2 ^ (k - (52 - n.log2)) := by
    rw [Nat.mul_assoc, ← Nat.pow_add, Nat.add_sub_cancel' long]
  have exponent : -(k : Int) + (k - (52 - n.log2) : Nat) = -(52 - n.log2 : Nat) := by omega
  refine ⟨pos', ?_⟩
  rw [split, round_exact normal pos' (by omega)]
  rw [exponent]
  exact unpack_pack normal (by omega) (by omega)

theorem equals_of_round {n k : Nat} (pos : 0 < n) (small : n < 2 ^ 53) (long : 52 - n.log2 ≤ k)
    (same : i.natAbs = n) (rounded : d.toModel.unpack =
      (Float.Model.pack (roundWithAccuracy .binary64 (signOf i) (n * 2 ^ k) (-k) .exact)).unpack) :
    Equals d i := by
  obtain ⟨pos', exact⟩ := @round_small (signOf i) n k pos small long
  exact Equals.of_unpack (normalized pos small) same (rounded.trans exact)

theorem unpack_pack_zero : (Float.Model.pack (.zero s)).unpack = .zero s := by
  cases s <;> rfl

theorem Equals.zero (equals : Equals d 0) : ∃ s, d.toModel.unpack = .zero s := by
  obtain ⟨-, zero⟩ | ⟨m, e, pos, -, -, value⟩ := equals
  · exact zero
  · exact absurd rfl (nonzero_of_scaled pos value)

theorem Equals.unpacked (equals : Equals d i) :
    (∃ s, d.toModel.unpack = .zero s) ∨ ∃ s m e pos, d.toModel.unpack = .finite s m e pos := by
  obtain ⟨-, s, unpacked⟩ | ⟨m, e, pos, unpacked, -⟩ := equals
  · exact .inl ⟨s, unpacked⟩
  · exact .inr ⟨_, _, _, _, unpacked⟩

theorem signOf_mul (nonzero : i ≠ 0) (nonzero' : j ≠ 0) :
    signOf i * signOf j = signOf (i * j) := by
  unfold signOf
  rcases lt_or_gt_of_ne nonzero with less | more <;>
    rcases lt_or_gt_of_ne nonzero' with less' | more'
  · rw [if_pos less, if_pos less', if_neg (not_lt.mpr (Int.mul_pos_of_neg_of_neg less less').le)]
    rfl
  · rw [if_pos less, if_neg (not_lt.mpr more'.le), if_pos (Int.mul_neg_of_neg_of_pos less more')]
    rfl
  · rw [if_neg (not_lt.mpr more.le), if_pos less', if_pos (Int.mul_neg_of_pos_of_neg more less')]
    rfl
  · rw [if_neg (not_lt.mpr more.le), if_neg (not_lt.mpr more'.le),
      if_neg (not_lt.mpr (Int.mul_pos more more').le)]
    rfl

/-- A product of integers is exact while it is small. -/
theorem Equals.mul (first : Equals d i) (second : Equals d' j)
    (small : (i * j).natAbs < 2 ^ 53) : Equals (d * d') (i * j) := by
  have product : (d * d').toModel.unpack = (Float.Model.pack (UnpackedFloat.mul .binary64
      d.toModel.unpack d'.toModel.unpack)).unpack := rfl
  by_cases zero : i = 0
  · subst zero
    obtain ⟨s, unpacked⟩ := first.zero
    rw [unpacked] at product
    obtain ⟨s', unpacked'⟩ | ⟨s', m, e, pos, unpacked'⟩ := second.unpacked <;>
      rw [unpacked'] at product <;>
      exact .inl ⟨Int.zero_mul j, s * s', product.trans unpack_pack_zero⟩
  by_cases zero' : j = 0
  · subst zero'
    obtain ⟨s', unpacked'⟩ := second.zero
    rw [unpacked'] at product
    obtain ⟨s, unpacked⟩ | ⟨s, m, e, pos, unpacked⟩ := first.unpacked <;>
      rw [unpacked] at product <;>
      exact .inl ⟨Int.mul_zero i, s * s', product.trans unpack_pack_zero⟩
  have same := Int.natAbs_mul i j
  rw [same] at small
  have positive : 0 < i.natAbs := by omega
  have positive' : 0 < j.natAbs := by omega
  obtain ⟨k, pos, unpacked, normal⟩ := first.small zero (by nlinarith)
  obtain ⟨k', pos', unpacked', normal'⟩ := second.small zero' (by nlinarith)
  have both : 0 < i.natAbs * j.natAbs := Nat.mul_pos positive positive'
  have long : 52 - (i.natAbs * j.natAbs).log2 ≤ k + k' := by
    have above := ((Nat.log2_eq_iff (Nat.ne_of_gt pos)).mp normal).1
    have below := (Nat.log2_eq_iff (Nat.ne_of_gt (Nat.mul_pos both (Nat.two_pow_pos _)))).mp
      (normalized both small)
    by_contra short
    have more : 2 ^ (k + 1) ≤ 2 ^ (52 - (i.natAbs * j.natAbs).log2) :=
      Nat.pow_le_pow_right (by decide) (by omega)
    have : i.natAbs * 2 ^ k * 2 ≤ i.natAbs * j.natAbs * 2 ^ (52 - (i.natAbs * j.natAbs).log2) := by
      rw [Nat.mul_assoc, ← Nat.pow_succ]
      exact Nat.mul_le_mul (Nat.le_mul_of_pos_right _ positive') more
    omega
  refine equals_of_round both small long same (product.trans ?_)
  have significand : i.natAbs * 2 ^ k * (j.natAbs * 2 ^ k') =
      i.natAbs * j.natAbs * 2 ^ (k + k') := by ring
  have exponent : -(k : Int) + -k' = -((k + k' : Nat) : Int) := by push_cast; ring
  rw [unpacked, unpacked', ← significand, ← exponent, ← signOf_mul zero zero']
  rfl

/-- The machine's way to a decimal from a natural number. -/
theorem equals_toFloat {n : Nat} (small : n < 2 ^ 53) : Equals n.toUInt64.toFloat n := by
  have same : n.toUInt64.toNat = n := by
    rw [Nat.toUInt64, UInt64.toNat_ofNat']
    omega
  by_cases zero : n = 0
  · subst zero
    exact .inl ⟨rfl, .positive, rfl⟩
  have positive : 0 < n := by omega
  have converted : n.toUInt64.toFloat.toModel.unpack = (Float.Model.pack
      (UnpackedFloat.normalize .binary64 (n : Int) 0 .positive)).unpack := by
    change (Float.Model.pack (UnpackedFloat.normalize .binary64 (n.toUInt64.toNat : Int) 0
      .positive)).unpack = _
    rw [same]
  have size : n.log2 < 53 := (Nat.log2_lt (Nat.ne_of_gt positive)).mpr small
  have target : Format.binary64.targetExponent (totalExponent n 0) = (n.log2 : Int) - 52 := by
    change max ((n.log2 : Int) + 1 + 0 - 53) (-1074) = _
    omega
  refine equals_of_round positive small le_rfl rfl (converted.trans ?_)
  unfold UnpackedFloat.normalize
  rw [Int.compare_eq_gt.mpr (by omega)]
  have amount : (-((n.log2 : Int) - 52)).toNat = 52 - n.log2 := by omega
  have sign : signOf (n : Int) = .positive := if_neg (by omega)
  simp only [Int.toNat_natCast, UnpackedFloat.round, target, decreaseExponent, amount,
    Nat.shiftLeft_eq, sign, zero_sub]

theorem equals_ofNat {n : Nat} (small : n < 2 ^ 53) : Equals (Float.ofNat n) n := by
  have one : Equals (Float.ofBits 4607182418800017408) 1 :=
    .inr ⟨2 ^ 52, -52, Nat.two_pow_pos 52, rfl, Nat.log2_two_pow, by decide⟩
  have product : Float.ofNat n = n.toUInt64.toFloat * Float.ofBits 4607182418800017408 := by
    change Float.ofScientific n false 0 = _
    unfold Float.ofScientific
    rw [dif_pos ⟨small, by decide⟩]
    rfl
  have exact := (equals_toFloat small).mul one (by simpa using small)
  rw [product]
  simpa using exact

theorem Equals.neg (equals : Equals d i) : Equals d.neg (-i) := by
  have negated : d.neg.toModel.unpack =
      (Float.Model.pack (UnpackedFloat.neg d.toModel.unpack)).unpack := rfl
  obtain ⟨rfl, s, unpacked⟩ | ⟨m, e, pos, unpacked, normal, value⟩ := equals
  · rw [unpacked] at negated
    exact .inl ⟨rfl, -s, negated.trans unpack_pack_zero⟩
  · have above := ((Nat.log2_eq_iff (Nat.ne_of_gt pos)).mp normal).1
    obtain ⟨nonzero, finite, scaled, -⟩ := unpacked_fields unpacked above
    have wide := (exponentField d.toModel.toBits.toBitVec).isLt
    have present := nonzero_of_scaled pos value
    have sign : -signOf i = signOf (-i) := by
      unfold signOf
      rcases lt_or_gt_of_ne present with less | more
      · rw [if_pos less, if_neg (by omega)]
        rfl
      · rw [if_neg (by omega), if_pos (by omega)]
        rfl
    rw [unpacked] at negated
    refine .inr ⟨m, e, pos, ?_, normal, by rw [Int.natAbs_neg]; exact value⟩
    rw [negated, ← sign]
    exact unpack_pack normal (by omega) (by omega)

theorem equals_ofInt (small : i.natAbs < 2 ^ 53) : Equals (Float.ofInt i) i := by
  cases i with
  | ofNat n => exact equals_ofNat small
  | negSucc n => exact (equals_ofNat small).neg

/-- A longer number keeps its first 53 bits, rounded. -/
theorem equals_ofNat_large {n : Nat} (large : 2 ^ 53 ≤ n) (fits : n ≤ 2 ^ 63) :
    ∃ j : Nat, 2 ^ 53 ≤ j ∧ Equals (Float.ofNat n) j := by
  have nonzero : n ≠ 0 := by omega
  have low : 53 ≤ n.log2 := (Nat.le_log2 nonzero).mpr large
  have high : n.log2 < 64 := (Nat.log2_lt nonzero).mpr (by omega)
  have converted : (Float.ofNat n).toModel.unpack = (Float.Model.pack
      (roundWithAccuracy .binary64 .positive (n * 2 ^ 53) (-53) .exact)).unpack := by
    have scientific : Float.ofNat n = ⟨Float.Model.ofScientific n 0⟩ := by
      change Float.ofScientific n false 0 = _
      unfold Float.ofScientific
      rw [dif_neg (by omega)]
      rfl
    rw [scientific]
    unfold Float.Model.ofScientific UnpackedFloat.ofScientific
    have bits : (2 : Int) ^ Format.binary64.exponentBits = 2048 := rfl
    rw [dif_neg nonzero, if_neg (by decide), if_neg (by rw [bits]; omega), if_pos le_rfl]
    simp only [UnpackedFloat.mul, Nat.shiftLeft_eq]
    have significand : n * 2 ^ Format.binary64.mantissaBits * 10 ^ Int.toNat 0 = n * 2 ^ 53 :=
      Nat.mul_one _
    rw [significand]
    rfl
  have wide : (n * 2 ^ 53).log2 = 52 + (n.log2 + 1) := by
    obtain ⟨least, most⟩ := (Nat.log2_eq_iff nonzero).mp rfl
    have sum : 52 + (n.log2 + 1) = n.log2 + 53 := by omega
    refine (Nat.log2_eq_iff (by omega)).mpr ⟨?_, ?_⟩
    · rw [sum, Nat.pow_add]
      exact Nat.mul_le_mul_right _ least
    · rw [sum, Nat.add_right_comm, Nat.pow_add]
      exact Nat.mul_lt_mul_of_pos_right most (Nat.two_pow_pos 53)
  obtain ⟨m, e, pos, rounded, normal, exponents⟩ :=
    @round_normal .positive _ _ (-53) .exact wide (by omega) (by omega)
  have above := ((Nat.log2_eq_iff (Nat.ne_of_gt pos)).mp normal).1
  have long : 2 ^ 53 ≤ m * 2 ^ e.toNat := by
    have : 2 ^ 1 ≤ 2 ^ e.toNat := Nat.pow_le_pow_right (by decide) (by omega)
    exact Nat.mul_le_mul above this
  refine ⟨m * 2 ^ e.toNat, long, .inr ⟨m, e, pos, ?_, normal, ?_⟩⟩
  · rw [converted, rounded, unpack_pack normal (by omega) (by omega), signOf, if_neg (by omega)]
  · rw [Int.natAbs_natCast, show (-e).toNat = 0 by omega, pow_zero, Nat.mul_one]

theorem equals_ofInt_large (large : 2 ^ 53 ≤ i.natAbs) (fits : i.natAbs ≤ 2 ^ 63) :
    ∃ j, Equals (Float.ofInt i) j ∧ (0 < i → 2 ^ 53 ≤ j) ∧ (i < 0 → j ≤ -2 ^ 53) := by
  cases i with
  | ofNat n =>
      obtain ⟨j, long, equals⟩ := equals_ofNat_large large fits
      exact ⟨j, equals, fun _ => by omega, fun less => absurd less (Int.not_ofNat_neg n)⟩
  | negSucc n =>
      obtain ⟨j, long, equals⟩ := equals_ofNat_large large fits
      exact ⟨-j, equals.neg, fun more => by omega, fun _ => by omega⟩

theorem Equals.beq_zero (equals : Equals d i) : (d == 0.0) = (i == 0) := by
  have zero : (0.0 : Float).toModel.unpack = .zero .positive := rfl
  have compared : (d == 0.0) = UnpackedFloat.beq d.toModel.unpack (.zero .positive) := rfl
  rw [compared]
  obtain ⟨rfl, s, unpacked⟩ | ⟨m, e, pos, unpacked, -, value⟩ := equals
  · rw [unpacked]
    cases s <;> rfl
  · rw [unpacked, beq_eq_false_iff_ne.mpr (nonzero_of_scaled pos value)]
    cases signOf i <;> rfl

end Homoicon.Decimal
