import Homoicon.Decimal.Binary
import Mathlib

/-!
# Rounding of decimals

A decimal is packed into 64 bits, a sign, an exponent and a significand of 53 bits.  A significand
that is longer is shifted to that width and rounded, which may carry into the exponent.
-/

namespace Homoicon.Decimal

open Float.Model Float.Model.UnpackedFloat

variable {s : Sign} {m : Nat} {e : Int} {pos : 0 < m}

/-! ## The bits of a decimal -/

/-- The exponent in the bits of a decimal. -/
def exponentField (b : BitVec 64) : BitVec 11 := @unpackExponent .binary64 b

/-- The significand in the bits of a decimal. -/
def fractionField (b : BitVec 64) : BitVec 52 := @unpackMantissa .binary64 b

/-- The sign in the bits of a decimal. -/
def signField (b : BitVec 64) : BitVec 1 := @unpackSign .binary64 b

theorem exponentField_toNat (b : UInt64) :
    ((b >>> 52) &&& 0x7FF).toNat = (exponentField b.toBitVec).toNat := by
  have mask : (0x7FF : Nat) = 2 ^ 11 - 1 := rfl
  simp only [UInt64.toNat_and, UInt64.toNat_shiftRight, exponentField, unpackExponent]
  change b.toNat >>> 52 &&& 0x7FF = _
  rw [mask, Nat.and_two_pow_sub_one_eq_mod]
  simp [BitVec.extractLsb, BitVec.extractLsb'_toNat]

theorem fractionField_toNat (b : UInt64) :
    (b &&& 0xFFFFFFFFFFFFF).toNat = (fractionField b.toBitVec).toNat := by
  have mask : (0xFFFFFFFFFFFFF : Nat) = 2 ^ 52 - 1 := rfl
  simp only [UInt64.toNat_and, fractionField, unpackMantissa]
  change b.toNat &&& 0xFFFFFFFFFFFFF = _
  rw [mask, Nat.and_two_pow_sub_one_eq_mod]
  simp [BitVec.extractLsb, BitVec.extractLsb'_toNat]

theorem signField_toNat (b : UInt64) : (b >>> 63).toNat = (signField b.toBitVec).toNat := by
  simp only [UInt64.toNat_shiftRight, signField, unpackSign]
  change b.toNat >>> 63 = _
  have := b.toNat_lt
  simp [BitVec.extractLsb, BitVec.extractLsb'_toNat, Nat.shiftRight_eq_div_pow]
  omega

theorem ofBitVec_negative (v : BitVec 1) : Sign.ofBitVec v = .negative ↔ v.toNat = 1 := by
  have := v.isLt
  unfold Sign.ofBitVec
  split_ifs with zero
  · simp [zero]
  · have : v.toNat ≠ 0 := fun none => zero (BitVec.eq_of_toNat_eq none)
    simp only [true_iff]
    omega

/-- Where a decimal is normal, its bits are what it is unpacked to. -/
theorem unpacked_fields {b : BitVec 64}
    (unpacked : UnpackedFloat.unpack .binary64 b = .finite s m e pos) (normal : 2 ^ 52 ≤ m) :
    (exponentField b).toNat ≠ 0 ∧ (exponentField b).toNat ≠ 2047 ∧
      e = (exponentField b).toNat - 1075 ∧ m = (fractionField b).toNat + leadingBit ∧
      s = Sign.ofBitVec (signField b) := by
  unfold UnpackedFloat.unpack at unpacked
  dsimp only at unpacked
  split at unpacked
  · split at unpacked <;> cases unpacked
  · rename_i infinite
    split at unpacked
    · split at unpacked
      · cases unpacked
      · cases unpacked
        have := (fractionField b).isLt
        exact absurd normal (not_le.mpr this)
    · rename_i zero
      cases unpacked
      have small := (fractionField b).isLt
      refine ⟨fun none => zero (BitVec.eq_of_toNat_eq none),
        fun full => infinite (BitVec.eq_of_toNat_eq full), rfl, ?_, rfl⟩
      simp only [BitVec.toNat_append]
      change 1 <<< 52 ||| (fractionField b).toNat = _
      rw [← Nat.shiftLeft_add_eq_or_of_lt small, Nat.add_comm]
      rfl

theorem unpackSign_packComponents (exponent : BitVec 11) (mantissa : BitVec 52) :
    @unpackSign .binary64 (packComponents .binary64 s exponent mantissa) = s.toBitVec := by
  ext i inside
  obtain rfl : i = 0 := by omega
  simp only [unpackSign, packComponents, BitVec.extractLsb, BitVec.getElem_cast,
    BitVec.getElem_extractLsb']
  rw [BitVec.getLsbD_append, BitVec.getLsbD_append]
  rfl

theorem unpack_pack (normal : m.log2 = 52) (low : -1074 ≤ e) (high : e ≤ 971) :
    (Float.Model.pack (.finite s m e pos)).unpack = .finite s m e pos := by
  obtain ⟨above, below⟩ := (Nat.log2_eq_iff (Nat.ne_of_gt pos)).mp normal
  obtain ⟨k, biased, first, last⟩ : ∃ k : Nat, e = (k : Int) - 1075 ∧ 1 ≤ k ∧ k ≤ 2046 :=
    ⟨(e + 1075).toNat, by omega, by omega, by omega⟩
  have shape : (e + (Format.binary64.exponentBias : Int) +
      (Format.binary64.mantissaBitsWithoutImplicit : Int)).toNat = k := by
    change (e + 1023 + 52).toNat = k
    omega
  have inside : BitVec.toNat (BitVec.ofNat 11 k) = k := by
    rw [BitVec.toNat_ofNat]
    omega
  have packed : UnpackedFloat.pack .binary64 (.finite s m e pos) =
      packComponents .binary64 s (BitVec.ofNat 11 k) (BitVec.ofNat 52 m) := by
    unfold UnpackedFloat.pack
    dsimp only
    rw [shape, if_neg (by change ¬ 2048 ≤ k + 1; omega), if_pos (by rw [normal]; rfl)]
  have wide : BitVec.toNat (BitVec.ofNat 52 m) + 2 ^ 52 = m := by
    rw [BitVec.toNat_ofNat]
    omega
  unfold Float.Model.unpack Float.Model.pack
  simp only [packed]
  unfold UnpackedFloat.unpack
  simp only [unpackExponent_packComponents, unpackMantissa_packComponents]
  rw [if_neg, if_neg]
  · have joined : (1#1 ++ BitVec.ofNat 52 m).toNat = m := by
      rw [BitVec.toNat_append]
      change 1 <<< 52 ||| (BitVec.ofNat 52 m).toNat = m
      rw [← Nat.shiftLeft_add_eq_or_of_lt (BitVec.ofNat 52 m).isLt, Nat.add_comm]
      exact wide
    simp only [joined, unpackSign_packComponents]
    subst biased
    cases s <;> simp only [UnpackedFloat.finite.injEq] <;> refine ⟨rfl, trivial, ?_⟩ <;>
      rw [inside] <;> rfl
  · intro zero
    have := congrArg BitVec.toNat zero
    rw [inside] at this
    change k = 0 at this
    omega
  · intro full
    have := congrArg BitVec.toNat full
    rw [inside] at this
    change k = 2047 at this
    omega

/-! ## Rounding -/

theorem shiftRight_succ (em : ExtendedMantissa) (k : Nat) :
    em >>> (k + 1) = (em >>> k).shiftRightOne := rfl

theorem shiftRight_mantissa (em : ExtendedMantissa) (k : Nat) :
    (em >>> k).mantissa = em.mantissa / 2 ^ k := by
  induction k with
  | zero => rw [pow_zero, Nat.div_one]; rfl
  | succ k ih =>
      rw [shiftRight_succ, pow_succ, ← Nat.div_div_eq_div_mul, ← ih]
      rfl

/-- Zeros that are shifted out leave nothing to round. -/
theorem shiftRight_exact (m k : Nat) :
    (⟨m * 2 ^ k, false, false⟩ : ExtendedMantissa) >>> k = ⟨m, false, false⟩ := by
  induction k generalizing m with
  | zero => rw [pow_zero, Nat.mul_one]; rfl
  | succ k ih =>
      rw [shiftRight_succ, pow_succ', ← Nat.mul_assoc, ih]
      unfold ExtendedMantissa.shiftRightOne
      simp

theorem targetExponent_eq {m : Nat} {e : Int} {k : Nat} (wide : m.log2 = 52 + k)
    (low : -1074 ≤ e + k) : Format.binary64.targetExponent (totalExponent m e) = e + k := by
  change max ((m.log2 : Int) + 1 + e - 53) (-1074) = e + k
  omega

theorem log2_shifted {c : Nat} (normal : c.log2 = 52) (pos : 0 < c) (k : Nat) :
    (c * 2 ^ k).log2 = 52 + k := by
  have positive := Nat.two_pow_pos k
  obtain ⟨above, below⟩ := (Nat.log2_eq_iff (Nat.ne_of_gt pos)).mp normal
  refine (Nat.log2_eq_iff (Nat.ne_of_gt (Nat.mul_pos pos positive))).mpr ⟨?_, ?_⟩
  · rw [Nat.pow_add]
    exact Nat.mul_le_mul_right _ above
  · rw [Nat.add_right_comm, Nat.pow_add]
    exact Nat.mul_lt_mul_of_pos_right below positive

theorem shift_exact {c k : Nat} {e : Int} (normal : c.log2 = 52) (pos : 0 < c)
    (low : -1074 ≤ e + k) :
    shiftToTargetExponent .binary64 (c * 2 ^ k) e .exact = (⟨c, false, false⟩, e + k) := by
  have amount : (e + k - e).toNat = k := by omega
  unfold shiftToTargetExponent shiftToExponent
  simp only [targetExponent_eq (log2_shifted normal pos k) low, amount]
  exact congrArg (·, e + (k : Int)) (shiftRight_exact c k)

theorem shift_normal {c : Nat} {e : Int} (normal : c.log2 = 52) (pos : 0 < c) (low : -1074 ≤ e) :
    shiftToTargetExponent .binary64 c e .exact = (⟨c, false, false⟩, e) := by
  have same := @shift_exact c 0 e normal pos (by simpa using low)
  simpa using same

theorem round_eq {M : Nat} {e j j' : Int} {accuracy : Accuracy} {em em' : ExtendedMantissa}
    (first : shiftToTargetExponent .binary64 M e accuracy = (em, j))
    (second : shiftToTargetExponent .binary64 em.roundedMantissa j .exact = (em', j'))
    (pos : 0 < em'.mantissa) :
    roundWithAccuracy .binary64 s M e accuracy = .finite s em'.mantissa j' pos := by
  unfold roundWithAccuracy
  simp only [first, second]
  rw [dif_neg (Nat.ne_of_gt pos)]

/-- A significand that is only too long by zeros is not changed by rounding. -/
theorem round_exact {c k : Nat} {e : Int} (normal : c.log2 = 52) (pos : 0 < c)
    (low : -1074 ≤ e + k) :
    roundWithAccuracy .binary64 s (c * 2 ^ k) e .exact = .finite s c (e + k) pos :=
  round_eq (shift_exact normal pos low) (shift_normal normal pos low) pos

theorem roundedMantissa_eq (em : ExtendedMantissa) : em.roundedMantissa = em.mantissa ∨
    em.roundedMantissa = em.mantissa + 1 ∧ em.roundBit = true := by
  obtain ⟨m, round, sticky⟩ := em
  cases round <;> cases sticky <;> simp [ExtendedMantissa.roundedMantissa,
    ExtendedMantissa.accuracy, Accuracy.roundToNearestEven]
  omega

/-- A significand that is shifted to its width, with what is left to round. -/
def shifted (M k : Nat) (accuracy : Accuracy) : ExtendedMantissa :=
  ExtendedMantissa.ofMantissaAndAccuracy M accuracy >>> k

theorem shifted_mantissa (M k : Nat) (accuracy : Accuracy) :
    (shifted M k accuracy).mantissa = M / 2 ^ k := by
  rw [shifted, shiftRight_mantissa]
  cases accuracy with
  | exact => rfl
  | inexact order => cases order <;> rfl

theorem shift_eq {M k : Nat} {e : Int} (accuracy : Accuracy) (wide : M.log2 = 52 + k)
    (low : -1074 ≤ e + k) :
    shiftToTargetExponent .binary64 M e accuracy = (shifted M k accuracy, e + k) := by
  have amount : (e + k - e).toNat = k := by omega
  unfold shiftToTargetExponent shiftToExponent
  simp only [targetExponent_eq wide low, amount]
  rfl

/-- Rounding gives a normal number, whose exponent may be one more by a carry. -/
theorem round_normal {M k : Nat} {e : Int} (accuracy : Accuracy) (wide : M.log2 = 52 + k)
    (nonzero : M ≠ 0) (low : -1074 ≤ e + k) :
    ∃ m j, ∃ pos : 0 < m, roundWithAccuracy .binary64 s M e accuracy = .finite s m j pos ∧
      m.log2 = 52 ∧ (j = e + k ∧ m = (shifted M k accuracy).roundedMantissa ∨
        j = e + k + 1 ∧ m * 2 = (shifted M k accuracy).roundedMantissa) := by
  have shift := shift_eq accuracy wide low
  have bounds := roundedMantissa_eq (shifted M k accuracy)
  obtain ⟨above, below⟩ := (Nat.log2_eq_iff nonzero).mp wide
  have floor : 2 ^ 52 ≤ (shifted M k accuracy).mantissa ∧
      (shifted M k accuracy).mantissa < 2 ^ 53 := by
    rw [shifted_mantissa]
    constructor
    · rw [Nat.le_div_iff_mul_le (Nat.two_pow_pos k), ← Nat.pow_add]
      exact above
    · rw [Nat.div_lt_iff_lt_mul (Nat.two_pow_pos k), ← Nat.pow_add,
        show 53 + k = 52 + k + 1 by omega]
      exact below
  generalize shifted M k accuracy = em at *
  by_cases carry : em.roundedMantissa = 2 ^ 53
  · have again : shiftToTargetExponent .binary64 em.roundedMantissa (e + k) .exact =
        (⟨2 ^ 52, false, false⟩, e + k + (1 : Nat)) := by
      rw [carry, Nat.pow_succ 2 52, ← Nat.pow_one 2]
      exact shift_exact Nat.log2_two_pow (Nat.two_pow_pos 52) (by omega)
    have pos : 0 < (⟨2 ^ 52, false, false⟩ : ExtendedMantissa).mantissa := Nat.two_pow_pos 52
    exact ⟨_, _, pos, round_eq shift again pos, Nat.log2_two_pow, .inr ⟨rfl, carry.symm⟩⟩
  · have normal : em.roundedMantissa.log2 = 52 :=
      (Nat.log2_eq_iff (by omega)).mpr ⟨by omega, by omega⟩
    have pos : 0 < em.roundedMantissa := by omega
    exact ⟨_, _, pos, round_eq shift (shift_normal normal pos low) pos, normal, .inl ⟨rfl, rfl⟩⟩

end Homoicon.Decimal
