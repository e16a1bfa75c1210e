import Homoicon.Proofs.Decimals.Integers

/-!
# Quotients of integers as decimals

The quotient of two small integers is rounded, but never as far as the next integer: its integer
part is that of the exact quotient.
-/

namespace Homoicon.Decimal

open Float.Model Float.Model.UnpackedFloat

variable {s : Sign} {d d' : Float} {i j : Int}

/-- Rounding up by half of the last place does not reach the next integer. -/
theorem rounded_div {n divisor places rounded : Nat} (positive : 0 < divisor) (small : n < 2 ^ 53)
    (long : 2 ^ 52 ≤ n * 2 ^ places / divisor)
    (near : rounded = n * 2 ^ places / divisor ∨ rounded = n * 2 ^ places / divisor + 1 ∧
      divisor ≤ 2 * (n * 2 ^ places % divisor)) :
    rounded / 2 ^ places = n / divisor := by
  have exact : n * 2 ^ places / divisor / 2 ^ places = n / divisor := by
    rw [Nat.div_div_eq_div_mul, Nat.mul_div_mul_right _ _ (Nat.two_pow_pos places)]
  obtain rfl | ⟨rfl, half⟩ := near
  · exact exact
  · -- The next integer is too far: the numerator would be longer than 53 bits.
    have parts := Nat.div_add_mod (n * 2 ^ places) divisor
    have below := Nat.lt_mul_div_succ n positive
    generalize n * 2 ^ places % divisor = rest at *
    generalize n * 2 ^ places / divisor = floor at *
    rw [Nat.succ_div]
    split_ifs with reaches
    · obtain ⟨next, same⟩ := reaches
      have power := Nat.two_pow_pos places
      have count : next = n / divisor + 1 := by
        have := congrArg (· / 2 ^ places) same
        simp only [Nat.mul_div_cancel_left _ power, Nat.succ_div, exact] at this
        rw [← this, if_pos ⟨next, same⟩]
      rw [← count] at below
      have step : n * 2 ^ places + 2 ^ places ≤ (floor + 1) * divisor := by
        rw [same, ← Nat.succ_mul]
        calc (n + 1) * 2 ^ places ≤ divisor * next * 2 ^ places := Nat.mul_le_mul_right _ below
          _ = 2 ^ places * next * divisor := by ring
      have room : 2 * 2 ^ places ≤ divisor := by
        rw [Nat.succ_mul] at step
        nlinarith
      have many : 2 * 2 ^ places * floor ≤ n * 2 ^ places := by
        calc 2 * 2 ^ places * floor ≤ divisor * floor := Nat.mul_le_mul_right _ room
          _ ≤ n * 2 ^ places := by omega
      have : 2 * floor ≤ n := by
        refine Nat.le_of_mul_le_mul_right ?_ power
        calc 2 * floor * 2 ^ places = 2 * 2 ^ places * floor := by ring
          _ ≤ n * 2 ^ places := many
      omega
    · exact exact

/-- The bit behind a shifted quotient tells whether the remainder is half of the divisor. -/
theorem roundBit_quotient {n divisor k : Nat} (one : k ≤ 1)
    (up : (shifted (n / divisor) k (accuracyOfFraction (n % divisor) divisor)).roundBit = true) :
    divisor * 2 ^ k ≤ 2 * (n % (divisor * 2 ^ k)) := by
  obtain rfl | rfl : k = 0 ∨ k = 1 := by omega
  · change (ExtendedMantissa.ofMantissaAndAccuracy _ _).roundBit = true at up
    rw [pow_zero, Nat.mul_one]
    unfold accuracyOfFraction at up
    split_ifs at up with whole
    · cases up
    · cases order : compare (2 * (n % divisor)) divisor with
      | lt => rw [order] at up; cases up
      | eq => exact (compare_eq_iff_eq.mp order).ge
      | gt => exact (compare_gt_iff_gt.mp order).le
  · change ((ExtendedMantissa.ofMantissaAndAccuracy _ _).mantissa % 2 != 0) = true at up
    have odd : n / divisor % 2 = 1 := by
      have same := shifted_mantissa (n / divisor) 0 (accuracyOfFraction (n % divisor) divisor)
      rw [pow_zero, Nat.div_one] at same
      change (ExtendedMantissa.ofMantissaAndAccuracy _ _).mantissa = _ at same
      rw [same, bne_iff_ne] at up
      omega
    rw [pow_one, Nat.mod_mul, odd]
    omega

theorem magnitude_places (m places : Nat) : magnitude m (-(places : Int)) = m / 2 ^ places := by
  unfold magnitude
  split_ifs with whole
  · obtain rfl : places = 0 := by omega
    simp
  · rw [Nat.shiftRight_eq_div_pow]
    congr 2
    omega

theorem magnitude_carried (m places : Nat) :
    magnitude m (-(places : Int) + 1) = m * 2 / 2 ^ places := by
  cases places with
  | zero => simp [magnitude, Nat.shiftLeft_eq]
  | succ places =>
      have exponent : -((places + 1 : Nat) : Int) + 1 = -(places : Int) := by omega
      rw [exponent, magnitude_places, Nat.pow_succ, Nat.mul_div_mul_right _ _ (by decide)]

theorem log2_quotient {m m' : Nat} (normal : m.log2 = 52) (normal' : m'.log2 = 52)
    (pos : 0 < m) (pos' : 0 < m') :
    ∃ k, k ≤ 1 ∧ (m * 2 ^ 53 / m').log2 = 52 + k ∧ m * 2 ^ 53 / m' ≠ 0 := by
  obtain ⟨above, below⟩ := (Nat.log2_eq_iff (Nat.ne_of_gt pos)).mp normal
  obtain ⟨above', below'⟩ := (Nat.log2_eq_iff (Nat.ne_of_gt pos')).mp normal'
  have low : 2 ^ 52 ≤ m * 2 ^ 53 / m' := by
    rw [Nat.le_div_iff_mul_le pos']
    exact Nat.mul_le_mul above below'.le
  have high : m * 2 ^ 53 / m' < 2 ^ 54 := by
    rw [Nat.div_lt_iff_lt_mul pos']
    omega
  have nonzero : m * 2 ^ 53 / m' ≠ 0 := by omega
  have least := (Nat.le_log2 nonzero).mpr low
  have most := (Nat.log2_lt nonzero).mpr high
  exact ⟨(m * 2 ^ 53 / m').log2 - 52, by omega, by omega, nonzero⟩

/-- What dividing two small integers gives, but for its sign. -/
theorem div_magnitude {n divisor k k' : Nat} (positive : 0 < divisor) (small : n < 2 ^ 53)
    (pos : 0 < n * 2 ^ k) (pos' : 0 < divisor * 2 ^ k') (normal : (n * 2 ^ k).log2 = 52)
    (normal' : (divisor * 2 ^ k').log2 = 52) (s s' : Sign) :
    ∃ m e, ∃ pos'' : 0 < m, (Float.Model.pack (UnpackedFloat.div .binary64
      (.finite s (n * 2 ^ k) (-k) pos) (.finite s' (divisor * 2 ^ k') (-k') pos'))).unpack =
        .finite (s / s') m e pos'' ∧ m.log2 = 52 ∧ magnitude m e = n / divisor := by
  have short {c k : Nat} (pos : 0 < c * 2 ^ k) (normal : (c * 2 ^ k).log2 = 52) : k ≤ 52 := by
    obtain ⟨-, below⟩ := (Nat.log2_eq_iff (Nat.ne_of_gt pos)).mp normal
    have : 2 ^ k < 2 ^ 53 :=
      lt_of_le_of_lt (Nat.le_mul_of_pos_left _ (Nat.pos_of_mul_pos_right pos)) below
    have := (Nat.pow_lt_pow_iff_right (by decide)).mp this
    omega
  have first := short pos normal
  have second := short pos' normal'
  obtain ⟨t, one, wide, nonzero⟩ := log2_quotient normal normal' pos pos'
  have target : Format.binary64.targetExponent (totalExponent (n * 2 ^ k) (-k) -
      totalExponent (divisor * 2 ^ k') (-k')) = (k' : Int) - k - 53 := by
    change max (((n * 2 ^ k).log2 : Int) + 1 + -k -
      (((divisor * 2 ^ k').log2 : Int) + 1 + -k') - 53) (-1074) = _
    rw [normal, normal']
    omega
  have core : divCore .binary64 (n * 2 ^ k) (-k) (divisor * 2 ^ k') (-k') =
      (n * 2 ^ k * 2 ^ 53 / (divisor * 2 ^ k'), (k' : Int) - k - 53,
        accuracyOfFraction (n * 2 ^ k * 2 ^ 53 % (divisor * 2 ^ k')) (divisor * 2 ^ k')) := by
    have least : min (-(k : Int) - -(k' : Int)) ((k' : Int) - k - 53) = (k' : Int) - k - 53 := by
      omega
    have amount : (-(k : Int) - -(k' : Int) - ((k' : Int) - k - 53)).toNat = 53 := by omega
    unfold divCore
    simp only [target, least, amount, Nat.shiftLeft_eq]
  -- All is reckoned in the last place of the result.
  obtain ⟨places, sum⟩ : ∃ places, k + 53 = places + (k' + t) := ⟨k + 53 - (k' + t), by omega⟩
  have numerator : n * 2 ^ k * 2 ^ 53 = n * 2 ^ places * 2 ^ (k' + t) := by
    rw [Nat.mul_assoc, ← Nat.pow_add, sum, Nat.pow_add, Nat.mul_assoc]
  have denominator : divisor * 2 ^ k' * 2 ^ t = divisor * 2 ^ (k' + t) := by
    rw [Nat.mul_assoc, ← Nat.pow_add]
  have power := Nat.two_pow_pos (k' + t)
  have floor : n * 2 ^ k * 2 ^ 53 / (divisor * 2 ^ k') / 2 ^ t = n * 2 ^ places / divisor := by
    rw [Nat.div_div_eq_div_mul, denominator, numerator, Nat.mul_div_mul_right _ _ power]
  obtain ⟨m, e, pos'', rounded, normal'', value⟩ := @round_normal (s / s') _ t ((k' : Int) - k - 53)
    (accuracyOfFraction (n * 2 ^ k * 2 ^ 53 % (divisor * 2 ^ k')) (divisor * 2 ^ k')) wide nonzero
    (by omega)
  have long : 2 ^ 52 ≤ n * 2 ^ places / divisor := by
    rw [← floor, Nat.le_div_iff_mul_le (Nat.two_pow_pos t), ← Nat.pow_add, ← wide]
    exact Nat.log2_self_le nonzero
  have near := roundedMantissa_eq (shifted (n * 2 ^ k * 2 ^ 53 / (divisor * 2 ^ k')) t
    (accuracyOfFraction (n * 2 ^ k * 2 ^ 53 % (divisor * 2 ^ k')) (divisor * 2 ^ k')))
  rw [shifted_mantissa, floor] at near
  have integral := rounded_div positive small long (near.imp_right fun ⟨same, up⟩ => ⟨same, by
    have half := roundBit_quotient one up
    rw [denominator, numerator, Nat.mul_mod_mul_right, ← Nat.mul_assoc] at half
    exact Nat.le_of_mul_le_mul_right half power⟩)
  have exponent : (k' : Int) - k - 53 + t = -places := by omega
  have shape : UnpackedFloat.div .binary64 (.finite s (n * 2 ^ k) (-k) pos)
      (.finite s' (divisor * 2 ^ k') (-k') pos') = .finite (s / s') m e pos'' := by
    unfold UnpackedFloat.div
    simp only [core]
    exact rounded
  refine ⟨m, e, pos'', ?_, normal'', ?_⟩
  · rw [shape]
    exact unpack_pack normal'' (by omega) (by omega)
  · rw [← integral]
    rw [exponent] at value
    obtain ⟨rfl, rfl⟩ | ⟨rfl, double⟩ := value
    · exact magnitude_places _ _
    · rw [← double]
      exact magnitude_carried _ _

theorem natAbs_tdiv_sign (nonzero : i ≠ 0) (nonzero' : j ≠ 0) :
    (signOf i / signOf j = .negative ∧ i.tdiv j = -((i.natAbs / j.natAbs : Nat) : Int)) ∨
      (signOf i / signOf j = .positive ∧ i.tdiv j = ((i.natAbs / j.natAbs : Nat) : Int)) := by
  obtain ⟨n, rfl | rfl⟩ := Int.eq_nat_or_neg i <;>
    obtain ⟨n', rfl | rfl⟩ := Int.eq_nat_or_neg j <;>
    simp only [Int.natAbs_neg, Int.natAbs_natCast, Int.neg_tdiv, Int.tdiv_neg, neg_neg,
      Int.ofNat_tdiv] <;>
    unfold signOf
  · rw [if_neg (by omega), if_neg (by omega)]
    exact .inr ⟨rfl, trivial⟩
  · rw [if_neg (by omega), if_pos (by omega)]
    exact .inl ⟨rfl, trivial⟩
  · rw [if_pos (by omega), if_neg (by omega)]
    exact .inl ⟨rfl, trivial⟩
  · rw [if_pos (by omega), if_pos (by omega)]
    exact .inr ⟨rfl, trivial⟩

/-- The integer part of a quotient of two small integers is that of the exact quotient. -/
theorem Equals.div (first : Equals d i) (second : Equals d' j) (small : i.natAbs < 2 ^ 53)
    (small' : j.natAbs < 2 ^ 53) (nonzero' : j ≠ 0) :
    (d / d').isNaN = false ∧ (d / d').isInf = false ∧ toInteger (d / d') = i.tdiv j := by
  have quotient : (d / d').toModel.unpack = (Float.Model.pack (UnpackedFloat.div .binary64
      d.toModel.unpack d'.toModel.unpack)).unpack := rfl
  obtain ⟨k', pos', unpacked', normal'⟩ := second.small nonzero' small'
  by_cases nonzero : i = 0
  · subst nonzero
    obtain ⟨s, unpacked⟩ := first.zero
    rw [unpacked, unpacked'] at quotient
    have zero : Equals (d / d') 0 := .inl ⟨rfl, _, quotient.trans unpack_pack_zero⟩
    rw [Int.zero_tdiv]
    exact ⟨zero.finite.1, zero.finite.2, zero.toInteger_eq⟩
  obtain ⟨k, pos, unpacked, normal⟩ := first.small nonzero small
  rw [unpacked, unpacked'] at quotient
  obtain ⟨m, e, pos'', rounded, normal'', value⟩ := div_magnitude (by omega) small pos pos' normal
    normal' (signOf i) (signOf j)
  have result := quotient.trans rounded
  obtain ⟨negative, positive⟩ := truncate_finite result normal''
  have number : (d / d').isNaN = false := congrArg UnpackedFloat.isNaN result
  have finite : (d / d').isInf = false := congrArg UnpackedFloat.isInf result
  have bound : i.natAbs / j.natAbs < 2 ^ 53 := lt_of_le_of_lt (Nat.div_le_self _ _) small
  have truncated : truncate (d / d') = i.tdiv j := by
    rw [value] at negative positive
    obtain ⟨sign, same⟩ | ⟨sign, same⟩ := natAbs_tdiv_sign nonzero nonzero'
    · rw [negative sign, same]
    · rw [positive sign, same]
  have fits : Bits.clamp64 (i.tdiv j) = i.tdiv j := by
    unfold Bits.clamp64 Bits.least64 Bits.greatest64
    obtain ⟨-, same⟩ | ⟨-, same⟩ := natAbs_tdiv_sign nonzero nonzero' <;> omega
  refine ⟨number, finite, ?_⟩
  rw [toInteger, number, finite, if_neg Bool.false_ne_true, if_neg Bool.false_ne_true, truncated,
    fits]

end Homoicon.Decimal
