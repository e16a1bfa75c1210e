/-!
# Numbers of a fixed width

Integers are held in 32 or 64 bits.  The bounds of these widths, and what becomes of a number that
is cut down to one of them.
-/

namespace Homoicon.Bits

/-- How many numbers 32 bits hold. -/
def count32 : Nat := 4294967296

/-- How many numbers 64 bits hold. -/
def count64 : Nat := 18446744073709551616

/-- The greatest signed number of 32 bits. -/
def greatest32 : Nat := 2147483647

/-- The greatest signed number of 64 bits. -/
def greatest64 : Nat := 9223372036854775807

/-- The least signed number of 64 bits. -/
def least64 : Int := -9223372036854775808

/-- Whether a number is a signed number of 64 bits. -/
def fits64 (i : Int) : Bool := least64 ≤ i && i ≤ greatest64

/-- A signed number of 32 bits; what does not fit wraps around. -/
def wrap32 (i : Int) : Int := Int.bmod i count32

/-- An unsigned number of 32 bits; what does not fit wraps around. -/
def unsigned32 (i : Int) : Nat := (i % count32).toNat

/-- An unsigned number of 64 bits; what does not fit wraps around. -/
def unsigned64 (i : Int) : Nat := (i % count64).toNat

/-- The signed number of 64 bits that is nearest. -/
def clamp64 (i : Int) : Int := max least64 (min greatest64 i)

theorem fits64_iff {i : Int} : fits64 i = true ↔ least64 ≤ i ∧ i ≤ greatest64 := by
  simp [fits64]

theorem wrap32_of_le {i : Int} (low : -2147483648 ≤ i) (high : i ≤ greatest32) : wrap32 i = i :=
  Int.bmod_eq_of_le (by simpa [count32] using low)
    (by simp only [count32, greatest32] at high ⊢; omega)

theorem unsigned32_of_lt {n : Nat} (low : n < count32) : unsigned32 n = n := by
  have whole : (n : Int) % count32 = n := Int.emod_eq_of_lt (Int.natCast_nonneg n) (mod_cast low)
  rw [unsigned32, whole, Int.toNat_natCast]

end Homoicon.Bits
