import Mathlib.Data.BitVec
import Mathlib.Data.Nat.Log
import Mathlib.Tactic.Positivity

/-!
# Fields of machine words

A field at the top of a word and a signed one at its bottom, read from the word
that an integer leaves, the numbers that a 53-bit significand can hold, and the
arithmetic of unsigned words.
-/

namespace GalaLua.Library.Words

-- ---------------------------------------------------------------------------
-- Integers as doubles
-- ---------------------------------------------------------------------------

/-- Division by a power of two, rounded to the nearest, ties to even. -/
def roundDiv (n k : Nat) : Nat :=
  let q := n / 2 ^ k
  let r := n % 2 ^ k
  if 2 * r < 2 ^ k ∨ (2 * r = 2 ^ k ∧ q % 2 = 0) then q else q + 1

/-- The double next to an integer. -/
def double (z : Int) : Int :=
  let k := z.natAbs.log2 + 1 - 53
  z.sign * (roundDiv z.natAbs k * 2 ^ k : Nat)

theorem double_of_dvd {z : Int} (h : 2 ^ (z.natAbs.log2 + 1 - 53) ∣ z.natAbs) : double z = z := by
  have hround : roundDiv z.natAbs (z.natAbs.log2 + 1 - 53) * 2 ^ (z.natAbs.log2 + 1 - 53) = z.natAbs := by
    have hpos : 0 < 2 ^ (z.natAbs.log2 + 1 - 53) := Nat.two_pow_pos _
    simp only [roundDiv, Nat.mod_eq_zero_of_dvd h, mul_zero, hpos, true_or, if_true]
    exact Nat.div_mul_cancel h
  simp only [double, hround]
  exact Int.sign_mul_natAbs z

theorem double_of_small {z : Int} (h : z.natAbs < 2 ^ 53) : double z = z := by
  have hk : z.natAbs.log2 + 1 - 53 = 0 := by
    rcases Nat.eq_zero_or_pos z.natAbs with h0 | hpos
    · rw [h0]
      rfl
    · have := (Nat.log2_lt hpos.ne').mpr h
      omega
  have hround : roundDiv z.natAbs 0 = z.natAbs := by
    simp only [roundDiv, pow_zero, Nat.div_one, Nat.mod_one, mul_zero, zero_lt_one, true_or, if_true]
  simp only [double, hk, hround, pow_zero, mul_one]
  exact Int.sign_mul_natAbs z

/-- A whole double as a 64-bit integer of x86-64: one that is out of range becomes
the lowest. -/
def checkInteger (x : Int) : Int := if -2 ^ 63 ≤ x ∧ x < 2 ^ 63 then x else -2 ^ 63

theorem checkInteger_of_small {x : Int} (h : x.natAbs < 2 ^ 53) : checkInteger x = x :=
  if_pos (by omega)

-- ---------------------------------------------------------------------------
-- Fields
-- ---------------------------------------------------------------------------

variable {w k : Nat}

theorem toNat_shiftRight (x : BitVec w) : (x >>> k).toNat = x.toNat / 2 ^ k := by
  rw [BitVec.toNat_ushiftRight, Nat.shiftRight_eq_div_pow]

theorem mask_shiftRight {mask : BitVec w} (h : mask >>> k = BitVec.allOnes w >>> k) (x : BitVec w) :
    (mask &&& x) >>> k = x >>> k := by
  rw [BitVec.ushiftRight_and_distrib, h, ← BitVec.ushiftRight_and_distrib, BitVec.allOnes_and]

theorem mask_setWidth {mask : BitVec w} (h : mask.setWidth k = BitVec.allOnes k) (x : BitVec w) :
    (mask &&& x).setWidth k = x.setWidth k := by
  rw [BitVec.setWidth_and, h, BitVec.allOnes_and]

/-- The field above the lowest `k` bits of an integer of `k + w` bits. -/
theorem toNat_ofInt_shiftRight (z : Int) :
    ((BitVec.ofInt (k + w) z >>> k).toNat : Int) = z / 2 ^ k % 2 ^ w := by
  have hk : (0 : Int) < 2 ^ k := Int.pow_pos (by decide)
  have hkw : ((2 ^ (k + w) : Nat) : Int) = 2 ^ k * 2 ^ w := by
    push_cast
    exact pow_add ..
  have hnn : 0 ≤ z % (2 ^ k * 2 ^ w) := Int.emod_nonneg _ (by positivity)
  rw [toNat_shiftRight, BitVec.toNat_ofInt, hkw, Int.natCast_ediv, Int.toNat_of_nonneg hnn]
  push_cast
  rw [Int.emod_def, Int.emod_def, mul_assoc, Int.sub_mul_ediv_left _ _ hk.ne',
    Int.ediv_ediv_of_nonneg hk.le]

theorem toInt_ofInt_setWidth (h : k ≤ w) (z : Int) :
    ((BitVec.ofInt w z).setWidth k).toInt = z.bmod (2 ^ k) := by
  have hdvd : ((2 ^ k : Nat) : Int) ∣ ((2 ^ w : Nat) : Int) :=
    Int.natCast_dvd_natCast.mpr (Nat.pow_dvd_pow 2 h)
  have hnn : 0 ≤ z % ((2 ^ w : Nat) : Int) := Int.emod_nonneg _ (by positivity)
  rw [BitVec.toInt_setWidth, BitVec.toNat_ofInt, Int.toNat_of_nonneg hnn, Int.bmod_def, Int.bmod_def,
    Int.emod_emod_of_dvd z hdvd]

-- ---------------------------------------------------------------------------
-- Unsigned arithmetic
-- ---------------------------------------------------------------------------

def plus (w a b : Nat) : Nat := (a + b) % 2 ^ w

def minus (w a b : Nat) : Nat := (a + (2 ^ w - b % 2 ^ w)) % 2 ^ w

theorem plus_of_lt {a b : Nat} (h : a + b < 2 ^ w) : plus w a b = a + b := Nat.mod_eq_of_lt h

theorem minus_of_le {a b : Nat} (hb : b ≤ a) (ha : a < 2 ^ w) : minus w a b = a - b := by
  have hsum : a + (2 ^ w - b) = a - b + 2 ^ w := by omega
  rw [minus, Nat.mod_eq_of_lt (a := b) (by omega), hsum, Nat.add_mod_right, Nat.mod_eq_of_lt (by omega)]

end GalaLua.Library.Words
