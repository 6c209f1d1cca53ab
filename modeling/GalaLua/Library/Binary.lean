import Mathlib.Data.Int.Log
import Mathlib.Data.Rat.Floor
import Mathlib.Tactic.FieldSimp
import Mathlib.Tactic.Linarith
import Mathlib.Tactic.NormNum
import Mathlib.Tactic.Positivity

/-!
# Binary interchange formats

The bits of a number in a format with a sign, a biased exponent and a fraction,
and the number that bits stand for. A number that the format holds exactly is
what its bits stand for: `value_bits`.
-/

namespace GalaLua.Library

/-- A format, by the widths of its exponent and of its fraction. -/
structure Binary where
  exponent : Nat
  fraction : Nat
  one_lt : 1 < exponent

namespace Binary

theorem one_lt_eight : 1 < 8 := by decide

theorem one_lt_eleven : 1 < 11 := by decide

def single : Binary := ⟨8, 23, one_lt_eight⟩

def double : Binary := ⟨11, 52, one_lt_eleven⟩

variable (F : Binary)

def bias : Nat := 2 ^ (F.exponent - 1) - 1

/-- The exponent of the least normal number. -/
def least : Int := 1 - F.bias

-- ---------------------------------------------------------------------------
-- The number that bits stand for
-- ---------------------------------------------------------------------------

def negative (b : Nat) : Bool := b / 2 ^ (F.exponent + F.fraction) % 2 == 1

def biased (b : Nat) : Nat := b / 2 ^ F.fraction % 2 ^ F.exponent

def rest (b : Nat) : Nat := b % 2 ^ F.fraction

/-- The biased exponent of the infinities and of what is not a number. -/
def special : Nat := 2 ^ F.exponent - 1

def magnitude (b : Nat) : ℚ :=
  if F.biased b = 0 then F.rest b * (2 : ℚ) ^ (F.least - F.fraction)
  else (2 ^ F.fraction + F.rest b : Nat) * (2 : ℚ) ^ (F.biased b - F.bias - F.fraction : Int)

/-- What finite bits stand for. -/
def value (b : Nat) : ℚ := if F.negative b then -F.magnitude b else F.magnitude b

-- ---------------------------------------------------------------------------
-- The bits of a number
-- ---------------------------------------------------------------------------

/-- The exponent of a number, the one of the subnormal numbers if it is less. -/
def scale (x : ℚ) : Int := if x = 0 then F.least else max (Int.log 2 |x|) F.least

def significand (x : ℚ) : ℚ := |x| * (2 : ℚ) ^ (F.fraction - F.scale x)

/-- The format holds the number as it is. -/
def Exact (x : ℚ) : Prop := (F.significand x).den = 1 ∧ F.scale x ≤ F.bias

instance (x : ℚ) : Decidable (F.Exact x) := inferInstanceAs (Decidable (_ ∧ _))

def signBit (x : ℚ) : Nat := if x < 0 then 2 ^ (F.exponent + F.fraction) else 0

/-- The exponent and the integer bit of the significand are added up, so that
the exponent of a normal number is one more than `scale` says. -/
def bits (x : ℚ) : Nat :=
  F.signBit x + ((F.scale x + F.bias - 1).toNat * 2 ^ F.fraction + (F.significand x).num.toNat)

/-- The whole number next to a number that is not negative, the even one of two. -/
def roundEven (y : ℚ) : Int :=
  let r := y - ⌊y⌋
  if r < 1 / 2 ∨ (r = 1 / 2 ∧ ⌊y⌋ % 2 = 0) then ⌊y⌋ else ⌊y⌋ + 1

/-- The number of the format next to a number, or nothing if that is an infinity. -/
def nearest (x : ℚ) : Option ℚ :=
  let m := roundEven (F.significand x)
  let y := m * (2 : ℚ) ^ (F.scale x - F.fraction)
  if y < (2 : ℚ) ^ (F.bias + 1) then some (if x < 0 then -y else y) else none

-- ---------------------------------------------------------------------------
-- Exact numbers
-- ---------------------------------------------------------------------------

theorem two_mul_bias : 2 * F.bias + 2 = 2 ^ F.exponent := by
  have hsucc : 2 ^ F.exponent = 2 * 2 ^ (F.exponent - 1) := by
    rw [← Nat.pow_succ']
    congr 1
    have := F.one_lt
    omega
  have hpos : 0 < 2 ^ (F.exponent - 1) := Nat.two_pow_pos _
  unfold bias
  omega

theorem least_le_scale (x : ℚ) : F.least ≤ F.scale x := by
  unfold scale
  split
  · exact le_refl _
  · exact le_max_right ..

theorem significand_nonneg (x : ℚ) : 0 ≤ F.significand x :=
  mul_nonneg (abs_nonneg x) (zpow_nonneg zero_le_two _)

theorem significand_lt (x : ℚ) : F.significand x < 2 ^ (F.fraction + 1) := by
  rcases eq_or_ne x 0 with rfl | hx
  · simp only [significand, abs_zero, zero_mul]
    positivity
  · have hlog : |x| < (2 : ℚ) ^ (Int.log 2 |x| + 1) := Int.lt_zpow_succ_log_self (by decide) _
    have hle : Int.log 2 |x| ≤ F.scale x := by
      rw [scale, if_neg hx]
      exact le_max_left ..
    calc F.significand x < (2 : ℚ) ^ (Int.log 2 |x| + 1) * (2 : ℚ) ^ (F.fraction - F.scale x) :=
          mul_lt_mul_of_pos_right hlog (zpow_pos two_pos _)
      _ = (2 : ℚ) ^ (Int.log 2 |x| + 1 + (F.fraction - F.scale x)) := (zpow_add₀ two_ne_zero ..).symm
      _ ≤ (2 : ℚ) ^ ((F.fraction + 1 : Nat) : Int) := zpow_le_zpow_right₀ one_le_two (by push_cast; omega)
      _ = 2 ^ (F.fraction + 1) := zpow_natCast ..

theorem le_significand {x : ℚ} (h : F.scale x ≠ F.least) : 2 ^ F.fraction ≤ F.significand x := by
  have hx : x ≠ 0 := fun hx => h (if_pos hx)
  have hscale : F.scale x = Int.log 2 |x| := by
    have hmax : F.scale x = max (Int.log 2 |x|) F.least := if_neg hx
    omega
  have hlog : (2 : ℚ) ^ Int.log 2 |x| ≤ |x| := Int.zpow_log_le_self (by decide) (abs_pos.mpr hx)
  calc (2 : ℚ) ^ F.fraction = (2 : ℚ) ^ (Int.log 2 |x|) * (2 : ℚ) ^ (F.fraction - F.scale x) := by
        rw [← zpow_add₀ two_ne_zero, hscale, add_sub_cancel, zpow_natCast]
    _ ≤ F.significand x := mul_le_mul_of_nonneg_right hlog (zpow_nonneg zero_le_two _)

/-- A number of the format as its significand at its exponent. -/
structure Parts (x : ℚ) (k m : Nat) : Prop where
  exponent : F.scale x + F.bias - 1 = k
  significand : F.significand x = m
  lt : m < 2 ^ (F.fraction + 1)
  normal : k = 0 ∨ 2 ^ F.fraction ≤ m
  room : k + 2 < 2 ^ F.exponent

variable {F} {x : ℚ}

theorem Exact.parts (h : F.Exact x) :
    F.Parts x (F.scale x + F.bias - 1).toNat (F.significand x).num.toNat := by
  have hleast := F.least_le_scale x
  have hbias := F.two_mul_bias
  obtain ⟨hden, hscale⟩ := h
  have hsig : F.significand x = (F.significand x).num.toNat := by
    have hnum : (((F.significand x).num.toNat : Int) : ℚ) = (F.significand x).num :=
      congrArg _ (Int.toNat_of_nonneg (Rat.num_nonneg.mpr (F.significand_nonneg x)))
    rw [← Int.cast_natCast, hnum]
    exact ((Rat.den_eq_one_iff _).mp hden).symm
  unfold least at hleast
  refine ⟨by omega, hsig, ?_, ?_, by omega⟩
  · have hlt := F.significand_lt x
    rw [hsig] at hlt
    exact_mod_cast hlt
  · rcases eq_or_ne (F.scale x) F.least with heq | hne
    · left
      rw [heq]
      unfold least
      omega
    · right
      have hle := F.le_significand hne
      rw [hsig] at hle
      exact_mod_cast hle

theorem Parts.abs_eq {k m : Nat} (h : F.Parts x k m) : |x| = m * (2 : ℚ) ^ (F.scale x - F.fraction) := by
  have hzero : F.fraction - F.scale x + (F.scale x - F.fraction) = (0 : Int) := by omega
  rw [← h.significand, Binary.significand, mul_assoc, ← zpow_add₀ two_ne_zero, hzero, zpow_zero, mul_one]

section

variable {k m : Nat} (h : F.Parts x k m)
include h

theorem Parts.low_lt : k * 2 ^ F.fraction + m < 2 ^ (F.exponent + F.fraction) := by
  have hroom : (k + 2) * 2 ^ F.fraction ≤ 2 ^ F.exponent * 2 ^ F.fraction :=
    Nat.mul_le_mul_right _ h.room.le
  have hlt := h.lt
  rw [pow_succ] at hlt
  rw [pow_add]
  linarith

theorem Parts.negative_eq : F.negative (F.signBit x + (k * 2 ^ F.fraction + m)) = decide (x < 0) := by
  have hlow := h.low_lt
  unfold negative signBit
  split
  · rename_i hx
    rw [Nat.add_div_left _ (Nat.two_pow_pos _), Nat.div_eq_of_lt hlow]
    simp [hx]
  · rename_i hx
    rw [Nat.zero_add, Nat.div_eq_of_lt hlow]
    simp [hx]

omit h in
theorem rest_eq : F.rest (F.signBit x + (k * 2 ^ F.fraction + m)) = m % 2 ^ F.fraction := by
  have hsign : 2 ^ F.fraction ∣ F.signBit x := by
    unfold signBit
    split
    · exact pow_dvd_pow 2 (Nat.le_add_left ..)
    · exact dvd_zero _
  obtain ⟨s, hs⟩ := hsign
  rw [rest, hs, ← Nat.add_assoc, Nat.add_mod, Nat.add_mod (2 ^ F.fraction * s)]
  simp

theorem Parts.biased_eq :
    F.biased (F.signBit x + (k * 2 ^ F.fraction + m)) = k + m / 2 ^ F.fraction := by
  have hpos : 0 < 2 ^ F.fraction := Nat.two_pow_pos _
  have hlow : (k * 2 ^ F.fraction + m) / 2 ^ F.fraction = k + m / 2 ^ F.fraction := by
    rw [Nat.add_comm, Nat.add_mul_div_right _ _ hpos, Nat.add_comm]
  have hlt : k + m / 2 ^ F.fraction < 2 ^ F.exponent := by
    rw [← hlow, Nat.div_lt_iff_lt_mul hpos, ← pow_add]
    exact h.low_lt
  unfold biased signBit
  split
  · rw [pow_add, Nat.mul_comm, Nat.mul_add_div hpos, hlow, Nat.add_mod_left, Nat.mod_eq_of_lt hlt]
  · rw [Nat.zero_add, hlow, Nat.mod_eq_of_lt hlt]

theorem Parts.magnitude_eq : F.magnitude (F.signBit x + (k * 2 ^ F.fraction + m)) = |x| := by
  have hexp := h.exponent
  rw [magnitude, h.biased_eq, rest_eq, h.abs_eq]
  rcases Nat.lt_or_ge m (2 ^ F.fraction) with hm | hm
  · -- a subnormal number, or zero
    have hk : k = 0 := h.normal.resolve_right (not_le.mpr hm)
    have hscale : F.scale x = F.least := by
      unfold least
      omega
    rw [Nat.div_eq_of_lt hm, hk, if_pos rfl, Nat.mod_eq_of_lt hm, hscale]
  · have hone : m / 2 ^ F.fraction = 1 := by
      have hlt := h.lt
      rw [pow_succ] at hlt
      exact Nat.div_eq_of_lt_le (by omega) (by omega)
    have hmod : 2 ^ F.fraction + m % 2 ^ F.fraction = m := by
      have := Nat.div_add_mod m (2 ^ F.fraction)
      rw [hone] at this
      omega
    rw [hone, if_neg (Nat.succ_ne_zero k), hmod]
    congr 2
    push_cast
    omega

end

theorem roundEven_natCast (m : Nat) : roundEven m = m := by
  have hfloor : ⌊(m : ℚ)⌋ = m := Int.floor_natCast m
  simp [roundEven, hfloor]

/-- A number of the format is not rounded. -/
theorem nearest_of_exact (h : F.Exact x) : F.nearest x = some x := by
  have hp := h.parts
  have hlt : |x| < (2 : ℚ) ^ (F.bias + 1) := by
    have hscale : F.scale x - F.fraction + (F.fraction + 1 : Nat) ≤ (F.bias + 1 : Nat) := by
      have := h.2
      push_cast
      omega
    calc |x| = (F.significand x).num.toNat * (2 : ℚ) ^ (F.scale x - F.fraction) := hp.abs_eq
      _ < (2 : ℚ) ^ (F.fraction + 1) * (2 : ℚ) ^ (F.scale x - F.fraction) := by
        refine mul_lt_mul_of_pos_right ?_ (zpow_pos two_pos _)
        exact_mod_cast hp.lt
      _ = (2 : ℚ) ^ (F.scale x - F.fraction + (F.fraction + 1 : Nat)) := by
        rw [mul_comm, ← zpow_natCast, ← zpow_add₀ two_ne_zero]
      _ ≤ (2 : ℚ) ^ ((F.bias + 1 : Nat) : Int) := zpow_le_zpow_right₀ one_le_two hscale
      _ = (2 : ℚ) ^ (F.bias + 1) := zpow_natCast ..
  have hround : (roundEven (F.significand x) : ℚ) * (2 : ℚ) ^ (F.scale x - F.fraction) = |x| := by
    rw [hp.significand, roundEven_natCast, hp.abs_eq, Int.cast_natCast]
  simp only [nearest, hround, if_pos hlt]
  by_cases hx : x < 0
  · rw [if_pos hx, abs_of_neg hx, neg_neg]
  · rw [if_neg hx, abs_of_nonneg (not_lt.mp hx)]

/-- The whole numbers up to the width of the significand. -/
theorem exact_natCast {n : Nat} (hn : n < 2 ^ (F.fraction + 1)) (hfit : F.fraction ≤ F.bias) : F.Exact n := by
  have hone : 1 ≤ F.bias := by
    have hbias := F.two_mul_bias
    have hfour : 2 ^ 2 ≤ 2 ^ F.exponent := Nat.pow_le_pow_right (by decide) F.one_lt
    omega
  rcases Nat.eq_zero_or_pos n with rfl | hpos
  · refine ⟨by simp [significand], ?_⟩
    rw [Nat.cast_zero, scale, if_pos rfl, least]
    omega
  have hlog : Nat.log 2 n ≤ F.fraction := Nat.lt_succ_iff.mp (Nat.log_lt_of_lt_pow hpos.ne' hn)
  have hscale : F.scale n = Nat.log 2 n := by
    have hne : (n : ℚ) ≠ 0 := Nat.cast_ne_zero.mpr hpos.ne'
    rw [scale, if_neg hne, Nat.abs_cast, Int.log_natCast, least]
    exact max_eq_left (by omega)
  have hsig : F.significand n = ((n * 2 ^ (F.fraction - Nat.log 2 n) : Nat) : ℚ) := by
    rw [significand, hscale, Nat.abs_cast, ← Nat.cast_sub hlog, zpow_natCast]
    push_cast
    rfl
  refine ⟨?_, ?_⟩
  · rw [hsig]
    exact Rat.den_natCast _
  · rw [hscale]
    omega

theorem value_bits (h : F.Exact x) : F.value (F.bits x) = x := by
  have hp := h.parts
  rw [value, bits, hp.negative_eq, hp.magnitude_eq]
  by_cases hx : x < 0
  · simp [hx, abs_of_neg hx]
  · simp [hx, abs_of_nonneg (not_lt.mp hx)]

theorem bits_lt (h : F.Exact x) : F.bits x < 2 ^ (1 + F.exponent + F.fraction) := by
  have hlow := h.parts.low_lt
  have hpow : 2 ^ (1 + F.exponent + F.fraction) = 2 * 2 ^ (F.exponent + F.fraction) := by
    rw [Nat.add_assoc, Nat.add_comm 1, Nat.pow_succ']
  rw [bits, signBit, hpow]
  split <;> omega

theorem biased_bits (h : F.Exact x) : F.biased (F.bits x) ≠ F.special := by
  have hp := h.parts
  have hroom := hp.room
  have hone : (F.significand x).num.toNat / 2 ^ F.fraction < 2 := by
    have hlt := hp.lt
    rw [Nat.div_lt_iff_lt_mul (Nat.two_pow_pos _), Nat.mul_comm, ← pow_succ]
    exact hlt
  rw [bits, hp.biased_eq]
  unfold special
  omega

end Binary

end GalaLua.Library
