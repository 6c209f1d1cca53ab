import Mathlib.Data.BitVec

/-!
# One's complement sums

The sum of 16-bit words with the carries added back in, which is the sum modulo
65535 with 65535 in the place of 0. Replacing one word changes it, unless 0 and
65535 stand for each other (`fold_set_ne`).
-/

namespace GalaLua.Library.OnesComplement

/-- The sum of the words as a number. -/
def total (words : List (BitVec 16)) : Nat := (words.map BitVec.toNat).sum

/-- `n` with its carries added back in. -/
def fold (n : Nat) : Nat := if n = 0 then 0 else (n - 1) % 65535 + 1

/-- Adding the upper half of 32 bits to the lower one twice leaves no carry. -/
theorem fold_carries {n : Nat} (h : n < 2 ^ 32) :
    (n / 65536 + n % 65536 + (n / 65536 + n % 65536) / 65536) % 65536 = fold n := by
  rcases Nat.eq_zero_or_pos n with rfl | hpos
  · rfl
  obtain ⟨q, r, hn, hr, hq⟩ : ∃ q r, n = 65535 * q + (q + r) ∧ r < 65536 ∧ q < 65536 :=
    ⟨n / 65536, n % 65536, by omega, by omega, by omega⟩
  have hdiv : n / 65536 = q := by omega
  have hmod : n % 65536 = r := by omega
  have hfold : (n - 1) % 65535 = (q + r - 1) % 65535 := by
    rw [show n - 1 = q + r - 1 + 65535 * q by omega, Nat.add_mul_mod_self_left]
  rw [hdiv, hmod, fold, if_neg (by omega), hfold]
  rcases Nat.lt_or_ge (q + r) 65536 with hlt | hge
  · rw [Nat.div_eq_of_lt hlt, Nat.mod_eq_of_lt (a := q + r - 1) (by omega)]
    omega
  · have hcarry : (q + r) / 65536 = 1 := by omega
    have hwrap : (q + r - 1) % 65535 = q + r - 65536 := by omega
    rw [hcarry, hwrap]
    omega

theorem fold_lt (n : Nat) : fold n < 65536 := by
  unfold fold
  split <;> omega

theorem foldl_toNat (words : List (BitVec 16)) (n : BitVec 32)
    (h : n.toNat + 65535 * words.length < 2 ^ 32) :
    (words.foldl (fun n w => n + w.setWidth 32) n).toNat = n.toNat + total words := by
  induction words generalizing n with
  | nil => rfl
  | cons w words ih =>
    have hw := w.isLt
    rw [List.length_cons] at h
    have hn : (n + w.setWidth 32).toNat = n.toNat + w.toNat := by
      rw [BitVec.toNat_add, BitVec.toNat_setWidth, Nat.mod_eq_of_lt (a := w.toNat) (by omega),
        Nat.mod_eq_of_lt (by omega)]
    rw [List.foldl_cons, ih _ (by omega), hn]
    simp only [total, List.map_cons, List.sum_cons]
    omega

theorem total_set (words : List (BitVec 16)) {i : Nat} (hi : i < words.length) (w : BitVec 16) :
    total (words.set i w) + words[i].toNat = total words + w.toNat := by
  induction words generalizing i with
  | nil => cases hi
  | cons v words ih =>
    cases i with
    | zero =>
      simp only [total, List.set_cons_zero, List.map_cons, List.sum_cons, List.getElem_cons_zero]
      omega
    | succ i =>
      have := ih (Nat.lt_of_succ_lt_succ hi)
      simp only [total, List.set_cons_succ, List.map_cons, List.sum_cons,
        List.getElem_cons_succ] at this ⊢
      omega

theorem le_total {words : List (BitVec 16)} {w : BitVec 16} (h : w ∈ words) :
    w.toNat ≤ total words := by
  obtain ⟨before, after, rfl⟩ := List.append_of_mem h
  simp only [total, List.map_append, List.map_cons, List.sum_append, List.sum_cons]
  omega

/-- Neither word is the other, nor are they 0 and 65535. -/
def Differ (v w : BitVec 16) : Prop := v ≠ w ∧ ¬(v = 0 ∧ w = 0xFFFF) ∧ ¬(v = 0xFFFF ∧ w = 0)

instance (v w : BitVec 16) : Decidable (Differ v w) := inferInstanceAs (Decidable (_ ∧ _ ∧ _))

theorem Differ.mod_ne {v w : BitVec 16} (h : Differ v w) :
    v.toNat % 65535 ≠ w.toNat % 65535 := by
  obtain ⟨hne, h₀, h₁⟩ := h
  have hne' : v.toNat ≠ w.toNat := fun heq => hne (BitVec.eq_of_toNat_eq heq)
  have h₀' : ¬(v.toNat = 0 ∧ w.toNat = 65535) := fun ⟨hv, hw⟩ =>
    h₀ ⟨BitVec.eq_of_toNat_eq hv, BitVec.eq_of_toNat_eq hw⟩
  have h₁' : ¬(v.toNat = 65535 ∧ w.toNat = 0) := fun ⟨hv, hw⟩ =>
    h₁ ⟨BitVec.eq_of_toNat_eq hv, BitVec.eq_of_toNat_eq hw⟩
  have hv := v.isLt
  have hw := w.isLt
  omega

theorem fold_set_ne (words : List (BitVec 16)) {i : Nat} (hi : i < words.length) {w : BitVec 16}
    (hd : Differ words[i] w) (hpos : 0 < total words) (hpos' : 0 < total (words.set i w)) :
    fold (total (words.set i w)) ≠ fold (total words) := by
  have hset := total_set words hi w
  have hmod := hd.mod_ne
  unfold fold
  rw [if_neg (by omega), if_neg (by omega)]
  omega

end GalaLua.Library.OnesComplement
