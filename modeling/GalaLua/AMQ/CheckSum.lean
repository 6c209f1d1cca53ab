import GalaLua.AMQ.Header
import GalaLua.Library.OnesComplement
import Mathlib.Data.List.GetD

/-!
# The checksum of the header

The checksum is computed over the header with all bits of `_CheckSum` set, and
`Check` computes it over a copy that has them set again. A header that differs
from the written one in one word, other than 0 for 65535, has another checksum
or another `_CheckSum`.
-/

namespace GalaLua.AMQ

open Library.OnesComplement

-- ---------------------------------------------------------------------------
-- Words in parts
-- ---------------------------------------------------------------------------

theorem toNat_append {n m : Nat} (x : BitVec n) (y : BitVec m) :
    (x ++ y).toNat = x.toNat * 2 ^ m + y.toNat := by
  rw [BitVec.toNat_append, ← Nat.shiftLeft_add_eq_or_of_lt y.isLt, Nat.shiftLeft_eq]

theorem upper_append {n m : Nat} (x : BitVec n) (y : BitVec m) :
    ((x ++ y) >>> m).setWidth n = x := by
  apply BitVec.eq_of_toNat_eq
  rw [BitVec.toNat_setWidth, BitVec.toNat_ushiftRight, toNat_append, Nat.shiftRight_eq_div_pow,
    Nat.add_comm, Nat.add_mul_div_right _ _ (Nat.two_pow_pos m), Nat.div_eq_of_lt y.isLt,
    Nat.zero_add, Nat.mod_eq_of_lt x.isLt]

theorem lower_append {n m : Nat} (x : BitVec n) (y : BitVec m) : (x ++ y).setWidth m = y := by
  apply BitVec.eq_of_toNat_eq
  rw [BitVec.toNat_setWidth, toNat_append, Nat.add_comm, Nat.add_mul_mod_self_right,
    Nat.mod_eq_of_lt y.isLt]

theorem append_parts (n : BitVec 32) : (n >>> 16).setWidth 16 ++ n.setWidth 16 = n := by
  apply BitVec.eq_of_toNat_eq
  have hn := n.isLt
  rw [toNat_append, BitVec.toNat_setWidth, BitVec.toNat_setWidth, BitVec.toNat_ushiftRight,
    Nat.shiftRight_eq_div_pow]
  omega

-- ---------------------------------------------------------------------------
-- The sum
-- ---------------------------------------------------------------------------

theorem mqCheckSum_toNat {words : List (BitVec 16)} (h : words.length ≤ 65537) :
    (mqCheckSum words none).toNat = 65535 - fold (total words) := by
  have hsum := foldl_toNat words 0#32 (by simp only [BitVec.toNat_ofNat]; omega)
  rw [BitVec.toNat_ofNat, Nat.zero_mod, Nat.zero_add] at hsum
  have hlt : total words < 2 ^ 32 := hsum ▸ BitVec.isLt _
  have hfold := fold_carries hlt
  simp only [mqCheckSum, BitVec.ofNat_eq_ofNat]
  generalize words.foldl (fun n w => n + w.setWidth 32) 0#32 = n at hsum
  have hcarry : ((n >>> 16) + (n &&& 0xFFFF#32)).toNat = total words / 65536 + total words % 65536 := by
    rw [BitVec.toNat_add, BitVec.toNat_ushiftRight, BitVec.toNat_and, hsum, Nat.shiftRight_eq_div_pow]
    rw [show (0xFFFF#32).toNat = 2 ^ 16 - 1 from rfl, Nat.and_two_pow_sub_one_eq_mod]
    exact Nat.mod_eq_of_lt (by omega)
  rw [BitVec.toNat_not, BitVec.toNat_setWidth, BitVec.toNat_add, BitVec.toNat_ushiftRight, hcarry,
    Nat.shiftRight_eq_div_pow, Nat.mod_eq_of_lt (b := 2 ^ 32) (by omega)]
  rw [show 2 ^ 16 = 65536 from rfl, hfold]

theorem mqCheckSum_injective {ws ws' : List (BitVec 16)} (h : ws.length ≤ 65537)
    (h' : ws'.length ≤ 65537) (heq : mqCheckSum ws none = mqCheckSum ws' none) :
    fold (total ws) = fold (total ws') := by
  have hnat := congrArg BitVec.toNat heq
  rw [mqCheckSum_toNat h, mqCheckSum_toNat h'] at hnat
  have := fold_lt (total ws)
  have := fold_lt (total ws')
  omega

theorem checkSumOf_injective {p p' : BitVec 16} (h : checkSumOf p = checkSumOf p') : p = p' := by
  have hupper := congrArg (fun n : BitVec 32 => (n >>> 16).setWidth 16) h
  exact (upper_append p _).symm.trans (hupper.trans (upper_append p' _))

-- ---------------------------------------------------------------------------
-- The words of a header
-- ---------------------------------------------------------------------------

variable (h : CSQInfor)

namespace CSQInfor

theorem word_set {i j : Nat} (w : BitVec 16) (hne : j ≠ i) : (h.set i w).word j = h.word j := by
  simp only [word, set, List.getD_eq_getElem?_getD, List.getElem?_set_ne hne.symm]

theorem word_set_self {i : Nat} (w : BitVec 16) (hi : i < 116) : (h.set i w).word i = w := by
  simp [word, set, h.length_words, hi]

theorem set_set (i : Nat) (v w : BitVec 16) : (h.set i v).set i w = h.set i w := by
  simp [set]

theorem set_comm {i j : Nat} (v w : BitVec 16) (hne : i ≠ j) :
    (h.set i v).set j w = (h.set j w).set i v := by
  simp only [set, CSQInfor.mk.injEq]
  exact List.set_comm _ _ hne

theorem setCheckSum_set {i : Nat} (w : BitVec 16) (n : BitVec 32) (hi : i = 30 ∨ i = 31) :
    (h.set i w).setCheckSum n = h.setCheckSum n := by
  unfold setCheckSum
  rcases hi with rfl | rfl
  · rw [set_set]
  · rw [set_comm _ _ _ (by decide), set_set, set_comm _ _ _ (by decide)]

theorem setCheckSum_set_comm {i : Nat} (w : BitVec 16) (n : BitVec 32) (h₀ : i ≠ 30)
    (h₁ : i ≠ 31) : (h.set i w).setCheckSum n = (h.setCheckSum n).set i w := by
  unfold setCheckSum
  rw [set_comm _ _ _ h₀, set_comm _ _ _ h₁]

theorem setCheckSum_setCheckSum (n m : BitVec 32) :
    (h.setCheckSum m).setCheckSum n = h.setCheckSum n := by
  rw [show h.setCheckSum m = (h.set 30 _).set 31 _ from rfl, setCheckSum_set _ _ _ (.inr rfl),
    setCheckSum_set _ _ _ (.inl rfl)]

theorem word_setCheckSum {i : Nat} (n : BitVec 32) (h₀ : i ≠ 30) (h₁ : i ≠ 31) :
    (h.setCheckSum n).word i = h.word i := by
  rw [setCheckSum, word_set _ _ h₁, word_set _ _ h₀]

theorem uint_setCheckSum (n : BitVec 32) : (h.setCheckSum n).uint 30 = n := by
  rw [uint, setCheckSum, word_set_self _ _ (by decide), word_set _ _ (by decide),
    word_set_self _ _ (by decide), append_parts]

theorem setCheckSum_draft (P : Platform) (a : Arguments) (createDate : BitVec 64) :
    (draft P a createDate).setCheckSum 0xFFFFFFFF = draft P a createDate := rfl

theorem setCheckSum_init (P : Platform) (a : Arguments) (createDate : BitVec 64) :
    (init P a createDate).setCheckSum 0xFFFFFFFF = draft P a createDate := by
  rw [init, setCheckSum_setCheckSum, setCheckSum_draft]

theorem checksum_init (P : Platform) (a : Arguments) (createDate : BitVec 64) :
    Platform.checksChecksum (init P a createDate) := by
  rw [Platform.checksChecksum, setCheckSum_init, init, uint_setCheckSum]
  exact beq_self_eq_true _

theorem mem_words {i : Nat} (hi : i < 116) : h.word i ∈ h.words := by
  have hlen : i < h.words.length := by rw [h.length_words]; exact hi
  rw [word, List.getD_eq_getElem _ _ hlen]
  exact List.getElem_mem hlen

theorem total_pos {h : CSQInfor} (hw : h.word 30 = 0xFFFF) : 0 < total h.words :=
  Nat.lt_of_lt_of_le (by rw [hw]; decide) (le_total (h.mem_words (i := 30) (by decide)))

/-- One altered word is found by the checksum. -/
theorem checksum_altered (P : Platform) (a : Arguments) (createDate : BitVec 64) {i : Nat}
    {w : BitVec 16} (hi : i < 116) (hd : Differ ((init P a createDate).word i) w) :
    Platform.checksChecksum ((init P a createDate).set i w) = false := by
  have hsum : (init P a createDate).uint 30 =
      checkSumOf (mqCheckSum (draft P a createDate).words none) := by rw [init, uint_setCheckSum]
  rw [Platform.checksChecksum, beq_eq_false_iff_ne]
  intro heq
  by_cases hcs : i = 30 ∨ i = 31
  · -- the checksum is as before, `_CheckSum` is not
    rw [setCheckSum_set _ _ _ hcs, setCheckSum_init, ← hsum] at heq
    rcases hcs with rfl | rfl
    · rw [uint, uint, word_set _ _ (by decide), word_set_self _ _ (by decide)] at heq
      exact hd.1 ((lower_append _ _).symm.trans ((congrArg (BitVec.setWidth 16) heq).trans
        (lower_append _ _)))
    · rw [uint, uint, word_set_self _ _ (by decide), word_set _ _ (by decide)] at heq
      exact hd.1 ((upper_append _ _).symm.trans
        ((congrArg (fun n : BitVec 32 => (n >>> 16).setWidth 16) heq).trans (upper_append _ _)))
  · -- `_CheckSum` is as before, the checksum is not
    obtain ⟨h₀, h₁⟩ := not_or.mp hcs
    have hword : (init P a createDate).word i = (draft P a createDate).word i := by
      rw [init, word_setCheckSum _ _ h₀ h₁]
    have hstored : ((init P a createDate).set i w).uint 30 = (init P a createDate).uint 30 := by
      rw [uint, uint, word_set _ _ (Ne.symm h₀), word_set _ _ (Ne.symm h₁)]
    rw [setCheckSum_set_comm _ _ _ h₀ h₁, setCheckSum_init, hstored, hsum] at heq
    have hlen := (draft P a createDate).length_words
    have hfold := mqCheckSum_injective (by rw [length_words]; decide)
      (by rw [length_words]; decide) (checkSumOf_injective heq)
    rw [hword, word, List.getD_eq_getElem _ _ (by rw [hlen]; exact hi)] at hd
    refine fold_set_ne _ _ hd (total_pos rfl) ?_ hfold
    exact total_pos (h := (draft P a createDate).set i w) (word_set _ _ (Ne.symm h₀))

end CSQInfor

end GalaLua.AMQ
