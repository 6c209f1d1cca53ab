import Mathlib.Data.List.Basic
import Mathlib.Data.List.Induction
import Mathlib.Tactic.Common

/-!
# Hashing by a chain of compressions

A text is cut into blocks and each block is compressed into the state that the
blocks before it left. If two lists of blocks are chained to the same state and
neither ends in the other, the compression was given two different inputs with
one output on the way.
-/

namespace GalaLua.Library.MerkleDamgard

-- ---------------------------------------------------------------------------
-- Blocks
-- ---------------------------------------------------------------------------

section
variable {α : Type} (n : Nat)

/-- The first `k` blocks of `n`. -/
def cut : Nat → List α → List (List α)
  | 0, _ => []
  | k + 1, xs => xs.take n :: cut k (xs.drop n)

@[simp] theorem length_cut (k : Nat) (xs : List α) : (cut n k xs).length = k := by
  induction k generalizing xs with
  | zero => rfl
  | succ k ih => simp [cut, ih]

theorem flatten_cut {k : Nat} {xs : List α} (h : xs.length = k * n) : (cut n k xs).flatten = xs := by
  induction k generalizing xs with
  | zero =>
    rw [Nat.zero_mul] at h
    simp [cut, List.length_eq_zero_iff.mp h]
  | succ k ih =>
    rw [Nat.succ_mul] at h
    rw [cut, List.flatten_cons, ih (by rw [List.length_drop]; omega), List.take_append_drop]

theorem cut_cons {b : List α} (h : b.length = n) (k : Nat) (xs : List α) :
    cut n (k + 1) (b ++ xs) = b :: cut n k xs := by
  rw [cut, List.take_left' h, List.drop_left' h]

theorem cut_concat {k : Nat} {xs b : List α} (hxs : xs.length = k * n) (hb : b.length = n) :
    cut n (k + 1) (xs ++ b) = cut n k xs ++ [b] := by
  induction k generalizing xs with
  | zero =>
    rw [Nat.zero_mul] at hxs
    simp [cut, List.length_eq_zero_iff.mp hxs, List.take_of_length_le (Nat.le_of_eq hb)]
  | succ k ih =>
    rw [Nat.succ_mul] at hxs
    have hle : n ≤ xs.length := by omega
    rw [cut, List.take_append_of_le_length hle, List.drop_append_of_le_length hle,
      ih (by rw [List.length_drop]; omega), cut, List.cons_append]

end

-- ---------------------------------------------------------------------------
-- Chains
-- ---------------------------------------------------------------------------

variable {σ β : Type} (step : σ → β → σ)

def chain (h : σ) (bs : List β) : σ := bs.foldl step h

/-- What the compression is given along a chain. -/
def inputs : σ → List β → List (σ × β)
  | _, [] => []
  | h, b :: bs => (h, b) :: inputs (step h b) bs

/-- Two different inputs, one of each chain, have one output. -/
def Collide (h : σ) (bs bs' : List β) : Prop :=
  ∃ p ∈ inputs step h bs, ∃ q ∈ inputs step h bs', p ≠ q ∧ step p.1 p.2 = step q.1 q.2

@[simp] theorem chain_nil (h : σ) : chain step h [] = h := rfl

@[simp] theorem chain_cons (h : σ) (b : β) (bs : List β) :
    chain step h (b :: bs) = chain step (step h b) bs := rfl

theorem chain_concat (h : σ) (bs : List β) (b : β) :
    chain step h (bs ++ [b]) = step (chain step h bs) b := by
  rw [chain, List.foldl_append]
  rfl

theorem inputs_concat (h : σ) (bs : List β) (b : β) :
    inputs step h (bs ++ [b]) = inputs step h bs ++ [(chain step h bs, b)] := by
  induction bs generalizing h with
  | nil => rfl
  | cons a bs ih => rw [List.cons_append, inputs, ih, inputs, List.cons_append, chain_cons]

variable {step} {h : σ}

theorem Collide.concat {bs bs' : List β} (hc : Collide step h bs bs') (b b' : β) :
    Collide step h (bs ++ [b]) (bs' ++ [b']) := by
  obtain ⟨p, hp, q, hq, hne, heq⟩ := hc
  refine ⟨p, ?_, q, ?_, hne, heq⟩
  · rw [inputs_concat]
    exact List.mem_append_left _ hp
  · rw [inputs_concat]
    exact List.mem_append_left _ hq

/-- The two chains are followed back from their common end, for as long as what was compressed
is the same. -/
theorem collide_of_chain_eq {bs bs' : List β} (hs : ¬bs <:+ bs') (hs' : ¬bs' <:+ bs)
    (heq : chain step h bs = chain step h bs') : Collide step h bs bs' := by
  induction bs using List.reverseRecOn generalizing bs' with
  | nil => exact absurd (List.nil_suffix) hs
  | append_singleton bs b ih =>
    rcases List.eq_nil_or_concat' bs' with rfl | ⟨bs', b', rfl⟩
    · exact absurd (List.nil_suffix) hs'
    rw [chain_concat, chain_concat] at heq
    by_cases hp : (chain step h bs, b) = (chain step h bs', b')
    · obtain ⟨hstate, rfl⟩ := Prod.mk.inj hp
      have hback : ∀ {xs ys : List β}, ¬xs ++ [b] <:+ ys ++ [b] → ¬xs <:+ ys := by
        rintro xs ys hn ⟨t, rfl⟩
        exact hn ⟨t, by rw [List.append_assoc]⟩
      exact (ih (hback hs) (hback hs') hstate).concat b b
    · refine ⟨_, ?_, _, ?_, hp, heq⟩
      · rw [inputs_concat]
        exact List.mem_append_right _ (List.mem_singleton_self _)
      · rw [inputs_concat]
        exact List.mem_append_right _ (List.mem_singleton_self _)

/-- Lists with different last blocks do not end in each other. -/
theorem not_suffix_of_last {bs bs' : List β} {b b' : β} (hne : b ≠ b') :
    ¬bs ++ [b] <:+ bs' ++ [b'] := by
  rintro ⟨t, ht⟩
  rw [← List.append_assoc] at ht
  exact hne (List.cons.inj (List.append_inj_right' ht rfl)).1

theorem not_suffix_of_length {bs bs' : List β} (hlen : bs.length = bs'.length) (hne : bs ≠ bs') :
    ¬bs <:+ bs' := fun h => hne (h.eq_of_length hlen)

end GalaLua.Library.MerkleDamgard
