import Mathlib.Data.Finset.Card
import Mathlib.Logic.Function.Iterate

/-!
# Orbits that come to rest

A walk that follows `next` from `x` and stays where it is once it is at `z`. If it
has only finitely many places to go to, it comes to `z` if and only if it comes to no
other place twice (`reaches_iff`), and then it does not take more steps than there are
places (`reaches_within`).
-/

namespace GalaLua.Library.Orbit

variable {next : Nat → Nat} {x z N : Nat}

/-- No place but `z` is visited twice. -/
def NoReturn (next : Nat → Nat) (x z : Nat) : Prop :=
  ∀ i j, i < j → next^[i] x = next^[j] x → next^[i] x = z

theorem iterate_rest (hz : next z = z) {i j : Nat} (h : next^[i] x = z) (hij : i ≤ j) : next^[j] x = z := by
  obtain ⟨d, rfl⟩ := Nat.exists_eq_add_of_le' hij
  rw [Function.iterate_add_apply, h, Function.iterate_fixed hz]

theorem iterate_round {i d : Nat} (h : next^[i] x = next^[i + d] x) (n : Nat) : next^[i + n * d] x = next^[i] x := by
  induction n with
  | zero => rw [Nat.zero_mul, Nat.add_zero]
  | succ n ih =>
    have hsplit : i + (n + 1) * d = d + (i + n * d) := by rw [Nat.succ_mul]; omega
    rw [hsplit, Function.iterate_add_apply, ih, ← Function.iterate_add_apply, Nat.add_comm, ← h]

theorem noReturn_of_reaches (hz : next z = z) {k : Nat} (hk : next^[k] x = z) : NoReturn next x z := by
  intro i j hij heq
  obtain ⟨d, rfl⟩ := Nat.exists_eq_add_of_le (Nat.le_of_lt hij)
  have hd : 1 ≤ d := by omega
  have hround : next^[i + k * d] x = next^[i] x := iterate_round heq k
  rw [← hround]
  refine iterate_rest hz hk ?_
  calc k ≤ k * d := Nat.le_mul_of_pos_right k hd
    _ ≤ i + k * d := Nat.le_add_left ..

theorem reaches_within (hlt : ∀ k, next^[k] x < N) (h : NoReturn next x z) : ∃ k ≤ N, next^[k] x = z := by
  have hmaps : ∀ k ∈ Finset.range (N + 1), next^[k] x ∈ Finset.range N := fun k _ => Finset.mem_range.mpr (hlt k)
  have hcard : (Finset.range N).card < (Finset.range (N + 1)).card := by
    rw [Finset.card_range, Finset.card_range]
    omega
  obtain ⟨i, hi, j, hj, hne, heq⟩ := Finset.exists_ne_map_eq_of_card_lt_of_maps_to hcard hmaps
  rw [Finset.mem_range] at hi hj
  rcases Nat.lt_or_gt_of_ne hne with hij | hij
  · exact ⟨i, by omega, h i j hij heq⟩
  · exact ⟨j, by omega, h j i hij heq.symm⟩

theorem reaches_iff (hz : next z = z) (hlt : ∀ k, next^[k] x < N) : (∃ k, next^[k] x = z) ↔ NoReturn next x z := by
  constructor
  · rintro ⟨k, hk⟩
    exact noReturn_of_reaches hz hk
  · intro h
    obtain ⟨k, -, hk⟩ := reaches_within hlt h
    exact ⟨k, hk⟩

end GalaLua.Library.Orbit
