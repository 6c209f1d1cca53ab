import Mathlib.Logic.Function.Basic
import Mathlib.Data.List.Nodup
import Mathlib.Data.List.Perm.Basic

/-!
# Resources kept in exactly one place

A family of lists `cell : ι → List α` partitions the resources `carrier` when
every resource lies in exactly one cell, once, and nothing else lies in any
cell. Ownership transfers change two cells at a time and keep their joint
content: `Partition.transfer` is the rule for all of them.
-/

namespace GalaLua.Library

variable {α ι : Type*}

structure Partition (carrier : α → Prop) (cell : ι → List α) : Prop where
  nodup : ∀ i, (cell i).Nodup
  disjoint : ∀ {i j a}, a ∈ cell i → a ∈ cell j → i = j
  cover : ∀ a, carrier a ↔ ∃ i, a ∈ cell i

variable {carrier : α → Prop} {cell cell' : ι → List α} {i j : ι} {a : α}

theorem Partition.carrier_of_mem (h : Partition carrier cell) (ha : a ∈ cell i) : carrier a :=
  (h.cover a).mpr ⟨i, ha⟩

theorem Partition.notMem (h : Partition carrier cell) (ha : a ∈ cell i) (hij : i ≠ j) :
    a ∉ cell j := fun hj => hij (h.disjoint ha hj)

/-- Two partitions that agree outside the cells `I` have the same elements in them. -/
theorem Partition.mem_within (h : Partition carrier cell) (h' : Partition carrier cell') {I : ι → Prop}
    (hrest : ∀ i, ¬I i → cell' i = cell i) (a : α) :
    (∃ i, I i ∧ a ∈ cell' i) ↔ ∃ i, I i ∧ a ∈ cell i := by
  constructor
  · rintro ⟨i, hi, ha⟩
    obtain ⟨j, hj⟩ := (h.cover a).mp (h'.carrier_of_mem ha)
    by_contra hno
    have hIj : ¬I j := fun hIj => hno ⟨j, hIj, hj⟩
    rw [← hrest j hIj] at hj
    exact hIj (h'.disjoint ha hj ▸ hi)
  · rintro ⟨i, hi, ha⟩
    obtain ⟨j, hj⟩ := (h'.cover a).mp (h.carrier_of_mem ha)
    by_contra hno
    have hIj : ¬I j := fun hIj => hno ⟨j, hIj, hj⟩
    rw [hrest j hIj] at hj
    exact hIj (h.disjoint ha hj ▸ hi)

/-- Elements move between the cells `i` and `j`, in any direction and order. -/
theorem Partition.transfer (h : Partition carrier cell) (hij : i ≠ j)
    (hperm : (cell' i ++ cell' j).Perm (cell i ++ cell j))
    (hrest : ∀ k, k ≠ i → k ≠ j → cell' k = cell k) : Partition carrier cell' := by
  have hmem : ∀ a, (a ∈ cell' i ∨ a ∈ cell' j) ↔ (a ∈ cell i ∨ a ∈ cell j) := fun a => by
    simpa using hperm.mem_iff (a := a)
  have hnodup : (cell' i ++ cell' j).Nodup := by
    refine hperm.nodup_iff.mpr (List.nodup_append.mpr ⟨h.nodup i, h.nodup j, ?_⟩)
    rintro a hai b hbj rfl
    exact hij (h.disjoint hai hbj)
  obtain ⟨hi, hj, hsep⟩ := List.nodup_append.mp hnodup
  -- whatever lies in a cell other than `i` and `j` was not in these before
  have hout : ∀ {k a}, k ≠ i → k ≠ j → a ∈ cell' k → a ∉ cell' i ∧ a ∉ cell' j := by
    intro k a hki hkj ha
    rw [hrest k hki hkj] at ha
    have hno : ¬(a ∈ cell i ∨ a ∈ cell j) := by
      rintro (hai | haj)
      · exact hki (h.disjoint ha hai)
      · exact hkj (h.disjoint ha haj)
    rw [← hmem] at hno
    exact not_or.mp hno
  refine ⟨fun k => ?_, ?_, fun a => ?_⟩
  · rcases eq_or_ne k i with rfl | hki
    · exact hi
    rcases eq_or_ne k j with rfl | hkj
    · exact hj
    rw [hrest k hki hkj]
    exact h.nodup k
  · intro k m a hk hm
    have hdisj : ∀ k m a, a ∈ cell k → a ∈ cell m → k = m := fun _ _ _ => h.disjoint
    by_cases hki : k = i <;> by_cases hkj : k = j <;> by_cases hmi : m = i <;>
      by_cases hmj : m = j <;> grind
  · rw [h.cover a]
    constructor
    · rintro ⟨k, hk⟩
      rcases eq_or_ne k i with rfl | hki
      · exact ((hmem a).mpr (.inl hk)).elim (fun h => ⟨_, h⟩) fun h => ⟨_, h⟩
      rcases eq_or_ne k j with rfl | hkj
      · exact ((hmem a).mpr (.inr hk)).elim (fun h => ⟨_, h⟩) fun h => ⟨_, h⟩
      exact ⟨k, hrest k hki hkj ▸ hk⟩
    · rintro ⟨k, hk⟩
      rcases eq_or_ne k i with rfl | hki
      · exact ((hmem a).mp (.inl hk)).elim (fun h => ⟨_, h⟩) fun h => ⟨_, h⟩
      rcases eq_or_ne k j with rfl | hkj
      · exact ((hmem a).mp (.inr hk)).elim (fun h => ⟨_, h⟩) fun h => ⟨_, h⟩
      exact ⟨k, hrest k hki hkj ▸ hk⟩

theorem Partition.move [DecidableEq ι] {xs ys : List α} (h : Partition carrier cell) (hij : i ≠ j)
    (hperm : (xs ++ ys).Perm (cell i ++ cell j)) :
    Partition carrier (Function.update (Function.update cell i xs) j ys) := by
  refine h.transfer hij ?_ fun k hki hkj => ?_
  · rwa [Function.update_self, Function.update_of_ne hij, Function.update_self]
  · rw [Function.update_of_ne hkj, Function.update_of_ne hki]

end GalaLua.Library
