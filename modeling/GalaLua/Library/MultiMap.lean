import Mathlib.Data.List.Sort

/-!
# Sorted multimaps

A key has any number of distinct values, kept in increasing order: a database
with sorted duplicates. Two multimaps with the same pairs are equal
(`MultiMap.ext_mem`), so an operation is known by its membership lemma.
-/

namespace GalaLua.Library

variable {κ ν : Type*} [LinearOrder ν]

structure MultiMap (κ ν : Type*) [LinearOrder ν] where
  dups : κ → List ν
  sorted : ∀ k, (dups k).Pairwise (· < ·)

namespace MultiMap

theorem eq_of_mem {l l' : List ν} (h : l.Pairwise (· < ·)) (h' : l'.Pairwise (· < ·))
    (hmem : ∀ v, v ∈ l ↔ v ∈ l') : l = l' := by
  have hperm : l.Perm l' := (List.perm_ext_iff_of_nodup h.nodup h'.nodup).mpr hmem
  exact hperm.eq_of_pairwise (fun _ _ _ _ hab hba => absurd hab hba.asymm) h h'

theorem ext_mem {m m' : MultiMap κ ν} (h : ∀ k v, v ∈ m.dups k ↔ v ∈ m'.dups k) : m = m' := by
  obtain ⟨d, hd⟩ := m
  obtain ⟨d', hd'⟩ := m'
  obtain rfl : d = d' := funext fun k => eq_of_mem (hd k) (hd' k) (h k)
  rfl

def empty : MultiMap κ ν := ⟨fun _ => [], fun _ => .nil⟩

@[simp] theorem dups_empty (k : κ) : (empty : MultiMap κ ν).dups k = [] := rfl

def insertDup (v : ν) (l : List ν) : List ν := if v ∈ l then l else l.orderedInsert (· ≤ ·) v

theorem mem_insertDup {v v' : ν} {l : List ν} : v' ∈ insertDup v l ↔ v' = v ∨ v' ∈ l := by
  rw [insertDup]
  split
  · next hv =>
    refine ⟨.inr, ?_⟩
    rintro (rfl | h)
    · exact hv
    · exact h
  · exact List.mem_orderedInsert _

theorem pairwise_insertDup {l : List ν} (v : ν) (h : l.Pairwise (· < ·)) :
    (insertDup v l).Pairwise (· < ·) := by
  rw [insertDup]
  split
  · exact h
  · next hv =>
    have hle := (h.imp fun hab => le_of_lt hab).orderedInsert v
    have hnodup : (l.orderedInsert (· ≤ ·) v).Nodup :=
      (List.perm_orderedInsert _ v l).nodup_iff.mpr (List.nodup_cons.mpr ⟨hv, h.nodup⟩)
    exact hle.imp₂ (fun _ _ => lt_of_le_of_ne) hnodup

variable [DecidableEq κ]

def put (m : MultiMap κ ν) (k : κ) (v : ν) : MultiMap κ ν where
  dups := Function.update m.dups k (insertDup v (m.dups k))
  sorted k' := by
    rw [Function.update_apply]
    split
    · exact pairwise_insertDup v (m.sorted k)
    · exact m.sorted k'

def del (m : MultiMap κ ν) (k : κ) (v : ν) : MultiMap κ ν where
  dups := Function.update m.dups k ((m.dups k).erase v)
  sorted k' := by
    rw [Function.update_apply]
    split
    · exact (m.sorted k).sublist List.erase_sublist
    · exact m.sorted k'

def delAll (m : MultiMap κ ν) (k : κ) : MultiMap κ ν where
  dups := Function.update m.dups k []
  sorted k' := by
    rw [Function.update_apply]
    split
    · exact .nil
    · exact m.sorted k'

variable {m : MultiMap κ ν} {k k' : κ} {v v' : ν}

theorem dups_put_of_ne (h : k' ≠ k) : (m.put k v).dups k' = m.dups k' :=
  Function.update_of_ne h ..

theorem dups_del_of_ne (h : k' ≠ k) : (m.del k v).dups k' = m.dups k' :=
  Function.update_of_ne h ..

@[simp] theorem mem_put : v' ∈ (m.put k v).dups k' ↔ (k' = k ∧ v' = v) ∨ v' ∈ m.dups k' := by
  by_cases hk : k' = k
  · subst hk
    simp only [put, Function.update_self, mem_insertDup, true_and]
  · rw [dups_put_of_ne hk]
    simp only [hk, false_and, false_or]

@[simp] theorem mem_del : v' ∈ (m.del k v).dups k' ↔ ¬ (k' = k ∧ v' = v) ∧ v' ∈ m.dups k' := by
  by_cases hk : k' = k
  · subst hk
    simp only [del, Function.update_self, (m.sorted k').nodup.mem_erase_iff, true_and, ne_eq]
  · rw [dups_del_of_ne hk]
    simp only [hk, false_and, not_false_eq_true, true_and]

@[simp] theorem mem_delAll : v' ∈ (m.delAll k).dups k' ↔ k' ≠ k ∧ v' ∈ m.dups k' := by
  by_cases hk : k' = k
  · subst hk
    simp only [delAll, Function.update_self, List.not_mem_nil, ne_eq, not_true_eq_false, false_and]
  · simp only [delAll, Function.update_of_ne hk, ne_eq, hk, not_false_eq_true, true_and]

end MultiMap

end GalaLua.Library
