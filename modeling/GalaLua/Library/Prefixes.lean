import Mathlib.Data.List.Infix

/-!
# Longest common prefixes

A text that is a prefix of every list of a family, and none longer is. A search that goes
through the lengths one by one has found it where the next length fails.
-/

namespace GalaLua.Library.Prefixes

variable {α : Type*} {t l p : List α} {ls : List (List α)} {n : Nat}

theorem getElem?_of_isPrefix (h : l <+: p) {i : Nat} {x : α} (hx : l[i]? = some x) : p[i]? = some x := by
  obtain ⟨r, rfl⟩ := h
  rw [List.getElem?_append_left (List.getElem?_eq_some_iff.mp hx).1, hx]

def Common (s : List α) (ls : List (List α)) : Prop := ∀ l ∈ ls, s <+: l

structure Longest (s : List α) (ls : List (List α)) : Prop where
  common : Common s ls
  longest : ∀ t, Common t ls → t.length ≤ s.length

/-- `l` and `p` have the same first `n` entries, and there are as many in `p`. -/
def Agree (n : Nat) (l p : List α) : Prop := n ≤ p.length ∧ p.take n = l.take n

theorem Agree.length_le (h : Agree n l p) : n ≤ l.length := by
  have hlength := congrArg List.length h.2
  rw [List.length_take_of_le h.1, List.length_take] at hlength
  omega

theorem Agree.isPrefix (h : Agree n l p) : l.take n <+: p := h.2 ▸ List.take_prefix n p

theorem agree_of_prefixes (hl : t <+: l) (hp : t <+: p) (hn : n ≤ t.length) : Agree n l p := by
  obtain ⟨r, rfl⟩ := hl
  obtain ⟨q, rfl⟩ := hp
  refine ⟨?_, ?_⟩
  · rw [List.length_append]
    omega
  · rw [List.take_append_of_le_length hn, List.take_append_of_le_length hn]

theorem common_take (h : ∀ p ∈ ls, Agree n l p) : Common (l.take n) (l :: ls) := by
  intro q hq
  rcases List.mem_cons.mp hq with rfl | hq
  · exact List.take_prefix n q
  · exact (h q hq).isPrefix

theorem longest_take (h : ∀ p ∈ ls, Agree n l p) (hp : p ∈ ls) (hstop : ¬ Agree (n + 1) l p) :
    Longest (l.take n) (l :: ls) := by
  refine ⟨common_take h, fun t ht => ?_⟩
  rw [List.length_take_of_le (h p hp).length_le]
  by_contra hlt
  exact hstop (agree_of_prefixes (ht l List.mem_cons_self) (ht p (List.mem_cons_of_mem l hp)) (by omega))

end GalaLua.Library.Prefixes
