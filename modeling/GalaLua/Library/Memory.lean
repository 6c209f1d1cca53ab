import GalaLua.Library.Bytes

/-!
# Memory by address

A memory gives every address its byte. A write of some bytes at an address
changes these and no others; numbers are stored with the lowest byte first.
-/

namespace GalaLua.Library

abbrev Memory := Nat → Byte

namespace Memory

variable {m : Memory} {a b n k x : Nat} {d : List Byte}

/-- The `n` bytes from `a` on. -/
def read (m : Memory) (a n : Nat) : List Byte := (List.range n).map fun i => m (a + i)

/-- `d` from `a` on. -/
def write (m : Memory) (a : Nat) (d : List Byte) : Memory := fun x =>
  if a ≤ x then d[x - a]?.getD (m x) else m x

/-- The ranges of `n` bytes at `a` and of `k` bytes at `b` have nothing in common. -/
def Apart (a n b k : Nat) : Prop := a + n ≤ b ∨ b + k ≤ a

@[simp] theorem length_read : (m.read a n).length = n := by
  simp [read]

theorem getElem?_read (i : Nat) : (m.read a n)[i]? = if i < n then some (m (a + i)) else none := by
  rw [read, List.getElem?_map]
  by_cases hi : i < n
  · simp [hi]
  · simp [hi]

theorem read_congr {m' : Memory} (h : ∀ i < n, m' (a + i) = m (a + i)) : m'.read a n = m.read a n :=
  List.map_congr_left fun i hi => h i (List.mem_range.mp hi)

theorem take_read : (m.read a n).take k = m.read a (min k n) := by
  refine List.ext_getElem? fun i => ?_
  rw [List.getElem?_take, getElem?_read, getElem?_read]
  by_cases hk : i < k
  · by_cases hn : i < n
    · rw [if_pos hk, if_pos hn, if_pos (by omega)]
    · rw [if_pos hk, if_neg hn, if_neg (by omega)]
  · rw [if_neg hk, if_neg (by omega)]

theorem write_of_not_mem (h : x < a ∨ a + d.length ≤ x) : m.write a d x = m x := by
  unfold write
  rcases h with hlt | hge
  · rw [if_neg (by omega)]
  · have hd : d.length ≤ x - a := by omega
    rw [if_pos (by omega), List.getElem?_eq_none hd, Option.getD_none]

theorem write_of_mem (h : x < d.length) : m.write a d (a + x) = d[x] := by
  rw [write, if_pos (by omega), Nat.add_sub_cancel_left, List.getElem?_eq_getElem h, Option.getD_some]

@[simp] theorem write_singleton {v : Byte} : m.write a [v] a = v :=
  write_of_mem (d := [v]) (x := 0) (by simp)

theorem read_write_of_apart (h : Apart a n b d.length) : (m.write b d).read a n = m.read a n := by
  refine read_congr fun i hi => write_of_not_mem ?_
  unfold Apart at h
  omega

/-- What was written is read back, in full or the front part of it. -/
theorem read_write (h : n ≤ d.length) : (m.write a d).read a n = d.take n := by
  refine List.ext_getElem? fun i => ?_
  rw [getElem?_read, List.getElem?_take]
  by_cases hi : i < n
  · rw [if_pos hi, if_pos hi, write_of_mem (by omega), List.getElem?_eq_getElem]
  · rw [if_neg hi, if_neg hi]

theorem read_add : m.read a (n + k) = m.read a n ++ m.read (a + n) k := by
  rw [read, List.range_add, List.map_append, List.map_map]
  exact congrArg _ (List.map_congr_left fun i _ => congrArg m (Nat.add_assoc a n i).symm)

@[simp] theorem write_nil : m.write a [] = m := by
  funext x
  rw [write, List.getElem?_nil, Option.getD_none, ite_self]

theorem write_write_append {e : List Byte} :
    (m.write a d).write (a + d.length) e = m.write a (d ++ e) := by
  funext x
  by_cases hx : a + d.length ≤ x
  · have hsub : x - (a + d.length) = x - a - d.length := by omega
    have hd : ¬x - a < d.length := by omega
    simp only [write, if_pos hx, if_pos (Nat.le_trans (Nat.le_add_right _ _) hx), hsub,
      List.getElem?_append_right (Nat.not_lt.mp hd), List.getElem?_eq_none (Nat.not_lt.mp hd), Option.getD_none]
  · simp only [write, if_neg hx]
    split
    next hax => rw [List.getElem?_append_left (by omega)]
    next => rfl

-- ---------------------------------------------------------------------------
-- Numbers
-- ---------------------------------------------------------------------------

def load (m : Memory) (a n : Nat) : Nat := ofLowBytes (m.read a n)

theorem load_lt : m.load a n < 256 ^ n := by
  have h := ofLowBytes_lt (m.read a n)
  rwa [length_read] at h

theorem load_congr {m' : Memory} (h : ∀ i < n, m' (a + i) = m (a + i)) : m'.load a n = m.load a n :=
  congrArg ofLowBytes (read_congr h)

theorem load_write_of_apart (h : Apart a n b d.length) : (m.write b d).load a n = m.load a n :=
  congrArg ofLowBytes (read_write_of_apart h)

theorem load_write_lowBytes {v : Nat} (h : v < 256 ^ n) : (m.write a (lowBytes n v)).load a n = v := by
  have hlen : (lowBytes n v).length = n := length_lowBytes n v
  rw [load, read_write (Nat.le_of_eq hlen.symm), List.take_of_length_le (Nat.le_of_eq hlen), ofLowBytes_lowBytes,
    Nat.mod_eq_of_lt h]

end Memory

end GalaLua.Library
