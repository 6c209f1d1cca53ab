import Mathlib.Data.List.Basic
import Mathlib.Tactic.Common

/-!
# Cipher feedback

A message is combined block by block with a stream that depends on the block
sent before. The receiver, who has the same stream, takes it off again; after
one undamaged block it is in step with the sender whatever came before.
-/

namespace GalaLua.Library.Feedback

variable {α : Type} {n : Nat} (hn : 0 < n) (stream : List α → List α) (op : α → α → α)

include hn in
theorem drop_shorter {m : List α} (h : m ≠ []) : (m.drop n).length < m.length := by
  have hpos := List.length_pos_iff.mpr h
  rw [List.length_drop]
  omega

/-- The register holds the last `n` symbols that were sent. -/
def encode (hn : 0 < n) (r m : List α) : List α :=
  if _h : m = [] then [] else
    let c := List.zipWith op (stream r) (m.take n)
    c ++ encode hn (c ++ r.drop c.length) (m.drop n)
termination_by m.length
decreasing_by exact drop_shorter hn _h

def decode (hn : 0 < n) (r c : List α) : List α :=
  if _h : c = [] then [] else
    let b := c.take n
    List.zipWith op (stream r) b ++ decode hn (b ++ r.drop b.length) (c.drop n)
termination_by c.length
decreasing_by exact drop_shorter hn _h

variable {hn} {stream op}

@[simp] theorem encode_nil (r : List α) : encode stream op hn r [] = [] := by
  rw [encode, dif_pos rfl]

@[simp] theorem decode_nil (r : List α) : decode stream op hn r [] = [] := by
  rw [decode, dif_pos rfl]

theorem encode_of_ne {r m : List α} (h : m ≠ []) :
    encode stream op hn r m = List.zipWith op (stream r) (m.take n) ++
      encode stream op hn (List.zipWith op (stream r) (m.take n) ++
        r.drop (List.zipWith op (stream r) (m.take n)).length) (m.drop n) := by
  rw [encode, dif_neg h]

theorem decode_of_ne {r c : List α} (h : c ≠ []) :
    decode stream op hn r c = List.zipWith op (stream r) (c.take n) ++
      decode stream op hn (c.take n ++ r.drop (c.take n).length) (c.drop n) := by
  rw [decode, dif_neg h]

/-- A first block and what comes of the rest are told apart: the block is full, or it is all. -/
theorem block_then {b m rest : List α} (hb : b.length = (m.take n).length)
    (hrest : m.drop n = [] → rest = []) : (b ++ rest).take n = b ∧ (b ++ rest).drop n = rest := by
  rw [List.length_take] at hb
  by_cases hfull : n ≤ m.length
  · have hbn : b.length = n := by omega
    exact ⟨List.take_left' hbn, List.drop_left' hbn⟩
  · have hbn : b.length ≤ n := by omega
    rw [hrest (List.drop_eq_nil_of_le (by omega)), List.append_nil]
    exact ⟨List.take_of_length_le hbn, List.drop_eq_nil_of_le hbn⟩

theorem block_ne_nil {b m : List α} (hn : 0 < n) (hb : b.length = (m.take n).length) (hm : m ≠ []) : b ≠ [] := by
  have hpos := List.length_pos_iff.mpr hm
  rw [List.length_take] at hb
  exact List.length_pos_iff.mp (by omega)

section
variable (hs : ∀ r, (stream r).length = n)
include hs

theorem length_zip (r m : List α) :
    (List.zipWith op (stream r) (m.take n)).length = (m.take n).length := by
  rw [List.length_zipWith, hs, List.length_take]
  omega

omit hs in
theorem decode_block {r y : List α} (hr : r.length = n) (hy : y.length = n) (c : List α) :
    decode stream op hn r (y ++ c) = List.zipWith op (stream r) y ++ decode stream op hn y c := by
  have hne : y ++ c ≠ [] := by
    exact List.length_pos_iff.mp (by rw [List.length_append]; omega)
  rw [decode_of_ne hne, List.take_left' hy, List.drop_left' hy, hy,
    List.drop_eq_nil_of_le (Nat.le_of_eq hr), List.append_nil]

/-- Whatever full blocks came before `y`, and whatever the receiver began with, what follows `y`
is read as after `y`. -/
theorem decode_after {k : Nat} {r p y : List α} (hr : r.length = n) (hp : p.length = k * n)
    (hy : y.length = n) (c : List α) :
    (decode stream op hn r (p ++ (y ++ c))).drop (p.length + n) = decode stream op hn y c := by
  induction k generalizing r p with
  | zero =>
    rw [Nat.zero_mul] at hp
    rw [List.length_eq_zero_iff.mp hp, List.nil_append, decode_block hr hy, List.length_nil, Nat.zero_add]
    exact List.drop_left' (by rw [List.length_zipWith, hs, hy, Nat.min_self])
  | succ k ih =>
    rw [Nat.succ_mul] at hp
    -- one more block in front
    have hfirst : (p.take n).length = n := by
      rw [List.length_take]
      omega
    have hrest : (p.drop n).length = k * n := by
      rw [List.length_drop]
      omega
    have hlen : p.length + n = n + ((p.drop n).length + n) := by omega
    rw [hlen, ← List.take_append_drop n p, List.append_assoc, decode_block hr hfirst,
      List.take_append_drop, ← List.drop_drop,
      List.drop_left' (by rw [List.length_zipWith, hs, hfirst, Nat.min_self])]
    exact ih hfirst hrest

variable (hop : ∀ a b, op a (op a b) = b)
include hop

omit hs in
theorem zip_zip {s b : List α} (h : b.length ≤ s.length) :
    List.zipWith op s (List.zipWith op s b) = b := by
  induction s generalizing b with
  | nil =>
    rw [List.length_eq_zero_iff.mp (Nat.le_zero.mp h)]
    rfl
  | cons a s ih =>
    cases b with
    | nil => rfl
    | cons c b =>
      rw [List.zipWith_cons_cons, List.zipWith_cons_cons, hop, ih (Nat.le_of_succ_le_succ h)]

theorem zip_zip_take (r m : List α) :
    List.zipWith op (stream r) (List.zipWith op (stream r) (m.take n)) = m.take n :=
  zip_zip hop (by rw [hs]; exact List.length_take_le n m)

theorem decode_encode (r m : List α) : decode stream op hn r (encode stream op hn r m) = m := by
  induction hm : m.length using Nat.strongRecOn generalizing r m with
  | _ k ih =>
    by_cases hne : m = []
    · rw [hne, encode_nil, decode_nil]
    have hc : (List.zipWith op (stream r) (m.take n)).length = _ := length_zip hs r m
    have hrest : m.drop n = [] → encode stream op hn (List.zipWith op (stream r) (m.take n) ++
        r.drop (List.zipWith op (stream r) (m.take n)).length) (m.drop n) = [] := fun h => by rw [h, encode_nil]
    obtain ⟨htake, hdrop⟩ := block_then hc hrest
    rw [encode_of_ne hne, decode_of_ne (List.append_ne_nil_of_left_ne_nil (block_ne_nil hn hc hne) _), htake, hdrop,
      zip_zip_take hs hop, ih _ (hm ▸ drop_shorter hn hne) _ _ rfl, List.take_append_drop]

theorem encode_decode (r c : List α) : encode stream op hn r (decode stream op hn r c) = c := by
  induction hl : c.length using Nat.strongRecOn generalizing r c with
  | _ k ih =>
    by_cases hne : c = []
    · rw [hne, decode_nil, encode_nil]
    have hb : (List.zipWith op (stream r) (c.take n)).length = _ := length_zip hs r c
    have hrest : c.drop n = [] → decode stream op hn (c.take n ++ r.drop (c.take n).length) (c.drop n) = [] :=
      fun h => by rw [h, decode_nil]
    obtain ⟨htake, hdrop⟩ := block_then hb hrest
    rw [decode_of_ne hne, encode_of_ne (List.append_ne_nil_of_left_ne_nil (block_ne_nil hn hb hne) _), htake, hdrop,
      zip_zip_take hs hop, ih _ (hl ▸ drop_shorter hn hne) _ _ rfl, List.take_append_drop]

end

end GalaLua.Library.Feedback
