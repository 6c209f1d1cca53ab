import GalaLua.Library.Bytes

/-!
# Files that are written at offsets

A file has a size and bytes; behind its end there are zeros, which is what a
later write leaves in a gap and what a short read leaves in memory that was
cleared before. `peek` reads with these zeros, `read` stops at the end.
-/

namespace GalaLua.Library

structure File where
  bytes : Nat → Byte
  size : Nat
  zero : ∀ i, size ≤ i → bytes i = 0

namespace File

@[ext] theorem ext {f g : File} (hbytes : ∀ i, f.bytes i = g.bytes i) (hsize : f.size = g.size) :
    f = g := by
  obtain ⟨b, n, h⟩ := f
  obtain ⟨b', n', h'⟩ := g
  cases hsize
  cases funext hbytes
  rfl

def empty : File := ⟨fun _ => 0, 0, fun _ _ => rfl⟩

def truncate (f : File) (n : Nat) : File where
  bytes i := if i < n then f.bytes i else 0
  size := n
  zero _ hi := if_neg (Nat.not_lt.mpr hi)

/-- Writing no bytes does not make a file longer. -/
def write (f : File) (off : Nat) (d : List Byte) : File where
  bytes i := if off ≤ i ∧ i < off + d.length then d.getD (i - off) 0 else f.bytes i
  size := if d = [] then f.size else max f.size (off + d.length)
  zero i hi := by
    cases d with
    | nil => simpa using f.zero i hi
    | cons b d =>
      simp only [reduceCtorEq, if_false] at hi
      rw [if_neg (by omega)]
      exact f.zero i (by omega)

def peek (f : File) (off n : Nat) : List Byte := (List.range n).map fun k => f.bytes (off + k)

/-- A read that stops at the end of the file. -/
def read (f : File) (off n : Nat) : List Byte := f.peek off (min n (f.size - off))

variable {f : File} {off i j n : Nat} {d : List Byte}

@[simp] theorem length_peek : (f.peek off n).length = n := by
  simp [peek]

theorem getElem?_peek (k : Nat) :
    (f.peek off n)[k]? = if k < n then some (f.bytes (off + k)) else none := by
  by_cases hk : k < n <;> simp [peek, hk]

theorem bytes_write_of_mem (h : off ≤ i) (h' : i < off + d.length) :
    (f.write off d).bytes i = d.getD (i - off) 0 :=
  if_pos ⟨h, h'⟩

theorem bytes_write_of_not_mem (h : i < off ∨ off + d.length ≤ i) :
    (f.write off d).bytes i = f.bytes i :=
  if_neg (by omega)

theorem truncate_of_size (h : f.size = n) : f.truncate n = f := by
  refine File.ext (fun i => ?_) h.symm
  by_cases hi : i < n
  · exact if_pos hi
  · exact (if_neg hi).trans (f.zero i (by omega)).symm

theorem size_le_write : f.size ≤ (f.write off d).size := by
  simp only [write]
  split
  · exact Nat.le_refl _
  · exact Nat.le_max_left ..

theorem le_size_write (h : d ≠ []) : off + d.length ≤ (f.write off d).size := by
  simp only [write, if_neg h]
  exact Nat.le_max_right ..

theorem size_write_of_le (h : off + d.length ≤ f.size) : (f.write off d).size = f.size := by
  simp only [write]
  split
  · rfl
  · exact Nat.max_eq_left h

theorem peek_write_of_disjoint (h : j + n ≤ off ∨ off + d.length ≤ j) :
    (f.write off d).peek j n = f.peek j n := by
  refine List.ext_getElem? fun k => ?_
  rw [getElem?_peek, getElem?_peek]
  split
  · rw [bytes_write_of_not_mem (by omega)]
  · rfl

theorem peek_write {k : Nat} (h : k + n ≤ d.length) :
    (f.write off d).peek (off + k) n = (d.drop k).take n := by
  refine List.ext_getElem? fun m => ?_
  rw [getElem?_peek, List.getElem?_take, List.getElem?_drop]
  split
  · rw [bytes_write_of_mem (by omega) (by omega), List.getD_eq_getElem?_getD,
      List.getElem?_eq_getElem (by omega)]
    simp [show off + k + m - off = k + m by omega, List.getElem?_eq_getElem (show k + m < d.length by omega)]
  · rfl

/-- Two writes, one behind the other. -/
theorem write_write_append (a b : List Byte) :
    (f.write off a).write (off + a.length) b = f.write off (a ++ b) := by
  refine File.ext (fun i => ?_) ?_
  · rcases Nat.lt_or_ge i off with hlt | hge
    · rw [bytes_write_of_not_mem (.inl (by omega)), bytes_write_of_not_mem (.inl hlt),
        bytes_write_of_not_mem (.inl hlt)]
    · rcases Nat.lt_or_ge i (off + a.length) with hlt' | hge'
      · rw [bytes_write_of_not_mem (.inl hlt'), bytes_write_of_mem hge hlt',
          bytes_write_of_mem hge (by rw [List.length_append]; omega), List.getD_eq_getElem?_getD,
          List.getD_eq_getElem?_getD, List.getElem?_append_left (by omega)]
      · rcases Nat.lt_or_ge i (off + a.length + b.length) with hlt'' | hge''
        · rw [bytes_write_of_mem hge' hlt'', bytes_write_of_mem hge (by rw [List.length_append]; omega),
            List.getD_eq_getElem?_getD, List.getD_eq_getElem?_getD,
            List.getElem?_append_right (by omega), Nat.sub_sub]
        · rw [bytes_write_of_not_mem (.inr hge''), bytes_write_of_not_mem (.inr hge'),
            bytes_write_of_not_mem (.inr (by rw [List.length_append]; omega))]
  · cases a with
    | nil => cases b <;> simp [write]
    | cons x a =>
      cases b with
      | nil => simp [write]
      | cons y b =>
        simp only [write, reduceCtorEq, if_false, List.cons_append, List.length_cons,
          List.length_append]
        omega

theorem peek_append (m : Nat) : f.peek off (n + m) = f.peek off n ++ f.peek (off + n) m := by
  refine List.ext_getElem? fun k => ?_
  rw [List.getElem?_append, getElem?_peek, getElem?_peek, getElem?_peek, length_peek]
  by_cases hk : k < n
  · rw [if_pos hk, if_pos hk, if_pos (by omega)]
  · rw [if_neg hk]
    by_cases hm : k < n + m
    · rw [if_pos hm, if_pos (by omega)]
      congr 2
      omega
    · rw [if_neg hm, if_neg (by omega)]

theorem peek_slice {a b c : List Byte} (h : f.peek off n = a ++ b ++ c) :
    f.peek (off + a.length) b.length = b := by
  have hn : n = a.length + b.length + c.length := by
    have hlen := congrArg List.length h
    rwa [length_peek, List.length_append, List.length_append] at hlen
  rw [hn, peek_append, peek_append] at h
  have hab := (List.append_inj h (by simp)).1
  exact (List.append_inj hab (by simp)).2

theorem read_of_le (h : off + n ≤ f.size) : f.read off n = f.peek off n := by
  rw [read, Nat.min_eq_left (by omega)]

theorem peek_of_zero (h : ∀ i, off ≤ i → f.bytes i = 0) (n : Nat) :
    f.peek off n = List.replicate n 0 := by
  refine List.ext_getElem? fun k => ?_
  rw [getElem?_peek, List.getElem?_replicate]
  split
  · rw [h _ (Nat.le_add_right ..)]
  · rfl

theorem peek_eq_read (f : File) (off n : Nat) :
    f.peek off n = f.read off n ++ List.replicate (n - (f.read off n).length) 0 := by
  rcases Nat.lt_or_ge f.size (off + n) with hlt | hge
  · have hlen : (f.read off n).length = f.size - off := by
      rw [read, length_peek]
      omega
    have hn : n = (f.size - off) + (n - (f.size - off)) := by omega
    have hbehind : ∀ i, off + (f.size - off) ≤ i → f.bytes i = 0 := fun i hi => f.zero i (by omega)
    have hzero := peek_of_zero hbehind (n - (f.size - off))
    rw [hlen, read, Nat.min_eq_right (by omega), ← hzero, ← peek_append, ← hn]
  · rw [read_of_le hge, length_peek, Nat.sub_self, List.replicate_zero, List.append_nil]

-- ---------------------------------------------------------------------------
-- Words of four bytes
-- ---------------------------------------------------------------------------

variable (e : Endian)

def word (f : File) (off : Nat) : Nat := e.decode (f.peek off 4)

def ofWords (ws : List Nat) : List Byte := ws.flatMap (e.encode 4)

variable {e} {ws : List Nat}

@[simp] theorem length_ofWords : (ofWords e ws).length = 4 * ws.length := by
  induction ws with
  | nil => rfl
  | cons w ws ih =>
    have hcons : ofWords e (w :: ws) = e.encode 4 w ++ ofWords e ws := rfl
    rw [hcons, List.length_append, ih, Endian.length_encode, List.length_cons]
    omega

theorem word_lt : f.word e off < 2 ^ 32 := by
  have h := e.decode_lt (f.peek off 4)
  rwa [length_peek] at h

theorem word_write_of_disjoint (h : j + 4 ≤ off ∨ off + d.length ≤ j) :
    (f.write off d).word e j = f.word e j := by
  rw [word, word, peek_write_of_disjoint h]

theorem take_drop_ofWords {k w : Nat} (h : ws[k]? = some w) :
    ((ofWords e ws).drop (4 * k)).take 4 = e.encode 4 w := by
  induction ws generalizing k with
  | nil => cases h
  | cons v ws ih =>
    have hcons : ofWords e (v :: ws) = e.encode 4 v ++ ofWords e ws := rfl
    cases k with
    | zero =>
      cases h
      rw [hcons, Nat.mul_zero, List.drop_zero, List.take_append_of_le_length (by simp),
        List.take_of_length_le (by simp)]
    | succ k =>
      rw [hcons, List.drop_append, List.drop_of_length_le (by rw [Endian.length_encode]; omega),
        List.nil_append,
        Endian.length_encode, show 4 * (k + 1) - 4 = 4 * k by omega]
      exact ih h

theorem word_write_ofWords {k w : Nat} (h : ws[k]? = some w) (hw : w < 2 ^ 32) :
    (f.write off (ofWords e ws)).word e (off + 4 * k) = w := by
  have hk : k < ws.length := (List.getElem?_eq_some_iff.mp h).1
  rw [word, peek_write (by rw [length_ofWords]; omega), take_drop_ofWords h,
    e.decode_encode_four hw]

/-- A cut at a multiple of four leaves a word alone, or takes it away. -/
theorem word_truncate (h : 4 ∣ n) (hoff : 4 ∣ off) :
    (f.truncate n).word e off = if off < n then f.word e off else 0 := by
  have hpeek : ∀ k < 4, (f.truncate n).bytes (off + k) = if off < n then f.bytes (off + k) else 0 := by
    intro k hk
    simp only [truncate]
    split
    · rw [if_pos (by omega)]
    · rw [if_neg (by omega)]
  split
  · next hlt =>
    rw [word, word]
    congr 1
    refine List.map_congr_left fun k hk => ?_
    rw [hpeek k (List.mem_range.mp hk), if_pos hlt]
  · next hge =>
    have hzero : (f.truncate n).peek off 4 = List.replicate 4 0 := by
      refine List.ext_getElem? fun k => ?_
      rw [getElem?_peek, List.getElem?_replicate]
      split
      · next hk => rw [hpeek k hk, if_neg hge]
      · rfl
    rw [word, hzero]
    cases e <;> rfl

end File

end GalaLua.Library
