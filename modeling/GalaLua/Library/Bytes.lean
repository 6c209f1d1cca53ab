import Mathlib.Algebra.Group.Int.Defs
import Mathlib.Algebra.Group.Nat.Defs
import Mathlib.Data.List.Basic
import Mathlib.Tactic.Common

/-!
# Numbers in memory

A number of `n` bytes in either byte order, and memory as a list that is
written and read at offsets. `htonl` and `ntohl` are the conversions of a
host of the given order: what is stored is moved between the two orders.
-/

namespace GalaLua.Library

abbrev Byte := BitVec 8

inductive Endian
  | little
  | big
  deriving DecidableEq, Repr

/-- The `n` low bytes, lowest first. -/
def lowBytes : Nat → Nat → List Byte
  | 0, _ => []
  | n + 1, v => BitVec.ofNat 8 v :: lowBytes n (v / 256)

def ofLowBytes : List Byte → Nat
  | [] => 0
  | b :: bs => b.toNat + 256 * ofLowBytes bs

@[simp] theorem length_lowBytes (n v : Nat) : (lowBytes n v).length = n := by
  induction n generalizing v with
  | zero => rfl
  | succ n ih => simp [lowBytes, ih]

theorem ofLowBytes_lowBytes (n v : Nat) : ofLowBytes (lowBytes n v) = v % 256 ^ n := by
  induction n generalizing v with
  | zero => simp [lowBytes, ofLowBytes, Nat.mod_one]
  | succ n ih =>
    have hpow : 256 ^ (n + 1) = 256 * 256 ^ n := Nat.pow_succ'
    rw [lowBytes, ofLowBytes, ih, BitVec.toNat_ofNat, hpow, Nat.mod_mul]

theorem lowBytes_ofLowBytes (bs : List Byte) : lowBytes bs.length (ofLowBytes bs) = bs := by
  induction bs with
  | nil => rfl
  | cons b bs ih =>
    have hb : b.toNat < 256 := b.isLt
    have hdiv : (b.toNat + 256 * ofLowBytes bs) / 256 = ofLowBytes bs := by omega
    have hlow : BitVec.ofNat 8 (b.toNat + 256 * ofLowBytes bs) = b := by
      apply BitVec.eq_of_toNat_eq
      rw [BitVec.toNat_ofNat]
      omega
    rw [List.length_cons, ofLowBytes, lowBytes, hdiv, ih, hlow]

theorem lowBytes_eq_iff {n v w : Nat} : lowBytes n v = lowBytes n w ↔ v % 256 ^ n = w % 256 ^ n := by
  constructor
  · intro h
    rw [← ofLowBytes_lowBytes, h, ofLowBytes_lowBytes]
  · intro h
    have hv := lowBytes_ofLowBytes (lowBytes n v)
    have hw := lowBytes_ofLowBytes (lowBytes n w)
    rw [length_lowBytes, ofLowBytes_lowBytes] at hv hw
    rw [← hv, ← hw, h]

theorem ofLowBytes_lt (bs : List Byte) : ofLowBytes bs < 256 ^ bs.length := by
  induction bs with
  | nil => exact Nat.one_pos
  | cons b bs ih =>
    have hb : b.toNat < 256 := b.isLt
    have hpow : 256 ^ (bs.length + 1) = 256 * 256 ^ bs.length := Nat.pow_succ'
    rw [ofLowBytes, List.length_cons, hpow]
    omega

/-- A number where an `int` of 32 bits is expected. -/
def int32 (n : Int) : Int := n.bmod (2 ^ 32)

theorem int32_of_lt {n : Nat} (h : n < 2 ^ 31) : int32 n = n := by
  unfold int32
  rw [Int.bmod_def]
  omega

theorem int32_lt (n : Int) : int32 n < 2 ^ 31 := by
  unfold int32
  rw [Int.bmod_def]
  omega

/-- The values of a `long` of 64 bits. -/
def IsLong (n : Int) : Prop := -2 ^ 63 ≤ n ∧ n < 2 ^ 63

instance (n : Int) : Decidable (IsLong n) := inferInstanceAs (Decidable (_ ∧ _))

/-- A number where a `long` is expected: what overflows wraps around. -/
def int64 (n : Int) : Int := n.bmod (2 ^ 64)

theorem int64_of_long {n : Int} (h : IsLong n) : int64 n = n := by
  obtain ⟨hlow, hhigh⟩ := h
  exact Int.bmod_eq_of_le (by omega) (by omega)

theorem int64_eq (n : Int) : ∃ k, int64 n = n - 2 ^ 64 * k ∧ IsLong (int64 n) := by
  refine ⟨n.bdiv (2 ^ 64), ?_, ?_⟩
  · have hdiv := Int.bmod_add_bdiv n (2 ^ 64)
    unfold int64
    omega
  · have hlow := Int.le_bmod (x := n) (show 0 < 2 ^ 64 by decide)
    have hhigh := Int.bmod_lt (x := n) (show 0 < 2 ^ 64 by decide)
    unfold int64 IsLong
    omega

namespace Endian

def encode : Endian → Nat → Nat → List Byte
  | .little, n, v => lowBytes n v
  | .big, n, v => (lowBytes n v).reverse

def decode : Endian → List Byte → Nat
  | .little, bs => ofLowBytes bs
  | .big, bs => ofLowBytes bs.reverse

@[simp] theorem length_encode (e : Endian) (n v : Nat) : (e.encode n v).length = n := by
  cases e <;> simp [encode]

theorem decode_encode (e : Endian) (n v : Nat) : e.decode (e.encode n v) = v % 256 ^ n := by
  cases e <;> simp [encode, decode, ofLowBytes_lowBytes]

theorem encode_decode (e : Endian) (bs : List Byte) : e.encode bs.length (e.decode bs) = bs := by
  cases e with
  | little => exact lowBytes_ofLowBytes bs
  | big =>
    rw [decode, encode, ← List.length_reverse, lowBytes_ofLowBytes, List.reverse_reverse]

theorem decode_lt (e : Endian) (bs : List Byte) : e.decode bs < 256 ^ bs.length := by
  cases e with
  | little => exact ofLowBytes_lt bs
  | big =>
    rw [decode, ← List.length_reverse]
    exact ofLowBytes_lt bs.reverse

theorem decode_encode_four (e : Endian) {v : Nat} (h : v < 2 ^ 32) :
    e.decode (e.encode 4 v) = v := by
  rw [decode_encode]
  exact Nat.mod_eq_of_lt h

def htonl (e : Endian) (v : Nat) : Nat := e.decode (big.encode 4 v)

def ntohl (e : Endian) (v : Nat) : Nat := big.decode (e.encode 4 v)

/-- What `htonl` returns is stored as the bytes of the network order. -/
theorem encode_htonl (e : Endian) (v : Nat) : e.encode 4 (e.htonl v) = big.encode 4 v := by
  have h := e.encode_decode (big.encode 4 v)
  rwa [length_encode] at h

theorem ntohl_decode (e : Endian) {bs : List Byte} (h : bs.length = 4) :
    e.ntohl (e.decode bs) = big.decode bs := by
  rw [ntohl, ← h, encode_decode]

theorem ntohl_decode_encode (e : Endian) {v : Nat} (h : v < 2 ^ 32) :
    e.ntohl (e.decode (big.encode 4 v)) = v := by
  rw [ntohl_decode e (by simp), decode_encode_four big h]

end Endian

-- ---------------------------------------------------------------------------
-- Memory
-- ---------------------------------------------------------------------------

section

variable {α : Type*} {i j n : Nat} {m d : List α}

/-- The `n` cells at `i`. -/
def peek (i n : Nat) (m : List α) : List α := (m.drop i).take n

/-- `d` is stored at `i`; what would lie behind the end is not stored. -/
def poke (i : Nat) (d m : List α) : List α :=
  m.mapIdx fun k b => if i ≤ k then d[k - i]?.getD b else b

@[simp] theorem length_peek : (peek i n m).length = min n (m.length - i) := by
  simp [peek]

@[simp] theorem length_poke : (poke i d m).length = m.length := by
  simp [poke]

theorem getElem?_peek (k : Nat) : (peek i n m)[k]? = if k < n then m[i + k]? else none := by
  simp [peek, List.getElem?_take, List.getElem?_drop]

theorem peek_add (n' : Nat) : peek i (n + n') m = peek i n m ++ peek (i + n) n' m := by
  rw [peek, List.take_add, List.drop_drop]
  rfl

theorem drop_peek : (peek i n m).drop j = peek (i + j) (n - j) m := by
  rw [peek, List.drop_take, List.drop_drop]
  rfl

theorem peek_append_left {z : List α} (h : i + n ≤ m.length) : peek i n (m ++ z) = peek i n m := by
  rw [peek, List.drop_append_of_le_length (by omega), List.take_append_of_le_length (by simp; omega)]
  rfl

theorem peek_succ (h : i < m.length) : peek i (n + 1) m = m[i] :: peek (i + 1) n m := by
  rw [peek, List.drop_eq_getElem_cons h, List.take_succ_cons]
  rfl

theorem getElem?_poke_of_mem {k : Nat} (hi : i ≤ k) (hd : k < i + d.length) (hm : k < m.length) :
    (poke i d m)[k]? = d[k - i]? := by
  have hk : k - i < d.length := by omega
  simp [poke, hi, hk, hm]

theorem getElem?_poke_of_not_mem {k : Nat} (h : k < i ∨ i + d.length ≤ k) :
    (poke i d m)[k]? = m[k]? := by
  rw [poke, List.getElem?_mapIdx]
  rcases h with hlt | hge
  · simp [Nat.not_le.mpr hlt]
  · have hk : d.length ≤ k - i := by omega
    simp [hk]

theorem poke_append {z : List α} (h : m.length = i) (hd : d.length ≤ z.length) :
    poke i d (m ++ z) = m ++ d ++ z.drop d.length := by
  subst h
  refine List.ext_getElem? fun k => ?_
  rcases Nat.lt_or_ge k m.length with hlt | hge
  · rw [getElem?_poke_of_not_mem (.inl hlt), List.append_assoc, List.getElem?_append_left hlt,
      List.getElem?_append_left hlt]
  · rcases Nat.lt_or_ge k (m.length + d.length) with hlt' | hge'
    · rw [getElem?_poke_of_mem hge hlt' (by simp; omega),
        List.getElem?_append_left (by simp; omega), List.getElem?_append_right hge]
    · rw [getElem?_poke_of_not_mem (.inr hge'), List.getElem?_append_right hge,
        List.getElem?_append_right (by simpa using hge'), List.getElem?_drop, List.length_append]
      congr 1
      omega

theorem peek_replicate {k : Nat} (h : i + n ≤ k) (b : α) :
    peek i n (List.replicate k b) = List.replicate n b := by
  rw [peek, List.drop_replicate, List.take_replicate, Nat.min_eq_left (by omega)]

theorem peek_poke_take (h : i + n ≤ m.length) (hn : n ≤ d.length) :
    peek i n (poke i d m) = d.take n := by
  refine List.ext_getElem? fun k => ?_
  rw [getElem?_peek, List.getElem?_take]
  rcases Nat.lt_or_ge k n with hk | hk
  · rw [if_pos hk, if_pos hk, getElem?_poke_of_mem (by omega) (by omega) (by omega),
      Nat.add_sub_cancel_left]
  · rw [if_neg (by omega), if_neg (by omega)]

theorem peek_poke_self (h : i + n ≤ m.length) (hn : d.length = n) :
    peek i n (poke i d m) = d := by
  rw [peek_poke_take h (by omega), List.take_of_length_le (by omega)]

theorem peek_poke_of_disjoint (h : j + n ≤ i ∨ i + d.length ≤ j) :
    peek j n (poke i d m) = peek j n m := by
  refine List.ext_getElem? fun k => ?_
  rw [getElem?_peek, getElem?_peek]
  rcases Nat.lt_or_ge k n with hk | hk
  · rw [if_pos hk, if_pos hk, getElem?_poke_of_not_mem (by omega)]
  · rw [if_neg (by omega), if_neg (by omega)]

theorem peek_poke_one_self (b : α) (h : i + 1 ≤ m.length) : peek i 1 (poke i [b] m) = [b] :=
  peek_poke_self h rfl

theorem peek_poke_one_of_disjoint (b : α) (h : j + n ≤ i ∨ i + 1 ≤ j) : peek j n (poke i [b] m) = peek j n m :=
  peek_poke_of_disjoint h

end

section

variable {i j k n : Nat} {m : List Byte}

theorem peek_poke_encode_self (e : Endian) (v : Nat) (h : i + n ≤ m.length) :
    peek i n (poke i (e.encode n v) m) = e.encode n v :=
  peek_poke_self h (e.length_encode n v)

theorem peek_poke_encode_of_disjoint (e : Endian) (v : Nat) (h : j + n ≤ i ∨ i + k ≤ j) :
    peek j n (poke i (e.encode k v) m) = peek j n m :=
  peek_poke_of_disjoint (by rwa [Endian.length_encode])

end

end GalaLua.Library
