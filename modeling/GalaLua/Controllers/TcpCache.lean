import GalaLua.Library.Bytes
import GalaLua.Library.Transition
import GalaLua.Library.Words
import Mathlib.Data.List.GetD

/-!
# The receive cache of a link

`TcpCache` is a string with two cursors. A `Session` counts beside it what has
been written and how much was eaten; `Fifo` is what one call owes to its caller.
It holds in every run that does not eat past the end of the address space: the
test of `Eat` adds two unsigned words.
-/

namespace GalaLua.Controllers

open Library Library.Words

/-- What `std::string` can hold at the moment; no string is longer than a
difference of two pointers. -/
structure Memory where
  fits : Nat → Bool
  bounded : ∀ n, fits n → n < 2 ^ 63

/-- `_Buf`, `_Step`, `_Begin` and `_End`. -/
structure TcpCache where
  buf : List UInt8
  step : Nat
  begin : Nat
  fin : Nat
  deriving DecidableEq, Repr

inductive Ending
  | returns
  | throws
  deriving DecidableEq, Repr

namespace TcpCache

/-- The constructor, which has no object when it throws. -/
def new (m : Memory) (size step : Nat) : Option TcpCache :=
  if m.fits size then some ⟨List.replicate size 0, step, 0, 0⟩ else none

def reserved (c : TcpCache) : Nat := minus 64 c.buf.length c.fin

def dataSize (c : TcpCache) : Nat := minus 64 c.fin c.begin

/-- The bytes at `Get()`, `DataSize()` of them. -/
def data (c : TcpCache) : List UInt8 := peek c.begin c.dataSize c.buf

/-- The caller stores at `Cursor()`. -/
def write (bs : List UInt8) (c : TcpCache) : TcpCache := { c with buf := poke c.fin bs c.buf }

/-- `_Buf.resize(_Buf.size() * 2)` -/
def double (m : Memory) (c : TcpCache) : TcpCache × Ending :=
  let size := c.buf.length * 2 % 2 ^ 64
  if m.fits size then
    ({ c with buf := c.buf.take size ++ List.replicate (size - c.buf.length) 0 }, .returns)
  else (c, .throws)

/-- The `memmove` to the front. -/
def slide (c : TcpCache) : TcpCache :=
  { c with
    buf := poke 0 (peek c.begin c.dataSize c.buf) c.buf
    fin := c.dataSize
    begin := 0 }

def grow (m : Memory) (len : Nat) (c : TcpCache) : TcpCache × Ending :=
  let c := { c with fin := plus 64 c.fin len }
  if c.reserved ≤ 0 then
    if c.dataSize > minus 64 c.buf.length c.step then c.double m else (c.slide, .returns)
  else (c, .returns)

/-- `Out of Range` leaves the cache as it is. -/
def eat (len : Nat) (c : TcpCache) : TcpCache × Ending :=
  if plus 64 c.begin len ≤ c.fin then
    let c := { c with begin := plus 64 c.begin len }
    if c.begin ≠ c.fin then (c, .returns) else ({ c with begin := 0, fin := 0 }, .returns)
  else (c, .throws)

/-- The loop of `GetLine` with the given number of cursors left. -/
def lineFrom (c : TcpCache) : Nat → Nat → Int
  | 0, _ => -1
  | k + 1, cursor =>
    if c.buf.getD cursor 0 = 10 then cursor - c.begin + 1 else c.lineFrom k (cursor + 1)

/-- `GetLine` as its callers read it, as an `ssize_t`. -/
def getLine (c : TcpCache) : Int := c.lineFrom c.dataSize c.begin

end TcpCache

def lineLength (bs : List UInt8) : Int :=
  match bs.findIdx? (· = 10) with
  | some i => i + 1
  | none => -1

-- ---------------------------------------------------------------------------
-- Calls
-- ---------------------------------------------------------------------------

inductive CacheOp
  /-- bytes stored at `Cursor()`, then `Grow` with what the strings can hold -/
  | append (bs : List UInt8) (m : Memory)
  | eat (n : Nat)

/-- A cache with all bytes stored so far and the number of those eaten. -/
structure Session where
  cache : TcpCache
  written : List UInt8 := []
  eaten : Nat := 0

namespace Session

def call (s : Session) : CacheOp → TcpCache × Ending
  | .append bs m => (s.cache.write bs).grow m bs.length
  | .eat n => s.cache.eat n

def next (s : Session) (op : CacheOp) : Session :=
  match op with
  | .append bs _ => { s with cache := (s.call op).1, written := s.written ++ bs }
  | .eat n =>
    { s with
      cache := (s.call op).1
      eaten := if n ≤ s.cache.dataSize then s.eaten + n else s.eaten }

/-- The caller stores no more than there is room for, and passes a `size_t`. -/
def Legal (s : Session) : CacheOp → Prop
  | .append bs _ => bs.length ≤ s.cache.reserved
  | .eat n => n < 2 ^ 64

instance (s : Session) : (op : CacheOp) → Decidable (s.Legal op)
  | .append _ _ => inferInstanceAs (Decidable (_ ≤ _))
  | .eat _ => inferInstanceAs (Decidable (_ < _))

/-- What a call owes to its caller. -/
structure Fifo (s : Session) (op : CacheOp) : Prop where
  data : (s.next op).cache.data = (s.next op).written.drop (s.next op).eaten
  ordered : (s.next op).cache.begin ≤ (s.next op).cache.fin ∧
    (s.next op).cache.fin ≤ (s.next op).cache.buf.length
  reserved : ∀ bs m, op = .append bs m → (s.call op).2 = .returns → 0 < (s.next op).cache.reserved
  eats : ∀ n, op = .eat n → n ≤ s.cache.dataSize → (s.call op).2 = .returns
  beyond : ∀ n, op = .eat n → s.cache.dataSize < n → s.call op = (s.cache, .throws)
  line : (s.next op).cache.getLine = lineLength (s.next op).cache.data

/-- `Eat` is asked for what is there, or for an end that is a `size_t`. -/
def Inside (s : Session) : CacheOp → Prop
  | .append _ _ => True
  | .eat n => n ≤ s.cache.dataSize ∨ s.cache.begin + n < 2 ^ 64

end Session

instance (s : Session) : (op : CacheOp) → Decidable (s.Inside op)
  | .append _ _ => inferInstanceAs (Decidable True)
  | .eat _ => inferInstanceAs (Decidable (_ ∨ _))

-- ---------------------------------------------------------------------------
-- The cursors
-- ---------------------------------------------------------------------------

namespace TcpCache

structure Ordered (c : TcpCache) : Prop where
  begin : c.begin ≤ c.fin
  fin : c.fin ≤ c.buf.length
  size : c.buf.length < 2 ^ 63
  step : 0 < c.step
  step_le : c.step ≤ c.buf.length

variable {c : TcpCache} {bs : List UInt8} {n : Nat}

theorem Ordered.reserved_eq (h : c.Ordered) : c.reserved = c.buf.length - c.fin := by
  have hsize := h.size
  rw [reserved, minus_of_le h.fin (by omega)]

theorem Ordered.dataSize_eq (h : c.Ordered) : c.dataSize = c.fin - c.begin := by
  have hsize := h.size
  have hfin := h.fin
  rw [dataSize, minus_of_le h.begin (by omega)]

theorem Ordered.length_data (h : c.Ordered) : c.data.length = c.dataSize := by
  have := h.begin
  have := h.fin
  rw [data, length_peek, h.dataSize_eq]
  omega

theorem Ordered.data_empty (h : c.Ordered) (hall : c.begin = c.fin) : c.data = [] := by
  rw [data, h.dataSize_eq, hall, Nat.sub_self]
  rfl

theorem new_ordered {m : Memory} {size step : Nat} (hstep : 0 < step) (hle : step ≤ size)
    (h : new m size step = some c) : c.Ordered ∧ c.data = [] := by
  unfold new at h
  split at h
  · next hfits =>
    obtain rfl := Option.some.inj h
    have hsize := m.bounded size hfits
    have hord : (⟨List.replicate size 0, step, 0, 0⟩ : TcpCache).Ordered := by
      refine ⟨Nat.le_refl 0, Nat.zero_le _, ?_, hstep, ?_⟩ <;> simp only [List.length_replicate]
      · exact hsize
      · exact hle
    exact ⟨hord, hord.data_empty rfl⟩
  · cases h

theorem ordered_fin (h : c.Ordered) (hle : c.fin + n ≤ c.buf.length) :
    ({ c with fin := c.fin + n } : TcpCache).Ordered :=
  ⟨h.begin.trans (Nat.le_add_right ..), hle, h.size, h.step, h.step_le⟩

theorem ordered_write (h : c.Ordered) (bs : List UInt8) : (c.write bs).Ordered := by
  refine ⟨h.begin, ?_, ?_, h.step, ?_⟩ <;> simp only [write, length_poke]
  · exact h.fin
  · exact h.size
  · exact h.step_le

theorem data_write (h : c.Ordered) (hlen : bs.length ≤ c.reserved) :
    ({ c.write bs with fin := c.fin + bs.length } : TcpCache).data = c.data ++ bs := by
  have hbegin := h.begin
  rw [h.reserved_eq] at hlen
  have hfin := h.fin
  have hord : ({ c.write bs with fin := c.fin + bs.length } : TcpCache).Ordered := by
    refine ordered_fin (ordered_write h bs) ?_
    simp only [write, length_poke]
    omega
  have hsize : c.fin + bs.length - c.begin = c.fin - c.begin + bs.length := by omega
  rw [data, hord.dataSize_eq, data, h.dataSize_eq]
  simp only [write]
  rw [hsize, peek_add, Nat.add_sub_cancel' hbegin, peek_poke_self (by omega) rfl,
    peek_poke_of_disjoint (by omega)]

-- ---------------------------------------------------------------------------
-- Growing
-- ---------------------------------------------------------------------------

theorem slide_ordered (h : c.Ordered) : c.slide.Ordered := by
  have hfin := h.fin
  refine ⟨Nat.zero_le _, ?_, ?_, h.step, ?_⟩ <;> simp only [slide, length_poke]
  · rw [h.dataSize_eq]
    omega
  · exact h.size
  · exact h.step_le

theorem slide_data (h : c.Ordered) : c.slide.data = c.data := by
  have hfin := h.fin
  have hsize : c.slide.dataSize = c.dataSize := by
    rw [(slide_ordered h).dataSize_eq]
    exact Nat.sub_zero _
  rw [data, hsize]
  refine peek_poke_self ?_ h.length_data
  show 0 + c.dataSize ≤ c.buf.length
  rw [h.dataSize_eq]
  omega

theorem double_eq (h : c.Ordered) {m : Memory} (hfits : m.fits (c.buf.length * 2)) :
    c.double m = ({ c with buf := c.buf ++ List.replicate c.buf.length 0 }, .returns) := by
  have hsize := h.size
  have hmod : c.buf.length * 2 % 2 ^ 64 = c.buf.length * 2 := Nat.mod_eq_of_lt (by omega)
  have hpad : c.buf.length * 2 - c.buf.length = c.buf.length := by omega
  simp only [double, hmod, if_pos hfits, hpad]
  rw [List.take_of_length_le (by omega)]

theorem double_throws (h : c.Ordered) {m : Memory} (hfits : ¬m.fits (c.buf.length * 2)) :
    c.double m = (c, .throws) := by
  have hsize := h.size
  have hmod : c.buf.length * 2 % 2 ^ 64 = c.buf.length * 2 := Nat.mod_eq_of_lt (by omega)
  simp only [double, hmod, if_neg hfits]

/-- What a call leaves of a cache with the data `bs`; one that returns leaves
room. -/
structure Grown (r : TcpCache × Ending) (bs : List UInt8) : Prop where
  ordered : r.1.Ordered
  data : r.1.data = bs
  room : r.2 = .returns → 0 < r.1.reserved

theorem double_grown (h : c.Ordered) (m : Memory) : Grown (c.double m) c.data := by
  by_cases hfits : m.fits (c.buf.length * 2)
  · have hsize := m.bounded _ hfits
    have hbegin := h.begin
    have hfin := h.fin
    have hstep := h.step
    have hle := h.step_le
    have hlen : (c.buf ++ List.replicate c.buf.length 0).length = c.buf.length + c.buf.length := by
      rw [List.length_append, List.length_replicate]
    have hord : ({ c with buf := c.buf ++ List.replicate c.buf.length 0 } : TcpCache).Ordered := by
      refine ⟨hbegin, ?_, ?_, hstep, ?_⟩ <;> simp only [hlen] <;> omega
    rw [double_eq h hfits]
    refine ⟨hord, ?_, fun _ => ?_⟩
    · rw [data, hord.dataSize_eq, data, h.dataSize_eq]
      refine peek_append_left ?_
      show c.begin + (c.fin - c.begin) ≤ c.buf.length
      omega
    · have hroom := hord.reserved_eq
      simp only [hlen] at hroom
      simp only [hroom]
      omega
  · rw [double_throws h hfits]
    exact ⟨h, rfl, nofun⟩

/-- A full cache with a step of free space in front of its data slides, any
other one is doubled. -/
theorem grow_grown (h : c.Ordered) (m : Memory) (hlen : n ≤ c.reserved) :
    Grown (c.grow m n) ({ c with fin := c.fin + n } : TcpCache).data := by
  have hsize := h.size
  have hfin := h.fin
  rw [h.reserved_eq] at hlen
  have hord := ordered_fin (n := n) h (by omega)
  have hplus : plus 64 c.fin n = c.fin + n := plus_of_lt (by omega)
  simp only [grow, hplus]
  split
  · next hfull =>
    rw [hord.reserved_eq] at hfull
    split
    · exact double_grown hord m
    · next hslide =>
      have hle := h.step_le
      have hstep := h.step
      rw [minus_of_le hle (by omega)] at hslide
      refine ⟨slide_ordered hord, slide_data hord, fun _ => ?_⟩
      rw [(slide_ordered hord).reserved_eq]
      simp only [slide, length_poke]
      omega
  · next hroom => exact ⟨hord, rfl, fun _ => Nat.lt_of_not_le hroom⟩

theorem append_grown (h : c.Ordered) (m : Memory) (hlen : bs.length ≤ c.reserved) :
    Grown ((c.write bs).grow m bs.length) (c.data ++ bs) := by
  have hreserved : (c.write bs).reserved = c.reserved := by
    simp only [reserved, write, length_poke]
  rw [← data_write h hlen]
  exact grow_grown (ordered_write h bs) m (hreserved ▸ hlen)

-- ---------------------------------------------------------------------------
-- Eating
-- ---------------------------------------------------------------------------

theorem eat_inside (h : c.Ordered) (hn : n ≤ c.dataSize) :
    (c.eat n).1.Ordered ∧ (c.eat n).1.data = c.data.drop n ∧ (c.eat n).2 = .returns := by
  have hsize := h.size
  have hbegin := h.begin
  have hfin := h.fin
  rw [h.dataSize_eq] at hn
  have hplus : plus 64 c.begin n = c.begin + n := plus_of_lt (by omega)
  have hdrop : c.data.drop n = peek (c.begin + n) (c.fin - (c.begin + n)) c.buf := by
    rw [data, h.dataSize_eq, drop_peek, Nat.sub_sub]
  simp only [eat, hplus, if_pos (show c.begin + n ≤ c.fin by omega)]
  split
  · have hord : ({ c with begin := c.begin + n } : TcpCache).Ordered :=
      ⟨by show c.begin + n ≤ c.fin; omega, hfin, hsize, h.step, h.step_le⟩
    refine ⟨hord, ?_, rfl⟩
    rw [hdrop, data, hord.dataSize_eq]
  · next hall =>
    have hall : c.begin + n = c.fin := Decidable.not_not.mp hall
    have hord : ({ c with begin := 0, fin := 0 } : TcpCache).Ordered :=
      ⟨Nat.le_refl 0, Nat.zero_le _, hsize, h.step, h.step_le⟩
    refine ⟨hord, ?_, rfl⟩
    rw [hdrop, hall, Nat.sub_self]
    exact hord.data_empty rfl

theorem eat_beyond (h : c.Ordered) (hn : c.dataSize < n) (hend : c.begin + n < 2 ^ 64) :
    c.eat n = (c, .throws) := by
  have hbegin := h.begin
  rw [h.dataSize_eq] at hn
  have hplus : plus 64 c.begin n = c.begin + n := plus_of_lt hend
  simp only [eat, hplus, if_neg (show ¬c.begin + n ≤ c.fin by omega)]

/-- The end of what is asked for wraps to a place before the data. -/
theorem eat_wraps (h : c.Ordered) (hn : n < 2 ^ 64) (hend : 2 ^ 64 ≤ c.begin + n) :
    (c.eat n).2 = .returns := by
  have hsize := h.size
  have hbegin := h.begin
  have hfin := h.fin
  have hplus : plus 64 c.begin n = c.begin + n - 2 ^ 64 := by
    rw [plus, Nat.mod_eq_sub_mod hend, Nat.mod_eq_of_lt (by omega)]
  simp only [eat, hplus, if_pos (show c.begin + n - 2 ^ 64 ≤ c.fin by omega)]
  split <;> rfl

-- ---------------------------------------------------------------------------
-- Lines
-- ---------------------------------------------------------------------------

theorem lineFrom_eq (k cursor : Nat) (hle : cursor + k ≤ c.buf.length) :
    c.lineFrom k cursor =
      match (peek cursor k c.buf).findIdx? (· = 10) with
      | some i => (cursor + i : Nat) - c.begin + 1
      | none => -1 := by
  induction k generalizing cursor with
  | zero => rfl
  | succ k ih =>
    have hlt : cursor < c.buf.length := by omega
    rw [lineFrom, List.getD_eq_getElem _ _ hlt, peek_succ hlt, List.findIdx?_cons, ih _ (by omega)]
    by_cases hlf : c.buf[cursor] = 10
    · simp only [hlf, if_true, decide_true, Nat.add_zero]
    · simp only [hlf, if_false, decide_false, Bool.false_eq_true]
      cases (peek (cursor + 1) k c.buf).findIdx? (· = 10) with
      | none => rfl
      | some i =>
        show ((cursor + 1 + i : Nat) : Int) - c.begin + 1 = (cursor + (i + 1) : Nat) - c.begin + 1
        omega

theorem getLine_eq (h : c.Ordered) : c.getLine = lineLength c.data := by
  have hbegin := h.begin
  have hfin := h.fin
  have hle : c.begin + c.dataSize ≤ c.buf.length := by
    rw [h.dataSize_eq]
    omega
  rw [getLine, lineFrom_eq _ _ hle, lineLength, data]
  cases (peek c.begin c.dataSize c.buf).findIdx? (· = 10) with
  | none => rfl
  | some i =>
    show ((c.begin + i : Nat) : Int) - c.begin + 1 = i + 1
    omega

end TcpCache

-- ---------------------------------------------------------------------------
-- Runs
-- ---------------------------------------------------------------------------

namespace Session

open TcpCache

variable {s : Session} {op : CacheOp}

structure Inv (s : Session) : Prop where
  ordered : s.cache.Ordered
  data : s.cache.data = s.written.drop s.eaten
  eaten : s.eaten ≤ s.written.length

theorem Inv.next (h : s.Inv) (hl : s.Legal op) (hin : s.Inside op) : (s.next op).Inv := by
  cases op with
  | append bs m =>
    have hgrown := append_grown h.ordered m hl
    have heaten := h.eaten
    refine ⟨hgrown.ordered, ?_, ?_⟩
    · rw [show (s.next (.append bs m)).cache.data = s.cache.data ++ bs from hgrown.data, h.data]
      exact (List.drop_append_of_le_length heaten).symm
    · simp only [Session.next, List.length_append]
      omega
  | eat n =>
    by_cases hn : n ≤ s.cache.dataSize
    · obtain ⟨hord, hdata, -⟩ := eat_inside h.ordered hn
      have hlen : s.cache.data.length = s.cache.dataSize := h.ordered.length_data
      rw [h.data, List.length_drop] at hlen
      have heaten := h.eaten
      refine ⟨hord, ?_, ?_⟩ <;> simp only [Session.next, call, if_pos hn]
      · rw [hdata, h.data, List.drop_drop]
      · omega
    · have hbeyond := eat_beyond h.ordered (Nat.lt_of_not_le hn) (hin.resolve_left hn)
      refine ⟨?_, ?_, ?_⟩ <;> simp only [Session.next, call, hbeyond, if_neg hn]
      · exact h.ordered
      · exact h.data
      · exact h.eaten

theorem fifo_iff_inside (h : s.Inv) (hl : s.Legal op) : s.Fifo op ↔ s.Inside op := by
  constructor
  · intro hfifo
    cases op with
    | append => trivial
    | eat n =>
      by_contra hout
      obtain ⟨hn, hend⟩ := not_or.mp hout
      have hthrows := hfifo.beyond n rfl (Nat.lt_of_not_le hn)
      have hreturns := eat_wraps h.ordered hl (Nat.le_of_not_lt hend)
      rw [show s.cache.eat n = (s.cache, .throws) from hthrows] at hreturns
      cases hreturns
  · intro hin
    have hnext := h.next hl hin
    refine ⟨hnext.data, ⟨hnext.ordered.begin, hnext.ordered.fin⟩, ?_, ?_, ?_, getLine_eq hnext.ordered⟩
    · rintro bs m rfl hret
      exact (append_grown h.ordered m hl).room hret
    · rintro n rfl hn
      exact (eat_inside h.ordered hn).2.2
    · rintro n rfl hn
      exact eat_beyond h.ordered hn (hin.resolve_left (Nat.not_le_of_lt hn))

/-- Over any calls on a new cache: each of them keeps the bytes in their order
exactly when none asks `Eat` for more than is there with an end beyond the
address space. -/
theorem fifo_run_iff {m : Memory} {size step : Nat} {c : TcpCache} (hstep : 0 < step)
    (hle : step ≤ size) (hc : TcpCache.new m size step = some c) (ops : List CacheOp)
    (hl : ∀ t ∈ turns next { cache := c } ops, t.1.Legal t.2) :
    (∀ t ∈ turns next { cache := c } ops, t.1.Fifo t.2) ↔
      ∀ t ∈ turns next { cache := c } ops, t.1.Inside t.2 := by
  obtain ⟨hord, hdata⟩ := new_ordered hstep hle hc
  refine forall_turns_iff_of (I := Inv) (l := Legal) (fun _ _ => fifo_iff_inside) ?_ ops
    ⟨hord, hdata, Nat.le_refl 0⟩ hl
  intro s op h hl hfifo
  exact h.next hl ((fifo_iff_inside h hl).mp hfifo)

def megabyte : Memory := ⟨fun n => n ≤ 2 ^ 20, fun n h => by
  have hle : n ≤ 2 ^ 20 := of_decide_eq_true h
  omega⟩

/-- A cache of eight bytes that slides, then doubles. -/
def growingRun : List CacheOp :=
  [.append [1, 2, 3, 4, 5, 6] megabyte, .eat 4, .append [7, 8] megabyte,
    .append [9, 10, 11, 12] megabyte, .eat 9, .eat 8]

theorem fifo_run_grows :
    (growingRun.foldl next { cache := ⟨List.replicate 8 0, 2, 0, 0⟩ }).cache.buf.length = 16 ∧
      ∀ t ∈ turns next { cache := ⟨List.replicate 8 0, 2, 0, 0⟩ } growingRun, t.1.Fifo t.2 :=
  ⟨by decide, (fifo_run_iff (m := megabyte) (by decide) (by decide)
    (show TcpCache.new megabyte 8 2 = some _ from rfl) _ (by decide)).mpr (by decide)⟩

/-- With one byte eaten and one left, `Eat` of all but one of the numbers of a
`size_t` returns, and the eaten byte is back. -/
theorem eaten_byte_back :
    ¬∀ (m : Memory) (size step : Nat) (c : TcpCache) (ops : List CacheOp), 0 < step → step ≤ size →
      TcpCache.new m size step = some c → (∀ t ∈ turns next { cache := c } ops, t.1.Legal t.2) →
        ∀ t ∈ turns next { cache := c } ops, t.1.Fifo t.2 := by
  intro h
  have hfifo := h megabyte 8 2 _ [.append [1, 2] megabyte, .eat 1, .eat (2 ^ 64 - 1)] (by decide)
    (by decide) rfl (by decide) _ (List.getLast_mem (by simp [turns]))
  have hthrows := congrArg Prod.snd (hfifo.beyond _ rfl (by decide))
  revert hthrows
  decide

end Session

end GalaLua.Controllers
