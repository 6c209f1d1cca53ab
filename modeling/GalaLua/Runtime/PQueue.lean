import GalaLua.Library.Memory

/-!
# A queue in shared memory

`PQueue` lays a header and an array of cells of 160 bytes over the memory it is
given. `BitMap` has a byte for every page of 1024 cells, which is set when the
last cell of the page is taken; the messages are chained from cell 0, the list
head, to the cell `Last`. The fields before `BitMap` are written under their
own names only, as every other address lies behind them, so they are fields
here; the rest is bytes. An access outside the memory is undefined, and the run
ends there.
-/

namespace GalaLua.Runtime

open Library

namespace PQueue

/-- `sizeof(QueueHeader)`, the offsets of `BitMap` and `Trunk` in it, and
`sizeof(QueueMSG)`, with pointers and `LONG` of 8 bytes. -/
def headerSize : Nat := 1176
def bitMapAt : Nat := 148
def trunkAt : Nat := 1172
def unitSize : Nat := 160
def cellPageSize : Nat := 1024

def cellAt (i : Nat) : Nat := trunkAt + unitSize * i

/-- The fields of a `QueueMSG`; `Used` is its first byte. -/
def idAt (i : Nat) : Nat := cellAt i + 8
def nextAt (i : Nat) : Nat := cellAt i + 16
def lenAt (i : Nat) : Nat := cellAt i + 24
def msgAt (i : Nat) : Nat := cellAt i + 26

/-- `sizeof(pMsg->MSG)` -/
def msgSize : Nat := 128

/-- -1 as a `size_t` -/
def minusOne : Nat := 2 ^ 64 - 1

/-- The values of a `SHORT` from 0 on. -/
def shorts : Nat := 2 ^ 15

/-- `pHead->Count`, in the arithmetic of `size_t`. -/
def countOf (size : BitVec 64) : BitVec 64 :=
  (size - BitVec.ofNat 64 headerSize) / BitVec.ofNat 64 unitSize

/-- `_Pages`, a `SHORT`. -/
def pagesOf (size : BitVec 64) : Int :=
  (BitVec.ofNat 16 ((countOf size - 1).toNat / cellPageSize)).toInt

end PQueue

/-- `writes` has what the call under way has stored so far, and where. -/
structure PQueue where
  size : BitVec 64
  pages : Int
  serialNo : BitVec 64
  last : Nat
  mem : Memory
  writes : List (Nat × List Byte)

namespace PQueue

/-- The constructor, over memory without the magic number: the cells are left
as they are. -/
def new (size : BitVec 64) (mem : Memory) : PQueue where
  size := size
  pages := pagesOf size
  serialNo := 0
  last := 0
  mem := mem.write bitMapAt (List.replicate 1024 0)
  writes := []

-- ---------------------------------------------------------------------------
-- Access
-- ---------------------------------------------------------------------------

def fetch (q : PQueue) (a n : Nat) : Option (List Byte) :=
  if a + n ≤ q.size.toNat then some (q.mem.read a n) else none

def fetchByte (q : PQueue) (a : Nat) : Option Byte :=
  if a < q.size.toNat then some (q.mem a) else none

def fetchNumber (q : PQueue) (a n : Nat) : Option Nat :=
  if a + n ≤ q.size.toNat then some (q.mem.load a n) else none

def store (q : PQueue) (a : Nat) (d : List Byte) : PQueue :=
  { q with mem := q.mem.write a d, writes := q.writes ++ [(a, d)] }

def assign (q : PQueue) (a : Nat) (d : List Byte) : Option PQueue :=
  if a + d.length ≤ q.size.toNat then some (q.store a d) else none

-- ---------------------------------------------------------------------------
-- Allocation
-- ---------------------------------------------------------------------------

/-- The first loop of `__trunk_malloc`. After `SHRT_MAX` the index is negative,
and its byte before the memory. -/
def findPage (q : PQueue) : Nat → Nat → Option Nat
  | 0, _ => none
  | left + 1, pgIdx => do
    let b ← q.fetchByte (bitMapAt + pgIdx)
    if b ≠ 0 ∧ (pgIdx : Int) ≠ q.pages then q.findPage left (pgIdx + 1) else some pgIdx

/-- The second loop: `left` cells from `i` on. -/
def findCell (q : PQueue) : Nat → Nat → Option Nat
  | 0, _ => some 0
  | left + 1, i => do
    let b ← q.fetchByte (cellAt i)
    if b = 0 then some i else q.findCell left (i + 1)

def trunkMalloc (q : PQueue) : Option (Nat × PQueue) := do
  let pgIdx ← q.findPage shorts 0
  let b ← q.fetchByte (bitMapAt + pgIdx)
  if (pgIdx : Int) = q.pages ∨ b ≠ 0 then some (0, q)
  else
    let i ← q.findCell cellPageSize (1 + pgIdx * cellPageSize)
    if i = 0 then some (0, q)
    else
      let q ← if i = (pgIdx + 1) * cellPageSize then q.assign (bitMapAt + (i - 1) / cellPageSize) [1] else some q
      let q ← q.assign (cellAt i) [1]
      some (i, q)

/-- The address of the byte that `__trunk_free` clears; `idx - 1` is a `size_t`. -/
def mapByteOf (idx : Nat) : Nat :=
  bitMapAt + (if idx = 0 then minusOne else idx - 1) / cellPageSize

def trunkFree (q : PQueue) (idx : Nat) : Option PQueue := do
  let q ← q.assign (mapByteOf idx) [0]
  q.assign (cellAt idx) [0]

-- ---------------------------------------------------------------------------
-- Messages
-- ---------------------------------------------------------------------------

/-- The queue as a call finds it. -/
def entered (q : PQueue) : PQueue := { q with writes := [] }

inductive Outcome (ρ : Type)
  /-- there is no cell, or no message: the call waits for the condition -/
  | waits
  | outside
  | done (result : ρ)

/-- `Put` from the cell it was given on. -/
def fill (q : PQueue) (idx : Nat) (buf : List Byte) : Option PQueue := do
  let length := min buf.length unitSize
  let q := { q with serialNo := q.serialNo + 1 }
  let q ← q.assign (idAt idx) (lowBytes 8 q.serialNo.toNat)
  let q ← q.assign (msgAt idx) (List.replicate msgSize 0)
  let q ← q.assign (msgAt idx) (buf.take length)
  let q ← q.assign (lenAt idx) (lowBytes 2 length)
  let q ← q.assign (nextAt q.last) (lowBytes 8 idx)
  some { q with last := idx }

/-- A turn of `Put` under the lock. -/
def put (q : PQueue) (buf : List Byte) : Outcome PQueue :=
  match q.entered.trunkMalloc with
  | none => .outside
  | some (0, _) => .waits
  | some (idx, q) =>
    match q.fill idx buf with
    | none => .outside
    | some q => .done q

/-- The end of both branches of `Get`: what is copied to the reader's buffer of
`len` bytes. -/
def takeOut (q : PQueue) (tmp len : Nat) : Option (List Byte × PQueue) := do
  let size ← q.fetchNumber (lenAt tmp) 2
  let out ← q.fetch (msgAt tmp) (min size len)
  let q ← q.trunkFree tmp
  some (out, q)

def unlink (q : PQueue) (len : Nat) : Option (List Byte × PQueue) := do
  let tmp ← q.fetchNumber (nextAt 0) 8
  if tmp = q.last then
    let q ← { q with last := 0 }.assign (nextAt 0) (lowBytes 8 minusOne)
    q.takeOut tmp len
  else
    let next ← q.fetchNumber (nextAt tmp) 8
    let q ← q.assign (nextAt 0) (lowBytes 8 next)
    q.takeOut tmp len

/-- A turn of `Get` under the lock. -/
def get (q : PQueue) (len : Nat) : Outcome (List Byte × PQueue) :=
  if q.last = 0 then .waits
  else
    match q.entered.unlink len with
    | none => .outside
    | some r => .done r

-- ---------------------------------------------------------------------------
-- Access
-- ---------------------------------------------------------------------------

variable {q q' : PQueue} {a n i r pg left len tmp : Nat} {d buf out : List Byte} {b : Byte}

@[simp] theorem store_size : (q.store a d).size = q.size := rfl

@[simp] theorem store_pages : (q.store a d).pages = q.pages := rfl

@[simp] theorem store_serialNo : (q.store a d).serialNo = q.serialNo := rfl

@[simp] theorem store_last : (q.store a d).last = q.last := rfl

@[simp] theorem store_mem : (q.store a d).mem = q.mem.write a d := rfl

@[simp] theorem store_writes : (q.store a d).writes = q.writes ++ [(a, d)] := rfl

@[simp] theorem entered_size : q.entered.size = q.size := rfl

@[simp] theorem entered_pages : q.entered.pages = q.pages := rfl

@[simp] theorem entered_last : q.entered.last = q.last := rfl

@[simp] theorem entered_mem : q.entered.mem = q.mem := rfl

theorem assign_eq_some : q.assign a d = some q' ↔ a + d.length ≤ q.size.toNat ∧ q' = q.store a d := by
  simp [assign, eq_comm]

theorem assign_of_le (h : a + d.length ≤ q.size.toNat) : q.assign a d = some (q.store a d) := if_pos h

theorem fetch_eq_some : q.fetch a n = some out ↔ a + n ≤ q.size.toNat ∧ q.mem.read a n = out := by
  simp [fetch]

theorem fetchByte_eq_some : q.fetchByte a = some b ↔ a < q.size.toNat ∧ q.mem a = b := by
  simp [fetchByte]

theorem fetchNumber_eq_some : q.fetchNumber a n = some r ↔ a + n ≤ q.size.toNat ∧ q.mem.load a n = r := by
  simp [fetchNumber]

-- ---------------------------------------------------------------------------
-- A new queue
-- ---------------------------------------------------------------------------

section

variable {size : BitVec 64} {mem : Memory} {k n : Nat}

theorem new_map (hk : k < 1024) : (new size mem).mem (bitMapAt + k) = 0 := by
  have hlen : k < (List.replicate 1024 (0 : Byte)).length := by
    rwa [List.length_replicate]
  exact (Memory.write_of_mem hlen).trans (List.getElem_replicate hlen)

theorem new_mem (x : Nat) : (new size fun _ => 0).mem x = 0 := by
  have hrep : (List.replicate 1024 (0 : Byte))[x - bitMapAt]?.getD 0 = 0 := by
    rw [List.getElem?_replicate]
    split
    · rfl
    · rfl
  change (if bitMapAt ≤ x then (List.replicate 1024 (0 : Byte))[x - bitMapAt]?.getD 0 else 0) = 0
  split
  · exact hrep
  · rfl

theorem count_toNat : (countOf size).toNat = (2 ^ 64 - headerSize + size.toNat) % 2 ^ 64 / unitSize := by
  rw [countOf, BitVec.toNat_udiv, BitVec.toNat_sub]
  rfl

theorem pages_eq (h : (2 ^ 64 - 1 + (countOf size).toNat) % 2 ^ 64 / cellPageSize = n) :
    pagesOf size = (n : Int).bmod (2 ^ 16) := by
  rw [pagesOf, BitVec.toInt_ofNat', BitVec.toNat_sub, ← h]
  rfl

theorem count_of_le (h : headerSize ≤ size.toNat) :
    (countOf size).toNat = (size.toNat - headerSize) / unitSize := by
  have hs : size.toNat < 2 ^ 64 := size.isLt
  have hmod : (2 ^ 64 - headerSize + size.toNat) % 2 ^ 64 = size.toNat - headerSize := by
    rw [headerSize] at h ⊢
    omega
  rw [count_toNat, hmod]

theorem pages_of_count (h : (countOf size).toNat = n + 1) :
    pagesOf size = ((n / cellPageSize : Nat) : Int).bmod (2 ^ 16) := by
  have hlt : (countOf size).toNat < 2 ^ 64 := (countOf size).isLt
  have hmod : (2 ^ 64 - 1 + (countOf size).toNat) % 2 ^ 64 = n := by omega
  exact pages_eq (by rw [hmod])

end

-- ---------------------------------------------------------------------------
-- The search for a cell
-- ---------------------------------------------------------------------------

/-- `pMsg[i].Used` -/
def Used (q : PQueue) (i : Nat) : Prop := q.mem (cellAt i) ≠ 0

/-- The whole cell lies inside the memory. -/
def Fits (q : PQueue) (i : Nat) : Prop := cellAt i + unitSize ≤ q.size.toNat

theorem findPage_spec (h : q.findPage left pg = some r) :
    pg ≤ r ∧ bitMapAt + r < q.size.toNat ∧ (q.mem (bitMapAt + r) ≠ 0 → (r : Int) = q.pages) ∧
      ∀ k, pg ≤ k → k < r → q.mem (bitMapAt + k) ≠ 0 ∧ (k : Int) ≠ q.pages := by
  induction left generalizing pg with
  | zero => cases h
  | succ left ih =>
    simp only [findPage, Option.bind_eq_bind, Option.bind_eq_some_iff, fetchByte_eq_some] at h
    obtain ⟨b, ⟨hin, rfl⟩, h⟩ := h
    split at h
    next hfull =>
      obtain ⟨hle, hr, hstop, hpass⟩ := ih h
      refine ⟨by omega, hr, hstop, fun k hk hlt => ?_⟩
      rcases Nat.eq_or_lt_of_le hk with rfl | hk'
      · exact hfull
      · exact hpass k hk' hlt
    next hstop =>
      cases h
      refine ⟨Nat.le_refl _, hin, fun hb => ?_, fun k hk hlt => ?_⟩
      · by_contra hne
        exact hstop ⟨hb, hne⟩
      · omega

/-- The search ends at the page `_Pages` at the latest. -/
theorem findPage_isSome {n : Nat} (hin : bitMapAt + n < q.size.toNat) (hpages : q.pages = n) (hpg : pg ≤ n)
    (hleft : n < pg + left) : ∃ r ≤ n, q.findPage left pg = some r := by
  induction left generalizing pg with
  | zero => omega
  | succ left ih =>
    have hf := fetchByte_eq_some.mpr ⟨(show bitMapAt + pg < q.size.toNat by omega), rfl⟩
    by_cases hfull : q.mem (bitMapAt + pg) ≠ 0 ∧ (pg : Int) ≠ q.pages
    · have hlt : pg ≠ n := fun heq => hfull.2 (by rw [hpages, heq])
      obtain ⟨r, hr, h⟩ := ih (show pg + 1 ≤ n by omega) (by omega)
      refine ⟨r, hr, ?_⟩
      simp only [findPage, hf, Option.bind_eq_bind, Option.bind_some]
      exact (if_pos hfull).trans h
    · refine ⟨pg, hpg, ?_⟩
      simp only [findPage, hf, Option.bind_eq_bind, Option.bind_some]
      exact if_neg hfull

theorem findPage_of_zero (hin : bitMapAt + pg < q.size.toNat) (h0 : q.mem (bitMapAt + pg) = 0) :
    q.findPage (left + 1) pg = some pg := by
  have hf := fetchByte_eq_some.mpr ⟨hin, h0⟩
  simp [findPage, hf]

theorem findPage_of_full (hin : bitMapAt + pg < q.size.toNat) (hb : q.mem (bitMapAt + pg) ≠ 0)
    (hne : (pg : Int) ≠ q.pages) : q.findPage (left + 1) pg = q.findPage left (pg + 1) := by
  have hf := fetchByte_eq_some.mpr ⟨hin, rfl⟩
  simp only [findPage, hf, Option.bind_eq_bind, Option.bind_some]
  exact if_pos ⟨hb, hne⟩

theorem findPage_of_end (hin : bitMapAt + pg < q.size.toNat) (heq : (pg : Int) = q.pages) :
    q.findPage (left + 1) pg = some pg := by
  have hf := fetchByte_eq_some.mpr ⟨hin, rfl⟩
  simp only [findPage, hf, Option.bind_eq_bind, Option.bind_some]
  exact if_neg fun h => h.2 heq

theorem findCell_spec (hi : 0 < i) (h : q.findCell left i = some r) :
    (r = 0 ∧ ∀ k, i ≤ k → k < i + left → q.Used k) ∨
      (i ≤ r ∧ r < i + left ∧ ¬q.Used r ∧ cellAt r < q.size.toNat ∧ ∀ k, i ≤ k → k < r → q.Used k) := by
  induction left generalizing i with
  | zero =>
    cases h
    exact .inl ⟨rfl, fun k hk hlt => by omega⟩
  | succ left ih =>
    simp only [findCell, Option.bind_eq_bind, Option.bind_eq_some_iff, fetchByte_eq_some] at h
    obtain ⟨b, ⟨hin, rfl⟩, h⟩ := h
    split at h
    next hfree =>
      cases h
      exact .inr ⟨Nat.le_refl _, by omega, not_not.mpr hfree, hin, fun k hk hlt => by omega⟩
    next hused =>
      rcases ih (Nat.succ_pos i) h with ⟨hr, hall⟩ | ⟨hle, hlt, hfree, hr, hall⟩
      · refine .inl ⟨hr, fun k hk hlt => ?_⟩
        rcases Nat.eq_or_lt_of_le hk with rfl | hk'
        · exact hused
        · exact hall k hk' (by omega)
      · refine .inr ⟨by omega, by omega, hfree, hr, fun k hk hkr => ?_⟩
        rcases Nat.eq_or_lt_of_le hk with rfl | hk'
        · exact hused
        · exact hall k hk' hkr

/-- The search does not leave the memory when its cells begin inside it. -/
theorem findCell_isSome (h : ∀ k, i ≤ k → k < i + left → cellAt k < q.size.toNat) :
    ∃ r, q.findCell left i = some r := by
  induction left generalizing i with
  | zero => exact ⟨0, rfl⟩
  | succ left ih =>
    have hf := fetchByte_eq_some.mpr ⟨h i (Nat.le_refl i) (by omega), rfl⟩
    obtain ⟨r, hr⟩ := ih (i := i + 1) fun k hk hlt => h k (by omega) (by omega)
    by_cases hb : q.mem (cellAt i) = 0
    · exact ⟨i, by rw [findCell, hf]; exact if_pos hb⟩
    · exact ⟨r, by rw [findCell, hf]; exact (if_neg hb).trans hr⟩

/-- The state after a cell was taken. -/
def taken (q : PQueue) (i : Nat) : PQueue :=
  if i % cellPageSize = 0 then (q.store (bitMapAt + (i - 1) / cellPageSize) [1]).store (cellAt i) [1]
  else q.store (cellAt i) [1]

@[simp] theorem taken_size : (q.taken i).size = q.size := by
  unfold taken
  split <;> rfl

@[simp] theorem taken_pages : (q.taken i).pages = q.pages := by
  unfold taken
  split <;> rfl

@[simp] theorem taken_last : (q.taken i).last = q.last := by
  unfold taken
  split <;> rfl

/-- What `__trunk_malloc` finds on the first page `pg` that its byte in the map
does not rule out. -/
structure FoundOn (q : PQueue) (pg i : Nat) : Prop where
  passed : ∀ k < pg, q.mem (bitMapAt + k) ≠ 0 ∧ (k : Int) ≠ q.pages
  page : (pg : Int) ≠ q.pages
  open_ : q.mem (bitMapAt + pg) = 0
  le : 1 + pg * cellPageSize ≤ i
  lt : i < 1 + (pg + 1) * cellPageSize
  unused : ¬q.Used i
  inside : cellAt i < q.size.toNat
  used : ∀ k, 1 + pg * cellPageSize ≤ k → k < i → q.Used k

theorem trunkMalloc_spec (h : q.trunkMalloc = some (i, q')) :
    (i = 0 ∧ q' = q ∧ ∃ pg : Nat, (∀ k < pg, q.mem (bitMapAt + k) ≠ 0 ∧ (k : Int) ≠ q.pages) ∧
      ((pg : Int) = q.pages ∨
        ∀ k, 1 + pg * cellPageSize ≤ k → k < 1 + (pg + 1) * cellPageSize → q.Used k)) ∨
      (0 < i ∧ q' = q.taken i ∧ ∃ pg, q.FoundOn pg i) := by
  simp only [trunkMalloc, Option.bind_eq_bind, Option.bind_eq_some_iff, fetchByte_eq_some] at h
  obtain ⟨pg, hpg, b, ⟨hmap, rfl⟩, h⟩ := h
  obtain ⟨-, -, hstop, hpass⟩ := findPage_spec hpg
  have hpassed : ∀ k < pg, q.mem (bitMapAt + k) ≠ 0 ∧ (k : Int) ≠ q.pages :=
    fun k hk => hpass k (Nat.zero_le k) hk
  split at h
  next hend =>
    cases h
    refine .inl ⟨rfl, rfl, pg, hpassed, .inl ?_⟩
    rcases hend with heq | hb
    · exact heq
    · exact hstop hb
  next hpage =>
    rw [not_or, not_not] at hpage
    obtain ⟨hne, hopen⟩ := hpage
    simp only [Option.bind_eq_some_iff] at h
    obtain ⟨r, hr, h⟩ := h
    rcases findCell_spec (by omega) hr with ⟨rfl, hall⟩ | ⟨hle, hlt, hfree, hin, hall⟩
    · cases h
      refine .inl ⟨rfl, rfl, pg, hpassed, .inr fun k hk hlt => hall k hk ?_⟩
      rw [cellPageSize] at hlt ⊢
      omega
    · have hpos : r ≠ 0 := by omega
      have hlt' : r < 1 + (pg + 1) * cellPageSize := by
        rw [cellPageSize] at hlt ⊢
        omega
      have hmod : r = (pg + 1) * cellPageSize ↔ r % cellPageSize = 0 := by
        rw [cellPageSize] at hle hlt ⊢
        omega
      rw [if_neg hpos] at h
      have hi : i = r ∧ q' = q.taken r := by
        by_cases hlast : r = (pg + 1) * cellPageSize
        · simp only [if_pos hlast, Option.bind_eq_some_iff, assign_eq_some] at h
          obtain ⟨q₁, ⟨-, rfl⟩, q₂, ⟨-, rfl⟩, h⟩ := h
          cases h
          exact ⟨rfl, by rw [taken, if_pos (hmod.mp hlast)]⟩
        · simp only [if_neg hlast, Option.bind_some, Option.bind_eq_some_iff, assign_eq_some] at h
          obtain ⟨q₂, ⟨-, rfl⟩, h⟩ := h
          cases h
          exact ⟨rfl, by rw [taken, if_neg fun hm => hlast (hmod.mpr hm)]⟩
      obtain ⟨rfl, rfl⟩ := hi
      exact .inr ⟨by omega, rfl, pg, hpassed, hne, hopen, hle, hlt', hfree, hin, hall⟩

/-- `__trunk_malloc` stays inside the memory when the cells of its page begin there. -/
theorem trunkMalloc_isSome (hpg : q.findPage shorts 0 = some pg)
    (hin : (pg : Int) ≠ q.pages → ∀ k, 1 + pg * cellPageSize ≤ k →
      k < 1 + pg * cellPageSize + cellPageSize → cellAt k < q.size.toNat) :
    ∃ i q', q.trunkMalloc = some (i, q') := by
  obtain ⟨-, hmap, -, -⟩ := findPage_spec hpg
  have hb : q.fetchByte (bitMapAt + pg) = some (q.mem (bitMapAt + pg)) := fetchByte_eq_some.mpr ⟨hmap, rfl⟩
  by_cases hend : (pg : Int) = q.pages ∨ q.mem (bitMapAt + pg) ≠ 0
  · refine ⟨0, q, ?_⟩
    simp only [trunkMalloc, hpg, hb, Option.bind_eq_bind, Option.bind_some]
    exact if_pos hend
  · obtain ⟨i, hi⟩ := findCell_isSome (hin fun heq => hend (.inl heq))
    rcases findCell_spec (by omega) hi with ⟨rfl, -⟩ | ⟨hle, hlt, -, hcell, -⟩
    · refine ⟨0, q, ?_⟩
      simp only [trunkMalloc, hpg, hb, hi, Option.bind_eq_bind, Option.bind_some]
      exact if_neg hend
    · have hpos : i ≠ 0 := by omega
      have hidx : (i - 1) / cellPageSize = pg := by
        rw [cellPageSize] at hle hlt ⊢
        omega
      have hbyte : q.assign (bitMapAt + (i - 1) / cellPageSize) [1] =
          some (q.store (bitMapAt + (i - 1) / cellPageSize) [1]) := by
        rw [hidx]
        exact assign_of_le hmap
      by_cases hlast : i = (pg + 1) * cellPageSize
      · refine ⟨i, (q.store (bitMapAt + (i - 1) / cellPageSize) [1]).store (cellAt i) [1], ?_⟩
        have hused := assign_of_le (q := q.store (bitMapAt + (i - 1) / cellPageSize) [1])
          (a := cellAt i) (d := [1]) hcell
        simp only [trunkMalloc, hpg, hb, hi, Option.bind_eq_bind, Option.bind_some, if_neg hend, if_neg hpos]
        rw [if_pos hlast, hbyte, Option.bind_some, hused]
        rfl
      · refine ⟨i, q.store (cellAt i) [1], ?_⟩
        have hused := assign_of_le (q := q) (a := cellAt i) (d := [1]) hcell
        simp only [trunkMalloc, hpg, hb, hi, Option.bind_eq_bind, Option.bind_some, if_neg hend, if_neg hpos]
        rw [if_neg hlast, hused]
        rfl

-- ---------------------------------------------------------------------------
-- What the two calls leave
-- ---------------------------------------------------------------------------

def filled (q : PQueue) (idx : Nat) (buf : List Byte) : PQueue :=
  let length := min buf.length unitSize
  let q := { q with serialNo := q.serialNo + 1 }
  let q := q.store (idAt idx) (lowBytes 8 q.serialNo.toNat)
  let q := q.store (msgAt idx) (List.replicate msgSize 0)
  let q := q.store (msgAt idx) (buf.take length)
  let q := q.store (lenAt idx) (lowBytes 2 length)
  let q := q.store (nextAt q.last) (lowBytes 8 idx)
  { q with last := idx }

theorem fill_eq (h : q.fill i buf = some q') : q' = q.filled i buf := by
  simp only [fill, Option.bind_eq_bind, Option.bind_eq_some_iff, assign_eq_some] at h
  obtain ⟨_, ⟨-, rfl⟩, _, ⟨-, rfl⟩, _, ⟨-, rfl⟩, _, ⟨-, rfl⟩, _, ⟨-, rfl⟩, h⟩ := h
  exact (Option.some.inj h).symm

theorem fill_of_fits (hi : q.Fits i) (hlast : q.Fits q.last)
    (hbuf : msgAt i + min buf.length unitSize ≤ q.size.toNat) : q.fill i buf = some (q.filled i buf) := by
  unfold Fits at hi hlast
  have hid : idAt i + (lowBytes 8 (q.serialNo + 1).toNat).length ≤ q.size.toNat := by
    rw [length_lowBytes, idAt]
    rw [unitSize] at hi
    omega
  have hmsg : msgAt i + (List.replicate msgSize (0 : Byte)).length ≤ q.size.toNat := by
    rw [List.length_replicate, msgAt, msgSize]
    rw [unitSize] at hi
    omega
  have hcopy : msgAt i + (buf.take (min buf.length unitSize)).length ≤ q.size.toNat := by
    rw [List.length_take]
    omega
  have hlen : lenAt i + (lowBytes 2 (min buf.length unitSize)).length ≤ q.size.toNat := by
    rw [length_lowBytes, lenAt]
    rw [unitSize] at hi
    omega
  have hnext : nextAt q.last + (lowBytes 8 i).length ≤ q.size.toNat := by
    rw [length_lowBytes, nextAt]
    rw [unitSize] at hlast
    omega
  simp only [fill, Option.bind_eq_bind, Option.bind_eq_some_iff, assign_eq_some]
  exact ⟨_, ⟨hid, rfl⟩, _, ⟨hmsg, rfl⟩, _, ⟨hcopy, rfl⟩, _, ⟨hlen, rfl⟩, _, ⟨hnext, rfl⟩, rfl⟩

/-- The message that `Get` takes. -/
def front (q : PQueue) : Nat := q.mem.load (nextAt 0) 8

/-- The state after the front message left the chain. -/
def unlinked (q : PQueue) : PQueue :=
  if q.front = q.last then { q with last := 0 }.store (nextAt 0) (lowBytes 8 minusOne)
  else q.store (nextAt 0) (lowBytes 8 (q.mem.load (nextAt q.front) 8))

def freed (q : PQueue) (idx : Nat) : PQueue := (q.store (mapByteOf idx) [0]).store (cellAt idx) [0]

@[simp] theorem unlinked_size : q.unlinked.size = q.size := by
  unfold unlinked
  split <;> rfl

@[simp] theorem unlinked_pages : q.unlinked.pages = q.pages := by
  unfold unlinked
  split <;> rfl

theorem unlinked_last : q.unlinked.last = if q.front = q.last then 0 else q.last := by
  unfold unlinked
  split <;> rfl

@[simp] theorem freed_size : (q.freed i).size = q.size := rfl

@[simp] theorem freed_pages : (q.freed i).pages = q.pages := rfl

@[simp] theorem freed_last : (q.freed i).last = q.last := rfl

theorem trunkFree_eq_some : q.trunkFree tmp = some q' ↔
    mapByteOf tmp < q.size.toNat ∧ cellAt tmp < q.size.toNat ∧ q' = q.freed tmp := by
  simp only [trunkFree, Option.bind_eq_bind, Option.bind_eq_some_iff, assign_eq_some]
  constructor
  · rintro ⟨_, ⟨hmap, rfl⟩, hcell, rfl⟩
    exact ⟨hmap, hcell, rfl⟩
  · rintro ⟨hmap, hcell, rfl⟩
    exact ⟨_, ⟨hmap, rfl⟩, hcell, rfl⟩

theorem takeOut_eq_some : q.takeOut tmp len = some (out, q') ↔
    lenAt tmp + 2 ≤ q.size.toNat ∧ msgAt tmp + min (q.mem.load (lenAt tmp) 2) len ≤ q.size.toNat ∧
      q.mem.read (msgAt tmp) (min (q.mem.load (lenAt tmp) 2) len) = out ∧
      mapByteOf tmp < q.size.toNat ∧ cellAt tmp < q.size.toNat ∧ q' = q.freed tmp := by
  simp only [takeOut, Option.bind_eq_bind, Option.bind_eq_some_iff, fetchNumber_eq_some, fetch_eq_some,
    trunkFree_eq_some]
  constructor
  · rintro ⟨_, ⟨hlen, rfl⟩, _, ⟨hmsg, rfl⟩, _, ⟨hmap, hcell, rfl⟩, h⟩
    cases h
    exact ⟨hlen, hmsg, rfl, hmap, hcell, rfl⟩
  · rintro ⟨hlen, hmsg, rfl, hmap, hcell, rfl⟩
    exact ⟨_, ⟨hlen, rfl⟩, _, ⟨hmsg, rfl⟩, _, ⟨hmap, hcell, rfl⟩, rfl⟩

theorem unlink_eq (h : q.unlink len = some (out, q')) :
    q.unlinked.takeOut q.front len = some (out, q') := by
  simp only [unlink, Option.bind_eq_bind, Option.bind_eq_some_iff, fetchNumber_eq_some] at h
  obtain ⟨_, ⟨-, rfl⟩, h⟩ := h
  unfold unlinked front
  split at h
  next hlast =>
    simp only [Option.bind_eq_some_iff, assign_eq_some] at h
    obtain ⟨_, ⟨-, rfl⟩, h⟩ := h
    rwa [if_pos hlast]
  next hlast =>
    simp only [Option.bind_eq_some_iff, fetchNumber_eq_some, assign_eq_some] at h
    obtain ⟨_, ⟨-, rfl⟩, _, ⟨-, rfl⟩, h⟩ := h
    rwa [if_neg hlast]

theorem unlink_of_fits (h0 : q.Fits 0) (hf : q.Fits q.front) :
    q.unlink len = q.unlinked.takeOut q.front len := by
  unfold Fits at h0 hf
  rw [unitSize] at h0 hf
  have hnext0 : nextAt 0 + 8 ≤ q.size.toNat := by
    rw [nextAt]
    omega
  have hnextf : nextAt q.front + 8 ≤ q.size.toNat := by
    rw [nextAt]
    omega
  have htmp : q.fetchNumber (nextAt 0) 8 = some q.front := fetchNumber_eq_some.mpr ⟨hnext0, rfl⟩
  have hnext : q.fetchNumber (nextAt q.front) 8 = some (q.mem.load (nextAt q.front) 8) :=
    fetchNumber_eq_some.mpr ⟨hnextf, rfl⟩
  have hwrite (v : Nat) : nextAt 0 + (lowBytes 8 v).length ≤ q.size.toNat := by
    rw [length_lowBytes]
    exact hnext0
  simp only [unlink, htmp, hnext, Option.bind_eq_bind, Option.bind_some]
  unfold unlinked
  split
  · rw [assign_of_le (q := { q with last := 0 }) (hwrite _), Option.bind_some]
  · rw [assign_of_le (hwrite _), Option.bind_some]

theorem put_done (h : q.put buf = .done q') :
    ∃ pg i, 0 < i ∧ q.entered.FoundOn pg i ∧
      (q.entered.taken i).fill i buf = some q' := by
  unfold put at h
  split at h
  next => cases h
  next => cases h
  next i s hne hmalloc =>
    split at h
    next => cases h
    next s' hfill =>
      cases h
      rcases trunkMalloc_spec hmalloc with ⟨rfl, -⟩ | ⟨hpos, rfl, pg, hfound⟩
      · exact absurd rfl hne
      · exact ⟨pg, i, hpos, hfound, hfill⟩

theorem put_of_malloc {s : PQueue} (hi : 0 < i) (hm : q.entered.trunkMalloc = some (i, s))
    (hf : s.fill i buf = some q') : q.put buf = .done q' := by
  obtain ⟨i, rfl⟩ := Nat.exists_eq_succ_of_ne_zero (Nat.pos_iff_ne_zero.mp hi)
  simp only [put, hm, hf]

theorem get_done (h : q.get len = .done (out, q')) :
    q.last ≠ 0 ∧ q.entered.unlinked.takeOut q.front len = some (out, q') := by
  unfold get at h
  split at h
  next => cases h
  next hne =>
    split at h
    next => cases h
    next r hr =>
      cases h
      exact ⟨hne, unlink_eq hr⟩

-- ---------------------------------------------------------------------------
-- Frames
-- ---------------------------------------------------------------------------

variable {x : Nat}

theorem taken_mem (hcell : x ≠ cellAt i) (hmap : x = bitMapAt + (i - 1) / cellPageSize → i % cellPageSize ≠ 0) :
    (q.taken i).mem x = q.mem x := by
  have hx : x < cellAt i ∨ cellAt i + [(1 : Byte)].length ≤ x := by
    rw [List.length_singleton]
    omega
  unfold taken
  split
  next hlast =>
    have hb : x ≠ bitMapAt + (i - 1) / cellPageSize := fun heq => hmap heq hlast
    rw [store_mem, Memory.write_of_not_mem hx, store_mem, Memory.write_of_not_mem]
    rw [List.length_singleton]
    omega
  next => rw [store_mem, Memory.write_of_not_mem hx]

theorem taken_used : (q.taken i).mem (cellAt i) = 1 := by
  unfold taken
  split
  · rw [store_mem, Memory.write_singleton]
  · rw [store_mem, Memory.write_singleton]

theorem filled_mem (hcell : x < idAt i ∨ msgAt i + min buf.length unitSize ≤ x ∧ msgAt i + msgSize ≤ x)
    (hnext : x < nextAt q.last ∨ nextAt q.last + 8 ≤ x) : (q.filled i buf).mem x = q.mem x := by
  have hid : idAt i + 8 ≤ msgAt i := by
    rw [idAt, msgAt]
    omega
  have hlen : lenAt i + 2 = msgAt i := rfl
  have hlen' : idAt i ≤ lenAt i := by
    rw [idAt, lenAt]
    omega
  simp only [filled, store_mem, store_last]
  rw [Memory.write_of_not_mem (by rwa [length_lowBytes]), Memory.write_of_not_mem, Memory.write_of_not_mem,
    Memory.write_of_not_mem, Memory.write_of_not_mem]
  · rw [length_lowBytes]
    omega
  · rw [List.length_replicate]
    omega
  · rw [List.length_take]
    omega
  · rw [length_lowBytes]
    omega

theorem unlinked_mem (h : x < nextAt 0 ∨ nextAt 0 + 8 ≤ x) : q.unlinked.mem x = q.mem x := by
  unfold unlinked
  split
  · rw [store_mem, Memory.write_of_not_mem (by rwa [length_lowBytes])]
  · rw [store_mem, Memory.write_of_not_mem (by rwa [length_lowBytes])]

theorem freed_mem (hmap : x ≠ mapByteOf i) (hcell : x ≠ cellAt i) : (q.freed i).mem x = q.mem x := by
  rw [freed, store_mem, Memory.write_of_not_mem, store_mem, Memory.write_of_not_mem]
  · rw [List.length_singleton]
    omega
  · rw [List.length_singleton]
    omega

theorem mapByteOf_eq (hi : 0 < i) : mapByteOf i = bitMapAt + (i - 1) / cellPageSize := by
  rw [mapByteOf, if_neg (Nat.pos_iff_ne_zero.mp hi)]

end PQueue

end GalaLua.Runtime
