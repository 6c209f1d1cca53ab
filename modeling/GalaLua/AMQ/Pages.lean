import GalaLua.AMQ.List
import Mathlib.Data.BitVec

/-!
# Pages and page chains

A page keeps its link, one word with its size in the upper and the length of
its data in the lower half, and its bytes, which are stored complemented.
`writeData` and `readData` walk a chain of pages as `F_WriteData` and
`F_ReadData` do; on a chain that ends they are the structural functions
`writePages` and `readPages` on the list of its pages, and reading what was
written gives it back (`readPages_writePages`), whatever the chain
(`readUpTo_writeData`).
-/

namespace GalaLua.AMQ

open Library (Chain)

-- ---------------------------------------------------------------------------
-- One page
-- ---------------------------------------------------------------------------

structure CSQPage where
  next : Int
  length : BitVec 32
  data : List UInt8
  deriving Repr

instance : Linked CSQPage where
  next p := p.next
  setNext d p := { p with next := d }
  next_setNext _ _ := rfl
  setNext_next _ := rfl
  setNext_setNext _ _ _ := rfl

@[simp] theorem length_setNext (d : Int) (p : CSQPage) : (Linked.setNext d p).length = p.length :=
  rfl

@[simp] theorem data_setNext (d : Int) (p : CSQPage) : (Linked.setNext d p).data = p.data := rfl

def mkLength (thePageSize theDataLen : BitVec 32) : BitVec 32 :=
  (thePageSize &&& 0xFFFF0000#32) ||| (theDataLen &&& 0x0000FFFF#32)

namespace CSQPage

def init (p : CSQPage) (pageSize : BitVec 16) : CSQPage :=
  { p with next := 0, length := (pageSize.setWidth 32 <<< 16) &&& 0xFFFF0000#32 }

def setLength (p : CSQPage) (theLength : BitVec 16) : CSQPage :=
  { p with length := mkLength p.length (theLength.setWidth 32) }

def dataLength (p : CSQPage) : BitVec 16 := (p.length &&& 0x0000FFFF#32).setWidth 16

/-- `PageSize(USHORT)`, with the size in the lower half of the word as the
source passes it, so that the upper half becomes 0. -/
def setPageSize (p : CSQPage) (thePageSize : BitVec 16) : CSQPage :=
  { p with length := mkLength (thePageSize.setWidth 32) p.length }

def pageSize (p : CSQPage) : BitVec 16 := ((p.length >>> 16) &&& 0x0000FFFF#32).setWidth 16

end CSQPage

theorem mask_low {i : Nat} (h : i < 32) : (0x0000FFFF#32).getLsbD i = decide (i < 16) := by
  revert i
  decide

theorem mask_high {i : Nat} (h : i < 32) : (0xFFFF0000#32).getLsbD i = decide (16 ≤ i) := by
  revert i
  decide

theorem mask_ushort {i : Nat} (h : i < 16) : (65535#16)[i] = true := by
  revert i
  decide

@[simp] theorem pageSize_init (p : CSQPage) (n : BitVec 16) : (p.init n).pageSize = n := by
  ext i hi
  have hhigh := mask_high (i := 16 + i) (by omega)
  simp [CSQPage.pageSize, CSQPage.init, hhigh, mask_ushort hi]
  grind

@[simp] theorem pageSize_setLength (p : CSQPage) (n : BitVec 16) :
    (p.setLength n).pageSize = p.pageSize := by
  ext i hi
  have hhigh := mask_high (i := 16 + i) (by omega)
  have hlow := mask_low (i := 16 + i) (by omega)
  simp [CSQPage.pageSize, CSQPage.setLength, mkLength, hhigh, hlow]

@[simp] theorem dataLength_setLength (p : CSQPage) (n : BitVec 16) :
    (p.setLength n).dataLength = n := by
  ext i hi
  simp [CSQPage.dataLength, CSQPage.setLength, mkLength, mask_ushort hi]

@[simp] theorem pageSize_setNext (d : Int) (p : CSQPage) :
    (Linked.setNext d p).pageSize = p.pageSize := rfl

@[simp] theorem dataLength_setNext (d : Int) (p : CSQPage) :
    (Linked.setNext d p).dataLength = p.dataLength := rfl

/-- `__MQCarrier_F`: complement while copying, by words of four bytes, then a
word of two, then a byte. -/
def carrier : List UInt8 → List UInt8
  | a :: b :: c :: d :: rest => ~~~a :: ~~~b :: ~~~c :: ~~~d :: carrier rest
  | [a, b, c] => [~~~a, ~~~b, ~~~c]
  | [a, b] => [~~~a, ~~~b]
  | [a] => [~~~a]
  | [] => []

theorem carrier_eq_map (bs : List UInt8) : carrier bs = bs.map (~~~·) := by
  fun_induction carrier bs <;> simp_all

@[simp] theorem length_carrier (bs : List UInt8) : (carrier bs).length = bs.length := by
  simp [carrier_eq_map]

@[simp] theorem carrier_carrier (bs : List UInt8) : carrier (carrier bs) = bs := by
  simp [carrier_eq_map, Function.comp_def]

/-- `Write(&_Buffer[_CurrLen], _DataLength - _CurrLen)`, the buffer being what
is still to be written: the count written and the page after it. -/
def CSQPage.write (p : CSQPage) (buffer : List UInt8) : Nat × CSQPage :=
  let result := if p.pageSize.toNat > buffer.length then buffer.length else p.pageSize.toNat
  (result, { p.setLength (BitVec.ofNat 16 result) with
    data := carrier (buffer.take result) ++ p.data.drop result })

/-- `Read(&_Buffer[_CurrLen], _MaxLen)`: the bytes copied out. -/
def CSQPage.read (p : CSQPage) (maxLen : Nat) : List UInt8 :=
  let result := if p.dataLength.toNat > maxLen then maxLen else p.dataLength.toNat
  carrier (p.data.take result)

variable {p : CSQPage} {buffer : List UInt8}

theorem write_fst : (p.write buffer).1 = min p.pageSize.toNat buffer.length := by
  simp only [CSQPage.write]
  split <;> omega

@[simp] theorem next_write : (p.write buffer).2.next = p.next := rfl

@[simp] theorem pageSize_write : (p.write buffer).2.pageSize = p.pageSize :=
  pageSize_setLength p _

theorem dataLength_write :
    (p.write buffer).2.dataLength.toNat = min p.pageSize.toNat buffer.length := by
  have hlt := p.pageSize.isLt
  have hlen : (p.write buffer).2.dataLength = BitVec.ofNat 16 (p.write buffer).1 :=
    dataLength_setLength p _
  rw [hlen, write_fst, BitVec.toNat_ofNat]
  exact Nat.mod_eq_of_lt (by omega)

theorem read_write (maxLen : Nat) :
    (p.write buffer).2.read maxLen = buffer.take (min (min p.pageSize.toNat buffer.length) maxLen) := by
  have hres : (if (p.write buffer).2.dataLength.toNat > maxLen then maxLen
      else (p.write buffer).2.dataLength.toNat) =
      min (min p.pageSize.toNat buffer.length) maxLen := by
    rw [dataLength_write]
    split <;> omega
  have hdata : (p.write buffer).2.data =
      carrier (buffer.take (min p.pageSize.toNat buffer.length)) ++
        p.data.drop (p.write buffer).1 := by
    rw [← write_fst]
    rfl
  simp only [CSQPage.read]
  rw [hres, hdata, List.take_append_of_le_length (by simp), carrier_eq_map, carrier_eq_map,
    ← List.map_take, List.map_map, List.take_take]
  simp [Function.comp_def]

-- ---------------------------------------------------------------------------
-- Chains of pages
-- ---------------------------------------------------------------------------

/-- `F_WriteData`: the memory afterwards and the number of bytes written. The
fuel bounds the walk; a chain in a page array is no longer than the array. -/
def writeData : Nat → (Int → CSQPage) → Option Int → List UInt8 → (Int → CSQPage) × Nat
  | fuel + 1, mem, some a, buffer =>
    if buffer.length = 0 then (mem, 0)
    else
      let result := (mem a).write buffer
      let mem := Function.update mem a result.2
      let rest := writeData fuel mem (nextPtr mem a) (buffer.drop result.1)
      (rest.1, result.1 + rest.2)
  | _, mem, _, _ => (mem, 0)

/-- `F_ReadData`, `length` being the smaller of data length and limit. -/
def readData : Nat → (Int → CSQPage) → Option Int → Nat → List UInt8
  | fuel + 1, mem, some a, length =>
    if length = 0 then []
    else
      let bytes := (mem a).read length
      bytes ++ readData fuel mem (nextPtr mem a) (length - bytes.length)
  | _, _, _, _ => []

/-- Writing along a known list of pages. -/
def writePages : (Int → CSQPage) → List Int → List UInt8 → (Int → CSQPage) × Nat
  | mem, [], _ => (mem, 0)
  | mem, a :: ps, buffer =>
    if buffer.length = 0 then (mem, 0)
    else
      let result := (mem a).write buffer
      let rest := writePages (Function.update mem a result.2) ps (buffer.drop result.1)
      (rest.1, result.1 + rest.2)

/-- Reading along a known list of pages. -/
def readPages (mem : Int → CSQPage) : List Int → Nat → List UInt8
  | [], _ => []
  | a :: ps, length =>
    if length = 0 then []
    else
      let bytes := (mem a).read length
      bytes ++ readPages mem ps (length - bytes.length)

/-- The bytes a list of pages can hold. -/
def capacity (mem : Int → CSQPage) (ps : List Int) : Nat :=
  (ps.map fun a => (mem a).pageSize.toNat).sum

variable {mem mem' : Int → CSQPage} {ps : List Int} {fuel : Nat} {q : Option Int}

theorem nextPtr_update_write (a b : Int) :
    nextPtr (Function.update mem a ((mem a).write buffer).2) b = nextPtr mem b := by
  rcases eq_or_ne b a with rfl | hb
  · simp [nextPtr, Linked.next]
  · simp [nextPtr, hb]

theorem writeData_eq (h : Chain (nextPtr mem) q ps) (hf : ps.length ≤ fuel) :
    writeData fuel mem q buffer = writePages mem ps buffer := by
  induction ps generalizing fuel mem q buffer with
  | nil =>
    obtain rfl := h
    cases fuel <;> rfl
  | cons a ps ih =>
    obtain ⟨rfl, h⟩ := h
    obtain ⟨fuel, rfl⟩ : ∃ k, fuel = k + 1 := ⟨fuel - 1, by simp at hf; omega⟩
    simp only [writeData, writePages]
    split
    · rfl
    · rw [ih]
      · rw [nextPtr_update_write]
        exact h.congr fun b _ => nextPtr_update_write a b
      · simpa using hf

theorem readData_eq {length : Nat} (h : Chain (nextPtr mem) q ps) (hf : ps.length ≤ fuel) :
    readData fuel mem q length = readPages mem ps length := by
  induction ps generalizing fuel q length with
  | nil =>
    obtain rfl := h
    cases fuel <;> rfl
  | cons a ps ih =>
    obtain ⟨rfl, h⟩ := h
    obtain ⟨fuel, rfl⟩ : ∃ k, fuel = k + 1 := ⟨fuel - 1, by simp at hf; omega⟩
    simp only [readData, readPages]
    rw [ih h (by simpa using hf)]

/-- Writing touches neither links nor sizes, and no page outside the list. -/
theorem writePages_frame (b : Int) :
    ((writePages mem ps buffer).1 b).next = (mem b).next ∧
      ((writePages mem ps buffer).1 b).pageSize = (mem b).pageSize ∧
      (b ∉ ps → (writePages mem ps buffer).1 b = mem b) := by
  induction ps generalizing mem buffer with
  | nil => exact ⟨rfl, rfl, fun _ => rfl⟩
  | cons a ps ih =>
    simp only [writePages]
    split
    · exact ⟨rfl, rfl, fun _ => rfl⟩
    · obtain ⟨h1, h2, h3⟩ := @ih (buffer.drop ((mem a).write buffer).1)
        (Function.update mem a ((mem a).write buffer).2)
      rcases eq_or_ne b a with rfl | hb
      · exact ⟨h1.trans (by simp), h2.trans (by simp), by simp⟩
      · refine ⟨h1.trans (by simp [hb]), h2.trans (by simp [hb]), fun hn => ?_⟩
        rw [h3 fun hp => hn (List.mem_cons_of_mem _ hp), Function.update_of_ne hb]

theorem readPages_congr {length : Nat} (h : ∀ a ∈ ps, mem' a = mem a) :
    readPages mem' ps length = readPages mem ps length := by
  induction ps generalizing length with
  | nil => rfl
  | cons a ps ih =>
    simp only [readPages, h a List.mem_cons_self]
    rw [ih fun b hb => h b (List.mem_cons_of_mem _ hb)]

/-- Relinking pages does not change what can be read from them in order. -/
theorem readPages_relinked {length : Nat} {xs : List Int} (h : Relinked mem mem' xs) :
    readPages mem' ps length = readPages mem ps length := by
  induction ps generalizing length with
  | nil => rfl
  | cons a ps ih =>
    obtain ⟨d, hd⟩ := h.2 a
    have hread : (mem' a).read length = (mem a).read length := by rw [hd]; rfl
    simp only [readPages, hread, ih]

theorem capacity_cons (a : Int) :
    capacity mem (a :: ps) = (mem a).pageSize.toNat + capacity mem ps := by
  simp [capacity]

theorem capacity_congr (h : ∀ a ∈ ps, (mem' a).pageSize = (mem a).pageSize) :
    capacity mem' ps = capacity mem ps := by
  unfold capacity
  rw [List.map_congr_left fun a ha => by rw [h a ha]]

theorem capacity_update_write (a : Int) :
    capacity (Function.update mem a ((mem a).write buffer).2) ps = capacity mem ps := by
  refine capacity_congr fun b _ => ?_
  rcases eq_or_ne b a with rfl | hb
  · simp
  · rw [Function.update_of_ne hb]

theorem writePages_snd (hnd : ps.Nodup) :
    (writePages mem ps buffer).2 = min (capacity mem ps) buffer.length := by
  induction ps generalizing mem buffer with
  | nil => simp [writePages, capacity]
  | cons a ps ih =>
    obtain ⟨ha, hnd⟩ := List.nodup_cons.mp hnd
    simp only [writePages, capacity_cons]
    split
    · simp_all
    · rw [ih hnd, capacity_update_write, write_fst, List.length_drop]
      omega

/-- What was written is read back, up to the reader's limit. -/
theorem readPages_writePages (hnd : ps.Nodup) (hcap : buffer.length ≤ capacity mem ps) (m : Nat) :
    readPages (writePages mem ps buffer).1 ps (min buffer.length m) = buffer.take m := by
  induction ps generalizing mem buffer m with
  | nil =>
    have : buffer = [] := by simpa [capacity] using hcap
    simp [readPages, this]
  | cons a ps ih =>
    obtain ⟨ha, hnd⟩ := List.nodup_cons.mp hnd
    rw [capacity_cons] at hcap
    simp only [writePages]
    split
    · next h0 =>
      obtain rfl := List.length_eq_zero_iff.mp h0
      simp [readPages]
    next h0 =>
    -- the first page holds `k` bytes of the buffer and is not written again
    set k := ((mem a).write buffer).1 with hk
    set mem₁ := Function.update mem a ((mem a).write buffer).2 with hmem₁
    have hkmin : k = min (mem a).pageSize.toNat buffer.length := write_fst
    have hcap₁ : capacity mem₁ ps = capacity mem ps := capacity_update_write a
    have hpage : (writePages mem₁ ps (buffer.drop k)).1 a = ((mem a).write buffer).2 := by
      rw [(writePages_frame a).2.2 ha, hmem₁, Function.update_self]
    simp only [readPages]
    split
    · next hz =>
      have : m = 0 := by omega
      simp [this]
    · rw [hpage, read_write, ← hkmin]
      have hlen : (buffer.take (min k (min buffer.length m))).length = min k m := by
        rw [List.length_take]
        omega
      have hrest : min buffer.length m - min k m = min (buffer.drop k).length (m - k) := by
        rw [List.length_drop]
        omega
      rw [hlen, hrest, ih hnd (by rw [hcap₁, List.length_drop]; omega)]
      rcases Nat.le_total m k with hmk | hkm
      · rw [show min k (min buffer.length m) = m by omega, Nat.sub_eq_zero_of_le hmk]
        simp
      · rw [show min k (min buffer.length m) = k by omega, ← List.take_add,
          Nat.add_sub_cancel' hkm]

-- ---------------------------------------------------------------------------
-- A chain written and read
-- ---------------------------------------------------------------------------

/-- `F_ReadData` as a reader calls it, with the data's length and its own limit. -/
def readUpTo (fuel : Nat) (mem : Int → CSQPage) (q : Option Int) (dataLength maxLength : Nat) :
    List UInt8 :=
  readData fuel mem q (if dataLength > maxLength then maxLength else dataLength)

theorem chain_writePages {xs : List Int} (h : Chain (nextPtr mem) q xs) :
    Chain (nextPtr (writePages mem ps buffer).1) q xs :=
  h.congr fun b _ => by simp only [nextPtr, Linked.next, (writePages_frame b).1]

/-- Whatever the pages held before, and however the bytes are spread over
them, a reader gets the front of what was written. -/
theorem readUpTo_writeData (h : Chain (nextPtr mem) q ps) (hf : ps.length ≤ fuel)
    (hcap : buffer.length ≤ capacity mem ps) (m : Nat) :
    (writeData fuel mem q buffer).2 = buffer.length ∧
      readUpTo fuel (writeData fuel mem q buffer).1 q buffer.length m = buffer.take m := by
  have hlimit : (if buffer.length > m then m else buffer.length) = min buffer.length m := by
    split <;> omega
  rw [writeData_eq h hf]
  refine ⟨?_, ?_⟩
  · rw [writePages_snd h.nodup]
    exact Nat.min_eq_right hcap
  · rw [readUpTo, hlimit, readData_eq (chain_writePages h) hf]
    exact readPages_writePages h.nodup hcap m

/-- Two pages of 3 and 6 bytes, the second full of old data. -/
theorem readUpTo_writeData_split :
    let mem : Int → CSQPage := fun a =>
      if a = 100 then { next := 60, length := 0x00030002#32, data := [1, 2, 3] }
      else { next := 0, length := 0x00060006#32, data := [9, 9, 9, 9, 9, 9] }
    (writeData 2 mem (some 100) [10, 20, 30, 40, 50, 60, 70]).2 = 7 ∧
      readUpTo 2 (writeData 2 mem (some 100) [10, 20, 30, 40, 50, 60, 70]).1 (some 100) 7 5 =
        [10, 20, 30, 40, 50] := by
  intro mem
  have hchain : Chain (nextPtr mem) (some 100) [100, 160] := ⟨rfl, rfl, rfl⟩
  exact readUpTo_writeData hchain (by decide) (by decide) 5

end GalaLua.AMQ
