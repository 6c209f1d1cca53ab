import GalaLua.Library.Memory

/-!
# Byte arrays

A `CByteArray` keeps its size and its length in front of its data. `new` gives
it the size and nine more bytes, in the arithmetic of `unsigned int`; an access
outside of these is undefined, and the run ends there.
-/

namespace GalaLua.Runtime

open Library

/-- How a run can end early. -/
inductive Fault
  | thrown (text : String)
  | outOfBounds
  | fuel
  deriving DecidableEq, Repr

abbrev Outcome (α : Type) := Except Fault α

namespace Outcome

variable {α β : Type}

theorem bind_eq_ok {x : Outcome α} {f : α → Outcome β} {b : β} :
    x >>= f = .ok b ↔ ∃ a, x = .ok a ∧ f a = .ok b := by
  cases x with
  | error fault => exact iff_of_false nofun fun ⟨_, h, _⟩ => by cases h
  | ok a => exact ⟨fun h => ⟨a, rfl, h⟩, fun ⟨_, h, hb⟩ => by cases h; exact hb⟩

@[simp] theorem ok_bind (a : α) (f : α → Outcome β) : (Except.ok a >>= f) = f a := rfl

end Outcome

/-- `buffer` has the bytes behind `_Buffer`, of which `allSize` are its own. -/
structure CByteArray where
  allSize : Nat
  buffer : Memory

namespace CByteArray

def lengthAt : Nat := 4
def getAt : Nat := 8

def memcpy (b : CByteArray) (i : Nat) (d : List Byte) : Outcome CByteArray :=
  if i + d.length ≤ b.allSize then .ok { b with buffer := b.buffer.write i d } else .error .outOfBounds

def setSize (b : CByteArray) (size : BitVec 32) : Outcome CByteArray := b.memcpy 0 (lowBytes 4 size.toNat)

def setLength (b : CByteArray) (length : BitVec 32) : Outcome CByteArray :=
  b.memcpy lengthAt (lowBytes 4 length.toNat)

def size (b : CByteArray) : BitVec 32 := BitVec.ofNat 32 (b.buffer.load 0 4)

def length (b : CByteArray) : BitVec 32 := BitVec.ofNat 32 (b.buffer.load lengthAt 4)

/-- `Allocate`, over whatever `new` finds in the memory. -/
def allocate (fresh : Memory) (size : BitVec 32) : Outcome CByteArray :=
  if size = 0 then .error (.thrown "Length = 0")
  else do
    let allSize := BitVec.ofNat 32 (size.toNat + 4 + 4 + 1)
    let b ← setSize ⟨allSize.toNat, fresh⟩ size
    let b ← b.setLength 0
    b.memcpy getAt (List.replicate (b.size + 1).toNat 0)

/-- All that may be read from `Get()` on. -/
def region (b : CByteArray) : List Byte := b.buffer.read getAt (b.allSize - getAt)

/-- The `Length()` bytes of the data. -/
def data (b : CByteArray) : List Byte := b.buffer.read getAt b.length.toNat

/-- `Get()`, as a string that ends at its first NUL. -/
def get (b : CByteArray) : List Byte := b.region.takeWhile fun c => decide (c ≠ 0)

-- ---------------------------------------------------------------------------
-- Laws
-- ---------------------------------------------------------------------------

variable {b b' : CByteArray} {i : Nat} {d : List Byte} {n : BitVec 32} {fresh : Memory}

theorem memcpy_of_le (h : i + d.length ≤ b.allSize) :
    b.memcpy i d = .ok { b with buffer := b.buffer.write i d } := if_pos h

theorem memcpy_eq_ok : b.memcpy i d = .ok b' ↔
    i + d.length ≤ b.allSize ∧ b' = { b with buffer := b.buffer.write i d } := by
  rw [memcpy]
  split
  next h => exact ⟨fun hb => by cases hb; exact ⟨h, rfl⟩, fun hb => by rw [hb.2]⟩
  next h => exact iff_of_false nofun fun hb => h hb.1

theorem ofNat_load_write (m : Memory) (a : Nat) :
    BitVec.ofNat 32 ((m.write a (lowBytes 4 n.toNat)).load a 4) = n := by
  rw [Memory.load_write_lowBytes n.isLt, BitVec.ofNat_toNat, BitVec.setWidth_eq]

theorem setLength_eq_ok : b.setLength n = .ok b' ↔ getAt ≤ b.allSize ∧
    b' = { b with buffer := b.buffer.write lengthAt (lowBytes 4 n.toNat) } := by
  rw [setLength, memcpy_eq_ok, length_lowBytes]
  exact Iff.rfl

theorem setLength_of_le (h : getAt ≤ b.allSize) :
    b.setLength n = .ok { b with buffer := b.buffer.write lengthAt (lowBytes 4 n.toNat) } :=
  setLength_eq_ok.mpr ⟨h, rfl⟩

/-- The bytes that `new` is asked for, and that take in both numbers. -/
theorem allSize_of_allocate (h : allocate fresh n = .ok b) :
    b.allSize = (n.toNat + 9) % 2 ^ 32 ∧ getAt ≤ b.allSize := by
  rw [allocate] at h
  split at h
  next => cases h
  next =>
    obtain ⟨b₁, h₁, h⟩ := Outcome.bind_eq_ok.mp h
    obtain ⟨b₂, h₂, h⟩ := Outcome.bind_eq_ok.mp h
    obtain ⟨-, rfl⟩ := memcpy_eq_ok.mp h₁
    obtain ⟨hle, rfl⟩ := setLength_eq_ok.mp h₂
    obtain ⟨-, rfl⟩ := memcpy_eq_ok.mp h
    exact ⟨BitVec.toNat_ofNat _ _, hle⟩

/-- Where the size leaves room for the nine bytes, the data is cleared, and one byte behind it. -/
theorem allocate_of_lt (hn : n ≠ 0) (hlt : n.toNat + 9 < 2 ^ 32) (fresh : Memory) :
    ∃ b, allocate fresh n = .ok b ∧ b.allSize = n.toNat + 9 ∧ b.size = n ∧
      b.buffer.read getAt (n.toNat + 1) = List.replicate (n.toNat + 1) 0 := by
  have hall : (BitVec.ofNat 32 (n.toNat + 4 + 4 + 1)).toNat = n.toNat + 9 := by
    rw [BitVec.toNat_ofNat, Nat.mod_eq_of_lt (by omega)]
  have hsucc : (n + 1).toNat = n.toNat + 1 := by
    have hone : (1 : BitVec 32).toNat = 1 := rfl
    rw [BitVec.toNat_add, hone, Nat.mod_eq_of_lt (by omega)]
  let m₁ := fresh.write 0 (lowBytes 4 n.toNat)
  let m₂ := m₁.write lengthAt (lowBytes 4 (0 : BitVec 32).toNat)
  have hsize₂ : size ⟨n.toNat + 9, m₂⟩ = n := by
    rw [size, Memory.load_write_of_apart (.inl (Nat.le_refl 4)), ofNat_load_write]
  let m₃ := m₂.write getAt (List.replicate (n.toNat + 1) 0)
  refine ⟨⟨n.toNat + 9, m₃⟩, ?_, rfl, ?_, ?_⟩
  · rw [allocate, if_neg hn]
    simp only [hall]
    refine Outcome.bind_eq_ok.mpr ⟨⟨_, m₁⟩, memcpy_of_le (by simp), ?_⟩
    refine Outcome.bind_eq_ok.mpr ⟨⟨_, m₂⟩, setLength_of_le (Nat.le_add_left 8 (n.toNat + 1)), ?_⟩
    rw [hsize₂, hsucc]
    refine memcpy_of_le ?_
    rw [List.length_replicate]
    exact Nat.le_of_eq (Nat.add_comm 8 (n.toNat + 1))
  · refine (congrArg (BitVec.ofNat 32) ?_).trans hsize₂
    exact Memory.load_write_of_apart (.inl (by decide))
  · have hlength : (List.replicate (n.toNat + 1) (0 : Byte)).length = n.toNat + 1 := List.length_replicate
    rw [Memory.read_write (Nat.le_of_eq hlength.symm), List.take_of_length_le (Nat.le_of_eq hlength)]

end CByteArray

end GalaLua.Runtime
