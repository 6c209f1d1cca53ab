import Mathlib.Data.List.Basic
import Mathlib.Logic.Function.Basic
import Mathlib.Tactic.Common

/-!
# The mail box of `_core.lua`

A table with the messages at the indices from `_first` to `_last`. `Holds b xs`
says that the box stands for the sequence `xs`; `push` and `pop` are its two
ends, and `restore` puts a sequence in front of what the box has.
-/

namespace GalaLua.Wrappers

variable {α : Type}

structure MailBox (α : Type) where
  first : Nat
  last : Nat
  mailBox : Nat → Option α

namespace MailBox

def new : MailBox α := ⟨1, 0, fun _ => none⟩

def push (b : MailBox α) (msg : α) : MailBox α :=
  { b with mailBox := Function.update b.mailBox (b.last + 1) (some msg), last := b.last + 1 }

def available (b : MailBox α) : Bool := b.first ≤ b.last

/-- The message is nothing for an index without one, and `pop` raises an error
on an empty box. -/
def pop (b : MailBox α) : Option (Option α × MailBox α) :=
  if b.first ≤ b.last then
    some (b.mailBox b.first,
      { b with mailBox := Function.update b.mailBox b.first none, first := b.first + 1 })
  else none

def size (b : MailBox α) : Nat := b.last + 1 - b.first

/-- The first loop of `restore`: what the box has goes to the end of `cache`. -/
def drain : Nat → List α → MailBox α → List α × MailBox α
  | 0, cache, b => (cache, b)
  | fuel + 1, cache, b =>
    match b.pop with
    | some (some r, b) => drain fuel (cache ++ [r]) b
    | some (none, b) => drain fuel cache b
    | none => (cache, b)

def restore (cache : List α) (b : MailBox α) : MailBox α :=
  let r := drain b.size cache b
  r.1.foldl push r.2

-- ---------------------------------------------------------------------------
-- What a box stands for
-- ---------------------------------------------------------------------------

def toList (b : MailBox α) : List α :=
  (List.range b.size).filterMap fun i => b.mailBox (b.first + i)

structure Holds (b : MailBox α) (xs : List α) : Prop where
  last : b.last + 1 = b.first + xs.length
  get : ∀ i, b.mailBox (b.first + i) = xs[i]?

variable {b : MailBox α} {xs : List α} {x : α}

theorem holds_new : Holds (new : MailBox α) [] where
  last := rfl
  get _ := rfl

theorem Holds.push (h : Holds b xs) (msg : α) : Holds (b.push msg) (xs ++ [msg]) where
  last := by
    have := h.last
    simp only [MailBox.push, List.length_append, List.length_singleton]
    omega
  get i := by
    have hlast := h.last
    simp only [MailBox.push]
    rcases Nat.lt_trichotomy i xs.length with hi | rfl | hi
    · rw [Function.update_of_ne (by omega), h.get, List.getElem?_append_left hi]
    · rw [hlast, Function.update_self]
      simp
    · rw [Function.update_of_ne (by omega), h.get, List.getElem?_eq_none (by omega),
        List.getElem?_eq_none (by simp; omega)]

theorem Holds.available_nil (h : Holds b []) : b.available = false := by
  have := h.last
  simp only [MailBox.available, decide_eq_false_iff_not]
  simp only [List.length_nil] at this
  omega

theorem Holds.pop_cons (h : Holds b (x :: xs)) :
    ∃ b', b.pop = some (some x, b') ∧ Holds b' xs := by
  have hlast := h.last
  simp only [List.length_cons] at hlast
  have hx : b.mailBox b.first = some x := h.get 0
  have hpop : b.pop = some (b.mailBox b.first, _) := if_pos (by omega)
  refine ⟨_, hx ▸ hpop, ?_, fun i => ?_⟩
  · simp only
    omega
  · have hget := h.get (i + 1)
    rw [List.getElem?_cons_succ] at hget
    dsimp only
    rw [Function.update_of_ne (by omega), Nat.add_right_comm]
    exact hget

theorem Holds.available_cons (h : Holds b (x :: xs)) : b.available := by
  have := h.last
  simp only [List.length_cons] at this
  exact decide_eq_true (by omega)

theorem Holds.size_eq (h : Holds b xs) : b.size = xs.length := by
  have := h.last
  unfold MailBox.size
  omega

theorem Holds.toList_eq (h : Holds b xs) : b.toList = xs := by
  unfold MailBox.toList
  rw [h.size_eq]
  simp only [h.get]
  clear h
  induction xs with
  | nil => rfl
  | cons x xs ih => simpa [List.range_succ_eq_map, List.filterMap_map, Function.comp_def] using ih

theorem Holds.drain (h : Holds b xs) (cache : List α) :
    ∃ b', drain b.size cache b = (cache ++ xs, b') ∧ Holds b' [] := by
  rw [h.size_eq]
  induction xs generalizing b cache with
  | nil => exact ⟨b, by simp [MailBox.drain], h⟩
  | cons x xs ih =>
    obtain ⟨b₁, hpop, h₁⟩ := h.pop_cons
    obtain ⟨b', hdrain, h'⟩ := ih h₁ (cache ++ [x])
    refine ⟨b', ?_, h'⟩
    simp only [List.length_cons, MailBox.drain, hpop]
    rw [hdrain, List.append_assoc, List.singleton_append]

theorem Holds.foldl_push (h : Holds b xs) (ys : List α) :
    Holds (ys.foldl MailBox.push b) (xs ++ ys) := by
  induction ys generalizing b xs with
  | nil => simpa using h
  | cons y ys ih => simpa using ih (h.push y)

theorem Holds.restore (h : Holds b xs) (cache : List α) : Holds (restore cache b) (cache ++ xs) := by
  obtain ⟨b', hdrain, h'⟩ := h.drain cache
  unfold MailBox.restore
  rw [hdrain]
  simpa using h'.foldl_push (cache ++ xs)

end MailBox

end GalaLua.Wrappers
