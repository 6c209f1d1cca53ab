import Mathlib.Data.Finset.Card

/-!
# Waiters of a condition variable

`blocked` has the threads that wait and were not woken, `woken` those that
were, by a signal or otherwise, and have not run since. A signal goes to one
blocked thread of the scheduler's choice, and is lost when there is none.
-/

namespace GalaLua.Library

variable {κ : Type*} [DecidableEq κ]

structure Waiters (κ : Type*) where
  blocked : Finset κ
  woken : Finset κ
  disjoint : Disjoint blocked woken

namespace Waiters

def none : Waiters κ := ⟨∅, ∅, Finset.disjoint_empty_left _⟩

def block (w : Waiters κ) (t : κ) : Waiters κ where
  blocked := insert t w.blocked
  woken := w.woken.erase t
  disjoint := by
    rw [Finset.disjoint_insert_left]
    exact ⟨Finset.notMem_erase t _, w.disjoint.mono_right (Finset.erase_subset t _)⟩

def wake (w : Waiters κ) (t : κ) : Waiters κ where
  blocked := w.blocked.erase t
  woken := insert t w.woken
  disjoint := by
    rw [Finset.disjoint_insert_right]
    exact ⟨Finset.notMem_erase t _, w.disjoint.mono_left (Finset.erase_subset t _)⟩

def wakeAll (w : Waiters κ) : Waiters κ where
  blocked := ∅
  woken := w.woken ∪ w.blocked
  disjoint := Finset.disjoint_empty_left _

/-- `t` has run. -/
def leave (w : Waiters κ) (t : κ) : Waiters κ where
  blocked := w.blocked
  woken := w.woken.erase t
  disjoint := w.disjoint.mono_right (Finset.erase_subset t _)

def notifyOne (w : Waiters κ) : Option κ → Option (Waiters κ)
  | .none => if w.blocked = ∅ then some w else .none
  | some t => if t ∈ w.blocked then some (w.wake t) else .none

-- ---------------------------------------------------------------------------
-- Numbers of waiters
-- ---------------------------------------------------------------------------

variable {w w' : Waiters κ} {t : κ} {who : Option κ}

theorem card_blocked_block_le (w : Waiters κ) (t : κ) :
    (w.block t).blocked.card ≤ w.blocked.card + 1 := Finset.card_insert_le t _

theorem card_blocked_wake (h : t ∈ w.blocked) :
    (w.wake t).blocked.card + 1 = w.blocked.card := Finset.card_erase_add_one h

theorem card_woken_wake (h : t ∈ w.blocked) : (w.wake t).woken.card = w.woken.card + 1 :=
  Finset.card_insert_of_notMem (Finset.disjoint_left.mp w.disjoint h)

theorem card_woken_leave_le (w : Waiters κ) (t : κ) :
    w.woken.card ≤ (w.leave t).woken.card + 1 := by
  have : w.woken.card - 1 ≤ (w.leave t).woken.card := Finset.pred_card_le_card_erase
  omega

theorem notifyOne_cases (h : w.notifyOne who = some w') :
    w.blocked = ∅ ∧ w' = w ∨
      w.blocked.card = w'.blocked.card + 1 ∧ w'.woken.card = w.woken.card + 1 := by
  cases who with
  | none =>
    simp only [notifyOne, Option.ite_none_right_eq_some, Option.some.injEq] at h
    exact .inl ⟨h.1, h.2.symm⟩
  | some t =>
    simp only [notifyOne, Option.ite_none_right_eq_some, Option.some.injEq] at h
    obtain ⟨ht, rfl⟩ := h
    exact .inr ⟨(card_blocked_wake ht).symm, card_woken_wake ht⟩

end Waiters

end GalaLua.Library
