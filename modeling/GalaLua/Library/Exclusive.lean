import Mathlib.Logic.Function.Basic
import Mathlib.Tactic.Common

/-!
# Locks held by position

`holds` says which lock a thread at a position holds. `Exclusive holds pc`:
no lock is held by two threads. A thread that moves keeps exclusion if its new
position holds what the old one held, or nothing, or a lock that was free.
-/

namespace GalaLua.Library

variable {τ π ρ : Type*} {holds : π → Option ρ} {pc : τ → π} {t t' : τ} {q q₀ : π} {r : ρ}

def Exclusive (holds : π → Option ρ) (pc : τ → π) : Prop :=
  ∀ t t' r, holds (pc t) = some r → holds (pc t') = some r → t = t'

variable [DecidableEq τ]

theorem Exclusive.keep (h : Exclusive holds pc) (hpc : pc t = q₀)
    (hq : holds q = none ∨ holds q = holds q₀) : Exclusive holds (Function.update pc t q) := by
  have hold : ∀ a r, holds (Function.update pc t q a) = some r → holds (pc a) = some r := by
    intro a r ha
    rcases eq_or_ne a t with rfl | hat
    · rw [Function.update_self] at ha
      rcases hq with hq | hq
      · simp [hq] at ha
      · rw [hpc, ← hq, ha]
    · rwa [Function.update_of_ne hat] at ha
  intro a b r ha hb
  exact h a b r (hold a r ha) (hold b r hb)

theorem Exclusive.acquire (h : Exclusive holds pc) (hfree : ∀ t, holds (pc t) ≠ some r)
    (hq : holds q = some r) : Exclusive holds (Function.update pc t q) := by
  intro a b r' ha hb
  rcases eq_or_ne a t with rfl | hat
  · rcases eq_or_ne b a with rfl | hba
    · rfl
    · rw [Function.update_self, hq] at ha
      rw [Function.update_of_ne hba] at hb
      exact absurd (hb.trans ha.symm) (hfree b)
  · rw [Function.update_of_ne hat] at ha
    rcases eq_or_ne b t with rfl | hbt
    · rw [Function.update_self, hq] at hb
      exact absurd (ha.trans hb.symm) (hfree a)
    · rw [Function.update_of_ne hbt] at hb
      exact h a b r' ha hb

end GalaLua.Library
