import Mathlib.Data.Finset.Basic
import Mathlib.Data.Fintype.Basic

/-!
# Translated flag words

A word of flags is the set of its flags. Another interface may have a flag for
each of them or for some only; `translate` is the word of those that have one.
-/

namespace GalaLua.Library.Flags

variable {α β : Type*} [Fintype β] [DecidableEq β]

/-- The flags of the other interface that the flags of `a` have there. -/
def translate (flag : α → Option β) (a : Finset α) : Finset β :=
  Finset.univ.filter fun q => ∃ p ∈ a, flag p = some q

variable {flag : α → Option β} {a b : Finset α} {q : β}

theorem mem_translate : q ∈ translate flag a ↔ ∃ p ∈ a, flag p = some q := by
  simp [translate]

theorem translate_empty (flag : α → Option β) : translate flag ∅ = ∅ := by
  ext q
  simp [mem_translate]

variable [DecidableEq α]

theorem translate_union (flag : α → Option β) (a b : Finset α) :
    translate flag (a ∪ b) = translate flag a ∪ translate flag b := by
  ext q
  simp only [mem_translate, Finset.mem_union, or_and_right, exists_or]

/-- No flag of the other interface is shared by two flags. -/
def Injective (flag : α → Option β) : Prop :=
  ∀ p p' q, flag p = some q → flag p' = some q → p = p'

theorem translate_sdiff (h : Injective flag) (a b : Finset α) :
    translate flag (a \ b) = translate flag a \ translate flag b := by
  ext q
  simp only [Finset.mem_sdiff, mem_translate]
  constructor
  · rintro ⟨p, ⟨ha, hb⟩, hp⟩
    refine ⟨⟨p, ha, hp⟩, ?_⟩
    rintro ⟨p', hb', hp'⟩
    exact hb (h p' p q hp' hp ▸ hb')
  · rintro ⟨⟨p, ha, hp⟩, hb⟩
    exact ⟨p, ⟨ha, fun hmem => hb ⟨p, hmem, hp⟩⟩, hp⟩

end GalaLua.Library.Flags
