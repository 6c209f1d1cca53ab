import Mathlib.Logic.Function.Basic
import Mathlib.Data.List.Nodup

/-!
# Null-terminated chains

`Chain next p l`: following `next` from the pointer `p` visits exactly the
cells `l` and then ends. The map `next` may be read out of any memory; the
frame rule `Chain.congr` says that only the visited cells matter.
-/

namespace GalaLua.Library

variable {α : Type*}

def Chain (next : α → Option α) : Option α → List α → Prop
  | p, [] => p = none
  | p, a :: l => p = some a ∧ Chain next (next a) l

variable {next next' : α → Option α} {p : Option α} {a b : α} {l l' : List α}

@[simp] theorem chain_nil : Chain next p [] ↔ p = none := Iff.rfl

@[simp] theorem chain_cons : Chain next p (a :: l) ↔ p = some a ∧ Chain next (next a) l := Iff.rfl

theorem Chain.congr (h : Chain next p l) (hn : ∀ a ∈ l, next' a = next a) : Chain next' p l := by
  induction l generalizing p with
  | nil => exact h
  | cons a l ih =>
    obtain ⟨rfl, h⟩ := h
    refine ⟨rfl, ?_⟩
    rw [hn a List.mem_cons_self]
    exact ih h fun b hb => hn b (List.mem_cons_of_mem _ hb)

theorem Chain.unique (h : Chain next p l) (h' : Chain next p l') : l = l' := by
  induction l generalizing p l' with
  | nil =>
    cases l' with
    | nil => rfl
    | cons b l' => simp_all
  | cons a l ih =>
    obtain ⟨rfl, h⟩ := h
    cases l' with
    | nil => simp at h'
    | cons b l' =>
      obtain ⟨hab, h'⟩ := h'
      obtain rfl := Option.some.inj hab
      rw [ih h h']

theorem Chain.head_mem (h : Chain next (some a) l) : a ∈ l := by
  cases l with
  | nil => cases h
  | cons b l => exact Option.some.inj h.1 ▸ List.mem_cons_self

theorem Chain.drop (h : Chain next p (l ++ a :: l')) : Chain next (some a) (a :: l') := by
  induction l generalizing p with
  | nil =>
    obtain ⟨rfl, h⟩ := h
    exact ⟨rfl, h⟩
  | cons b l ih => exact ih h.2

theorem Chain.nodup (h : Chain next p l) : l.Nodup := by
  induction l generalizing p with
  | nil => exact List.nodup_nil
  | cons a l ih =>
    obtain ⟨rfl, h⟩ := h
    refine List.nodup_cons.mpr ⟨fun ha => ?_, ih h⟩
    obtain ⟨l₁, l₂, rfl⟩ := List.append_of_mem ha
    -- the tail from the second visit is the whole chain again, and longer
    have hall : Chain next (some a) (a :: (l₁ ++ a :: l₂)) := ⟨rfl, h⟩
    have heq := hall.unique h.drop
    have := congrArg List.length heq
    simp at this
    omega

theorem Chain.snoc (h : Chain next p (l ++ [a])) (hb : b ∉ l ++ [a]) (hab : next' a = some b)
    (hend : next' b = none) (hn : ∀ c ∈ l, next' c = next c) : Chain next' p (l ++ [a] ++ [b]) := by
  induction l generalizing p with
  | nil =>
    obtain ⟨rfl, -⟩ := h
    exact ⟨rfl, hab, hend⟩
  | cons c l ih =>
    obtain ⟨rfl, h⟩ := h
    simp only [List.cons_append, List.mem_cons, not_or] at hb
    refine ⟨rfl, ?_⟩
    rw [hn c List.mem_cons_self]
    exact ih h hb.2 fun d hd => hn d (List.mem_cons_of_mem _ hd)

end GalaLua.Library
