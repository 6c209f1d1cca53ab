import Mathlib.Algebra.GroupWithZero.Nat
import Mathlib.Data.Char
import Mathlib.Data.List.Basic
import Mathlib.Data.List.Forall2
import Mathlib.Data.List.Nodup
import Mathlib.Data.List.TakeWhile
import Mathlib.Tactic.Common

/-!
# Strings, ordered tables and calls that may fail

What `string.format`, `string.split` and `tostring` of Lua make of strings, tables
whose keys keep the order in which they were set, and calls that raise errors. A
string is a list of characters, one for a byte.
-/

namespace GalaLua.Library.Lua

-- ---------------------------------------------------------------------------
-- Strings
-- ---------------------------------------------------------------------------

abbrev Str := List Char

/-- The class `%s`. -/
def isspace (c : Char) : Bool :=
  c = ' ' || c = '\t' || c = '\n' || c = '\x0b' || c = '\x0c' || c = '\r'

def isHex (c : Char) : Bool :=
  c.isDigit || ('a' ≤ c && c ≤ 'f') || ('A' ≤ c && c ≤ 'F')

def hexDigit (c : Char) : Nat :=
  if c.isDigit then c.toNat - 48 else if c ≤ 'F' then c.toNat - 55 else c.toNat - 87

/-- `%s` in `string.format`: `sprintf` ends a string of less than 100 bytes at a
NUL. -/
def fmt (s : Str) : Str := if s.length < 100 then s.takeWhile (· ≠ '\x00') else s

/-- The pieces between the separators. -/
def pieces (sep : Char) : Str → List Str
  | [] => [[]]
  | ch :: s =>
    if ch = sep then [] :: pieces sep s
    else
      match pieces sep s with
      | [] => [[ch]]
      | p :: ps => (ch :: p) :: ps

/-- `string.split`: an empty piece in front of the first separator and one behind
the last are left out. -/
def split (sep : Char) (s : Str) : List Str :=
  let ps := pieces sep s
  (if ps.dropLast.head? = some [] then ps.dropLast.tail else ps.dropLast) ++
    ps.getLast?.toList.filter (· ≠ [])

def tostring (n : Nat) : Str := Nat.toDigits 10 n

-- ---------------------------------------------------------------------------
-- Tables in the order of their keys
-- ---------------------------------------------------------------------------

/-- `sequential_table`: a key that is set again keeps its place. -/
def setKey {α : Type} : List (Str × α) → Str → α → List (Str × α)
  | [], k, v => [(k, v)]
  | (k', v') :: d, k, v => if k' = k then (k, v) :: d else (k', v') :: setKey d k v

def setKeys {α : Type} (d as : List (Str × α)) : List (Str × α) := as.foldl (fun dict a => setKey dict a.1 a.2) d

-- ---------------------------------------------------------------------------
-- Characters
-- ---------------------------------------------------------------------------

theorem isHex_sound {c : Char} (h : isHex c = true) : isspace c = false ∧ c ≠ '-' ∧ c ≠ '+' ∧ c ≠ 'x' ∧ c ≠ 'X' := by
  have hspace : isspace c = false := by
    by_contra hs
    simp only [isspace, Bool.not_eq_false, Bool.or_eq_true, decide_eq_true_eq] at hs
    rcases hs with ((((rfl | rfl) | rfl) | rfl) | rfl) | rfl <;> exact absurd h (by decide)
  refine ⟨hspace, ?_, ?_, ?_, ?_⟩ <;> rintro rfl <;> exact absurd h (by decide)

/-- A decimal digit is nothing else that a number is read by. -/
structure Plain (c : Char) : Prop where
  nul : c ≠ '\x00'
  space : isspace c = false
  hex : c.toLower ≠ 'x'
  word : ¬ 'A' ≤ c

theorem plain_of_isDigit {c : Char} (h : c.isDigit = true) : Plain c := by
  have hall : ∀ d < 10, Char.ofNat (48 + d) ≠ '\x00' ∧ isspace (Char.ofNat (48 + d)) = false ∧
      (Char.ofNat (48 + d)).toLower ≠ 'x' ∧ ¬ 'A' ≤ Char.ofNat (48 + d) := by decide
  have hrange : 48 ≤ c.toNat ∧ c.toNat ≤ 57 := by
    simpa [Char.isDigit, UInt32.le_iff_toNat_le] using h
  have hc : Char.ofNat (48 + (c.toNat - 48)) = c := by
    rw [Nat.add_sub_cancel' hrange.1, Char.ofNat_toNat]
  have hd := hall (c.toNat - 48) (by omega)
  rw [hc] at hd
  obtain ⟨hnul, hspace, hhex, hword⟩ := hd
  exact ⟨hnul, hspace, hhex, hword⟩

-- ---------------------------------------------------------------------------
-- What is written
-- ---------------------------------------------------------------------------

variable {s k n : Str}

/-- `string.format` writes the string as it is. -/
def Clean (s : Str) : Prop := fmt s = s

instance : Decidable (Clean s) := inferInstanceAs (Decidable (fmt s = s))

theorem clean_iff : Clean s ↔ '\x00' ∈ s → 100 ≤ s.length := by
  rw [Clean, fmt]
  split
  · next hlt =>
    rw [List.takeWhile_eq_self_iff]
    constructor
    · intro h hnul
      exact absurd (h _ hnul) (by decide)
    · intro h ch hch
      refine decide_eq_true ?_
      rintro rfl
      exact absurd (h hch) (by omega)
  · next hge => exact iff_of_true rfl fun _ => by omega

theorem clean_fmt (s : Str) : Clean (fmt s) := by
  rw [clean_iff, fmt]
  split
  · intro hnul
    exact absurd (List.mem_takeWhile_imp hnul) (by decide)
  · next hge => exact fun _ => by omega

theorem clean_of_all {p : Char → Bool} (h : ∀ ch ∈ s, p ch = true) (hp : p '\x00' = false) : Clean s := by
  rw [clean_iff]
  intro hnul
  rw [h _ hnul] at hp
  cases hp

theorem isDigit_tostring {n : Nat} {ch : Char} (h : ch ∈ tostring n) : ch.isDigit = true :=
  Nat.isDigit_of_mem_toDigits (by decide) (by decide) h

theorem clean_tostring (n : Nat) : Clean (tostring n) :=
  clean_of_all (fun _ => isDigit_tostring) (by decide)

theorem tostring_injective : Function.Injective tostring := by
  intro n m h
  have hvalue := congrArg (Nat.ofDigitChars 10 · 0) h
  simpa only [tostring, Nat.ofDigitChars_ten_toDigits] using hvalue

-- ---------------------------------------------------------------------------
-- split
-- ---------------------------------------------------------------------------

theorem pieces_of_notMem {sep : Char} (h : sep ∉ s) : pieces sep s = [s] := by
  induction s with
  | nil => rfl
  | cons ch s ih =>
    rw [List.mem_cons, not_or] at h
    rw [pieces, if_neg (Ne.symm h.1), ih h.2]

theorem pieces_append {sep : Char} (h : sep ∉ n) : pieces sep (n ++ sep :: s) = n :: pieces sep s := by
  induction n with
  | nil => rw [List.nil_append, pieces, if_pos rfl]
  | cons ch n ih =>
    rw [List.mem_cons, not_or] at h
    rw [List.cons_append, pieces, if_neg (Ne.symm h.1), ih h.2]

theorem split_two {sep : Char} (hsne : s ≠ []) (hs : sep ∉ s) (hnne : n ≠ []) (hn : sep ∉ n) :
    split sep (s ++ sep :: n) = [s, n] := by
  rw [split, pieces_append hs, pieces_of_notMem hn]
  simp [hsne, hnne]

-- ---------------------------------------------------------------------------
-- Tables
-- ---------------------------------------------------------------------------

theorem mem_setKey {α : Type} {d : List (Str × α)} {v : α} {e : Str × α} (h : e ∈ setKey d k v) :
    e = (k, v) ∨ e ∈ d := by
  induction d with
  | nil => exact .inl (List.mem_singleton.mp h)
  | cons e' d ih =>
    obtain ⟨k', v'⟩ := e'
    rw [setKey] at h
    split at h
    · exact (List.mem_cons.mp h).imp_right (List.mem_cons_of_mem _)
    · rcases List.mem_cons.mp h with rfl | h
      · exact .inr List.mem_cons_self
      · exact (ih h).imp_right (List.mem_cons_of_mem _)

theorem lookup_setKey {α : Type} (d : List (Str × α)) (k k' : Str) (v : α) :
    (setKey d k v).lookup k' = if k' = k then some v else d.lookup k' := by
  induction d with
  | nil =>
    rw [setKey, List.lookup_cons, List.lookup_nil]
    split <;> simp_all
  | cons e d ih =>
    obtain ⟨k₁, v₁⟩ := e
    rw [setKey]
    split
    · next h =>
      subst h
      rw [List.lookup_cons, List.lookup_cons]
      by_cases hk : k' = k₁
      · simp [hk]
      · simp [hk, beq_false_of_ne hk]
    · next h =>
      rw [List.lookup_cons, List.lookup_cons, ih]
      by_cases hk : k' = k₁
      · subst hk
        simp [h]
      · simp [beq_false_of_ne hk]

theorem mem_setKey_self {α : Type} (d : List (Str × α)) (k : Str) (v : α) : (k, v) ∈ setKey d k v := by
  induction d with
  | nil => exact List.mem_singleton.mpr rfl
  | cons e d ih =>
    obtain ⟨k', v'⟩ := e
    rw [setKey]
    split
    · exact List.mem_cons_self
    · exact List.mem_cons_of_mem _ ih

theorem mem_setKey_of_ne {α : Type} {d : List (Str × α)} {k : Str} {v : α} {e : Str × α} (he : e ∈ d) (hne : e.1 ≠ k) :
    e ∈ setKey d k v := by
  induction d with
  | nil => exact absurd he List.not_mem_nil
  | cons e' d ih =>
    obtain ⟨k', v'⟩ := e'
    rw [setKey]
    rcases List.mem_cons.mp he with rfl | he
    · rw [if_neg hne]
      exact List.mem_cons_self
    · split
      · exact List.mem_cons_of_mem _ he
      · exact List.mem_cons_of_mem _ (ih he)

theorem setKey_new {α : Type} {d : List (Str × α)} (h : k ∉ d.map Prod.fst) (v : α) : setKey d k v = d ++ [(k, v)] := by
  induction d with
  | nil => rfl
  | cons e d ih =>
    obtain ⟨k', v'⟩ := e
    rw [List.map_cons, List.mem_cons, not_or] at h
    rw [setKey, if_neg (Ne.symm h.1), ih h.2]
    rfl

theorem nodup_setKey {α : Type} {d : List (Str × α)} (h : (d.map Prod.fst).Nodup) (k : Str) (v : α) :
    ((setKey d k v).map Prod.fst).Nodup := by
  induction d with
  | nil => exact List.nodup_singleton k
  | cons e d ih =>
    obtain ⟨k', v'⟩ := e
    obtain ⟨hk', hd⟩ := List.nodup_cons.mp h
    rw [setKey]
    split
    · next heq =>
      subst heq
      exact h
    · next hne =>
      refine List.nodup_cons.mpr ⟨fun hmem => ?_, ih hd⟩
      obtain ⟨e, he, hfst⟩ := List.mem_map.mp hmem
      rcases mem_setKey he with rfl | he
      · exact hne hfst.symm
      · exact hk' (List.mem_map.mpr ⟨e, he, hfst⟩)

/-- In a table every key has one value. -/
theorem mem_iff_lookup {α : Type} {d : List (Str × α)} (h : (d.map Prod.fst).Nodup) {v : α} :
    (k, v) ∈ d ↔ d.lookup k = some v := by
  induction d generalizing v with
  | nil => simp
  | cons e d ih =>
    obtain ⟨k', v'⟩ := e
    obtain ⟨hk', hd⟩ := List.nodup_cons.mp h
    rw [List.mem_cons, List.lookup_cons, ih hd]
    by_cases hk : k = k'
    · subst hk
      have hno : d.lookup k = none := by
        rw [Option.eq_none_iff_forall_ne_some]
        intro v hv
        exact hk' (List.mem_map.mpr ⟨(k, v), (ih hd).mpr hv, rfl⟩)
      simp [hno, eq_comm]
    · simp [hk, beq_false_of_ne hk]

-- ---------------------------------------------------------------------------
-- Pairs
-- ---------------------------------------------------------------------------

section Pairs

variable {α : Type} {d as : List (Str × α)} {v : α}

theorem setKeys_cons (d : List (Str × α)) (a : Str × α) (as : List (Str × α)) :
    setKeys d (a :: as) = setKeys (setKey d a.1 a.2) as := rfl

theorem nodup_setKeys (h : (d.map Prod.fst).Nodup) (as : List (Str × α)) : ((setKeys d as).map Prod.fst).Nodup := by
  induction as generalizing d with
  | nil => exact h
  | cons a as ih => exact ih (nodup_setKey h a.1 a.2)

theorem mem_setKeys {a : Str × α} (h : a ∈ setKeys d as) : a ∈ d ∨ a ∈ as := by
  induction as generalizing d with
  | nil => exact .inl h
  | cons b as ih =>
    rcases ih h with hset | has
    · rcases mem_setKey hset with rfl | hd
      · exact .inr List.mem_cons_self
      · exact .inl hd
    · exact .inr (List.mem_cons_of_mem _ has)

theorem lookup_setKeys (hk : ∀ a ∈ as, a.1 ≠ k) : (setKeys d as).lookup k = d.lookup k := by
  induction as generalizing d with
  | nil => rfl
  | cons a as ih =>
    obtain ⟨ha, has⟩ := List.forall_mem_cons.mp hk
    rw [setKeys_cons, ih has, lookup_setKey, if_neg (Ne.symm ha)]

theorem mem_of_lookup_setKeys (h : (setKeys [] as).lookup k = some v) : (k, v) ∈ as := by
  have hnodup : ((setKeys [] as).map Prod.fst).Nodup := nodup_setKeys (d := []) List.nodup_nil as
  exact (mem_setKeys ((mem_iff_lookup hnodup).mpr h)).resolve_left List.not_mem_nil

theorem filter_setKey (p : Str → Bool) (d : List (Str × α)) (k : Str) (v : α) :
    (setKey d k v).filter (fun a => p a.1) =
      if p k then setKey (d.filter fun a => p a.1) k v else d.filter fun a => p a.1 := by
  induction d with
  | nil => simp [setKey, List.filter_cons]
  | cons e d ih =>
    obtain ⟨k', v'⟩ := e
    by_cases hk : k' = k
    · subst hk
      by_cases hp : p k' <;> simp [setKey, hp]
    · by_cases hp : p k' <;> by_cases hpk : p k <;> simp [setKey, hk, hp, hpk, ih]

theorem filter_setKeys (p : Str → Bool) (d as : List (Str × α)) :
    (setKeys d as).filter (fun a => p a.1) = setKeys (d.filter fun a => p a.1) (as.filter fun a => p a.1) := by
  induction as generalizing d with
  | nil => rfl
  | cons a as ih =>
    rw [setKeys_cons, ih, filter_setKey, List.filter_cons]
    split
    · rw [setKeys_cons]
    · rfl

theorem forall₂_setKey {β : Type} {R : α → β → Prop} {d' : List (Str × β)} {v' : β}
    (h : List.Forall₂ (fun a b => a.1 = b.1 ∧ R a.2 b.2) d d') (k : Str) (hv : R v v') :
    List.Forall₂ (fun a b => a.1 = b.1 ∧ R a.2 b.2) (setKey d k v) (setKey d' k v') := by
  induction h with
  | nil => exact .cons ⟨rfl, hv⟩ .nil
  | @cons a b d d' hfirst hrest ih =>
    obtain ⟨ka, va⟩ := a
    obtain ⟨kb, vb⟩ := b
    obtain ⟨rfl, hr⟩ := hfirst
    rw [setKey, setKey]
    split
    · exact .cons ⟨rfl, hv⟩ hrest
    · exact .cons ⟨rfl, hr⟩ ih

theorem forall₂_setKeys {β : Type} {R : α → β → Prop} {d' as' : List (Str × β)}
    (h : List.Forall₂ (fun a b => a.1 = b.1 ∧ R a.2 b.2) d d')
    (has : List.Forall₂ (fun a b => a.1 = b.1 ∧ R a.2 b.2) as as') :
    List.Forall₂ (fun a b => a.1 = b.1 ∧ R a.2 b.2) (setKeys d as) (setKeys d' as') := by
  induction has generalizing d d' with
  | nil => exact h
  | @cons a b as as' hfirst _ ih =>
    rw [setKeys_cons, setKeys_cons, ← hfirst.1]
    exact ih (forall₂_setKey h a.1 hfirst.2)

theorem setKeys_new (h : ((d ++ as).map Prod.fst).Nodup) : setKeys d as = d ++ as := by
  induction as generalizing d with
  | nil => exact (List.append_nil d).symm
  | cons a as ih =>
    have hnew : a.1 ∉ d.map Prod.fst := by
      rw [List.map_append, List.nodup_append] at h
      exact fun hmem => h.2.2 _ hmem _ List.mem_cons_self rfl
    have hnext : d ++ a :: as = d ++ [a] ++ as := by rw [List.append_assoc]; rfl
    rw [hnext] at h ⊢
    rw [setKeys_cons, setKey_new hnew, ih h]

section Sums

variable {f : Str × α → Nat} (hf : ∀ a, 0 < f a)

include hf

/-- A key that comes again takes the place of the one that is there. -/
theorem sum_setKey_lt {a : Str × α} (h : a.1 ∈ d.map Prod.fst) :
    ((setKey d a.1 a.2).map f).sum < (d.map f).sum + f a := by
  obtain ⟨k, v⟩ := a
  induction d with
  | nil => exact absurd h List.not_mem_nil
  | cons e d ih =>
    obtain ⟨k', v'⟩ := e
    rw [setKey]
    split
    · have hpos := hf (k', v')
      simp only [List.map_cons, List.sum_cons]
      omega
    · next hne =>
      have hlt : ((setKey d k v).map f).sum < (d.map f).sum + f (k, v) :=
        ih ((List.mem_cons.mp h).resolve_left (Ne.symm hne))
      simp only [List.map_cons, List.sum_cons]
      omega

theorem sum_setKeys_le (d as : List (Str × α)) : ((setKeys d as).map f).sum ≤ (d.map f).sum + (as.map f).sum := by
  induction as generalizing d with
  | nil => exact Nat.le_refl _
  | cons a as ih =>
    have hle : ((setKey d a.1 a.2).map f).sum ≤ (d.map f).sum + f a := by
      by_cases h : a.1 ∈ d.map Prod.fst
      · exact (sum_setKey_lt hf h).le
      · rw [setKey_new h, List.map_append, List.sum_append, List.map_singleton, List.sum_singleton]
    have hrest := ih (setKey d a.1 a.2)
    rw [setKeys_cons, List.map_cons, List.sum_cons]
    omega

/-- Where nothing is lost no key comes twice. -/
theorem nodup_of_sum_setKeys (hd : (d.map Prod.fst).Nodup) (h : (d.map f).sum + (as.map f).sum ≤ ((setKeys d as).map f).sum) :
    ((d ++ as).map Prod.fst).Nodup := by
  induction as generalizing d with
  | nil => rwa [List.append_nil]
  | cons a as ih =>
    have hrest := sum_setKeys_le hf (setKey d a.1 a.2) as
    rw [setKeys_cons, List.map_cons, List.sum_cons] at h
    have hnew : a.1 ∉ d.map Prod.fst := fun hmem => by
      have hlt := sum_setKey_lt hf hmem
      omega
    have hnodup := nodup_setKey hd a.1 a.2
    have hadd : setKey d a.1 a.2 = d ++ [a] := setKey_new hnew a.2
    rw [hadd] at h hnodup
    have hnext : d ++ a :: as = d ++ [a] ++ as := by rw [List.append_assoc]; rfl
    rw [hnext]
    refine ih hnodup ?_
    rw [List.map_append, List.sum_append, List.map_singleton, List.sum_singleton]
    omega

/-- Setting keys one after the other loses nothing if and only if no key comes twice. -/
theorem setKeys_weight (as : List (Str × α)) :
    ((setKeys [] as).map f).sum ≤ (as.map f).sum ∧
      ((as.map f).sum ≤ ((setKeys [] as).map f).sum → (as.map Prod.fst).Nodup) := by
  refine ⟨(sum_setKeys_le hf [] as).trans_eq (Nat.zero_add _), fun hle => ?_⟩
  exact nodup_of_sum_setKeys hf (d := []) List.nodup_nil ((Nat.zero_add _).trans_le hle)

end Sums

end Pairs

-- ---------------------------------------------------------------------------
-- Calls that may fail
-- ---------------------------------------------------------------------------

abbrev Res (α : Type) := Except String α

section

variable {α β : Type} {r : Res α}

theorem bind_bind {γ : Type} (r : Res α) (f : α → Res β) (g : β → Res γ) :
    (r.bind f).bind g = r.bind fun a => (f a).bind g := by
  cases r <;> rfl

theorem bind_map {γ : Type} (r : Res α) (f : α → Res β) (g : β → γ) :
    (r.bind f).map g = r.bind fun a => (f a).map g := by
  cases r <;> rfl

theorem bind_eq_ok {f : α → Res β} {b : β} (h : r.bind f = .ok b) :
    ∃ a, r = .ok a ∧ f a = .ok b := by
  cases r with
  | error e => cases h
  | ok a => exact ⟨a, rfl, h⟩

theorem map_eq_ok {f : α → β} {b : β} (h : r.map f = .ok b) :
    ∃ a, r = .ok a ∧ f a = b := by
  cases r with
  | error e => cases h
  | ok a => exact ⟨a, rfl, Except.ok.inj h⟩

/-- A loop whose body fails on some items only: it succeeds when none of them is one. -/
theorem foldlM_ok_iff {γ : Type} {f : β → γ → Res β} {good : γ → Prop}
    (hf : ∀ b c, (∃ b', f b c = .ok b') ↔ good c) (l : List γ) (b : β) :
    (∃ b', l.foldlM f b = .ok b') ↔ ∀ c ∈ l, good c := by
  induction l generalizing b with
  | nil => exact iff_of_true ⟨b, rfl⟩ (by simp)
  | cons c l ih =>
    rw [List.forall_mem_cons, ← hf b c]
    constructor
    · rintro ⟨b', h⟩
      rw [List.foldlM_cons] at h
      obtain ⟨b₁, h₁, h⟩ := bind_eq_ok h
      exact ⟨⟨b₁, h₁⟩, (ih b₁).mp ⟨b', h⟩⟩
    · rintro ⟨⟨b₁, h₁⟩, hl⟩
      obtain ⟨b', h⟩ := (ih b₁).mpr hl
      refine ⟨b', ?_⟩
      rw [List.foldlM_cons, h₁]
      exact h

end

end GalaLua.Library.Lua
