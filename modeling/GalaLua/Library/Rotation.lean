import Mathlib.Logic.Function.Basic

/-!
# Rotated files

Numbered files of a store, moved up by one number with renames from the top
down. What they hold, read from the highest number down, loses the front that
was pushed out and nothing else (`joined_shiftUp`).
-/

namespace GalaLua.Library.Rotation

variable {κ β : Type*} [DecidableEq κ]

/-- A file that is not there is not moved, and nothing is replaced. -/
def rename (d : κ → Option β) (old new : κ) : κ → Option β :=
  match d old with
  | none => d
  | some c => Function.update (Function.update d old none) new (some c)

/-- The files below `n` moved up, the highest first. -/
def shiftUp (name : Nat → κ) : Nat → (κ → Option β) → κ → Option β
  | 0, d => d
  | n + 1, d => shiftUp name n (rename d (name n) (name (n + 1)))

/-- What the files below `n` hold, the highest first. -/
def joined {α : Type*} (f : Nat → Option (List α)) : Nat → List α
  | 0 => []
  | n + 1 => (f n).getD [] ++ joined f n

-- ---------------------------------------------------------------------------
-- One rename
-- ---------------------------------------------------------------------------

variable {d : κ → Option β} {old new k : κ}

theorem rename_of_ne (hold : k ≠ old) (hnew : k ≠ new) : rename d old new k = d k := by
  simp only [rename]
  cases d old with
  | none => rfl
  | some c =>
    show Function.update (Function.update d old none) new (some c) k = d k
    rw [Function.update_of_ne hnew, Function.update_of_ne hold]

theorem rename_old (h : old ≠ new) : rename d old new old = none := by
  simp only [rename]
  cases hold : d old with
  | none => exact hold
  | some c =>
    show Function.update (Function.update d old none) new (some c) old = none
    rw [Function.update_of_ne h, Function.update_self]

theorem rename_new : rename d old new new = (d old).or (d new) := by
  simp only [rename]
  cases d old with
  | none => exact Option.none_or.symm
  | some c => exact Function.update_self ..

-- ---------------------------------------------------------------------------
-- All of them
-- ---------------------------------------------------------------------------

variable {name : Nat → κ} {n i : Nat}

theorem shiftUp_of_ne (h : ∀ i ≤ n, k ≠ name i) : shiftUp name n d k = d k := by
  induction n generalizing d with
  | zero => rfl
  | succ n ih =>
    rw [shiftUp, ih fun i hi => h i (by omega)]
    exact rename_of_ne (h n (by omega)) (h (n + 1) (by omega))

theorem shiftUp_top (hname : ∀ i ≤ n + 1, ∀ j ≤ n + 1, name i = name j → i = j) :
    shiftUp name (n + 1) d (name (n + 1)) = (d (name n)).or (d (name (n + 1))) := by
  rw [shiftUp, shiftUp_of_ne, rename_new]
  intro i hi h
  have := hname (n + 1) (by omega) i (by omega) h
  omega

theorem shiftUp_succ (hname : ∀ i ≤ n, ∀ j ≤ n, name i = name j → i = j) (hi : i + 1 < n) :
    shiftUp name n d (name (i + 1)) = d (name i) := by
  induction n generalizing d with
  | zero => omega
  | succ n ih =>
    have hne : ∀ j ≤ n + 1, ∀ m ≤ n + 1, j ≠ m → name j ≠ name m := fun j hj m hm hjm h =>
      hjm (hname j hj m hm h)
    have hbelow : rename d (name n) (name (n + 1)) (name i) = d (name i) :=
      rename_of_ne (hne _ (by omega) _ (by omega) (by omega)) (hne _ (by omega) _ (by omega) (by omega))
    rcases Nat.lt_or_ge (i + 1) n with hlt | hge
    · rw [shiftUp, ih (fun i hi j hj => hname i (by omega) j (by omega)) hlt, hbelow]
    · obtain rfl : n = i + 1 := by omega
      rw [shiftUp, shiftUp_top fun i hi j hj => hname i (by omega) j (by omega), hbelow,
        rename_old (hne _ (by omega) _ (by omega) (by omega)), Option.or_none]

-- ---------------------------------------------------------------------------
-- What they hold
-- ---------------------------------------------------------------------------

variable {α : Type*} {f g : Nat → Option (List α)}

theorem joined_congr (h : ∀ i < n, f i = g i) : joined f n = joined g n := by
  induction n with
  | zero => rfl
  | succ n ih => rw [joined, joined, h n (by omega), ih fun i hi => h i (by omega)]

theorem joined_moved (h : ∀ i < n, g (i + 1) = f i) :
    joined g (n + 1) = joined f n ++ (g 0).getD [] := by
  induction n with
  | zero => simp [joined]
  | succ n ih =>
    rw [joined, ih fun i hi => h i (by omega), h n (by omega), joined, List.append_assoc]

/-- `g` is `f` moved up below the number `n + 1`, with a new file at 0. -/
theorem joined_shiftUp (hmoved : ∀ i < n, g (i + 1) = f i) (htop : g (n + 1) = (f n).or (f (n + 1))) :
    joined f (n + 2) ++ (g 0).getD [] = joined g (n + 2) ∨
      ∃ out c, f (n + 1) = some out ∧ f n = some c ∧ g (n + 1) = some c ∧
        joined f (n + 2) ++ (g 0).getD [] = out ++ joined g (n + 2) := by
  have hrest := joined_moved hmoved
  simp only [joined, htop, List.append_assoc] at hrest ⊢
  rw [hrest]
  cases hc : f n with
  | none => exact .inl (by simp)
  | some c =>
    cases hout : f (n + 1) with
    | none => exact .inl (by simp)
    | some out => exact .inr ⟨out, c, rfl, rfl, rfl, by simp⟩

end GalaLua.Library.Rotation
