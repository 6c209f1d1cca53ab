import Mathlib.Data.List.Basic

/-!
# Moves in a tree

A place in a tree is the list of the names that lead to it, the last one first. Moves
up, which stay at the root, and moves down are one route: so many levels up, and then
down some names. Routes compose, and what is behind a route undoes the names of what is
in front of it.
-/

namespace GalaLua.Library

inductive Move (α : Type)
  | stay
  | up
  | enter (n : α)

variable {α : Type}

def Move.run : Move α → List α → List α
  | .stay, loc => loc
  | .up, loc => loc.tail
  | .enter n, loc => n :: loc

@[ext] structure Route (α : Type) where
  ups : Nat
  names : List α
  deriving DecidableEq

namespace Route

def here : Route α := ⟨0, []⟩

def step (r : Route α) : Move α → Route α
  | .stay => r
  | .up => match r.names with
    | [] => ⟨r.ups + 1, []⟩
    | _ :: names => ⟨r.ups, names⟩
  | .enter n => ⟨r.ups, n :: r.names⟩

/-- The route of some moves. -/
def of (ms : List (Move α)) : Route α := ms.foldl step here

def apply (r : Route α) (loc : List α) : List α := r.names ++ loc.drop r.ups

/-- First `r`, then `q`. -/
def comp (r q : Route α) : Route α := ⟨r.ups + (q.ups - r.names.length), q.names ++ r.names.drop q.ups⟩

/-- The moves that a route stands for. -/
def moves (r : Route α) : List (Move α) := List.replicate r.ups .up ++ r.names.reverse.map .enter

variable {r q : Route α} {m : Move α} {ms ns : List (Move α)} {loc : List α}

@[simp] theorem here_comp : here.comp q = q := by simp [comp, here]

@[simp] theorem comp_here : r.comp here = r := by simp [comp, here]

@[simp] theorem here_apply : here.apply loc = loc := by simp [apply, here]

theorem comp_step : r.comp (q.step m) = (r.comp q).step m := by
  cases m with
  | stay => rfl
  | enter n => rfl
  | up =>
    obtain ⟨ups, names⟩ := q
    cases names with
    | cons n names => rfl
    | nil =>
      simp only [step, comp, List.nil_append]
      cases hdrop : r.names.drop ups with
      | nil =>
        have hlen := List.drop_eq_nil_iff.mp hdrop
        simp only [Route.mk.injEq, List.drop_eq_nil_iff]
        omega
      | cons n rest =>
        have hlen : ups < r.names.length := by
          by_contra hge
          rw [List.drop_eq_nil_of_le (Nat.not_lt.mp hge)] at hdrop
          cases hdrop
        have htail : r.names.drop (ups + 1) = rest := by rw [← List.tail_drop, hdrop, List.tail_cons]
        simp only [htail, Route.mk.injEq, and_true]
        omega

theorem step_apply : (r.step m).apply loc = m.run (r.apply loc) := by
  cases m with
  | stay => rfl
  | enter n => rfl
  | up =>
    obtain ⟨ups, names⟩ := r
    cases names with
    | cons n names => rfl
    | nil => simp only [step, apply, Move.run, List.nil_append, List.tail_drop]

theorem foldl_step (ms : List (Move α)) (r : Route α) : ms.foldl step r = r.comp (of ms) := by
  have hgen : ∀ q, ms.foldl step (r.comp q) = r.comp (ms.foldl step q) := by
    induction ms with
    | nil => exact fun q => rfl
    | cons m ms ih => exact fun q => by rw [List.foldl_cons, List.foldl_cons, ← comp_step, ih]
  have h := hgen here
  rwa [comp_here] at h

theorem of_append (ms ns : List (Move α)) : of (ms ++ ns) = (of ms).comp (of ns) := by
  rw [of, List.foldl_append, foldl_step]
  rfl

theorem of_concat (ms : List (Move α)) (m : Move α) : of (ms ++ [m]) = (of ms).step m := by
  rw [of, List.foldl_append]
  rfl

theorem foldl_run (ms : List (Move α)) (loc : List α) : ms.foldl (fun loc m => m.run loc) loc = (of ms).apply loc := by
  have hgen : ∀ r : Route α, ms.foldl (fun loc m => m.run loc) (r.apply loc) = (ms.foldl step r).apply loc := by
    induction ms with
    | nil => exact fun r => rfl
    | cons m ms ih => exact fun r => by rw [List.foldl_cons, List.foldl_cons, ← step_apply, ih]
  have h := hgen here
  rwa [here_apply] at h

theorem comp_apply : (r.comp q).apply loc = q.apply (r.apply loc) := by
  simp only [apply, comp, List.append_assoc, List.drop_append, List.drop_drop]

theorem of_moves (r : Route α) : of r.moves = r := by
  have hups : ∀ n, of (List.replicate n (.up : Move α)) = ⟨n, []⟩ := by
    intro n
    induction n with
    | zero => rfl
    | succ n ih => rw [List.replicate_succ', of_concat, ih]; rfl
  have hnames : ∀ names : List α, of (names.reverse.map .enter) = ⟨0, names⟩ := by
    intro names
    induction names with
    | nil => rfl
    | cons n names ih => rw [List.reverse_cons, List.map_append, List.map_singleton, of_concat, ih]; rfl
  rw [moves, of_append, hups, hnames]
  simp [comp]

theorem step_ups : (r.step m).ups = r.ups ∨ m = .up ∧ r.names = [] ∧ (r.step m).ups = r.ups + 1 := by
  obtain ⟨ups, names⟩ := r
  cases m with
  | stay => exact .inl rfl
  | enter n => exact .inl rfl
  | up =>
    cases names with
    | nil => exact .inr ⟨rfl, rfl, rfl⟩
    | cons n names => exact .inl rfl

/-- A route is not changed by one in front of it when it leaves all that that one enters,
and climbs no more in the end. -/
theorem comp_eq_right : r.comp q = q ↔ r.names.length ≤ q.ups ∧ r.ups = r.names.length := by
  rw [Route.ext_iff]
  simp only [comp, List.append_right_eq_self, List.drop_eq_nil_iff]
  omega

end Route

end GalaLua.Library
