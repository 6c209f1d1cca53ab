import GalaLua.Library.LuaPattern
import GalaLua.Library.Prefixes

/-!
# The common prefix of paths

The loop of `common_prefix` has no bound of its own. It returns at the first length that
one of the other paths does not have or does not share: `commonPrefix_longest`.
-/

namespace GalaLua.Modules.Path

open Library.LuaPattern (Text)
open Library.Prefixes

/-- A string, or a path object with its path. -/
inductive Item
  | text (s : Text)
  | object (path : Text)

inductive Argument
  | item (k : Item)
  | list (t : List Item)

def Item.getPath : Item → Except String Text
  | .text _ => .error "attempt to call method 'get_path' (a nil value)"
  | .object path => .ok path

/-- The loop over the other paths at one length: what it returns, if it does. -/
def others (str : Text) (len : Nat) : List Item → Except String (Option Text)
  | [] => .ok none
  | k :: t => do
    let p ← k.getPath
    if p.length < len then .ok (some (str.take (len - 1)))
    else if p.take len ≠ str then .ok (some (if str = [] then str else str.take (len - 1)))
    else others str len t

/-- The loop over the lengths; `none` where it is still running after `turns`. -/
def lengths (self : Text) (t : List Item) : Nat → Nat → Except String (Option Text)
  | 0, _ => .ok none
  | turns + 1, len => do
    let len := len + 1
    match ← others (self.take len) len t with
    | some s => .ok (some s)
    | none => lengths self t turns len

/-- The arguments, if all of them have a metatable. -/
def items : List Argument → Option (List Item)
  | [] => some []
  | .item k :: rest => (items rest).map (k :: ·)
  | .list _ :: _ => none

def commonPrefix (turns : Nat) (self : Text) (args : List Argument) : Except String (Option Text) :=
  match args with
  | [] => .error "attempt to get length of local 't' (a nil value)"
  | .list [] :: _ => .error "path of path:common_prefix illegal"
  | .list t :: _ => lengths self t turns 0
  | .item _ :: _ =>
    match items args with
    | none => .error "path of path:common_prefix illegal"
    | some t => lengths self t turns 0

-- ---------------------------------------------------------------------------
-- Turns
-- ---------------------------------------------------------------------------

variable {self p : Text} {ps : List Text}

theorem items_objects (ps : List Text) : items (ps.map fun p => .item (.object p)) = some (ps.map .object) := by
  induction ps with
  | nil => rfl
  | cons p ps ih => rw [List.map_cons, items, ih, Option.map_some, List.map_cons]

/-- A turn goes on where all the paths agree on one more character, and otherwise
returns what they agreed on before. -/
theorem others_cases (self : Text) (n : Nat) (ps : List Text) :
    others (self.take (n + 1)) (n + 1) (ps.map .object) = .ok none ∧ (∀ p ∈ ps, Agree (n + 1) self p) ∨
      others (self.take (n + 1)) (n + 1) (ps.map .object) = .ok (some (self.take n)) ∧
        ∃ p ∈ ps, ¬ Agree (n + 1) self p := by
  have hshort : (self.take (n + 1)).take (n + 1 - 1) = self.take n := by
    rw [List.take_take]
    congr 1
    omega
  induction ps with
  | nil => exact .inl ⟨rfl, by simp⟩
  | cons p ps ih =>
    have hstep : others (self.take (n + 1)) (n + 1) ((p :: ps).map .object) =
        if p.length < n + 1 then .ok (some (self.take n))
        else if p.take (n + 1) ≠ self.take (n + 1) then .ok (some (self.take n))
        else others (self.take (n + 1)) (n + 1) (ps.map .object) := by
      have hempty : (if self.take (n + 1) = [] then self.take (n + 1) else self.take n) = self.take n := by
        split
        next hnil => rw [hnil, ← hshort, hnil, List.take_nil]
        next => rfl
      rw [List.map_cons, others, Item.getPath, hshort, hempty]
      rfl
    rw [hstep]
    by_cases hlength : p.length < n + 1
    · exact .inr ⟨if_pos hlength, p, List.mem_cons_self, fun h => absurd h.1 (Nat.not_le.mpr hlength)⟩
    · rw [if_neg hlength]
      by_cases htake : p.take (n + 1) = self.take (n + 1)
      · rw [if_neg (not_not.mpr htake)]
        rcases ih with ⟨hnone, hall⟩ | ⟨hsome, q, hq, hstop⟩
        · exact .inl ⟨hnone, List.forall_mem_cons.mpr ⟨⟨Nat.not_lt.mp hlength, htake⟩, hall⟩⟩
        · exact .inr ⟨hsome, q, List.mem_cons_of_mem p hq, hstop⟩
      · exact .inr ⟨if_pos htake, p, List.mem_cons_self, fun h => htake h.2⟩

/-- The loop goes on only while the receiver has a character more than the others agree on. -/
theorem lengths_longest {n : Nat} (hagree : ∀ q ∈ p :: ps, Agree n self q) :
    ∃ s, Longest s (self :: p :: ps) ∧
      ∀ turns, self.length < n + turns → lengths self ((p :: ps).map .object) turns n = .ok (some s) := by
  have hlength := (hagree p List.mem_cons_self).length_le
  rcases others_cases self n (p :: ps) with ⟨hnone, hall⟩ | ⟨hsome, q, hq, hstop⟩
  · have hnext := (hall p List.mem_cons_self).length_le
    obtain ⟨s, hlongest, hreturns⟩ := lengths_longest hall
    refine ⟨s, hlongest, fun turns hturns => ?_⟩
    obtain ⟨turns, rfl⟩ : ∃ m, turns = m + 1 := ⟨turns - 1, by omega⟩
    simp only [lengths, hnone]
    exact hreturns turns (by omega)
  · refine ⟨self.take n, longest_take hagree hq hstop, fun turns hturns => ?_⟩
    obtain ⟨turns, rfl⟩ : ∃ m, turns = m + 1 := ⟨turns - 1, by omega⟩
    simp only [lengths, hsome]
    rfl
termination_by self.length - n

theorem commonPrefix_longest (self p : Text) (ps : List Text) :
    ∃ s, Longest s (self :: p :: ps) ∧ ∀ turns, self.length < turns →
      (∀ rest, commonPrefix turns self (.list ((p :: ps).map .object) :: rest) = .ok (some s)) ∧
      commonPrefix turns self ((p :: ps).map fun q => .item (.object q)) = .ok (some s) := by
  obtain ⟨s, hlongest, hreturns⟩ := @lengths_longest self p ps 0 fun q _ => ⟨Nat.zero_le _, rfl⟩
  refine ⟨s, hlongest, fun turns hturns => ⟨fun rest => hreturns turns (by omega), ?_⟩⟩
  have hitems := items_objects (p :: ps)
  rw [List.map_cons] at hitems
  rw [List.map_cons, commonPrefix, hitems]
  exact hreturns turns (by omega)

end GalaLua.Modules.Path
