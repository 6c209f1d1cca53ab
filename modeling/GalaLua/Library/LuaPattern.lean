import Mathlib.Data.List.Basic
import Mathlib.Tactic.Common

/-!
# Lua patterns

A pattern is read into items, each a class of characters and how often it may
occur. Whether a text matches does not depend on the order in which the counts
are tried. Captures, `%b`, `%f` and `$` are left out: they are not read.
-/

namespace GalaLua.Library.LuaPattern

abbrev Text := List Char

abbrev Class := Char → Bool

inductive Count
  | once
  | star
  | plus
  | lazy
  | opt
  deriving DecidableEq, Repr

structure Item where
  cls : Class
  count : Count

-- ---------------------------------------------------------------------------
-- Reading a pattern
-- ---------------------------------------------------------------------------

/-- The class of a small letter behind `%`. -/
def letterClass : Char → Option Class
  | 'a' => some Char.isAlpha
  | 'c' => some fun c => c.toNat < 32 || c.toNat = 127
  | 'd' => some Char.isDigit
  | 'l' => some Char.isLower
  | 'p' => some fun c => 32 < c.toNat && c.toNat < 127 && !c.isAlphanum
  | 's' => some fun c => c = ' ' || 9 ≤ c.toNat && c.toNat ≤ 13
  | 'u' => some Char.isUpper
  | 'w' => some Char.isAlphanum
  | 'x' => some fun c => c.isDigit || c.toLower ∈ ['a', 'b', 'c', 'd', 'e', 'f']
  | _ => none

/-- The class of `c` behind `%`. -/
def escaped (c : Char) : Option Class :=
  if c ∈ ['b', 'f'] ∨ c.isDigit then none
  else match letterClass c, letterClass c.toLower with
    | some cls, _ => some cls
    | none, some cls => some fun x => !cls x
    | none, none => some fun x => x = c

/-- A set behind its `[`; a `]` that is the first of it does not close it. -/
def set : Bool → Text → Option (Class × Text)
  | _, [] => none
  | _, '%' :: c :: p => do
    let cls ← escaped c
    let (more, p) ← set false p
    some (fun x => cls x || more x, p)
  | first, c :: '-' :: hi :: p =>
    if c = ']' ∧ first = false then some (fun _ => false, '-' :: hi :: p)
    else if hi = ']' then some (fun x => x = c || x = '-', p)
    else if hi = '%' then none
    else (set false p).map fun (more, p) => (fun x => c ≤ x && x ≤ hi || more x, p)
  | first, c :: p =>
    if c = ']' ∧ first = false then some (fun _ => false, p)
    else (set false p).map fun (more, p) => (fun x => x = c || more x, p)

def single : Text → Option (Class × Text)
  | '%' :: c :: p => (escaped c).map fun cls => (cls, p)
  | '[' :: '^' :: p => (set true p).map fun (cls, p) => (fun x => !cls x, p)
  | '[' :: p => set true p
  | '.' :: p => some (fun _ => true, p)
  | c :: p => if c ∈ ['%', '(', ')'] then none else some (fun x => x = c, p)
  | [] => none

def counted : Text → Count × Text
  | '*' :: p => (.star, p)
  | '+' :: p => (.plus, p)
  | '-' :: p => (.lazy, p)
  | '?' :: p => (.opt, p)
  | p => (.once, p)

def parse : Nat → Text → Option (List Item)
  | _, [] => some []
  | _, ['$'] => none
  | 0, _ => none
  | fuel + 1, p => do
    let (cls, p) ← single p
    let items ← parse fuel (counted p).2
    some (⟨cls, (counted p).1⟩ :: items)

-- ---------------------------------------------------------------------------
-- Matching
-- ---------------------------------------------------------------------------

/-- Any number of characters of the class, and then `more`. -/
def expand (cls : Class) (more : Text → Bool) : Text → Bool
  | [] => more []
  | c :: s => cls c && expand cls more s || more (c :: s)

def one (cls : Class) (more : Text → Bool) : Text → Bool
  | [] => false
  | c :: s => cls c && more s

def matchItems : List Item → Text → Bool
  | [], _ => true
  | ⟨cls, .once⟩ :: items, s => one cls (matchItems items) s
  | ⟨cls, .star⟩ :: items, s => expand cls (matchItems items) s
  | ⟨cls, .plus⟩ :: items, s => one cls (expand cls (matchItems items)) s
  | ⟨cls, .lazy⟩ :: items, s => expand cls (matchItems items) s
  | ⟨cls, .opt⟩ :: items, s => one cls (matchItems items) s || matchItems items s

/-- Whether `string.match` finds the pattern; `none` where it cannot be read. -/
def isMatch (s : Text) : Text → Option Bool
  | '^' :: p => (parse p.length p).map fun items => matchItems items s
  | p => (parse p.length p).map fun items => s.tails.any (matchItems items)

-- ---------------------------------------------------------------------------
-- Laws
-- ---------------------------------------------------------------------------

variable {c : Char} {p q s : Text} {cls : Class} {items : List Item} {fuel : Nat}

theorem parse_once (hsingle : single p = some (cls, q)) (hcounted : counted q = (.once, q)) (hend : p ≠ ['$'])
    (hp : p ≠ []) : parse (fuel + 1) p = (parse fuel q).map fun items => ⟨cls, .once⟩ :: items := by
  rw [parse, hsingle, Option.bind_eq_bind, Option.bind_some]
  · dsimp only
    rw [hcounted]
    dsimp only
    cases parse fuel q <;> rfl
  · exact hp
  · exact hend

theorem single_char (h : c ∉ ['%', '[', '.', '(', ')']) (p : Text) :
    single (c :: p) = some ((fun x => decide (x = c)), p) := by
  simp only [List.mem_cons, List.not_mem_nil, or_false, not_or] at h
  unfold single
  split
  all_goals simp_all

theorem counted_once (h : ∀ c ∈ ['*', '+', '-', '?'], p.head? ≠ some c) : counted p = (.once, p) := by
  unfold counted
  split
  all_goals simp_all

/-- Items that occur once take one character each. -/
theorem matchItems_once (classes : List Class) (items : List Item) (s : Text) :
    matchItems (classes.map (fun cls => ⟨cls, .once⟩) ++ items) s = true ↔
      ∃ a r, s = a ++ r ∧ List.Forall₂ (fun cls c => cls c = true) classes a ∧ matchItems items r = true := by
  induction classes generalizing s with
  | nil =>
    refine ⟨fun h => ⟨[], s, rfl, .nil, h⟩, ?_⟩
    rintro ⟨a, r, rfl, hnil, h⟩
    cases hnil
    exact h
  | cons cls classes ih =>
    rw [List.map_cons, List.cons_append, matchItems]
    constructor
    · intro h
      cases s with
      | nil => cases h
      | cons c s =>
        rw [one, Bool.and_eq_true, ih] at h
        obtain ⟨hc, a, r, rfl, hall, hitems⟩ := h
        exact ⟨c :: a, r, rfl, .cons hc hall, hitems⟩
    · rintro ⟨a, r, rfl, hall, hitems⟩
      cases hall with
      | cons hc hall =>
        rw [List.cons_append, one, Bool.and_eq_true, ih]
        exact ⟨hc, _, r, rfl, hall, hitems⟩

theorem matchItems_plus (cls : Class) (s : Text) :
    matchItems [⟨cls, .plus⟩] s = true ↔ ∃ c r, s = c :: r ∧ cls c = true := by
  rw [matchItems]
  have hexpand (r : Text) : expand cls (matchItems []) r = true := by
    cases r with
    | nil => rfl
    | cons c r => exact Bool.or_true _
  cases s with
  | nil => exact iff_of_false nofun nofun
  | cons c r =>
    rw [one, hexpand, Bool.and_true]
    exact ⟨fun h => ⟨c, r, rfl, h⟩, fun ⟨_, _, heq, h⟩ => by cases heq; exact h⟩

end GalaLua.Library.LuaPattern
