import Mathlib.Data.List.Nodup
import Mathlib.Tactic.Tauto

/-!
# Walks along labelled edges

A graph gives each node the list of its edges. A walk goes on from inner nodes only, and
`visits` lists all of them up to a length, in the order of a depth-first search. Where the
edges of each node have different labels, a walk is known by its labels.
-/

namespace GalaLua.Library

variable {ν κ : Type*}

inductive Walk (g : ν → List (κ × ν)) (inner : ν → Bool) : ν → List κ → ν → Prop
  | one {u v : ν} {k : κ} (hedge : (k, v) ∈ g u) : Walk g inner u [k] v
  | cons {u w v : ν} {k : κ} {ks : List κ} (hedge : (k, w) ∈ g u) (hinner : inner w = true)
      (h : Walk g inner w ks v) : Walk g inner u (k :: ks) v

/-- The walks of at most `depth` edges. -/
def visits (g : ν → List (κ × ν)) (inner : ν → Bool) : Nat → ν → List (List κ × ν)
  | 0, _ => []
  | depth + 1, u =>
    (g u).flatMap fun e =>
      ([e.1], e.2) :: if inner e.2 then (visits g inner depth e.2).map fun p => (e.1 :: p.1, p.2) else []

variable {g g' : ν → List (κ × ν)} {inner : ν → Bool} {u v v' w : ν} {k : κ} {ks ks' : List κ} {depth : Nat}

namespace Walk

theorem ne_nil (h : Walk g inner u ks v) : ks ≠ [] := by
  cases h <;> exact List.cons_ne_nil _ _

theorem trans (h : Walk g inner u ks w) (hinner : inner w = true) (h' : Walk g inner w ks' v) :
    Walk g inner u (ks ++ ks') v := by
  induction h with
  | one hedge => exact .cons hedge hinner h'
  | cons hedge hmid _ ih => exact .cons hedge hmid (ih hinner h')

theorem cons_iff : Walk g inner u (k :: ks) v ↔
    (ks = [] ∧ (k, v) ∈ g u) ∨ ∃ w, (k, w) ∈ g u ∧ inner w = true ∧ Walk g inner w ks v := by
  constructor
  · intro h
    cases h with
    | one hedge => exact .inl ⟨rfl, hedge⟩
    | cons hedge hinner h => exact .inr ⟨_, hedge, hinner, h⟩
  · rintro (⟨rfl, hedge⟩ | ⟨w, hedge, hinner, h⟩)
    · exact .one hedge
    · exact .cons hedge hinner h

/-- The last edge of a walk. -/
theorem snoc_iff : Walk g inner u (ks ++ [k]) v ↔
    (ks = [] ∧ (k, v) ∈ g u) ∨ ∃ w, Walk g inner u ks w ∧ inner w = true ∧ (k, v) ∈ g w := by
  constructor
  · intro h
    induction ks generalizing u with
    | nil => exact .inl ⟨rfl, (cons_iff.mp h).elim And.right fun ⟨_, _, _, h⟩ => absurd rfl h.ne_nil⟩
    | cons k' ks ih =>
      right
      obtain ⟨hnil, -⟩ | ⟨w, hedge, hinner, h⟩ := cons_iff.mp h
      · exact absurd hnil (List.append_ne_nil_of_right_ne_nil _ (List.cons_ne_nil _ _))
      · rcases ih h with ⟨rfl, hlast⟩ | ⟨w', hwalk, hinner', hlast⟩
        · exact ⟨w, .one hedge, hinner, hlast⟩
        · exact ⟨w', .cons hedge hinner hwalk, hinner', hlast⟩
  · rintro (⟨rfl, hedge⟩ | ⟨w, h, hinner, hedge⟩)
    · exact .one hedge
    · exact h.trans hinner (.one hedge)

theorem congr (h : ∀ u e, e ∈ g u ↔ e ∈ g' u) (hwalk : Walk g inner u ks v) : Walk g' inner u ks v := by
  induction hwalk with
  | one hedge => exact .one ((h _ _).mp hedge)
  | cons hedge hinner _ ih => exact .cons ((h _ _).mp hedge) hinner ih

end Walk

theorem walk_of_visits (h : (ks, v) ∈ visits g inner depth u) : Walk g inner u ks v := by
  induction depth generalizing u ks with
  | zero => exact absurd h List.not_mem_nil
  | succ depth ih =>
    obtain ⟨⟨k, w⟩, hedge, h⟩ := List.mem_flatMap.mp h
    rcases List.mem_cons.mp h with heq | h
    · cases heq
      exact .one hedge
    · split at h
      · next hinner =>
        obtain ⟨⟨ks', v'⟩, hmem, heq⟩ := List.mem_map.mp h
        cases heq
        exact .cons hedge hinner (ih hmem)
      · exact absurd h List.not_mem_nil

theorem Walk.mem_visits (h : Walk g inner u ks v) (hdepth : ks.length ≤ depth) : (ks, v) ∈ visits g inner depth u := by
  induction h generalizing depth with
  | @one u v k hedge =>
    obtain ⟨d, rfl⟩ : ∃ d, depth = d + 1 := ⟨depth - 1, by rw [List.length_singleton] at hdepth; omega⟩
    exact List.mem_flatMap.mpr ⟨(k, v), hedge, List.mem_cons_self⟩
  | @cons u w v k ks hedge hinner _ ih =>
    rw [List.length_cons] at hdepth
    obtain ⟨d, rfl⟩ : ∃ d, depth = d + 1 := ⟨depth - 1, by omega⟩
    refine List.mem_flatMap.mpr ⟨(k, w), hedge, List.mem_cons_of_mem _ ?_⟩
    rw [if_pos hinner]
    exact List.mem_map.mpr ⟨(ks, v), ih (Nat.le_of_succ_le_succ hdepth), rfl⟩

/-- Each walk is listed once. -/
theorem nodup_visits (h : ∀ u, ((g u).map Prod.fst).Nodup) (depth : Nat) (u : ν) :
    ((visits g inner depth u).map Prod.fst).Nodup := by
  induction depth generalizing u with
  | zero => exact List.nodup_nil
  | succ depth ih =>
    rw [visits, List.map_flatMap]
    have hhead : ∀ e ∈ g u, ∀ ks ∈ (([e.1], e.2) ::
        if inner e.2 then (visits g inner depth e.2).map fun p => (e.1 :: p.1, p.2) else []).map Prod.fst,
        ks.head? = some e.1 := by
      intro e _ ks hks
      rw [List.map_cons, List.mem_cons] at hks
      rcases hks with rfl | hks
      · rfl
      · split at hks
        · rw [List.map_map] at hks
          obtain ⟨p, -, rfl⟩ := List.mem_map.mp hks
          rfl
        · exact absurd hks List.not_mem_nil
    refine List.nodup_flatMap.mpr ⟨fun e _ => ?_, ?_⟩
    · rw [List.map_cons, List.nodup_cons]
      split
      · have hmap : ((visits g inner depth e.2).map fun p => (e.1 :: p.1, p.2)).map Prod.fst =
            ((visits g inner depth e.2).map Prod.fst).map (e.1 :: ·) := by
          rw [List.map_map, List.map_map]
          rfl
        rw [hmap]
        refine ⟨fun hmem => ?_, (ih e.2).map fun _ _ heq => (List.cons.inj heq).2⟩
        obtain ⟨ks, hks, heq⟩ := List.mem_map.mp hmem
        obtain rfl : ks = [] := (List.cons.inj heq).2
        obtain ⟨⟨ks', v⟩, hmem, hnil⟩ := List.mem_map.mp hks
        exact (walk_of_visits hmem).ne_nil hnil
      · exact ⟨List.not_mem_nil, List.nodup_nil⟩
    · have hlabels := List.pairwise_map.mp (h u)
      refine hlabels.imp_of_mem fun {e e'} he he' hne ks hks hks' => hne ?_
      have := hhead e he ks hks
      rw [hhead e' he' ks hks'] at this
      exact (Option.some.inj this).symm

theorem Walk.unique (hlabels : ∀ u, ((g u).map Prod.fst).Nodup) (h : Walk g inner u ks v)
    (h' : Walk g inner u ks v') : v = v' := by
  have hnodup : ((visits g inner ks.length u).map Prod.fst).Nodup := nodup_visits hlabels ks.length u
  exact congrArg Prod.snd (List.inj_on_of_nodup_map hnodup (h.mem_visits (Nat.le_refl _))
    (h'.mem_visits (Nat.le_refl _)) rfl)

end GalaLua.Library
