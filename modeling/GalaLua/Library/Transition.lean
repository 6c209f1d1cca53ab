import Mathlib.Data.List.Basic

/-!
# Runs of an executable transition system

A system is a partial function `step : σ → α → Option σ`: the action `a` is
enabled in `s` when `step s a` is a state. `Reach step ok init s` says that
`s` is reached from `init` by enabled actions that all satisfy `ok` in the
state they are taken in. Invariants are proved by `Reach.invariant`; a finite
schedule is turned into a reachable state by `reach_of_runIf`.
-/

namespace GalaLua.Library

variable {σ α : Type*}

/-- The states reached by enabled actions that meet the guard `ok`. -/
inductive Reach (step : σ → α → Option σ) (ok : σ → α → Prop) (init : σ) : σ → Prop
  | init : Reach step ok init init
  | next {s s' : σ} {a : α} : Reach step ok init s → ok s a → step s a = some s' →
      Reach step ok init s'

abbrev Free : σ → α → Prop := fun _ _ => True

section

variable {step : σ → α → Option σ} {ok : σ → α → Prop} {init s s' : σ} {a : α}

theorem Reach.invariant {I : σ → Prop} (h0 : I init)
    (hstep : ∀ s a s', I s → ok s a → step s a = some s' → I s')
    (h : Reach step ok init s) : I s := by
  induction h with
  | init => exact h0
  | next _ hok hs ih => exact hstep _ _ _ ih hok hs

/-- An invariant whose step lemma may use an invariant proved before. -/
theorem Reach.invariant_of {I J : σ → Prop} (hJ : ∀ s, Reach step ok init s → J s) (h0 : I init)
    (hstep : ∀ s a s', J s → I s → ok s a → step s a = some s' → I s')
    (h : Reach step ok init s) : I s := by
  induction h with
  | init => exact h0
  | next hr hok hs ih => exact hstep _ _ _ (hJ _ hr) ih hok hs

theorem Reach.mono {ok' : σ → α → Prop} (hok : ∀ s a, ok s a → ok' s a)
    (h : Reach step ok init s) : Reach step ok' init s := by
  induction h with
  | init => exact .init
  | next _ ha hs ih => exact ih.next (hok _ _ ha) hs

theorem Reach.free (h : Reach step ok init s) : Reach step Free init s :=
  h.mono fun _ _ _ => trivial

end

-- ---------------------------------------------------------------------------
-- Schedules
-- ---------------------------------------------------------------------------

/-- Run a schedule, stopping at the first action that is not enabled or does
not meet the guard. -/
def runIf (step : σ → α → Option σ) (ok : σ → α → Prop) [∀ s a, Decidable (ok s a)] :
    σ → List α → Option σ
  | s, [] => some s
  | s, a :: as => if ok s a then (step s a).bind fun s' => runIf step ok s' as else none

/-- Run a schedule without a guard. -/
def run (step : σ → α → Option σ) : σ → List α → Option σ
  | s, [] => some s
  | s, a :: as => (step s a).bind fun s' => run step s' as

variable {step : σ → α → Option σ} {ok : σ → α → Prop} {init s s' : σ}

theorem Reach.runIf [∀ s a, Decidable (ok s a)] {as : List α} (h : Reach step ok init s)
    (hr : runIf step ok s as = some s') : Reach step ok init s' := by
  induction as generalizing s with
  | nil =>
    simp only [Library.runIf, Option.some.injEq] at hr
    exact hr ▸ h
  | cons a as ih =>
    simp only [Library.runIf] at hr
    split at hr
    · next ha =>
      obtain ⟨t, ht, hr⟩ := Option.bind_eq_some_iff.mp hr
      exact ih (h.next ha ht) hr
    · cases hr

theorem run_append (s : σ) (as bs : List α) :
    run step s (as ++ bs) = (run step s as).bind fun s' => run step s' bs := by
  induction as generalizing s with
  | nil => rfl
  | cons a as ih =>
    simp only [List.cons_append, run, Option.bind_assoc]
    exact congrArg _ (funext fun s' => ih s')

theorem Reach.run {as : List α} (h : Reach step Free init s) (hr : run step s as = some s') :
    Reach step Free init s' := by
  induction as generalizing s with
  | nil =>
    simp only [Library.run, Option.some.injEq] at hr
    exact hr ▸ h
  | cons a as ih =>
    obtain ⟨t, ht, hr⟩ := Option.bind_eq_some_iff.mp hr
    exact ih (h.next trivial ht) hr

/-- A schedule that ends in a state with property `P` gives a reachable state
with `P`; `P` is decided by running the schedule. -/
theorem reach_of_run (as : List α) (P : σ → Bool) (h : (run step init as).any P = true) :
    ∃ s, Reach step Free init s ∧ P s = true := by
  obtain ⟨s, hs, hp⟩ := (Option.any_eq_true ..).mp h
  exact ⟨s, Reach.init.run hs, hp⟩

theorem reach_of_runIf [∀ s a, Decidable (ok s a)] (as : List α) (P : σ → Bool)
    (h : (runIf step ok init as).any P = true) : ∃ s, Reach step ok init s ∧ P s = true := by
  obtain ⟨s, hs, hp⟩ := (Option.any_eq_true ..).mp h
  exact ⟨s, Reach.init.runIf hs, hp⟩

-- ---------------------------------------------------------------------------
-- Systems that accept every action
-- ---------------------------------------------------------------------------

/-- The actions of a run, each with the state it is taken in. -/
def turns (next : σ → α → σ) : σ → List α → List (σ × α)
  | _, [] => []
  | s, a :: as => (s, a) :: turns next (next s a) as

theorem mem_turns_append (next : σ → α → σ) (s : σ) (as : List α) (a : α) :
    (as.foldl next s, a) ∈ turns next s (as ++ [a]) := by
  induction as generalizing s with
  | nil => exact List.mem_singleton.mpr rfl
  | cons b as ih => exact List.mem_cons_of_mem _ (ih (next s b))

theorem forall_turns_snd {p : α → Prop} (next : σ → α → σ) (s : σ) (as : List α) :
    (∀ t ∈ turns next s as, p t.2) ↔ ∀ a ∈ as, p a := by
  induction as generalizing s with
  | nil => exact iff_of_true nofun nofun
  | cons a as ih => simp only [turns, List.forall_mem_cons, ih]

theorem foldl_invariant {next : σ → α → σ} {I : σ → Prop} {P : σ → α → Prop}
    (hstep : ∀ s a, I s → P s a → I (next s a)) (as : List α) (hs : I s)
    (hok : ∀ t ∈ turns next s as, P t.1 t.2) : I (as.foldl next s) := by
  induction as generalizing s with
  | nil => exact hs
  | cons a as ih =>
    obtain ⟨ha, hlater⟩ := List.forall_mem_cons.mp hok
    exact ih (hstep s a hs ha) hlater

/-- A contract `g` of one action that holds exactly under `o` as long as it was
kept before: a run of legal actions keeps it exactly when all of them meet `o`. -/
theorem forall_turns_iff_of {next : σ → α → σ} {I : σ → Prop} {l g o : σ → α → Prop}
    (hstep : ∀ s a, I s → l s a → (g s a ↔ o s a))
    (hnext : ∀ s a, I s → l s a → g s a → I (next s a)) (as : List α) (hs : I s)
    (hl : ∀ t ∈ turns next s as, l t.1 t.2) :
    (∀ t ∈ turns next s as, g t.1 t.2) ↔ ∀ t ∈ turns next s as, o t.1 t.2 := by
  induction as generalizing s with
  | nil => exact iff_of_true nofun nofun
  | cons a as ih =>
    simp only [turns, List.forall_mem_cons] at hl ⊢
    obtain ⟨hlegal, hlater⟩ := hl
    constructor
    · rintro ⟨hgood, hrest⟩
      exact ⟨(hstep s a hs hlegal).mp hgood, (ih (hnext s a hs hlegal hgood) hlater).mp hrest⟩
    · rintro ⟨hok, hrest⟩
      have hgood := (hstep s a hs hlegal).mpr hok
      exact ⟨hgood, (ih (hnext s a hs hlegal hgood) hlater).mpr hrest⟩

theorem forall_turns_iff {next : σ → α → σ} {I : σ → Prop} {g o : σ → α → Prop}
    (hstep : ∀ s a, I s → (g s a ↔ o s a)) (hnext : ∀ s a, I s → g s a → I (next s a))
    (as : List α) (hs : I s) :
    (∀ t ∈ turns next s as, g t.1 t.2) ↔ ∀ t ∈ turns next s as, o t.1 t.2 :=
  forall_turns_iff_of (l := fun _ _ => True) (fun s a hI _ => hstep s a hI)
    (fun s a hI _ hg => hnext s a hI hg) as hs fun _ _ => trivial

end GalaLua.Library
