/-!
# Loops with an environment

A loop body that is given an answer of the environment in each turn and either
goes on from a new state or is done. A loop ends if some number of turns is
enough; one that comes back to where it was, whatever it is answered, does not.
-/

namespace GalaLua.Library.Loop

variable {α σ ρ : Type}

inductive Turn (σ ρ : Type)
  | again (s : σ)
  | done (r : ρ)
  deriving DecidableEq, Repr

/-- The answers after the first one. -/
def later (as : Nat → α) : Nat → α := fun k => as (k + 1)

/-- At most `n` turns. -/
def run (body : α → σ → Turn σ ρ) : Nat → (Nat → α) → σ → Turn σ ρ
  | 0, _, s => .again s
  | n + 1, as, s =>
    match body (as 0) s with
    | .again s => run body n (later as) s
    | .done r => .done r

/-- The loop is left within `n` turns. -/
def EndsWithin (body : α → σ → Turn σ ρ) (n : Nat) (as : Nat → α) (s : σ) : Prop :=
  ∃ r, run body n as s = .done r

def Ends (body : α → σ → Turn σ ρ) (as : Nat → α) (s : σ) : Prop := ∃ n, EndsWithin body n as s

variable {body : α → σ → Turn σ ρ} {as : Nat → α} {s s' : σ}

theorem endsWithin_of_done {r : ρ} (n : Nat) (h : body (as 0) s = .done r) :
    EndsWithin body (n + 1) as s :=
  ⟨r, by simp only [run, h]⟩

theorem endsWithin_succ_iff {n : Nat} (h : body (as 0) s = .again s') :
    EndsWithin body (n + 1) as s ↔ EndsWithin body n (later as) s' := by
  simp only [EndsWithin, run, h]

theorem ends_iff (h : body (as 0) s = .again s') : Ends body as s ↔ Ends body (later as) s' := by
  constructor
  · rintro ⟨n, hn⟩
    cases n with
    | zero =>
      obtain ⟨r, hr⟩ := hn
      cases hr
    | succ n => exact ⟨n, (endsWithin_succ_iff h).mp hn⟩
  · rintro ⟨n, hn⟩
    exact ⟨n + 1, (endsWithin_succ_iff h).mpr hn⟩

/-- A turn that changes nothing is followed by another one. -/
theorem not_ends_of_fixed (h : ∀ a, body a s = .again s) : ¬Ends body as s := by
  rintro ⟨n, hn⟩
  induction n generalizing as with
  | zero =>
    obtain ⟨r, hr⟩ := hn
    cases hr
  | succ n ih => exact ih ((endsWithin_succ_iff (h _)).mp hn)

-- ---------------------------------------------------------------------------
-- Loops by themselves
-- ---------------------------------------------------------------------------

/-- The states in which the loop comes to its body. -/
inductive Visits (body : σ → Turn σ ρ) (s : σ) : σ → Prop
  | refl : Visits body s s
  | next {s₁ s₂ : σ} : Visits body s s₁ → body s₁ = .again s₂ → Visits body s s₂

inductive Leaves (body : σ → Turn σ ρ) : σ → ρ → Prop
  | done {s : σ} {r : ρ} : body s = .done r → Leaves body s r
  | again {s s' : σ} {r : ρ} : body s = .again s' → Leaves body s' r → Leaves body s r

def Turn.map {σ' ρ' : Type} (f : σ → σ') (g : ρ → ρ') : Turn σ ρ → Turn σ' ρ'
  | .again s => .again (f s)
  | .done r => .done (g r)

/-- A turn from `s` is one from `f s` as well, or nothing at all from there; the
`rank` says how often the latter can be. -/
def Forgets (body : σ → Turn σ ρ) (f : σ → σ) (g : ρ → ρ) (rank : σ → Nat) (s : σ) : Prop :=
  (∃ s', body s = .again s' ∧ f s' = f s ∧ rank s' < rank s) ∨ body (f s) = (body s).map f g

section

variable {body : σ → Turn σ ρ} {f : σ → σ} {g : ρ → ρ} {rank : σ → Nat} {r r' : ρ}

theorem Visits.trans {s₁ s₂ : σ} (h₁ : Visits body s s₁) (h₂ : Visits body s₁ s₂) : Visits body s s₂ := by
  induction h₂ with
  | refl => exact h₁
  | next _ hbody ih => exact ih.next hbody

theorem Visits.invariant {I : σ → Prop} (hbody : ∀ s s', I s → body s = .again s' → I s') (hs : I s)
    (h : Visits body s s') : I s' := by
  induction h with
  | refl => exact hs
  | next _ hnext ih => exact hbody _ _ ih hnext

theorem Leaves.forget (h : Leaves body s r) (hf : ∀ s', Visits body s s' → Forgets body f g rank s') :
    Leaves body (f s) (g r) := by
  induction h with
  | @done s r hdone =>
    rcases hf s .refl with ⟨s', hs', -⟩ | hsame
    · rw [hdone] at hs'
      cases hs'
    · rw [hdone] at hsame
      exact .done hsame
  | @again s s' r hagain _ ih =>
    have hrest := ih fun s'' hs'' => hf s'' ((Visits.refl.next hagain).trans hs'')
    rcases hf s .refl with ⟨s'', hs'', hview, -⟩ | hsame
    · obtain rfl := Turn.again.inj (hagain.symm.trans hs'')
      rwa [hview] at hrest
    · rw [hagain] at hsame
      exact .again hsame hrest

/-- Nothing happens from `f s` until the rank is used up. -/
theorem exists_matched (hf : ∀ s', Visits body s s' → Forgets body f g rank s') :
    ∃ s₁, Visits body s s₁ ∧ (∀ r, Leaves body s₁ r → Leaves body s r) ∧
      body (f s) = (body s₁).map f g := by
  induction hrank : rank s using Nat.strongRecOn generalizing s with
  | ind k ih =>
    rcases hf s .refl with ⟨s', hs', hview, hless⟩ | hsame
    · have hvisit := Visits.refl.next hs'
      obtain ⟨s₁, hs₁, hleaves, hbody⟩ := ih (rank s') (hrank ▸ hless)
        (fun s'' hs'' => hf s'' (hvisit.trans hs'')) rfl
      exact ⟨s₁, hvisit.trans hs₁, fun r hr => .again hs' (hleaves r hr), hview ▸ hbody⟩
    · exact ⟨s, .refl, fun _ hr => hr, hsame⟩

theorem Leaves.recall (h : Leaves body (f s) r') (hf : ∀ s', Visits body s s' → Forgets body f g rank s') :
    ∃ r, Leaves body s r ∧ g r = r' := by
  generalize hstart : f s = s₀ at h
  induction h generalizing s with
  | done hdone =>
    obtain ⟨s₁, -, hleaves, hbody⟩ := exists_matched hf
    rw [hstart, hdone] at hbody
    cases hs₁ : body s₁ with
    | again s' =>
      rw [hs₁] at hbody
      cases hbody
    | done r =>
      rw [hs₁] at hbody
      exact ⟨r, hleaves r (.done hs₁), (Turn.done.inj hbody).symm⟩
  | again hagain _ ih =>
    obtain ⟨s₁, hvisit, hleaves, hbody⟩ := exists_matched hf
    rw [hstart, hagain] at hbody
    cases hs₁ : body s₁ with
    | again s' =>
      rw [hs₁] at hbody
      have hnext := hvisit.next hs₁
      obtain ⟨r, hr, hg⟩ := ih (fun s'' hs'' => hf s'' (hnext.trans hs'')) (Turn.again.inj hbody).symm
      exact ⟨r, hleaves r (.again hs₁ hr), hg⟩
    | done r =>
      rw [hs₁] at hbody
      cases hbody

end

end GalaLua.Library.Loop
