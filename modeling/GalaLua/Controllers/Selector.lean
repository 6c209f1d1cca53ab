import Mathlib.Data.List.Basic
import Mathlib.Tactic.Common

/-!
# The poll selector

`CPollSelector` keeps one `pollfd` a descriptor. A slot is given up by setting
its descriptor to -1 (here `none`); its event bits stay, and whoever takes the
slot next adds to them. Slot 0 is the selector's own pipe.
-/

namespace GalaLua.Controllers

abbrev Fd := Nat

/-- `EV_TYPE`, as far as the controllers register it. -/
inductive Ev
  | evIn
  | evOut
  | evErr
  deriving DecidableEq, Repr

/-- The `events` word of a `pollfd`. -/
structure Events where
  pollIn : Bool := false
  pollOut : Bool := false
  pollErr : Bool := false
  deriving DecidableEq, Repr

def Events.has (e : Events) : Ev → Bool
  | .evIn => e.pollIn
  | .evOut => e.pollOut
  | .evErr => e.pollErr

def Events.set (e : Events) : Ev → Events
  | .evIn => { e with pollIn := true }
  | .evOut => { e with pollOut := true }
  | .evErr => { e with pollErr := true }

/-- `Remove` translates only the bits that can be asked for: EV_ERR stays. -/
def Events.clear (e : Events) : Ev → Events
  | .evIn => { e with pollIn := false }
  | .evOut => { e with pollOut := false }
  | .evErr => e

structure PollEvent where
  fd : Option Fd
  events : Events
  deriving DecidableEq, Repr

/-- `m_events`. -/
abbrev Selector := List PollEvent

namespace Selector

/-- The constructor: the pipe, then unused slots with the bit of EV_IN. -/
def new (pipe : Fd) (capacity : Nat) : Selector :=
  ⟨some pipe, { pollIn := true }⟩ :: List.replicate (capacity - 1) ⟨none, { pollIn := true }⟩

/-- The two loops of `Register`: add the event to the first slot that has
`old`, and give the slot to `fd`. -/
def orInto (old : Option Fd) (fd : Fd) (ev : Ev) : Selector → Option Selector
  | [] => none
  | i :: rest =>
    if i.fd = old then some (⟨some fd, i.events.set ev⟩ :: rest)
    else (orInto old fd ev rest).map (i :: ·)

def register (m : Selector) (fd : Fd) (ev : Ev) : Selector :=
  match orInto (some fd) fd ev m with
  | some m' => m'
  | none =>
    match orInto none fd ev m with
    | some m' => m'
    | none => m ++ [⟨some fd, ({} : Events).set ev⟩]

def removeFd (m : Selector) (fd : Fd) : Selector :=
  m.map fun i => if i.fd = some fd then { i with fd := none } else i

def remove (m : Selector) (fd : Fd) (ev : Ev) : Selector :=
  m.map fun i => if i.fd = some fd then { i with events := i.events.clear ev } else i

/-- The interest set: some slot asks for `ev` on `fd`. -/
def interest (m : Selector) (fd : Fd) (ev : Ev) : Bool :=
  m.any fun i => decide (i.fd = some fd) && i.events.has ev

end Selector

@[simp]
theorem Events.has_set_self (e : Events) (ev : Ev) : (e.set ev).has ev = true := by
  cases ev <;> rfl

theorem Events.has_set {e : Events} {ev ev' : Ev} (h : e.has ev') : (e.set ev).has ev' := by
  cases ev <;> cases ev' <;> first | exact h | rfl

theorem Events.has_clear {e : Events} {ev ev' : Ev} (hne : ev' ≠ ev) (h : e.has ev') :
    (e.clear ev).has ev' := by
  cases ev <;> cases ev' <;> first | exact h | exact absurd rfl hne

namespace Selector

variable {m m' : Selector} {fd fd' : Fd} {ev ev' : Ev}

theorem interest_cons (i : PollEvent) (m : Selector) :
    interest (i :: m) fd ev = true ↔ (i.fd = some fd ∧ i.events.has ev) ∨ interest m fd ev := by
  simp [interest]

/-- A slot with `fd` in it, or with nobody in it, is extended: no interest is
lost, and the new one is there. -/
theorem interest_orInto {old : Option Fd} (hold : ∀ f, old = some f → f = fd)
    (h : orInto old fd ev m = some m') :
    interest m' fd ev ∧ ∀ fd' ev', interest m fd' ev' → interest m' fd' ev' := by
  induction m generalizing m' with
  | nil => cases h
  | cons i rest ih =>
    simp only [orInto] at h
    split at h
    next hi =>
      cases h
      constructor
      · rw [interest_cons]
        exact .inl ⟨rfl, Events.has_set_self ..⟩
      · intro fd' ev' hin
        rw [interest_cons] at hin ⊢
        rcases hin with ⟨hfd, hev⟩ | hin
        · exact .inl ⟨congrArg some (hold fd' (hi.symm.trans hfd)).symm, Events.has_set hev⟩
        · exact .inr hin
    next =>
      obtain ⟨tl, htl, rfl⟩ := Option.map_eq_some_iff.mp h
      obtain ⟨hself, hothers⟩ := ih htl
      constructor
      · rw [interest_cons]
        exact .inr hself
      · intro fd' ev' hin
        rw [interest_cons] at hin ⊢
        exact hin.imp_right (hothers fd' ev')

theorem register_spec (m : Selector) (fd : Fd) (ev : Ev) :
    interest (m.register fd ev) fd ev ∧
      ∀ fd' ev', interest m fd' ev' → interest (m.register fd ev) fd' ev' := by
  unfold register
  split
  next h => exact interest_orInto (by rintro f ⟨⟩; rfl) h
  next =>
    split
    next h => exact interest_orInto (by rintro f ⟨⟩) h
    next =>
      constructor
      · simp [interest]
      · intro fd' ev' hin
        simp only [interest, List.any_append, Bool.or_eq_true] at hin ⊢
        exact .inl hin

theorem interest_register_self : interest (m.register fd ev) fd ev :=
  (register_spec m fd ev).1

theorem interest_register (h : interest m fd' ev') : interest (m.register fd ev) fd' ev' :=
  (register_spec m fd ev).2 fd' ev' h

theorem interest_remove (hne : ¬ (fd' = fd ∧ ev' = ev)) (h : interest m fd' ev') :
    interest (m.remove fd ev) fd' ev' := by
  simp only [interest, remove, List.any_map, List.any_eq_true, Function.comp_apply,
    Bool.and_eq_true, decide_eq_true_eq] at h ⊢
  obtain ⟨i, hi, hfd, hev⟩ := h
  refine ⟨i, hi, ?_⟩
  split
  next heq =>
    have hff : fd' = fd := Option.some.inj (hfd.symm.trans heq)
    exact ⟨hfd, Events.has_clear (fun he => hne ⟨hff, he⟩) hev⟩
  next => exact ⟨hfd, hev⟩

theorem interest_removeFd (hne : fd' ≠ fd) (h : interest m fd' ev') :
    interest (m.removeFd fd) fd' ev' := by
  simp only [interest, removeFd, List.any_map, List.any_eq_true, Function.comp_apply,
    Bool.and_eq_true, decide_eq_true_eq] at h ⊢
  obtain ⟨i, hi, hfd, hev⟩ := h
  refine ⟨i, hi, ?_⟩
  rw [if_neg (by rw [hfd]; exact fun he => hne (Option.some.inj he))]
  exact ⟨hfd, hev⟩

end Selector

end GalaLua.Controllers
