import GalaLua.Runtime.PollSelector

/-!
# The two masks of an epoll selector

`CEpollSelector` keeps the events of a descriptor in `_fd2events`, beside the
mask in the kernel's interest list. `Register` adds to the one and replaces the
other, so the two stay the same as long as a descriptor that is registered
again is registered for all it has (`masks_agree_iff`).
-/

namespace GalaLua.Runtime.CEpollSelector

open Library

inductive EpollFlag
  | EPOLLIN | EPOLLOUT | EPOLLRDHUP | EPOLLPRI | EPOLLET | EPOLLONESHOT
  deriving DecidableEq, Repr

instance : Fintype EpollFlag where
  elems := {.EPOLLIN, .EPOLLOUT, .EPOLLRDHUP, .EPOLLPRI, .EPOLLET, .EPOLLONESHOT}
  complete p := by cases p <;> decide

/-- The translation of `Register` and of `Remove`. -/
def flagOf : EVENTTYPE → Option EpollFlag
  | .EV_IN => some .EPOLLIN
  | .EV_OUT => some .EPOLLOUT
  | .EV_RDHUP => some .EPOLLRDHUP
  | .EV_PRI => some .EPOLLPRI
  | .EV_ET => some .EPOLLET
  | .EV_ONESHOT => some .EPOLLONESHOT
  | .EV_ERR | .EV_HUP | .EV_NVALID | .EV_TIMEOUT => none

/-- `event.events`. -/
def eventsOf (ev : Finset EVENTTYPE) : Finset EpollFlag := Flags.translate flagOf ev

-- ---------------------------------------------------------------------------
-- `epoll_ctl`
-- ---------------------------------------------------------------------------

abbrev Kernel := Int → Option (Finset EpollFlag)

inductive CtlOp
  | EPOLL_CTL_ADD | EPOLL_CTL_MOD | EPOLL_CTL_DEL
  deriving DecidableEq, Repr

/-- `none` for the result -1. -/
def epollCtl (k : Kernel) (op : CtlOp) (fd : Int) (events : Finset EpollFlag) : Option Kernel :=
  match op, k fd with
  | .EPOLL_CTL_ADD, none => some (Function.update k fd (some events))
  | .EPOLL_CTL_ADD, some _ => none
  | .EPOLL_CTL_MOD, none => none
  | .EPOLL_CTL_MOD, some _ => some (Function.update k fd (some events))
  | .EPOLL_CTL_DEL, none => none
  | .EPOLL_CTL_DEL, some _ => some (Function.update k fd none)

-- ---------------------------------------------------------------------------
-- The selector
-- ---------------------------------------------------------------------------

/-- `EpollFd` and `_fd2events`. -/
structure Selector where
  kernel : Kernel := fun _ => none
  fd2events : Int → Option (Finset EpollFlag) := fun _ => none

/-- `none` for an exception, before which nothing is changed. -/
def register (fd : Int) (ev : Finset EVENTTYPE) (s : Selector) : Option Selector :=
  if fd < 0 then none
  else
    match (epollCtl s.kernel .EPOLL_CTL_ADD fd (eventsOf ev)).or
      (epollCtl s.kernel .EPOLL_CTL_MOD fd (eventsOf ev)) with
    | none => none
    | some kernel =>
      some { kernel, fd2events :=
        match s.fd2events fd with
        | some old => Function.update s.fd2events fd (some (old ∪ eventsOf ev))
        | none => Function.update s.fd2events fd (some (eventsOf ev)) }

def remove (fd : Int) (evi : Finset EVENTTYPE) (s : Selector) : Option Selector :=
  match s.fd2events fd with
  | none => none
  | some old =>
    (epollCtl s.kernel .EPOLL_CTL_MOD fd (old \ eventsOf evi)).map fun kernel =>
      { kernel, fd2events := Function.update s.fd2events fd (some (old \ eventsOf evi)) }

def removeFd (fd : Int) (s : Selector) : Option Selector :=
  (epollCtl s.kernel .EPOLL_CTL_DEL fd {.EPOLLIN}).map fun kernel =>
    { kernel, fd2events := Function.update s.fd2events fd none }

def call (s : Selector) : SelectorOp → Option Selector
  | .register fd ev => register fd ev s
  | .removeFd fd => removeFd fd s
  | .remove fd evi => remove fd evi s

/-- A selector with what its callers have asked for. -/
structure Epoll where
  selector : Selector := {}
  asked : Int → Finset EVENTTYPE := fun _ => ∅

namespace Epoll

def next (s : Epoll) (op : SelectorOp) : Epoll :=
  match call s.selector op with
  | none => s
  | some selector => ⟨selector, Polling.ask s.asked op⟩

/-- The kernel has the mask of the table, and that is what was asked for. -/
structure Agree (s : Epoll) : Prop where
  kernel : ∀ fd, s.selector.kernel fd = s.selector.fd2events fd
  exact : ∀ fd, (s.selector.fd2events fd).getD ∅ = eventsOf (s.asked fd)

def Contract (s : Epoll) (op : SelectorOp) : Prop :=
  (call s.selector op).isSome → (s.next op).Agree

/-- A descriptor that is in the table is registered for all its events. -/
def Whole (s : Epoll) : SelectorOp → Prop
  | .register fd ev => 0 ≤ fd → ∀ old, s.selector.fd2events fd = some old → old ⊆ eventsOf ev
  | .removeFd _ | .remove _ _ => True

end Epoll

variable {fd : Int} {s : Epoll}

theorem eventsOf_union (a b : Finset EVENTTYPE) : eventsOf (a ∪ b) = eventsOf a ∪ eventsOf b :=
  Flags.translate_union flagOf a b

theorem eventsOf_sdiff (a b : Finset EVENTTYPE) : eventsOf (a \ b) = eventsOf a \ eventsOf b := by
  have hinj : Flags.Injective flagOf := by
    unfold Flags.Injective
    decide
  exact Flags.translate_sdiff hinj a b

-- ---------------------------------------------------------------------------
-- One call
-- ---------------------------------------------------------------------------

namespace Epoll

/-- A new entry for one descriptor, in both places and in what was asked for. -/
theorem Agree.update (h : s.Agree) (fd : Int) (mask : Option (Finset EpollFlag))
    (asked : Finset EVENTTYPE) (hmask : mask.getD ∅ = eventsOf asked) :
    Agree ⟨⟨Function.update s.selector.kernel fd mask, Function.update s.selector.fd2events fd mask⟩,
      Function.update s.asked fd asked⟩ := by
  constructor
  · intro fd'
    rcases eq_or_ne fd' fd with rfl | hne
    · simp only [Function.update_self]
    · simp only [Function.update_of_ne hne, h.kernel]
  · intro fd'
    rcases eq_or_ne fd' fd with rfl | hne
    · simp only [Function.update_self, hmask]
    · simp only [Function.update_of_ne hne, h.exact]

theorem register_agree_iff (h : s.Agree) (fd : Int) (ev : Finset EVENTTYPE) :
    s.Contract (.register fd ev) ↔ s.Whole (.register fd ev) := by
  by_cases hfd : fd < 0
  · have hnone : call s.selector (.register fd ev) = none := if_pos hfd
    rw [Contract, hnone]
    exact iff_of_true nofun fun hpos => absurd hpos (Int.not_le.mpr hfd)
  have hkernel := h.kernel fd
  have hexact := h.exact fd
  cases hold : s.selector.fd2events fd with
  | none =>
    rw [hold] at hkernel hexact
    have hnext : s.next (.register fd ev) = ⟨⟨Function.update s.selector.kernel fd (some (eventsOf ev)),
        Function.update s.selector.fd2events fd (some (eventsOf ev))⟩,
        Function.update s.asked fd (s.asked fd ∪ ev)⟩ := by
      simp only [next, call, register, if_neg hfd, epollCtl, hkernel, hold, Option.some_or, Polling.ask]
    refine iff_of_true (fun _ => ?_) fun _ old hsome => ?_
    · rw [hnext]
      refine h.update fd _ _ ?_
      rw [eventsOf_union, ← hexact]
      exact (Finset.empty_union _).symm
    · cases hold.symm.trans hsome
  | some old =>
    rw [hold] at hkernel hexact
    have hnext : s.next (.register fd ev) = ⟨⟨Function.update s.selector.kernel fd (some (eventsOf ev)),
        Function.update s.selector.fd2events fd (some (old ∪ eventsOf ev))⟩,
        Function.update s.asked fd (s.asked fd ∪ ev)⟩ := by
      simp only [next, call, register, if_neg hfd, epollCtl, hkernel, hold, Option.none_or, Polling.ask]
    have hsome : (call s.selector (.register fd ev)).isSome := by
      simp only [call, register, if_neg hfd, epollCtl, hkernel, Option.none_or, Option.isSome_some]
    constructor
    · intro hcontract _ old' hold'
      obtain rfl := Option.some.inj (hold.symm.trans hold')
      have hagree := (hcontract hsome).kernel fd
      rw [hnext] at hagree
      simp only [Function.update_self, Option.some.injEq] at hagree
      rw [hagree]
      exact Finset.subset_union_left
    · intro hwhole _
      have hsub := hwhole (Int.not_lt.mp hfd) old hold
      rw [hnext, Finset.union_eq_right.mpr hsub]
      refine h.update fd _ _ ?_
      rw [eventsOf_union, ← hexact]
      exact (Finset.union_eq_right.mpr hsub).symm

theorem remove_agree (h : s.Agree) (fd : Int) (evi : Finset EVENTTYPE) : (s.next (.remove fd evi)).Agree := by
  have hkernel := h.kernel fd
  have hexact := h.exact fd
  cases hold : s.selector.fd2events fd with
  | none =>
    have hnext : s.next (.remove fd evi) = s := by simp only [next, call, remove, hold]
    rwa [hnext]
  | some old =>
    rw [hold] at hkernel hexact
    have hnext : s.next (.remove fd evi) = ⟨⟨Function.update s.selector.kernel fd (some (old \ eventsOf evi)),
        Function.update s.selector.fd2events fd (some (old \ eventsOf evi))⟩,
        Function.update s.asked fd (s.asked fd \ evi)⟩ := by
      simp only [next, call, remove, hold, epollCtl, hkernel, Option.map_some, Polling.ask]
    rw [hnext]
    refine h.update fd _ _ ?_
    rw [eventsOf_sdiff, ← hexact]
    rfl

theorem removeFd_agree (h : s.Agree) (fd : Int) : (s.next (.removeFd fd)).Agree := by
  cases hkernel : s.selector.kernel fd with
  | none =>
    have hnext : s.next (.removeFd fd) = s := by
      simp only [next, call, removeFd, epollCtl, hkernel, Option.map_none]
    rwa [hnext]
  | some mask =>
    have hnext : s.next (.removeFd fd) = ⟨⟨Function.update s.selector.kernel fd none,
        Function.update s.selector.fd2events fd none⟩, Function.update s.asked fd ∅⟩ := by
      simp only [next, call, removeFd, epollCtl, hkernel, Option.map_some, Polling.ask]
    rw [hnext]
    exact h.update fd none ∅ (Flags.translate_empty flagOf).symm

/-- Any call but a partial second registration keeps the masks in agreement. -/
theorem contract_iff (h : s.Agree) (op : SelectorOp) : s.Contract op ↔ s.Whole op := by
  cases op with
  | register fd ev => exact register_agree_iff h fd ev
  | removeFd fd => exact iff_of_true (fun _ => removeFd_agree h fd) trivial
  | remove fd evi => exact iff_of_true (fun _ => remove_agree h fd evi) trivial

theorem agree_next (h : s.Agree) {op : SelectorOp} (hc : s.Contract op) : (s.next op).Agree := by
  cases hcall : call s.selector op with
  | none =>
    have hnext : s.next op = s := by simp only [next, hcall]
    rwa [hnext]
  | some selector => exact hc (by rw [hcall]; rfl)

theorem agree_new : Agree {} := ⟨fun _ => rfl, fun _ => (Flags.translate_empty flagOf).symm⟩

end Epoll

-- ---------------------------------------------------------------------------
-- Any number of calls
-- ---------------------------------------------------------------------------

/-- For any calls on a new selector: the masks agree after each call that
returns exactly when no call registers a descriptor anew without its events. -/
theorem masks_agree_iff (ops : List SelectorOp) :
    (∀ t ∈ turns Epoll.next {} ops, t.1.Contract t.2) ↔ ∀ t ∈ turns Epoll.next {} ops, t.1.Whole t.2 :=
  forall_turns_iff (I := Epoll.Agree) (fun _ op h => Epoll.contract_iff h op)
    (fun _ _ h hc => Epoll.agree_next h hc) ops Epoll.agree_new

/-- Descriptor 5 is registered for EV_IN and then for EV_OUT: the kernel knows
EPOLLOUT only. -/
theorem second_register_replaces :
    ¬ ∀ ops : List SelectorOp, ∀ t ∈ turns Epoll.next {} ops, t.1.Contract t.2 := by
  intro h
  have hagree := h [.register 5 {.EV_IN}, .register 5 {.EV_OUT}] _
    (List.mem_cons_of_mem _ (List.mem_singleton.mpr rfl)) (by decide)
  have hkernel := hagree.kernel 5
  revert hkernel
  decide

end GalaLua.Runtime.CEpollSelector
