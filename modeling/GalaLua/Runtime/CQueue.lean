import GalaLua.Library.Transition
import GalaLua.Library.Waiters
import Mathlib.Algebra.Group.Nat.Defs
import Mathlib.Data.Multiset.Basic

/-!
# `CQueue`

A queue with a condition variable. Every stretch under the lock is one step;
`Close` and `Shutdown` write their flags and notify without it, each in steps
of its own. `WaitNo` is an `INT`: it counts every wait up and every signal of
`Put` down.
-/

namespace GalaLua.Runtime

open Library

variable {C δ κ : Type} [DecidableEq κ]

/-- The container of a `CQueue`: `std::queue`, or the adapter of
`std::priority_queue`. -/
structure QueueType (C δ : Type) where
  new : C
  push : C → δ → C
  /-- `front()`, nothing when `empty()` -/
  front : C → Option δ
  pop : C → C
  content : C → Multiset δ
  content_new : content new = 0
  content_push : ∀ c el, content (push c el) = el ::ₘ content c
  content_front : ∀ c, front c = none ↔ content c = 0
  content_pop : ∀ c el, front c = some el → content c = el ::ₘ content (pop c)

def QueueType.empty (q : QueueType C δ) (c : C) : Bool := (q.front c).isNone

def QueueType.fifo (δ : Type) : QueueType (List δ) δ where
  new := []
  push c el := c ++ [el]
  front c := c.head?
  pop c := c.tail
  content c := c
  content_new := rfl
  content_push c el := Multiset.coe_eq_coe.mpr (List.perm_append_singleton el c)
  content_front c := by simp
  content_pop c el h := by
    cases c with
    | nil => cases h
    | cons x c =>
      cases h
      rfl

/-- `puts` and `gets` have the elements that were put and returned so far. -/
structure CQueue (C δ κ : Type) where
  queue : C
  closed : Bool
  shutdown : Bool
  waitNo : BitVec 32
  waiters : Waiters κ
  /-- calls of `Close` that have still to notify -/
  closing : Nat
  /-- calls of `Shutdown` that have still to write `m_closed` -/
  shutting : Nat
  /-- calls of `Shutdown` that have still to notify -/
  shut : Nat
  /-- a `Close` or `Shutdown` has returned -/
  returned : Bool
  puts : List δ
  gets : List δ

inductive Action (δ κ : Type)
  | get (t : κ)
  /-- a woken consumer has the lock again -/
  | resume (t : κ)
  /-- a spurious wake-up -/
  | spurious (t : κ)
  | tryGet
  /-- `who` is the consumer that gets the signal, if there is one -/
  | put (el : δ) (who : Option κ)
  | close
  | closeNotify
  | shutdown
  | shutdownClose
  | shutdownNotify
  deriving DecidableEq, Repr

namespace CQueue

def init (q : QueueType C δ) : CQueue C δ κ where
  queue := q.new
  closed := false
  shutdown := false
  waitNo := 0
  waiters := .none
  closing := 0
  shutting := 0
  shut := 0
  returned := false
  puts := []
  gets := []

/-- `tmp = Queue.front(); Queue.pop(); return tmp` -/
def take (q : QueueType C δ) (s : CQueue C δ κ) : CQueue C δ κ :=
  match q.front s.queue with
  | none => s
  | some el => { s with queue := q.pop s.queue, gets := s.gets ++ [el] }

/-- `Get` from the test of its loop on. -/
def get (q : QueueType C δ) (s : CQueue C δ κ) (t : κ) : CQueue C δ κ :=
  if q.empty s.queue && !s.closed then
    { s with waitNo := s.waitNo + 1, waiters := s.waiters.block t }
  else if s.shutdown || (s.closed && q.empty s.queue) then
    { s with waiters := s.waiters.leave t }
  else { s.take q with waiters := s.waiters.leave t }

def tryGet (q : QueueType C δ) (s : CQueue C δ κ) : CQueue C δ κ :=
  if s.shutdown || q.empty s.queue then s else s.take q

def put (q : QueueType C δ) (s : CQueue C δ κ) (el : δ) (who : Option κ) : Option (CQueue C δ κ) :=
  if s.closed then some s
  else
    let s := { s with queue := q.push s.queue el, puts := s.puts ++ [el] }
    if s.waitNo ≠ 0 then do
      let waiters ← s.waiters.notifyOne who
      return { s with waitNo := s.waitNo - 1, waiters := waiters }
    else some s

def notifyAll (s : CQueue C δ κ) : CQueue C δ κ :=
  { s with waiters := s.waiters.wakeAll, returned := true }

def step (q : QueueType C δ) (s : CQueue C δ κ) : Action δ κ → Option (CQueue C δ κ)
  | .get t => if t ∈ s.waiters.blocked ∨ t ∈ s.waiters.woken then none else some (s.get q t)
  | .resume t => if t ∈ s.waiters.woken then some (s.get q t) else none
  | .spurious t =>
    if t ∈ s.waiters.blocked then some { s with waiters := s.waiters.wake t } else none
  | .tryGet => some (s.tryGet q)
  | .put el who => s.put q el who
  | .close => some { s with closed := true, closing := s.closing + 1 }
  | .closeNotify =>
    if 0 < s.closing then some { s with closing := s.closing - 1 }.notifyAll else none
  | .shutdown => some { s with shutdown := true, shutting := s.shutting + 1 }
  | .shutdownClose =>
    if 0 < s.shutting then
      some { s with closed := true, shutting := s.shutting - 1, shut := s.shut + 1 }
    else none
  | .shutdownNotify => if 0 < s.shut then some { s with shut := s.shut - 1 }.notifyAll else none

/-- `++WaitNo` of this step does not overflow. -/
def Counted (q : QueueType C δ) (s : CQueue C δ κ) : Action δ κ → Prop
  | .get _ | .resume _ => q.empty s.queue → s.closed = false → s.waitNo.toNat < 2 ^ 31 - 1
  | _ => True

instance (q : QueueType C δ) (s : CQueue C δ κ) (a : Action δ κ) : Decidable (s.Counted q a) :=
  match a with
  | .get _ | .resume _ => inferInstanceAs (Decidable (_ → _ → _))
  | .spurious _ | .tryGet | .put .. | .close | .closeNotify | .shutdown | .shutdownClose
  | .shutdownNotify => .isTrue trivial

-- ---------------------------------------------------------------------------
-- What is asked of a state
-- ---------------------------------------------------------------------------

/-- While a consumer is blocked without a signal, the consumers that were
woken are enough for the elements, or a `Shutdown` has still to notify; and
after a `Close` or `Shutdown` has returned none is blocked so. -/
structure Served (q : QueueType C δ) (s : CQueue C δ κ) : Prop where
  nonempty : s.waiters.blocked.Nonempty →
    (q.content s.queue).card ≤ s.waiters.woken.card ∨ 0 < s.shutting + s.shut
  closed : s.returned → s.waiters.blocked = ∅

/-- What was put was returned once or is in the queue, and the next `Get` or
`TryGet` returns the front as long as there was no `Shutdown`. -/
structure Conserved (q : QueueType C δ) (s : CQueue C δ κ) : Prop where
  once : (s.puts : Multiset δ) = s.gets + q.content s.queue
  get : s.shutdown = false → ∀ el, q.front s.queue = some el → ∀ t,
    (s.get q t).gets = s.gets ++ [el] ∧ (s.get q t).queue = q.pop s.queue
  tryGet : s.shutdown = false → ∀ el, q.front s.queue = some el →
    (s.tryGet q).gets = s.gets ++ [el] ∧ (s.tryGet q).queue = q.pop s.queue

-- ---------------------------------------------------------------------------
-- What a stretch does
-- ---------------------------------------------------------------------------

variable {q : QueueType C δ} {s s' : CQueue C δ κ} {a : Action δ κ} {t : κ} {el : δ}

theorem empty_iff (q : QueueType C δ) (c : C) : q.empty c ↔ q.content c = 0 := by
  rw [QueueType.empty, Option.isNone_iff_eq_none, q.content_front]

/-- The three ways of `Get`: wait, raise an exception, return the front. -/
theorem get_cases (q : QueueType C δ) (s : CQueue C δ κ) (t : κ) :
    (q.content s.queue = 0 ∧ s.closed = false ∧
      s.get q t = { s with waitNo := s.waitNo + 1, waiters := s.waiters.block t }) ∨
    ((s.shutdown ∨ q.content s.queue = 0) ∧ s.get q t = { s with waiters := s.waiters.leave t }) ∨
    ∃ el, q.front s.queue = some el ∧ s.shutdown = false ∧
      s.get q t = { s with
        queue := q.pop s.queue, gets := s.gets ++ [el], waiters := s.waiters.leave t } := by
  unfold get take QueueType.empty
  have hfront := q.content_front s.queue
  cases hf : q.front s.queue with
  | none =>
    have hc := hfront.mp hf
    cases hclosed : s.closed with
    | false => exact .inl ⟨hc, rfl, by simp⟩
    | true => exact .inr (.inl ⟨.inr hc, by simp⟩)
  | some el =>
    cases hs : s.shutdown with
    | true => exact .inr (.inl ⟨.inl rfl, by simp⟩)
    | false => exact .inr (.inr ⟨el, rfl, rfl, by simp⟩)

omit [DecidableEq κ] in
theorem tryGet_cases (q : QueueType C δ) (s : CQueue C δ κ) :
    s.tryGet q = s ∨ ∃ el, q.front s.queue = some el ∧ s.shutdown = false ∧
      s.tryGet q = { s with queue := q.pop s.queue, gets := s.gets ++ [el] } := by
  unfold tryGet take QueueType.empty
  cases hf : q.front s.queue with
  | none => exact .inl (by simp)
  | some el =>
    cases hs : s.shutdown with
    | true => exact .inl (by simp)
    | false => exact .inr ⟨el, rfl, rfl, by simp⟩

theorem put_cases {who : Option κ} (h : s.put q el who = some s') :
    s' = s ∨
    (s.closed = false ∧ s.waitNo ≠ 0 ∧ ∃ waiters, s.waiters.notifyOne who = some waiters ∧
      s' = { s with
        queue := q.push s.queue el, puts := s.puts ++ [el], waitNo := s.waitNo - 1
        waiters := waiters }) ∨
    s.closed = false ∧ s.waitNo = 0 ∧
      s' = { s with queue := q.push s.queue el, puts := s.puts ++ [el] } := by
  unfold put at h
  split at h
  · exact .inl (Option.some.inj h).symm
  · next hc =>
    have hc := Bool.eq_false_iff.mpr hc
    dsimp only at h
    split at h
    · next hw =>
      obtain ⟨waiters, hn, h⟩ := Option.bind_eq_some_iff.mp h
      exact .inr (.inl ⟨hc, hw, waiters, hn, (Option.some.inj h).symm⟩)
    · next hw => exact .inr (.inr ⟨hc, not_not.mp hw, (Option.some.inj h).symm⟩)

-- ---------------------------------------------------------------------------
-- Wake-ups
-- ---------------------------------------------------------------------------

structure Inv (q : QueueType C δ) (s : CQueue C δ κ) : Prop where
  bounded : s.waitNo.toNat < 2 ^ 31
  /-- `WaitNo` is never less than the number of blocked consumers -/
  counted : s.waiters.blocked.card ≤ s.waitNo.toNat
  served : s.waiters.blocked.Nonempty →
    (q.content s.queue).card ≤ s.waiters.woken.card ∨ s.shutdown
  inClose : 0 < s.closing + s.shut → s.closed
  inShutdown : s.shutdown → 0 < s.shutting + s.shut ∨ s.returned
  returned : s.returned → s.closed ∧ s.waiters.blocked = ∅

omit [DecidableEq κ] in
theorem init_inv (q : QueueType C δ) : (init q : CQueue C δ κ).Inv q where
  bounded := show (0 : BitVec 32).toNat < 2 ^ 31 by decide
  counted := Nat.zero_le _
  served h := absurd h Finset.not_nonempty_empty
  inClose := nofun
  inShutdown := nofun
  returned := nofun

theorem Inv.get (h : s.Inv q) (t : κ)
    (hc : q.empty s.queue → s.closed = false → s.waitNo.toNat < 2 ^ 31 - 1) : (s.get q t).Inv q := by
  rcases get_cases q s t with ⟨hq, hcl, heq⟩ | ⟨hq, heq⟩ | ⟨el, hf, hs, heq⟩
  · have hw := hc ((empty_iff q _).mpr hq) hcl
    have hadd : (s.waitNo + 1).toNat = s.waitNo.toNat + 1 := by
      rw [BitVec.toNat_add]
      exact Nat.mod_eq_of_lt (by simp; omega)
    rw [heq]
    refine ⟨by simp only [hadd]; omega, ?_, fun _ => .inl (by simp [hq]), h.inClose, h.inShutdown,
      fun hr => absurd (h.returned hr).1 (by simp [hcl])⟩
    have := Waiters.card_blocked_block_le s.waiters t
    have := h.counted
    simp only [hadd]
    omega
  · rw [heq]
    refine ⟨h.bounded, h.counted, fun _ => ?_, h.inClose, h.inShutdown, h.returned⟩
    rcases hq with hs | hq
    · exact .inr hs
    · exact .inl (by simp [hq])
  · rw [heq]
    refine ⟨h.bounded, h.counted, fun hb => ?_, h.inClose, h.inShutdown, h.returned⟩
    have hpop := congrArg Multiset.card (q.content_pop _ el hf)
    rw [Multiset.card_cons] at hpop
    have := Waiters.card_woken_leave_le s.waiters t
    refine (h.served hb).imp_left fun hle => ?_
    simp only
    omega

omit [DecidableEq κ] in
theorem Inv.tryGet (h : s.Inv q) : (s.tryGet q).Inv q := by
  rcases tryGet_cases q s with heq | ⟨el, hf, -, heq⟩
  · rwa [heq]
  · rw [heq]
    refine ⟨h.bounded, h.counted, fun hb => (h.served hb).imp_left fun hle => ?_, h.inClose,
      h.inShutdown, h.returned⟩
    have hpop := congrArg Multiset.card (q.content_pop _ el hf)
    rw [Multiset.card_cons] at hpop
    simp only
    omega

theorem Inv.put {who : Option κ} (h : s.Inv q) (hp : s.put q el who = some s') : s'.Inv q := by
  rcases put_cases hp with rfl | ⟨hcl, hw, waiters, hn, rfl⟩ | ⟨hcl, hw, rfl⟩
  · exact h
  · have hpos : 0 < s.waitNo.toNat := by
      refine Nat.pos_of_ne_zero fun h0 => hw ?_
      exact BitVec.eq_of_toNat_eq h0
    have hsub : (s.waitNo - 1).toNat = s.waitNo.toNat - 1 := by
      rw [BitVec.toNat_sub_of_le]
      · rfl
      · exact BitVec.le_def.mpr hpos
    have hbound := h.bounded
    have hcount := h.counted
    rcases Waiters.notifyOne_cases hn with ⟨hempty, rfl⟩ | ⟨hb, hwk⟩
    · refine ⟨by simp only [hsub]; omega, by simp [hempty], fun hb => ?_, h.inClose, h.inShutdown,
        h.returned⟩
      simp [hempty] at hb
    · refine ⟨by simp only [hsub]; omega, by simp only [hsub]; omega, fun _ => ?_, h.inClose,
        h.inShutdown, fun hr => absurd (h.returned hr).1 (by simp [hcl])⟩
      have hne : s.waiters.blocked.Nonempty := Finset.card_pos.mp (by omega)
      refine (h.served hne).imp_left fun hle => ?_
      simp only [q.content_push, Multiset.card_cons]
      omega
  · have hcount := h.counted
    have hempty : s.waiters.blocked = ∅ := Finset.card_eq_zero.mp (by simp [hw] at hcount; simp [hcount])
    refine ⟨h.bounded, h.counted, fun hb => ?_, h.inClose, h.inShutdown, h.returned⟩
    simp [hempty] at hb

theorem Inv.spurious (h : s.Inv q) (ht : t ∈ s.waiters.blocked) :
    Inv q { s with waiters := s.waiters.wake t } := by
  have hb := Waiters.card_blocked_wake ht
  have hw := Waiters.card_woken_wake ht
  have hcount := h.counted
  refine ⟨h.bounded, ?_, fun _ => (h.served ⟨t, ht⟩).imp_left fun hle => ?_, h.inClose,
    h.inShutdown, fun hr => ?_⟩
  · simp only
    omega
  · simp only
    omega
  · rw [(h.returned hr).2] at ht
    exact absurd ht (Finset.notMem_empty t)

/-- A broadcast, of a `Close` or `Shutdown` that has written its flags. -/
theorem Inv.notifyAll (h : s.Inv q) (hcl : s.closed) {closing shut : Nat} :
    Inv q { s with closing := closing, shut := shut }.notifyAll where
  bounded := h.bounded
  counted := Nat.zero_le _
  served hb := absurd hb Finset.not_nonempty_empty
  inClose _ := hcl
  inShutdown _ := .inr rfl
  returned _ := ⟨hcl, rfl⟩

theorem Inv.step (h : s.Inv q) (hc : s.Counted q a) (hs : s.step q a = some s') : s'.Inv q := by
  cases a with
  | get t =>
    simp only [CQueue.step, Option.ite_none_left_eq_some, Option.some.injEq] at hs
    obtain ⟨-, rfl⟩ := hs
    exact h.get t hc
  | resume t =>
    simp only [CQueue.step, Option.ite_none_right_eq_some, Option.some.injEq] at hs
    obtain ⟨-, rfl⟩ := hs
    exact h.get t hc
  | spurious t =>
    simp only [CQueue.step, Option.ite_none_right_eq_some, Option.some.injEq] at hs
    obtain ⟨ht, rfl⟩ := hs
    exact h.spurious ht
  | tryGet =>
    cases hs
    exact h.tryGet
  | put el who => exact h.put hs
  | close =>
    cases hs
    exact ⟨h.bounded, h.counted, h.served, fun _ => rfl, h.inShutdown,
      fun hr => ⟨rfl, (h.returned hr).2⟩⟩
  | closeNotify =>
    simp only [CQueue.step, Option.ite_none_right_eq_some, Option.some.injEq] at hs
    obtain ⟨hpos, rfl⟩ := hs
    exact h.notifyAll (h.inClose (by omega))
  | shutdown =>
    cases hs
    exact ⟨h.bounded, h.counted, fun _ => .inr rfl, h.inClose, fun _ => .inl (by simp only; omega),
      h.returned⟩
  | shutdownClose =>
    simp only [CQueue.step, Option.ite_none_right_eq_some, Option.some.injEq] at hs
    obtain ⟨hpos, rfl⟩ := hs
    exact ⟨h.bounded, h.counted, h.served, fun _ => rfl,
      fun hsd => (h.inShutdown hsd).imp_left fun _ => by simp only; omega,
      fun hr => ⟨rfl, (h.returned hr).2⟩⟩
  | shutdownNotify =>
    simp only [CQueue.step, Option.ite_none_right_eq_some, Option.some.injEq] at hs
    obtain ⟨hpos, rfl⟩ := hs
    exact h.notifyAll (h.inClose (by omega))

omit [DecidableEq κ] in
theorem Inv.toServed (h : s.Inv q) : s.Served q where
  nonempty hb := by
    refine (h.served hb).imp_right fun hsd => ?_
    rcases h.inShutdown hsd with hprog | hret
    · exact hprog
    · rw [(h.returned hret).2] at hb
      exact absurd hb Finset.not_nonempty_empty
  closed hr := (h.returned hr).2

-- ---------------------------------------------------------------------------
-- Elements
-- ---------------------------------------------------------------------------

/-- A relation between the queue and what was put and returned, kept by
`front` with `pop` and by `push`, is kept by every step. -/
theorem step_content {R : C → List δ → List δ → Prop}
    (htake : ∀ c puts gets el, q.front c = some el → R c puts gets → R (q.pop c) puts (gets ++ [el]))
    (hpush : ∀ c puts gets el, R c puts gets → R (q.push c el) (puts ++ [el]) gets)
    (h : R s.queue s.puts s.gets) (hs : s.step q a = some s') : R s'.queue s'.puts s'.gets := by
  have hget (t : κ) : R (s.get q t).queue (s.get q t).puts (s.get q t).gets := by
    rcases get_cases q s t with ⟨-, -, heq⟩ | ⟨-, heq⟩ | ⟨el, hf, -, heq⟩
    · rwa [heq]
    · rwa [heq]
    · rw [heq]
      exact htake _ _ _ el hf h
  cases a with
  | get t =>
    simp only [CQueue.step, Option.ite_none_left_eq_some, Option.some.injEq] at hs
    obtain ⟨-, rfl⟩ := hs
    exact hget t
  | resume t =>
    simp only [CQueue.step, Option.ite_none_right_eq_some, Option.some.injEq] at hs
    obtain ⟨-, rfl⟩ := hs
    exact hget t
  | tryGet =>
    cases hs
    rcases tryGet_cases q s with heq | ⟨el, hf, -, heq⟩
    · rwa [heq]
    · rw [heq]
      exact htake _ _ _ el hf h
  | put el who =>
    rcases put_cases hs with rfl | ⟨-, -, waiters, -, rfl⟩ | ⟨-, -, rfl⟩
    · exact h
    · exact hpush _ _ _ el h
    · exact hpush _ _ _ el h
  | close | shutdown =>
    cases hs
    exact h
  | spurious | closeNotify | shutdownClose | shutdownNotify =>
    simp only [CQueue.step, Option.ite_none_right_eq_some, Option.some.injEq] at hs
    obtain ⟨-, rfl⟩ := hs
    exact h

theorem reach_once (h : Reach (step q) Free (init q) s) :
    (s.puts : Multiset δ) = s.gets + q.content s.queue := by
  refine Reach.invariant (I := fun s => (s.puts : Multiset δ) = s.gets + q.content s.queue)
    (by simp [init, q.content_new]) (fun s a s' h _ hs => ?_) h
  refine step_content (R := fun c puts gets => (puts : Multiset δ) = (gets : Multiset δ) + q.content c)
    (fun c puts gets el hf h => ?_) (fun c puts gets el h => ?_) h hs
  · rw [h, q.content_pop c el hf, Multiset.add_cons, ← Multiset.cons_add]
    congr 1
    exact Multiset.coe_eq_coe.mpr (List.perm_append_singleton el gets).symm
  · rw [q.content_push, Multiset.add_cons, ← h]
    exact Multiset.coe_eq_coe.mpr (List.perm_append_singleton el puts)

theorem reach_fifo {s : CQueue (List δ) δ κ}
    (h : Reach (step (.fifo δ)) Free (init (.fifo δ)) s) : s.puts = s.gets ++ s.queue := by
  refine Reach.invariant (I := fun s => s.puts = s.gets ++ s.queue) rfl
    (fun s a s' h _ hs => ?_) h
  refine step_content (R := fun c puts gets => puts = gets ++ c)
    (fun c puts gets el hf h => ?_) (fun c puts gets el h => ?_) h hs
  · cases c with
    | nil => cases hf
    | cons x c =>
      cases hf
      simpa [QueueType.fifo] using h
  · simp [QueueType.fifo, h]

theorem reach_conserved (h : Reach (step q) Free (init q) s) : s.Conserved q where
  once := reach_once h
  get hs el hf t := by
    simp [CQueue.get, take, QueueType.empty, hf, hs]
  tryGet hs el hf := by
    simp [CQueue.tryGet, take, QueueType.empty, hf, hs]

/-- Every state of a run in which `WaitNo` does not overflow is served, and in
every run the elements are conserved, first in first out for `std::queue`. -/
theorem cqueue_served_conserved :
    (∀ (C δ κ : Type) [DecidableEq κ] (q : QueueType C δ) (s : CQueue C δ κ),
      Reach (step q) (Counted q) (init q) s → s.Served q) ∧
    (∀ (C δ κ : Type) [DecidableEq κ] (q : QueueType C δ) (s : CQueue C δ κ),
      Reach (step q) Free (init q) s → s.Conserved q) ∧
    ∀ (δ κ : Type) [DecidableEq κ] (s : CQueue (List δ) δ κ),
      Reach (step (.fifo δ)) Free (init (.fifo δ)) s → s.puts = s.gets ++ s.queue := by
  refine ⟨fun C δ κ _ q s h => ?_, fun C δ κ _ q s h => reach_conserved h,
    fun δ κ _ s h => reach_fifo h⟩
  have hinv := Reach.invariant (I := Inv q) (init_inv q) (fun s a s' h hc hs => h.step hc hs) h
  exact hinv.toServed

/-- Two consumers wait, one element is put, and it is returned to the woken
one; the other one stays blocked, on an empty queue. -/
theorem served_conserved_two_consumers :
    ∃ s : CQueue (List Nat) Nat Nat,
      (s.waiters.blocked = {1} ∧ s.gets = [5]) ∧ s.Served (.fifo Nat) ∧ s.Conserved (.fifo Nat) ∧
        s.puts = s.gets ++ s.queue := by
  obtain ⟨s, hr, hs⟩ : ∃ s : CQueue (List Nat) Nat Nat,
      Reach (step (.fifo Nat)) (Counted (.fifo Nat)) (init (.fifo Nat)) s ∧
        decide (s.waiters.blocked = {1} ∧ s.gets = [5]) = true :=
    reach_of_runIf [.get 0, .get 1, .put 5 (some 0), .resume 0] _ (by decide)
  obtain ⟨hserved, hconserved, hfifo⟩ := cqueue_served_conserved
  exact ⟨s, of_decide_eq_true hs, hserved _ _ _ _ s hr, hconserved _ _ _ _ s hr.free,
    hfifo _ _ s hr.free⟩

-- ---------------------------------------------------------------------------
-- Where a consumer is left without a signal
-- ---------------------------------------------------------------------------

/-- A consumer is blocked, the queue is not empty, and nobody was woken. -/
def Stranded (s : CQueue (List δ) δ κ) : Prop :=
  s.waiters.blocked ≠ ∅ ∧ s.queue ≠ [] ∧ s.waiters.woken = ∅

instance [DecidableEq δ] (s : CQueue (List δ) δ κ) : Decidable s.Stranded :=
  inferInstanceAs (Decidable (_ ∧ _ ∧ _))

/-- The consumer 0 alone, blocked, when `WaitNo` is `n`. -/
def alone (n : BitVec 32) : CQueue (List Nat) Nat Nat :=
  { (init (.fifo Nat) : CQueue (List Nat) Nat Nat) with waitNo := n, waiters := ⟨{0}, ∅, Finset.disjoint_empty_right _⟩ }

theorem reach_alone (k : Nat) :
    Reach (step (.fifo Nat)) Free (init (.fifo Nat)) (alone (1 + BitVec.ofNat 32 k)) := by
  induction k with
  | zero =>
    have hrun : run (step (.fifo Nat)) (init (.fifo Nat)) [.get 0] = some (alone 1) := rfl
    exact Reach.init.run hrun
  | succ k ih =>
    have hround (n : BitVec 32) :
        run (step (.fifo Nat)) (alone n) [.spurious 0, .resume 0] = some (alone (n + 1)) := rfl
    have hk : 1 + BitVec.ofNat 32 k + 1 = 1 + BitVec.ofNat 32 (k + 1) := by
      rw [BitVec.ofNat_add, BitVec.add_assoc]
      rfl
    exact hk ▸ ih.run (hround _)

/-- A `Shutdown` has written `m_shutdown`: the woken consumer leaves without
the element, and the other one has to wait for the broadcast. And without any
`Close` or `Shutdown`: after 2 ^ 32 waits `WaitNo` is 0, and `Put` does not
signal. -/
theorem consumer_stranded :
    (∃ s : CQueue (List Nat) Nat Nat,
      Reach (step (.fifo Nat)) Free (init (.fifo Nat)) s ∧ s.Stranded ∧ s.shutting = 1) ∧
    ∃ s : CQueue (List Nat) Nat Nat,
      Reach (step (.fifo Nat)) Free (init (.fifo Nat)) s ∧ s.Stranded ∧ s.closed = false ∧
        s.shutdown = false := by
  constructor
  · obtain ⟨s, hr, hs⟩ : ∃ s : CQueue (List Nat) Nat Nat,
        Reach (step (.fifo Nat)) Free (init (.fifo Nat)) s ∧
          decide (s.Stranded ∧ s.shutting = 1) = true :=
      reach_of_run [.get 0, .get 1, .put 5 (some 0), .shutdown, .resume 0] _ (by decide)
    exact ⟨s, hr, of_decide_eq_true hs⟩
  · have hr := reach_alone (2 ^ 32 - 1)
    have h0 : 1 + BitVec.ofNat 32 (2 ^ 32 - 1) = 0 := by decide
    rw [h0] at hr
    have hput : run (step (.fifo Nat)) (alone 0) [.put 5 none] =
        some { alone 0 with queue := [5], puts := [5] } := rfl
    exact ⟨_, hr.run hput, by decide, rfl, rfl⟩

end CQueue

end GalaLua.Runtime
