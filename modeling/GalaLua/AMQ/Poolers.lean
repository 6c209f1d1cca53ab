import GalaLua.AMQ.Delivery
import Mathlib.Data.Fintype.Basic

/-!
# Nodes across the queues

`CSQPrivatePooler::Get`, `TimedGet` and `Put` of all queues of a media over the
one `CSQPooler` they share, at the grain of its lock: a call keeps the lock of
its private pool, and the pools of other queues are at work between its look
into the shared pool and its wait. A sender looks there once; asleep it waits
for its private pool only.
-/

namespace GalaLua.AMQ.Poolers

open Library (Reach Free)

/-- Where a thread stands in a call on the private pool of `q`. It holds the
pool's lock from `look` to `hibernate`, and at `give` and `wakeup`. -/
inductive Pc
  | idle
  /-- before `Pooler().Get()` -/
  | look (q : Nat) (wait : Wait)
  /-- `Pooler().Get()` was NULL -/
  | hibernate (q : Nat) (wait : Wait)
  | waiting (q : Nat) (wait : Wait) (expired : Bool)
  /-- before `Pooler().Put` -/
  | give (q : Nat)
  | wakeup (q : Nat)
  deriving DecidableEq, Repr

/-- The pools of a media and `n` threads. `pool` and `list q` are the numbers
of nodes in the pools, and `busy q` of those that were got from `q` and are in
its messages or its calls. -/
structure State (n : Nat) where
  pool : Nat
  list : Nat → Nat
  busy : Nat → Nat
  cond : Nat → CSQCond
  /-- the thread that holds the lock of the private pool -/
  lock : Nat → Option (Fin n)
  pc : Fin n → Pc

variable {n : Nat}

/-- After `CSQPrivatePooler::Init` of all queues, or nothing when the nodes do
not suffice. -/
def init (c : Config) : Option (State n) :=
  if c.queues * c.catchCount ≤ c.nodes then
    some {
      pool := c.nodes - c.queues * c.catchCount
      list := fun _ => c.catchCount
      busy := fun _ => 0
      cond := fun _ => .init
      lock := fun _ => none
      pc := fun _ => .idle }
  else none

inductive Action (n : Nat)
  /-- `Get`, or `TimedGet` -/
  | get (t : Fin n) (q : Nat) (wait : Wait)
  | put (t : Fin n) (q : Nat)
  /-- The blocked thread goes on without a signal. -/
  | wake (t : Fin n) (expired : Bool)
  /-- `w` is the system's choice among the waiters. -/
  | run (t : Fin n) (w : Nat)
  deriving DecidableEq, Repr

namespace State

variable (s : State n) (t : Fin n) (q : Nat)

def setPc (p : Pc) : State n := { s with pc := Function.update s.pc t p }

/-- A node of the private pool goes to the caller, who leaves. -/
def takeOwn : State n :=
  { s with
    list := Function.update s.list q (s.list q - 1)
    busy := Function.update s.busy q (s.busy q + 1)
    lock := Function.update s.lock q none
    pc := Function.update s.pc t .idle }

def takeShared : State n :=
  { s with
    pool := s.pool - 1
    busy := Function.update s.busy q (s.busy q + 1)
    lock := Function.update s.lock q none
    pc := Function.update s.pc t .idle }

/-- The call returns, with `k` for the event. -/
def leave (k : CSQCond) : State n :=
  { s with
    cond := Function.update s.cond q k
    lock := Function.update s.lock q none
    pc := Function.update s.pc t .idle }

/-- `_Lock.Wait()`: the lock is given up. -/
def sleep (wait : Wait) : State n :=
  { s with
    cond := Function.update s.cond q ((s.cond q).wait t)
    lock := Function.update s.lock q none
    pc := Function.update s.pc t (.waiting q wait false) }

def enter (p : Pc) : State n :=
  { s with lock := Function.update s.lock q (some t), pc := Function.update s.pc t p }

def blocked : Bool :=
  match s.pc t with
  | .waiting q _ _ => decide ((t : Nat) ∈ (s.cond q).cnd)
  | _ => false

end State

def next (s : State n) (t : Fin n) (w : Nat) : Pc → Option (State n)
  | .idle => none
  | .look q wait =>
    if 0 < s.pool then some (s.takeShared t q) else some (s.setPc t (.hibernate q wait))
  | .hibernate q wait =>
    if wait = .nowait then some (s.leave t q (s.cond q)) else some (s.sleep t q wait)
  | .waiting q wait expired =>
    if s.lock q = none then
      if expired then some (s.leave t q (s.cond q).expire)
      else if s.list q ≠ 0 then some (s.takeOwn t q)
      else some (s.sleep t q wait)
    else none
  | .give q => some { s.setPc t (.wakeup q) with pool := s.pool + 1 }
  | .wakeup q =>
    some (s.leave t q (if 0 < (s.cond q).lurkers then (s.cond q).notifyOne w else s.cond q))

def step (c : Config) (s : State n) : Action n → Option (State n)
  | .get t q wait =>
    if s.pc t = .idle ∧ s.lock q = none ∧ q < c.queues then
      if s.list q = 0 then some (s.enter t q (.look q wait)) else some (s.takeOwn t q)
    else none
  | .put t q =>
    if s.pc t = .idle ∧ s.lock q = none ∧ 0 < s.busy q then
      let s := { s with busy := Function.update s.busy q (s.busy q - 1) }
      if s.list q < c.catchCount then
        some { s.enter t q (.wakeup q) with list := Function.update s.list q (s.list q + 1) }
      else some (s.enter t q (.give q))
    else none
  | .wake t expired =>
    match s.pc t with
    | .waiting q wait _ =>
      if (t : Nat) ∈ (s.cond q).cnd ∧ (expired → wait = .timed) then
        some { s.setPc t (.waiting q wait expired) with
          cond := Function.update s.cond q ((s.cond q).leave t) }
      else none
    | _ => none
  | .run t w => if s.blocked t then none else next s t w (s.pc t)

-- ---------------------------------------------------------------------------
-- What is asked of a state
-- ---------------------------------------------------------------------------

/-- A sender without a time limit is blocked, and the shared pool has a node. -/
def State.Starves (s : State n) : Prop :=
  0 < s.pool ∧ ∃ t q e, s.pc t = .waiting q .forever e ∧ (t : Nat) ∈ (s.cond q).cnd

/-- A sender without a time limit that has found the shared pool empty, up to
the end of `Hibernate`. -/
def Pc.Hibernates : Pc → Prop
  | .hibernate _ wait | .waiting _ wait _ => wait = .forever
  | _ => False

def Pc.isGive : Pc → Bool
  | .give _ => true
  | _ => false

/-- A node is given to the shared pool while no sender hibernates, of any
queue. -/
def Timely (s : State n) : Action n → Prop
  | .run t _ => (s.pc t).isGive → ∀ u, ¬ (s.pc u).Hibernates
  | _ => True

instance (p : Pc) : Decidable p.Hibernates :=
  match p with
  | .hibernate .. | .waiting .. => inferInstanceAs (Decidable (_ = _))
  | .idle | .look .. | .give _ | .wakeup _ => .isFalse id

instance (s : State n) (a : Action n) : Decidable (Timely s a) :=
  match a with
  | .run .. => inferInstanceAs (Decidable (_ → _))
  | .get .. | .put .. | .wake .. => .isTrue trivial

-- ---------------------------------------------------------------------------
-- Runs
-- ---------------------------------------------------------------------------

/-- While a sender hibernates, the shared pool is empty. -/
def Inv (s : State n) : Prop := ∀ t, (s.pc t).Hibernates → s.pool = 0

variable {c : Config} {s s' : State n} {a : Action n} {t : Fin n} {w : Nat} {p : Pc}

/-- The thread `t` moves, and the pool does not grow: if it hibernates now, it
did before or the pool is empty. -/
theorem Inv.move (h : Inv s) (hpc : s'.pc = Function.update s.pc t p) (hpool : s'.pool ≤ s.pool)
    (hp : p.Hibernates → (s.pc t).Hibernates ∨ s.pool = 0) : Inv s' := by
  intro u hu
  have hzero : s.pool = 0 := by
    rw [hpc] at hu
    by_cases he : u = t
    · subst he
      rw [Function.update_self] at hu
      exact (hp hu).elim (h u) id
    · rw [Function.update_of_ne he] at hu
      exact h u hu
  omega

theorem next_inv (h : Inv s) (hok : Timely s (.run t w)) (hs : next s t w (s.pc t) = some s') :
    Inv s' := by
  cases hpc : s.pc t with
  | idle =>
    rw [hpc] at hs
    cases hs
  | look q wait =>
    rw [hpc] at hs
    simp only [next] at hs
    split at hs
    · obtain rfl := Option.some.inj hs
      exact h.move rfl (Nat.sub_le ..) nofun
    · next hempty =>
      obtain rfl := Option.some.inj hs
      exact h.move rfl le_rfl fun _ => .inr (by omega)
  | hibernate q wait =>
    rw [hpc] at hs
    simp only [next] at hs
    split at hs
    · obtain rfl := Option.some.inj hs
      exact h.move rfl le_rfl nofun
    · obtain rfl := Option.some.inj hs
      exact h.move rfl le_rfl fun hw => .inl (by rw [hpc]; exact hw)
  | waiting q wait expired =>
    rw [hpc] at hs
    simp only [next] at hs
    repeat' split at hs
    · obtain rfl := Option.some.inj hs
      exact h.move rfl le_rfl nofun
    · obtain rfl := Option.some.inj hs
      exact h.move rfl le_rfl nofun
    · obtain rfl := Option.some.inj hs
      exact h.move rfl le_rfl fun hw => .inl (by rw [hpc]; exact hw)
    · cases hs
  | give q =>
    rw [hpc] at hs
    obtain rfl := Option.some.inj hs
    have hnone := hok (by rw [hpc]; rfl)
    intro u hu
    by_cases he : u = t
    · subst he
      simp [State.setPc, Pc.Hibernates] at hu
    · simp only [State.setPc, Function.update_of_ne he] at hu
      exact absurd hu (hnone u)
  | wakeup q =>
    rw [hpc] at hs
    obtain rfl := Option.some.inj hs
    exact h.move rfl le_rfl nofun

theorem step_inv (h : Inv s) (hok : Timely s a) (hs : step c s a = some s') : Inv s' := by
  cases a with
  | get t q wait =>
    simp only [step] at hs
    repeat' split at hs
    · obtain rfl := Option.some.inj hs
      exact h.move rfl le_rfl nofun
    · obtain rfl := Option.some.inj hs
      exact h.move rfl le_rfl nofun
    · cases hs
  | put t q =>
    simp only [step] at hs
    repeat' split at hs
    · obtain rfl := Option.some.inj hs
      exact h.move rfl le_rfl nofun
    · obtain rfl := Option.some.inj hs
      exact h.move rfl le_rfl nofun
    · cases hs
  | wake t expired =>
    simp only [step] at hs
    split at hs
    · next q wait e hpc =>
      split at hs
      · obtain rfl := Option.some.inj hs
        exact h.move rfl le_rfl fun hw => .inl (by rw [hpc]; exact hw)
      · cases hs
    · cases hs
  | run t w =>
    simp only [step] at hs
    split at hs
    · cases hs
    · exact next_inv h hok hs

theorem init_inv {s₀ : State n} (h0 : init c = some s₀) : Inv s₀ := by
  unfold init at h0
  split at h0
  · obtain rfl := Option.some.inj h0
    exact fun t ht => ht.elim
  · cases h0

/-- In every run in which nodes are given to the shared pool only while no
sender hibernates, none is blocked while the pool has a node. -/
theorem not_starves {s₀ : State n} (h0 : init c = some s₀) (hr : Reach (step c) Timely s₀ s) :
    ¬ s.Starves := by
  have hinv : Inv s := hr.invariant (init_inv h0) fun _ _ _ h hok hs => step_inv h hok hs
  rintro ⟨hpool, t, q, e, hpc, -⟩
  have := hinv t (by rw [hpc]; rfl)
  omega

theorem reach_pools (c : Config) {o : State n → Action n → Prop} [∀ s a, Decidable (o s a)]
    (as : List (Action n)) (P : State n → Bool)
    (h : ((init c).bind fun s => Library.runIf (step c) o s as).any P = true) :
    ∃ s₀ s, init c = some s₀ ∧ Reach (step c) o s₀ s ∧ P s = true := by
  cases h0 : (init c : Option (State n)) with
  | none => simp [h0] at h
  | some s₀ =>
    rw [h0, Option.bind_some] at h
    obtain ⟨s, hs, hp⟩ := Library.reach_of_runIf as P h
    exact ⟨s₀, s, rfl, hs, hp⟩

/-- Two nodes go out through the one queue, and come back while nobody
hibernates: one to the private pool, one to the shared one. -/
theorem not_starves_give : ∃ s₀ s : State 1, init tiny = some s₀ ∧
    (s.pool = 1 ∧ s.list 0 = 1) ∧ ¬ s.Starves := by
  obtain ⟨s₀, s, h0, hr, hp⟩ : ∃ s₀ s : State 1, init tiny = some s₀ ∧
      Reach (step tiny) Timely s₀ s ∧ decide (s.pool = 1 ∧ s.list 0 = 1) = true :=
    reach_pools tiny [.get 0 0 .forever, .get 0 0 .forever, .run 0 0, .put 0 0, .run 0 0,
      .put 0 0, .run 0 0, .run 0 0] _ (by decide)
  exact ⟨s₀, s, h0, of_decide_eq_true hp, not_starves h0 hr⟩

/-- The thread `t` is a blocked sender of `q`, and the shared pool has a node. -/
def State.starvesAt (s : State n) (t : Fin n) (q : Nat) : Bool :=
  0 < s.pool ∧ s.pc t = .waiting q .forever false ∧ (t : Nat) ∈ (s.cond q).cnd

theorem starves_of_at {q : Nat} (h : s.starvesAt t q = true) : s.Starves := by
  obtain ⟨hpool, hpc, hcnd⟩ := of_decide_eq_true h
  exact ⟨hpool, t, q, false, hpc, hcnd⟩

/-- With a catch of 0 the node of a put goes to the shared pool, and the sender
it wakes looks into its private pool only. With two queues, a node of one of
them goes to the shared pool, and a sender of the other one sleeps on. -/
theorem sender_starves :
    (∃ s₀ s : State 3, init { tiny with catchCount := 0, nodes := 1 } = some s₀ ∧
      Reach (step { tiny with catchCount := 0, nodes := 1 }) Free s₀ s ∧ s.Starves) ∧
    ∃ s₀ s : State 3, init { tiny with queues := 2, nodes := 4, pages := 8 } = some s₀ ∧
      Reach (step { tiny with queues := 2, nodes := 4, pages := 8 }) Free s₀ s ∧ s.Starves := by
  constructor
  · obtain ⟨s₀, s, h0, hr, hp⟩ := reach_pools (n := 3) (o := Free)
      { tiny with catchCount := 0, nodes := 1 }
      [.get 0 0 .forever, .run 0 0, .get 1 0 .forever, .run 1 0, .run 1 0,
        .put 2 0, .run 2 0, .run 2 0, .run 1 0] (fun s => s.starvesAt 1 0) (by decide)
    exact ⟨s₀, s, h0, hr, starves_of_at hp⟩
  · obtain ⟨s₀, s, h0, hr, hp⟩ := reach_pools (n := 3) (o := Free)
      { tiny with queues := 2, nodes := 4, pages := 8 }
      [.get 0 0 .forever, .get 0 0 .forever, .run 0 0, .get 1 1 .forever, .get 1 1 .forever,
        .run 1 0, .get 2 1 .forever, .run 2 0, .run 2 0, .put 0 0, .run 0 0, .put 0 0, .run 0 0,
        .run 0 0] (fun s => s.starvesAt 2 1) (by decide)
    exact ⟨s₀, s, h0, hr, starves_of_at hp⟩

end GalaLua.AMQ.Poolers
