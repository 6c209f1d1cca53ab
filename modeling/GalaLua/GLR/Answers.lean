import GalaLua.GLR.Mailbox

/-!
# Answers that carry a tick

`TimerSignal` compares the tick again when it has both locks; `ResponseEx`
compares it only before it waits for them. `tick_answers` says when that is
enough: no process is suspended anew while a `ResponseEx` that has compared an
earlier tick still waits for its `_IntLock`.
-/

namespace GalaLua.GLR

open Library (Reach Free)

variable {n : Nat} {s s' : State n} {t : Fin n} {p : Obj} {a : Action n}

-- ---------------------------------------------------------------------------
-- Suspending a process
-- ---------------------------------------------------------------------------

/-- The process that a step puts into `RECV_WAIT` or `INT_WAIT`. -/
def State.suspends (s : State n) : Action n → Option Obj
  | .run t x =>
    match s.pc t, x with
    | .recvTest p _, _ => if (s.procs p).channel = [] then some p else none
    | .int p, .device d _ => if (d.state (s.procs p).state).waits then some p else none
    | _, _ => none
  | _ => none

theorem suspends_of_int (hs : step s a = some s') (hpc : s.pc a.thread = .int p)
    (hw : (s'.procs p).state.waits) : s.suspends a = some p := by
  cases a with
  | run t y =>
    have hpc : s.pc t = .int p := hpc
    simp only [step, stepRun, hpc] at hs
    cases y <;> simp only [stepWorker] at hs <;> cases hs
    simp_all [State.suspends]
  | _ => simp_all [step, Action.thread, Pc.isIdle]

/-- A process that waits after a step is at the same tick as before; it waited
then, or the step suspends it. -/
theorem waits_step (hs : step s a = some s') (hw : (s'.procs p).state.waits) :
    (s'.procs p).tick = (s.procs p).tick ∧
      ((s.procs p).state.waits ∨ s.suspends a = some p) := by
  have hc := change_move (step_cases hs) p
  generalize hx : s'.procs p = x at hc hw ⊢
  cases hc with
  | recvWait hpc hch =>
    refine ⟨rfl, .inr ?_⟩
    cases a with
    | run t y => simp_all [State.suspends, Action.thread]
    | _ => simp_all [step, Action.thread, Pc.isIdle]
  | suspend hpc =>
    exact ⟨rfl, .inr (suspends_of_int hs hpc (by rw [hx]; rfl))⟩
  | create => cases hw
  | handOver => cases hw
  | wake => cases hw
  | resume => cases hw
  | yield => cases hw
  | run st _ hst => simp_all
  | _ => exact ⟨rfl, .inl hw⟩

-- ---------------------------------------------------------------------------
-- `ResponseEx`
-- ---------------------------------------------------------------------------

/-- The process and the tick of a `ResponseEx` that has compared the tick. -/
def Pc.asks : Pc → Option (Obj × Nat)
  | .answerInt p k _ | .answerLock p k _ | .answerBody p k _ => some (p, k)
  | _ => none

/-- The call returned true if and only if its values went to a suspended call,
and this call had its tick. -/
def Reply.Exact (r : Reply) : Prop :=
  (r.result = true ↔ ∃ now, r.delivered = some now ∧ now.tick = r.tick) ∧
    ∀ now, r.delivered = some now → now.tick = r.tick

structure Asked (s : State n) : Prop where
  tick : ∀ t p k, (s.pc t).asks = some (p, k) → (s.procs p).state.waits → (s.procs p).tick = k
  timed : ∀ e ∈ s.hist.timed, e.now.tick = e.origin.tick
  answered : ∀ r ∈ s.hist.answered, r.Exact

end GalaLua.GLR
