import GalaLua.GLR.Responses

/-!
# Time-outs that are not lost

`TimerSignal` gives up when it finds a lock of the process taken. The time-out
takes effect all the same if the thread with the lock ends the wait itself:
`Response` and `ResponseEx` do, a sender does if the process waits in `Recieve`,
and a worker that leaves `Resume` does if the process has been killed. A clock
event that is gone while its call still waits then always has a thread that
sees to it (`attended`).
-/

namespace GalaLua.GLR

open Library (Reach Free)

variable {n : Nat} {s s' : State n} {t : Fin n} {p : Obj} {a : Action n}

-- ---------------------------------------------------------------------------
-- The clock events of a call
-- ---------------------------------------------------------------------------

/-- The call `o` has a time-out that is running or has been consumed. -/
def State.Clock (s : State n) (o : CallId) : Prop :=
  (∃ e ∈ s.timers, e.kind = .timeout ∧ e.origin = o) ∨ o ∈ s.hist.consumed

/-- The process that a worker runs and that has not set a time-out since its
`Resume` began. -/
def Pc.early : Pc → Option Obj
  | .run p | .recvLock p _ | .recvTest p _ | .recvGet p | .int p | .intDone p _ => some p
  | _ => none

theorem early_start {q : Pc} (h : q.isStart) : q.early = none := by
  cases q <;> first | rfl | cases h

theorem early_after (k : After) : k.pc.early = none := by cases k <;> rfl

theorem runs_of_early {q : Pc} (h : q.early = some p) : q.runs = some p := by
  cases q <;> first | exact h | cases h

/-- A time-out is set for the current call, by a worker that leaves `Resume`. -/
theorem clock_move (hm : Move s t s') {o : CallId} (h : s'.Clock o) :
    s.Clock o ∨ ∃ p, (s.pc t).early = some p ∧ s'.pc t = .leave p ∧ o = s.current p := by
  cases hm
  case fireSleep | fireSignal =>
    rcases h with ⟨e, he, hk⟩ | hc
    · exact .inl (.inl ⟨e, List.mem_of_mem_eraseIdx he, hk⟩)
    · exact .inl (.inr hc)
  case fireTimeout e' hidle he' hkind =>
    rcases h with ⟨e, he, hk⟩ | hc
    · exact .inl (.inl ⟨e, List.mem_of_mem_eraseIdx he, hk⟩)
    · rcases List.mem_cons.mp hc with rfl | hc
      · exact .inl (.inl ⟨e', List.mem_of_getElem? he', hkind, rfl⟩)
      · exact .inl (.inr hc)
  case recvWait p b hpc _ =>
    rcases h with ⟨e, he, hk, rfl⟩ | hc
    · rcases List.mem_append.mp he with hold | hnew
      · exact .inl (.inl ⟨e, hold, hk, rfl⟩)
      · refine .inr ⟨p, by rw [hpc]; rfl, by simp, ?_⟩
        cases b
        · cases hnew
        · obtain rfl := List.mem_singleton.mp hnew
          simp [State.current]
    · exact .inl (.inr hc)
  case intLeave p b hpc _ =>
    rcases h with ⟨e, he, hk, rfl⟩ | hc
    · rcases List.mem_append.mp he with hold | hnew
      · exact .inl (.inl ⟨e, hold, hk, rfl⟩)
      · refine .inr ⟨p, by rw [hpc]; rfl, by simp, ?_⟩
        cases b
        · cases hnew
        · obtain rfl := List.mem_singleton.mp hnew
          rfl
    · exact .inl (.inr hc)
  case int d _ _ =>
    rcases h with ⟨e, he, hk, rfl⟩ | hc
    · rcases List.mem_append.mp he with hold | hnew
      · exact .inl (.inl ⟨e, hold, hk, rfl⟩)
      · cases d <;> simp_all [Device.timers]
    · exact .inl (.inr hc)
  all_goals exact .inl h

theorem early_move (hm : Move s t s') {t' : Fin n} (h : (s'.pc t').early = some p) :
    (s.pc t').early = some p ∨
      (s'.procs p).tick = (s.procs p).tick + 1 ∧ ∀ o, s'.Clock o → s.Clock o := by
  cases hm
  case start hq =>
    rcases update_cases h with ⟨-, hn⟩ | ⟨-, hn⟩
    · simp [early_start hq] at hn
    · exact .inl hn
  case resume =>
    rcases update_cases h with ⟨-, hn⟩ | ⟨-, hn⟩
    · cases hn
      exact .inr ⟨by simp, fun _ ho => ho⟩
    · exact .inl hn
  all_goals
    have hpc := ‹s.pc t = _›
    rcases update_cases h with ⟨rfl, hn⟩ | ⟨-, hn⟩
    · first
      | cases hn; done
      | exact .inl (hpc ▸ hn)
      | (rw [early_after] at hn; cases hn)
    · exact .inl hn

structure Clocked (s : State n) : Prop where
  tick : ∀ o, s.Clock o → o.obj < s.next ∧ o.tick ≤ (s.procs o.obj).tick
  early : ∀ t p o, (s.pc t).early = some p → s.Clock o → o.obj = p → o.tick < (s.procs p).tick
  pid : ∀ e ∈ s.timers, e.kind = .timeout → e.pid = (s.procs e.origin.obj).id

/-- The clock events of a step are old ones, or that of the current call. -/
theorem timers_move (hm : Move s t s') {e : ClockEvent} (he : e ∈ s'.timers)
    (hk : e.kind = .timeout) :
    e ∈ s.timers ∨ ∃ p ∈ (s.pc t).objs, e.origin.obj = p ∧ e.pid = (s.procs p).id := by
  cases hm
  case fireSleep | fireSignal | fireTimeout => exact .inl (List.mem_of_mem_eraseIdx he)
  case recvWait p b hpc _ =>
    rcases List.mem_append.mp he with hold | hnew
    · exact .inl hold
    · refine .inr ⟨p, by rw [hpc]; exact List.mem_singleton_self p, ?_⟩
      cases b
      · cases hnew
      · obtain rfl := List.mem_singleton.mp hnew
        simp [State.current]
  case intLeave p b hpc _ =>
    rcases List.mem_append.mp he with hold | hnew
    · exact .inl hold
    · refine .inr ⟨p, by rw [hpc]; exact List.mem_singleton_self p, ?_⟩
      cases b
      · cases hnew
      · obtain rfl := List.mem_singleton.mp hnew
        exact ⟨rfl, rfl⟩
  case int d _ _ =>
    rcases List.mem_append.mp he with hold | hnew
    · exact .inl hold
    · cases d <;> simp_all [Device.timers]
  all_goals exact .inl he

theorem Clocked.move (hb : Base s) (h : Clocked s) (hm : Move s t s') : Clocked s' := by
  have hcur : ∀ p, (s.pc t).early = some p → p < s.next := fun p hp =>
    hb.table.objs t p (mem_objs_of_holdsInt (holdsInt_of_runs (runs_of_early hp)))
  refine ⟨fun o ho => ?_, fun t' p o hearly ho hobj => ?_, fun e he hk => ?_⟩
  · rcases clock_move hm ho with hold | ⟨p, hp, -, rfl⟩
    · obtain ⟨hlt, hle⟩ := h.tick o hold
      exact ⟨hlt.trans_le (next_move hm), hle.trans (tick_move hm hlt)⟩
    · exact ⟨(hcur p hp).trans_le (next_move hm), tick_move hm (hcur p hp)⟩
  · rcases early_move hm hearly with hold | ⟨htick, hclock⟩
    · rcases clock_move hm ho with hc | ⟨p', hp', hleave, rfl⟩
      · have hlt : p < s.next := hobj ▸ (h.tick o hc).1
        exact (h.early t' p o hold hc hobj).trans_le (tick_move hm hlt)
      · -- the worker that has set the time-out is the one inside `Resume`
        obtain rfl : p' = p := hobj
        obtain rfl := hb.int _ _ _ (holdsInt_of_runs (runs_of_early hold))
          (holdsInt_of_runs (runs_of_early hp'))
        simp [hleave, Pc.early] at hearly
    · obtain ⟨-, hle⟩ := h.tick o (hclock o ho)
      rw [hobj] at hle
      omega
  · rcases timers_move hm he hk with hold | ⟨p, hp, hobj, hpid⟩
    · have hlt := (h.tick e.origin (.inl ⟨e, hold, hk, rfl⟩)).1
      rw [id_move hm hlt]
      exact h.pid e hold hk
    · rw [hobj, id_move hm (hb.table.objs t p hp), hpid]

/-- A thread at this position will end the wait of `p`. -/
def State.attends (s : State n) (p : Obj) : Pc → Bool
  | .timer pid o => s.nodeMap pid == some p && o.tick == (s.procs p).tick
  | .timerInt q o | .timerLock q o | .timerBody q o => q == p && o.tick == (s.procs p).tick
  | .answerLock q _ _ | .answerBody q _ _ | .respBody q _ _ _ => q == p
  | .sendTest q _ _ | .sendTry q _ _ | .sendHand q _ _ =>
    q == p && (s.procs p).state == .RECV_WAIT
  | .leave q => q == p && (s.procs p).killed
  | _ => false

/-- When `TimerSignal` finds a lock taken and the call still waits, the thread
that has the lock ends the wait. -/
def attended (s : State n) (a : Action n) : Bool :=
  match s.pc a.thread with
  | .timerInt p o =>
    s.intFree p || (s.procs p).tick != o.tick || !(s.procs p).state.waits ||
      decide (∃ t, (s.pc t).holdsInt = some p ∧ s.attends p (s.pc t))
  | .timerLock p o =>
    s.lockFree p || (s.procs p).tick != o.tick || !(s.procs p).state.waits ||
      decide (∃ t, (s.pc t).holdsLock = some p ∧ s.attends p (s.pc t))
  | _ => true

/-- The clock event of the call is gone while the call still waits. -/
structure State.Overdue (s : State n) (o : CallId) : Prop where
  consumed : o ∈ s.hist.consumed
  live : s.nodeMap (s.procs o.obj).id = some o.obj
  tick : (s.procs o.obj).tick = o.tick
  waits : (s.procs o.obj).state.waits

def Attended (s : State n) : Prop :=
  ∀ o, s.Overdue o → ∃ t, s.attends o.obj (s.pc t)

theorem consumed_move (hm : Move s t s') {o : CallId} (h : o ∈ s'.hist.consumed) :
    o ∈ s.hist.consumed ∨ ∃ e ∈ s.timers, e.kind = .timeout ∧ e.origin = o ∧
      s'.nodeMap = s.nodeMap ∧ s'.procs = s.procs ∧ s'.pc t = .timer e.pid o := by
  cases hm
  case fireTimeout e hidle he hk =>
    rcases List.mem_cons.mp h with rfl | hold
    · exact .inr ⟨e, List.mem_of_getElem? he, hk, rfl, rfl, rfl, by simp⟩
    · exact .inl hold
  all_goals exact .inl h

/-- A call that is overdue after a step, and was not made so by the clock, was
overdue before, and the step leaves what the other threads have seen of it. -/
theorem overdue_move (hc : Clocked s) (hm : Move s t s') {o : CallId}
    (ho : s'.Overdue o) (hold : o ∈ s.hist.consumed) :
    s.Overdue o ∧ (s'.procs o.obj).state = (s.procs o.obj).state ∧
      (s'.procs o.obj).tick = (s.procs o.obj).tick ∧
      ((s.procs o.obj).killed → (s'.procs o.obj).killed) := by
  obtain ⟨hlt, -⟩ := hc.tick o (.inr hold)
  obtain ⟨-, hlive, htick, hwaits⟩ := ho
  have hearly : (s.pc t).early ≠ some o.obj ∨ (s'.procs o.obj).tick ≠ (s.procs o.obj).tick := by
    by_contra hcon
    push Not at hcon
    have := hc.early t _ o hcon.1 (.inr hold) rfl
    omega
  have hmap : s.nodeMap (s.procs o.obj).id = some o.obj := by
    rw [id_move hm hlt] at hlive
    refine (nodeMap_move hm hlive).resolve_right fun hst => ?_
    rw [hst] at hwaits
    cases hwaits
  have hsame : (s'.procs o.obj).state = (s.procs o.obj).state ∧
      (s'.procs o.obj).tick = (s.procs o.obj).tick ∧
      ((s.procs o.obj).killed → (s'.procs o.obj).killed) := by
    have hch := change_move hm o.obj
    generalize s'.procs o.obj = x at hch hwaits hearly ⊢
    cases hch with
    | recvWait hpc => exact absurd (by rw [hpc]; rfl) (hearly.resolve_right (not_not.mpr rfl))
    | suspend hpc => exact absurd (by rw [hpc]; rfl) (hearly.resolve_right (not_not.mpr rfl))
    | mark => exact ⟨rfl, rfl, fun _ => rfl⟩
    | create => cases hwaits
    | handOver => cases hwaits
    | wake => cases hwaits
    | resume => cases hwaits
    | yield => cases hwaits
    | run st _ hst => simp_all
    | _ => exact ⟨rfl, rfl, id⟩
  obtain ⟨hstate, htick', hkilled⟩ := hsame
  exact ⟨⟨hold, hmap, htick' ▸ htick, hstate ▸ hwaits⟩, hstate, htick', hkilled⟩

/-- What the other threads have seen of an overdue call keeps them attending. -/
theorem attends_keep (hb : Base s) {q : Pc} (hlive : s.nodeMap (s.procs p).id = some p →
    s'.nodeMap (s.procs p).id = some p) (hstate : (s'.procs p).state = (s.procs p).state)
    (htick : (s'.procs p).tick = (s.procs p).tick)
    (hkilled : (s.procs p).killed → (s'.procs p).killed) (h : s.attends p q) :
    s'.attends p q := by
  cases q with
  | timer pid o =>
    simp only [State.attends, Bool.and_eq_true, beq_iff_eq] at h ⊢
    obtain ⟨-, hid, -⟩ := hb.table.node h.1
    rw [← hid, htick]
    exact ⟨hlive (hid.symm ▸ h.1), h.2⟩
  | leave q =>
    simp only [State.attends, Bool.and_eq_true, beq_iff_eq] at h ⊢
    exact ⟨h.1, hkilled h.2⟩
  | _ => simpa only [State.attends, hstate, htick] using h

/-- The next step of a thread that attends to an overdue call, if it does not
give up at a lock. -/
theorem attends_move (hr : Route s) (hm : Move s t s') {o : CallId} (ho : s.Overdue o)
    (ho' : s'.Overdue o) (h : s.attends o.obj (s.pc t))
    (hint : ∀ p o', s.pc t = .timerInt p o' → ∀ t, (s.pc t).holdsInt ≠ some p)
    (hlock : ∀ p o', s.pc t = .timerLock p o' → ∀ t, (s.pc t).holdsLock ≠ some p) :
    s'.attends o.obj (s'.pc t) := by
  have hwaits := ho'.waits
  cases hm
  -- a step that ends the wait
  case sendHand hpc _ | timerBody hpc _ _ | answerBody hpc _ | respBody hpc _ | leaveKilled hpc _ =>
    rw [hpc] at h
    simp only [State.attends, Bool.and_eq_true, beq_iff_eq] at h
    simp [h, PState.waits] at hwaits
  -- a step towards that
  case sendTestTry hpc _ _ | sendTry hpc _ | sendBusy hpc _ | timerInt hpc _ | timerLock hpc _
      | answerLock hpc _ =>
    rw [hpc] at h
    simpa [State.attends] using h
  case timerFind pid o' p hpc hmap htick =>
    rw [hpc] at h
    simp only [State.attends, Bool.and_eq_true, beq_iff_eq, hmap, Option.some.injEq] at h
    simp [State.attends, h]
  -- a thread that finds less than it has seen
  case sendTestPut hpc hst =>
    rw [hpc] at h
    simp only [State.attends, Bool.and_eq_true, beq_iff_eq] at h
    obtain ⟨rfl, hwait⟩ := h
    exact absurd ⟨hr.wait _ hwait, hwait⟩ hst
  case sendBreak hpc hst =>
    rw [hpc] at h
    simp only [State.attends, Bool.and_eq_true, beq_iff_eq] at h
    obtain ⟨rfl, hwait⟩ := h
    exact absurd hwait hst
  case timerStale hpc hst =>
    rw [hpc] at h
    simp only [State.attends, Bool.and_eq_true, beq_iff_eq] at h
    exact absurd h.2.symm (hst _ h.1)
  case timerVoid hpc hst =>
    rw [hpc] at h
    simp only [State.attends, Bool.and_eq_true, beq_iff_eq] at h
    obtain ⟨rfl, htick⟩ := h
    exact absurd ⟨htick.symm, ho.waits⟩ hst
  case answerVoid hpc hst | respVoid hpc hst =>
    rw [hpc] at h
    simp only [State.attends, beq_iff_eq] at h
    exact absurd (h ▸ ho.waits) hst
  case leaveWait hpc hk _ | leaveYield hpc hk _ =>
    rw [hpc] at h
    simp only [State.attends, Bool.and_eq_true, beq_iff_eq] at h
    obtain ⟨rfl, hkilled⟩ := h
    exact absurd hkilled hk
  case timerIntBusy hpc hbusy =>
    obtain ⟨t', ht⟩ := hbusy
    exact absurd ht (hint _ _ hpc t')
  case timerLockBusy hpc hbusy =>
    obtain ⟨t', ht⟩ := hbusy
    exact absurd ht (hlock _ _ hpc t')
  all_goals
    have hpc := ‹s.pc t = _›
    rw [hpc] at h
    cases h

/-- A `TimerSignal` that gives up leaves the call to the thread that has the
lock. -/
theorem attended_busy (ha : attended s a) {o : CallId} (ho : s.Overdue o)
    (h : s.attends o.obj (s.pc a.thread)) :
    (∃ t, t ≠ a.thread ∧ s.attends o.obj (s.pc t)) ∨
      (∀ p o', s.pc a.thread = .timerInt p o' → ∀ t, (s.pc t).holdsInt ≠ some p) ∧
      ∀ p o', s.pc a.thread = .timerLock p o' → ∀ t, (s.pc t).holdsLock ≠ some p := by
  have hwaits := ho.waits
  cases hpc : s.pc a.thread with
  | timerInt p o' =>
    rw [hpc] at h
    simp only [State.attends, Bool.and_eq_true, beq_iff_eq] at h
    obtain ⟨rfl, htick⟩ := h
    simp only [attended, hpc, htick, hwaits, State.intFree, bne_self_eq_false, Bool.not_true,
      Bool.or_false, Bool.or_eq_true, decide_eq_true_eq] at ha
    rcases ha with hfree | ⟨t, hint, hatt⟩
    · refine .inr ⟨fun p' o'' heq => ?_, fun _ _ heq => by cases heq⟩
      cases heq
      exact hfree
    · refine .inl ⟨t, ?_, hatt⟩
      rintro rfl
      rw [hpc] at hint
      cases hint
  | timerLock p o' =>
    rw [hpc] at h
    simp only [State.attends, Bool.and_eq_true, beq_iff_eq] at h
    obtain ⟨rfl, htick⟩ := h
    simp only [attended, hpc, htick, hwaits, State.lockFree, bne_self_eq_false, Bool.not_true,
      Bool.or_false, Bool.or_eq_true, decide_eq_true_eq] at ha
    rcases ha with hfree | ⟨t, hlock, hatt⟩
    · refine .inr ⟨fun _ _ heq => (by cases heq), fun p' o'' heq => ?_⟩
      cases heq
      exact hfree
    · refine .inl ⟨t, ?_, hatt⟩
      rintro rfl
      rw [hpc] at hlock
      cases hlock
  | _ => exact .inr ⟨fun _ _ heq => (by cases heq), fun _ _ heq => (by cases heq)⟩

theorem Attended.step (hb : Base s) (hr : Route s) (hc : Clocked s) (h : Attended s)
    (ha : attended s a) (hs : step s a = some s') : Attended s' := by
  intro o ho'
  have hm := step_cases hs
  rcases consumed_move hm ho'.consumed with hold | ⟨e, he, hk, rfl, hmap, hprocs, hpc⟩
  · obtain ⟨ho, hstate, htick, hkilled⟩ := overdue_move hc hm ho' hold
    have hkeep : ∀ t, t ≠ a.thread → s.attends o.obj (s.pc t) →
        ∃ t, s'.attends o.obj (s'.pc t) := by
      intro t ht hatt
      have hlive := ho'.live
      rw [id_move hm (hc.tick o (.inr hold)).1] at hlive
      exact ⟨t, pc_move_of_ne hm ht ▸ attends_keep hb (fun _ => hlive) hstate htick hkilled hatt⟩
    obtain ⟨t, ht⟩ := h o ho
    rcases eq_or_ne t a.thread with rfl | hne
    · rcases attended_busy ha ho ht with ⟨t', hne, hatt⟩ | ⟨hint, hlock⟩
      · exact hkeep t' hne hatt
      · exact ⟨_, attends_move hr hm ho ho' ht hint hlock⟩
    · exact hkeep t hne ht
  · -- the clock has just called `TimerSignal`
    refine ⟨a.thread, ?_⟩
    have hlive := ho'.live
    have htick := ho'.tick
    rw [hmap, hprocs, ← hc.pid e he hk] at hlive
    rw [hprocs] at htick
    rw [hpc]
    simp [State.attends, hmap, hprocs, hlive, htick]

/-- No thread is inside a critical section of `p`, and no `TimerSignal` is on its
way to it. -/
def State.Quiet (s : State n) (p : Obj) : Prop :=
  ∀ t, (s.pc t).holdsInt ≠ some p ∧ (s.pc t).holdsLock ≠ some p ∧
    ∀ o, s.pc t ≠ .timerInt p o ∧ ∀ pid, s.nodeMap pid = some p → s.pc t ≠ .timer pid o

end GalaLua.GLR
