import GalaLua.GLR.Answers

/-!
# Answers without a tick

`Bus::Response` knows a pid and no more. A `Completion` is such an answer on its
way: a clock event of a sleep, a task of a socket, or a call of `Response`. It
ends the call it was made for as long as no process is suspended while a
completion of another call is on its way to its pid, and a poll, whose call is
over when it is made, is not answered while its process waits.
-/

namespace GalaLua.GLR

open Library (Reach Free)

variable {n : Nat} {s s' : State n} {t : Fin n} {p : Obj} {a : Action n}

/-- What `Response` will be called for: the call that asked, and whether it was a
poll. -/
structure Completion where
  origin : CallId
  poll : Bool
  deriving DecidableEq, Repr

/-- The completion is for the suspended call `now`. -/
def Completion.isFor (c : Completion) (now : CallId) : Bool :=
  !c.poll && c.origin == now

def ClockEvent.completion (e : ClockEvent) : Option (Pid × Completion) :=
  if e.kind = .sleep then some (e.pid, ⟨e.origin, false⟩) else none

/-- A poll is answered by a message; it becomes a completion only if it fails. -/
def Task.completion (x : Task) : Option (Pid × Completion) :=
  if x.type = TaskType.ACCEPT_POLL then none else some (x.pid, ⟨x.origin, false⟩)

def Pc.completion : Pc → Option (Pid × Completion)
  | .resp pid _ poll origin => some (pid, ⟨origin, poll⟩)
  | _ => none

/-- A `Response` that has found its process. -/
def Pc.responds : Pc → Option (Obj × Completion)
  | .respInt p _ poll origin | .respBody p _ poll origin => some (p, ⟨origin, poll⟩)
  | _ => none

/-- The completions on their way, with the pid they go to. -/
def State.outstanding (s : State n) : List (Pid × Completion) :=
  s.timers.filterMap ClockEvent.completion ++ s.tasks.filterMap Task.completion ++
    (List.finRange n).filterMap fun t => (s.pc t).completion

theorem mem_outstanding {x : Pid × Completion} : x ∈ s.outstanding ↔
    (∃ e ∈ s.timers, e.completion = some x) ∨ (∃ y ∈ s.tasks, y.completion = some x) ∨
      ∃ t, (s.pc t).completion = some x := by
  simp [State.outstanding]

-- ---------------------------------------------------------------------------
-- Where completions come from
-- ---------------------------------------------------------------------------

theorem completion_start {q : Pc} (h : q.isStart) : q.completion = none := by
  cases q <;> first | rfl | cases h

theorem completion_after (k : After) : k.pc.completion = none := by cases k <;> rfl

theorem outstanding_goto {q : Pc} {x : Pid × Completion} (hx : x ∈ (s.goto t q).outstanding) :
    x ∈ s.outstanding ∨ q.completion = some x := by
  rcases mem_outstanding.mp hx with he | hy | ⟨t', ht⟩
  · exact .inl (mem_outstanding.mpr (.inl he))
  · exact .inl (mem_outstanding.mpr (.inr (.inl hy)))
  · rcases update_cases ht with ⟨-, hn⟩ | ⟨-, hn⟩
    · exact .inr hn
    · exact .inl (mem_outstanding.mpr (.inr (.inr ⟨t', hn⟩)))

theorem outstanding_mono {x : Pid × Completion} (hx : x ∈ s'.outstanding)
    (htimers : s'.timers ⊆ s.timers) (htasks : s'.tasks ⊆ s.tasks) (hpc : s'.pc = s.pc) :
    x ∈ s.outstanding := by
  rcases mem_outstanding.mp hx with ⟨e, he, hex⟩ | ⟨y, hy, hyx⟩ | ht
  · exact mem_outstanding.mpr (.inl ⟨e, htimers he, hex⟩)
  · exact mem_outstanding.mpr (.inr (.inl ⟨y, htasks hy, hyx⟩))
  · exact mem_outstanding.mpr (.inr (.inr (hpc ▸ ht)))

theorem outstanding_setTimeOut {b : Bool} {x : Pid × Completion}
    (hx : x ∈ (setTimeOut s p b).outstanding) : x ∈ s.outstanding := by
  rcases mem_outstanding.mp hx with ⟨e, he, hex⟩ | hrest
  · rcases List.mem_append.mp he with hold | hnew
    · exact mem_outstanding.mpr (.inl ⟨e, hold, hex⟩)
    · split at hnew
      · obtain rfl := List.mem_singleton.mp hnew
        simp [ClockEvent.completion] at hex
      · cases hnew
  · exact mem_outstanding.mpr (.inr hrest)

theorem outstanding_serve {d : Device} {x : Pid × Completion} (hx : x ∈ (serve s p d).outstanding) :
    x ∈ s.outstanding ∨ (d.state (s.procs p).state).waits ∧
      x = ((s.procs p).id, ⟨s.current p, false⟩) := by
  rcases mem_outstanding.mp hx with ⟨e, he, hex⟩ | ⟨y, hy, hyx⟩ | ht
  · rcases List.mem_append.mp he with hold | hnew
    · exact .inl (mem_outstanding.mpr (.inl ⟨e, hold, hex⟩))
    · cases d <;> simp_all [Device.timers, ClockEvent.completion, Device.state, PState.waits]
  · rcases List.mem_append.mp hy with hold | hnew
    · exact .inl (mem_outstanding.mpr (.inr (.inl ⟨y, hold, hyx⟩)))
    · cases d <;> simp_all [Device.tasks, Task.completion, Device.state, PState.waits]
  · exact .inl (mem_outstanding.mpr (.inr (.inr ht)))

theorem outstanding_move (hm : Move s t s') {x : Pid × Completion} (hx : x ∈ s'.outstanding) :
    x ∈ s.outstanding ∨
      (∃ p, s.pc t = .int p ∧ (s'.procs p).state.waits ∧
        x = ((s.procs p).id, ⟨s.current p, false⟩)) ∨
      s.pc t = .idle ∧ ∃ vs o, s'.pc t = .resp x.1 vs true o := by
  cases hm
  case start hidle hq =>
    exact .inl ((outstanding_goto hx).resolve_right (by simp [completion_start hq]))
  case fireSleep i e hidle he hkind =>
    rcases outstanding_goto hx with hold | hnew
    · exact .inl (outstanding_mono hold (List.eraseIdx_subset ..) (List.Subset.refl _) rfl)
    · refine .inl (mem_outstanding.mpr (.inl ⟨e, List.mem_of_getElem? he, ?_⟩))
      rw [← hnew]
      simp [ClockEvent.completion, hkind, Pc.completion]
  case fireSignal | fireTimeout =>
    have hold := (outstanding_goto hx).resolve_right (by simp [Pc.completion])
    exact .inl (outstanding_mono hold (List.eraseIdx_subset ..) (List.Subset.refl _) rfl)
  case accept =>
    have hold := (outstanding_goto hx).resolve_right (by simp [Pc.completion])
    exact .inl (outstanding_mono hold (List.Subset.refl _) (List.eraseIdx_subset ..) rfl)
  case complete i y vs hidle hy =>
    rcases outstanding_goto hx with hold | hnew
    · exact .inl (outstanding_mono hold (List.Subset.refl _) (List.eraseIdx_subset ..) rfl)
    · by_cases hpoll : y.type = TaskType.ACCEPT_POLL
      · cases hnew
        exact .inr (.inr ⟨hidle, vs, y.origin, by simp [hpoll]⟩)
      · refine .inl (mem_outstanding.mpr (.inr (.inl ⟨y, List.mem_of_getElem? hy, ?_⟩)))
        rw [← hnew]
        simp [Task.completion, hpoll, Pc.completion]
  case recvWait =>
    have hold := (outstanding_goto hx).resolve_right (by simp [Pc.completion])
    exact .inl (outstanding_mono (outstanding_setTimeOut hold) (List.Subset.refl _)
      (List.Subset.refl _) rfl)
  case intLeave =>
    have hold := (outstanding_goto hx).resolve_right (by simp [Pc.completion])
    exact .inl (outstanding_setTimeOut hold)
  case int p d b hpc =>
    rcases outstanding_serve ((outstanding_goto hx).resolve_right (by simp [Pc.completion])) with
      hold | ⟨hw, hx⟩
    · exact .inl hold
    · exact .inr (.inl ⟨p, hpc, by simpa using hw, hx⟩)
  all_goals
    refine .inl ((outstanding_goto hx).resolve_right fun h => ?_)
    first
    | cases h
    | (rw [completion_after] at h; cases h)

/-- The pid of a poll that a step answers with `Response`. -/
def State.failsPoll (s : State n) : Action n → Option Pid
  | .complete _ i _ => (s.tasks[i]?).bind fun x =>
      if x.type = TaskType.ACCEPT_POLL then some x.pid else none
  | _ => none

theorem failsPoll_of_resp {pid : Pid} {vs : List Value} {o : CallId} (hs : step s a = some s')
    (hidle : s.pc a.thread = .idle) (hpc : s'.pc a.thread = .resp pid vs true o) :
    s.failsPoll a = some pid := by
  cases a with
  | call t x =>
    simp only [step] at hs
    split at hs
    · cases x <;> simp only [startCall] at hs <;> (try split at hs) <;> cases hs <;>
        simp [Action.thread] at hpc
    · cases hs
  | fire t i =>
    simp only [step] at hs
    split at hs
    · unfold fire at hs
      split at hs
      · cases hs
      · dsimp only at hs
        split at hs <;> cases hs <;> simp [Action.thread] at hpc
    · cases hs
  | complete t i vs' =>
    simp only [step] at hs
    split at hs
    · obtain ⟨x, hx, rfl⟩ := Option.map_eq_some_iff.mp hs
      simp only [Action.thread, State.goto, Function.update_self, Pc.resp.injEq,
        decide_eq_true_eq] at hpc
      simp [State.failsPoll, hx, hpc]
    · cases hs
  | accept t i vs' =>
    simp only [step] at hs
    split at hs
    · obtain ⟨x, hx, hs⟩ := Option.bind_eq_some_iff.mp hs
      split at hs
      · cases hs
        simp [Action.thread] at hpc
      · cases hs
    · cases hs
  | run t x =>
    have hidle : s.pc t = .idle := hidle
    simp [step, stepRun, hidle] at hs

/-- A completion on its way after a step was on its way before, or is that of
the call that the step suspends, or of a poll that fails. -/
theorem outstanding_step (hs : step s a = some s') {x : Pid × Completion}
    (hx : x ∈ s'.outstanding) :
    x ∈ s.outstanding ∨
      (∃ p, s.suspends a = some p ∧ x = ((s.procs p).id, ⟨s.current p, false⟩)) ∨
      s.failsPoll a = some x.1 := by
  rcases outstanding_move (step_cases hs) hx with hold | ⟨p, hpc, hw, hx⟩ | ⟨hidle, vs, o, hpc⟩
  · exact .inl hold
  · exact .inr (.inl ⟨p, suspends_of_int hs hpc hw, hx⟩)
  · exact .inr (.inr (failsPoll_of_resp hs hidle hpc))

theorem responds_start {q : Pc} (h : q.isStart) : q.responds = none := by
  cases q <;> first | rfl | cases h

theorem responds_after (k : After) : k.pc.responds = none := by cases k <;> rfl

theorem responds_move (hm : Move s t s') {t' : Fin n} {c : Completion}
    (h : (s'.pc t').responds = some (p, c)) :
    (s.pc t').responds = some (p, c) ∨
      ∃ pid, (pid, c) ∈ s.outstanding ∧ s.nodeMap pid = some p := by
  cases hm
  case start hq =>
    rcases update_cases h with ⟨-, hn⟩ | ⟨-, hn⟩
    · simp [responds_start hq] at hn
    · exact .inl hn
  case respFind pid vs b o p' hpc hmap =>
    rcases update_cases h with ⟨-, hn⟩ | ⟨-, hn⟩
    · cases hn
      exact .inr ⟨pid, mem_outstanding.mpr (.inr (.inr ⟨t, by rw [hpc]; rfl⟩)), hmap⟩
    · exact .inl hn
  all_goals
    have hpc := ‹s.pc t = _›
    rcases update_cases h with ⟨rfl, hn⟩ | ⟨-, hn⟩
    · first
      | cases hn; done
      | exact .inl (hpc ▸ hn)
      | (rw [responds_after] at hn; cases hn)
    · exact .inl hn

-- ---------------------------------------------------------------------------
-- Runs
-- ---------------------------------------------------------------------------

/-- A step suspends a process only if it is in the table and every completion on
its way to it is for the call that is suspended; and a poll fails only while the
process of its pid does not wait. -/
def orderly (s : State n) (a : Action n) : Bool :=
  (match s.suspends a with
    | none => true
    | some p =>
      s.nodeMap (s.procs p).id == some p &&
        (s.outstanding.all fun x => x.1 != (s.procs p).id || x.2.isFor (s.current p)) &&
        decide (∀ t, (s.pc t).responds.all fun x => x.1 != p || x.2.isFor (s.current p))) &&
    match s.failsPoll a with
    | none => true
    | some pid => (s.nodeMap pid).all fun p => !(s.procs p).state.waits

structure Due (s : State n) : Prop where
  outstanding : ∀ pid c p, (pid, c) ∈ s.outstanding → s.nodeMap pid = some p →
    (s.procs p).state.waits → c.isFor (s.current p)
  responds : ∀ t p c, (s.pc t).responds = some (p, c) → (s.procs p).state.waits →
    c.isFor (s.current p)
  log : ∀ x ∈ s.hist.responded, x.1 = false ∧ x.2.now = x.2.origin

theorem due_init : Due (State.init n) := by
  refine ⟨fun pid c p hc hp => ?_, fun _ _ _ h => ?_, fun _ h => ?_⟩
  · cases hp
  · cases h
  · cases h

theorem isFor_request (now : CallId) : Completion.isFor ⟨now, false⟩ now := by
  simp [Completion.isFor]

theorem Due.step (hb : Base s) (h : Due s) (ha : orderly s a) (hs : step s a = some s') :
    Due s' := by
  simp only [orderly, Bool.and_eq_true] at ha
  obtain ⟨hsus, hpoll⟩ := ha
  refine ⟨fun pid c p hc hp hw => ?_, fun t p c hc hw => ?_, ?_⟩
  · obtain ⟨htick, hwait⟩ := waits_step hs hw
    have hcur : s'.current p = s.current p := by simp [State.current, htick]
    have hmap : s.nodeMap pid = some p := by
      refine (nodeMap_move (step_cases hs) hp).resolve_right fun hst => ?_
      rw [hst] at hw
      cases hw
    have hid := (hb.table.node hmap).2.1
    rw [hcur]
    rcases outstanding_step hs hc with hold | ⟨p', hp', hx⟩ | hfail
    · rcases hwait with hwait | hp'
      · exact h.outstanding pid c p hold hmap hwait
      · simp only [hp', Bool.and_eq_true, List.all_eq_true] at hsus
        simpa [hid] using hsus.1.2 _ hold
    · -- the request of the call that is suspended now
      simp only [hp', Bool.and_eq_true, beq_iff_eq] at hsus
      obtain ⟨rfl, rfl⟩ := Prod.mk.inj hx
      obtain rfl : p' = p := by
        have := hsus.1.1
        rw [hmap] at this
        exact (Option.some.inj this).symm
      exact isFor_request _
    · rcases hwait with hwait | hp'
      · simp [hfail, hmap, hwait] at hpoll
      · cases a <;> simp_all [State.suspends, State.failsPoll]
  · obtain ⟨htick, hwait⟩ := waits_step hs hw
    have hcur : s'.current p = s.current p := by simp [State.current, htick]
    rw [hcur]
    rcases responds_move (step_cases hs) hc with hold | ⟨pid, hmem, hmap⟩
    · rcases hwait with hwait | hp'
      · exact h.responds t p c hold hwait
      · simp only [hp', Bool.and_eq_true, decide_eq_true_eq] at hsus
        have hall := hsus.2 t
        rw [hold] at hall
        simpa using hall
    · rcases hwait with hwait | hp'
      · exact h.outstanding pid c p hmem hmap hwait
      · simp only [hp', Bool.and_eq_true, List.all_eq_true] at hsus
        simpa [(hb.table.node hmap).2.1] using hsus.1.2 _ hmem
  · have hm := step_cases hs
    cases hm
    case respBody p vs b o hpc hst =>
      have hfor := h.responds _ p ⟨o, b⟩ (by rw [hpc]; rfl) hst
      simp only [Completion.isFor, Bool.and_eq_true, Bool.not_eq_true', beq_iff_eq] at hfor
      exact List.forall_mem_cons.mpr ⟨⟨hfor.1, hfor.2.symm⟩, h.log⟩
    all_goals exact h.log

theorem reach_due (h : Reach step (fun s a => orderly s a) (State.init n) s) : Due s :=
  h.invariant_of (fun _ => reach_base) due_init fun _ _ _ hb hi ha hs => hi.step hb ha hs

/-- In an orderly run `Response` resumes a process only in the suspended call that
it was made for. -/
theorem response_calls (h : Reach step (fun s a => orderly s a) (State.init n) s) :
    ∀ x ∈ s.hist.responded, x.1 = false ∧ x.2.now = x.2.origin :=
  (reach_due h).log

/-- A process sleeps and is woken. -/
theorem response_calls_sleep : ∃ s : State 2,
    Reach step (fun s a => orderly s a) (State.init 2) s ∧
    s.hist.responded = [(false, ⟨⟨0, 1⟩, ⟨0, 1⟩⟩)] ∧
    ∀ x ∈ s.hist.responded, x.1 = false ∧ x.2.now = x.2.origin := by
  obtain ⟨s, hs, hp⟩ := reach_guarded orderly
    (spawned 0 0 ++ resumed 0 ++ [Action.run 0 .interrupt, Action.run 0 (.device .sleep false)] ++ go 0 2 ++
      [Action.fire 1 0] ++ go 1 3)
    (fun s : State 2 => s.hist.responded == [(false, ⟨⟨0, 1⟩, ⟨0, 1⟩⟩)]) (by decide +kernel)
  exact ⟨s, hs, by simpa using hp, response_calls hs⟩

/-- A send times out; the process is resumed and waits in `Recieve` when the
socket finishes the send. -/
theorem late_response : ∃ s : State 3, Reach step Free (State.init 3) s ∧
    ¬∀ x ∈ s.hist.responded, x.1 = false ∧ x.2.now = x.2.origin := by
  obtain ⟨s, hs, hp⟩ := reach_schedule
    (spawned 0 0 ++ resumed 0 ++ [Action.run 0 .interrupt, Action.run 0 (.device .send true)] ++ go 0 3 ++
      [Action.fire 1 0] ++ go 1 4 ++ resumed 0 ++ [Action.run 0 (.recv false)] ++ go 0 3 ++
      [Action.complete 2 0 [.boolean true]] ++ go 2 3)
    (fun s : State 3 => s.hist.responded == [(false, ⟨⟨0, 1⟩, ⟨0, 2⟩⟩)]) (by decide +kernel)
  refine ⟨s, hs, fun h => ?_⟩
  have heq : s.hist.responded = [(false, ⟨⟨0, 1⟩, ⟨0, 2⟩⟩)] := by simpa using hp
  have := (h _ (by rw [heq]; exact List.mem_singleton_self _)).2
  simp at this

end GalaLua.GLR
