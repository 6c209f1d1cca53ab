import GalaLua.GLR.Runtime

/-!
# What a step can do

`Move s t s'` lists the steps of a thread `t`, each with the position it
starts from, what it has tested and the state it leaves; `step_cases` says
that there are no others. The proofs about runs go by cases on `Move`.
-/

namespace GalaLua.GLR

variable {n : Nat}

/-- The first positions of the calls that need nothing of the state. -/
def Pc.isStart : Pc → Bool
  | .send _ _ .done | .answer .. | .destroy _ none => true
  | .spawn id _ => id < RESERVED_PID
  | _ => false

inductive Move (s : State n) (t : Fin n) : State n → Prop
  -- an idle thread starts a call
  | start (q : Pc) : s.pc t = .idle → q.isStart → Move s t (s.goto t q)
  | get {p rest} : s.pc t = .idle → s.scheQueue = p :: rest →
      Move s t ({ s with scheQueue := rest }.goto t (.got p))
  | fireSleep {i : Nat} {e : ClockEvent} : s.pc t = .idle → s.timers[i]? = some e → e.kind = .sleep →
      Move s t ({ s with timers := s.timers.eraseIdx i }.goto t (.resp e.pid [] false e.origin))
  | fireSignal {i : Nat} {e : ClockEvent} : s.pc t = .idle → s.timers[i]? = some e → e.kind = .signal →
      Move s t ({ s with timers := s.timers.eraseIdx i }.goto t
        (.send e.pid (.timeoutSignal e.pid) .done))
  | fireTimeout {i : Nat} {e : ClockEvent} : s.pc t = .idle → s.timers[i]? = some e → e.kind = .timeout →
      Move s t ((({ s with timers := s.timers.eraseIdx i } : State n).record fun h =>
        { h with consumed := e.origin :: h.consumed }).goto t (.timer e.pid e.origin))
  | complete {i : Nat} {x : Task} (vs) : s.pc t = .idle → s.tasks[i]? = some x →
      Move s t ({ s with tasks := s.tasks.eraseIdx i }.goto t
        (.resp x.pid vs (decide (x.type = TaskType.ACCEPT_POLL)) x.origin))
  | accept {i : Nat} {x : Task} (vs) : s.pc t = .idle → s.tasks[i]? = some x → x.type = .ACCEPT →
      Move s t ({ s with tasks := s.tasks.eraseIdx i }.goto t (.answer x.pid x.origin.tick vs))
  -- `SendMsgToNode`
  | sendNone {pid m k} : s.pc t = .send pid m k → s.nodeMap pid = none → Move s t (s.goto t k.pc)
  | sendSome {pid m k p} : s.pc t = .send pid m k → s.nodeMap pid = some p →
      Move s t (s.goto t (.sendLock p m k))
  | sendLock {p m k} : s.pc t = .sendLock p m k → (∀ t, (s.pc t).holdsLock ≠ some p) →
      Move s t ((s.record (·.acquire p m)).goto t (.sendTest p m k))
  | sendTestTry {p m k} : s.pc t = .sendTest p m k → (s.procs p).channel = [] →
      (s.procs p).state = .RECV_WAIT → Move s t (s.goto t (.sendTry p m k))
  | sendTestPut {p m k} : s.pc t = .sendTest p m k →
      ¬((s.procs p).channel = [] ∧ (s.procs p).state = .RECV_WAIT) →
      Move s t (s.goto t (.sendPut p m k))
  | sendTry {p m k} : s.pc t = .sendTry p m k → (∀ t, (s.pc t).holdsInt ≠ some p) →
      Move s t (s.goto t (.sendHand p m k))
  | sendBusy {p m k} : s.pc t = .sendTry p m k → (∃ t, (s.pc t).holdsInt = some p) →
      Move s t (s.goto t (.sendTest p m k))
  | sendBreak {p m k} : s.pc t = .sendHand p m k → (s.procs p).state ≠ .RECV_WAIT →
      Move s t (s.goto t (.sendPut p m k))
  | sendHand {p m k} : s.pc t = .sendHand p m k → (s.procs p).state = .RECV_WAIT →
      Move s t ((s.handOver p m).goto t k.pc)
  | sendPut {p m k} : s.pc t = .sendPut p m k →
      Move s t ((s.modify p fun x => { x with channel := x.channel ++ [m] }).goto t k.pc)
  -- `TimerSignal`
  | timerStale {pid o} : s.pc t = .timer pid o →
      (∀ p, s.nodeMap pid = some p → (s.procs p).tick ≠ o.tick) → Move s t (s.goto t .idle)
  | timerFind {pid o p} : s.pc t = .timer pid o → s.nodeMap pid = some p →
      (s.procs p).tick = o.tick → Move s t (s.goto t (.timerInt p o))
  | timerInt {p o} : s.pc t = .timerInt p o → (∀ t, (s.pc t).holdsInt ≠ some p) →
      Move s t (s.goto t (.timerLock p o))
  | timerIntBusy {p o} : s.pc t = .timerInt p o → (∃ t, (s.pc t).holdsInt = some p) →
      Move s t (s.goto t .idle)
  | timerLock {p o} : s.pc t = .timerLock p o → (∀ t, (s.pc t).holdsLock ≠ some p) →
      Move s t (s.goto t (.timerBody p o))
  | timerLockBusy {p o} : s.pc t = .timerLock p o → (∃ t, (s.pc t).holdsLock = some p) →
      Move s t (s.goto t .idle)
  | timerVoid {p o} : s.pc t = .timerBody p o →
      ¬((s.procs p).tick = o.tick ∧ (s.procs p).state.waits) → Move s t (s.goto t .idle)
  | timerBody {p o} : s.pc t = .timerBody p o → (s.procs p).tick = o.tick →
      (s.procs p).state.waits →
      Move s t (((s.wake p []).record fun h =>
        { h with timed := ⟨o, s.current p⟩ :: h.timed }).goto t .idle)
  -- `ResponseEx`
  | answerStale {pid k vs} : s.pc t = .answer pid k vs →
      (∀ p, s.nodeMap pid = some p → (s.procs p).tick ≠ k) →
      Move s t ((s.record (·.reply k false none)).goto t .idle)
  | answerFind {pid k vs p} : s.pc t = .answer pid k vs → s.nodeMap pid = some p →
      (s.procs p).tick = k → Move s t (s.goto t (.answerInt p k vs))
  | answerInt {p k vs} : s.pc t = .answerInt p k vs → (∀ t, (s.pc t).holdsInt ≠ some p) →
      Move s t (s.goto t (.answerLock p k vs))
  | answerLock {p k vs} : s.pc t = .answerLock p k vs → (∀ t, (s.pc t).holdsLock ≠ some p) →
      Move s t (s.goto t (.answerBody p k vs))
  | answerVoid {p k vs} : s.pc t = .answerBody p k vs → ¬(s.procs p).state.waits →
      Move s t ((s.record (·.reply k false none)).goto t .idle)
  | answerBody {p k vs} : s.pc t = .answerBody p k vs → (s.procs p).state.waits →
      Move s t (((s.wake p vs).record (·.reply k true (some (s.current p)))).goto t .idle)
  -- `Response`
  | respNone {pid vs b o} : s.pc t = .resp pid vs b o → s.nodeMap pid = none →
      Move s t (s.goto t .idle)
  | respFind {pid vs b o p} : s.pc t = .resp pid vs b o → s.nodeMap pid = some p →
      Move s t (s.goto t (.respInt p vs b o))
  | respInt {p vs b o} : s.pc t = .respInt p vs b o → (∀ t, (s.pc t).holdsInt ≠ some p) →
      Move s t (s.goto t (.respBody p vs b o))
  | respVoid {p vs b o} : s.pc t = .respBody p vs b o → ¬(s.procs p).state.waits →
      Move s t (s.goto t .idle)
  | respBody {p vs b o} : s.pc t = .respBody p vs b o → (s.procs p).state.waits →
      Move s t (((s.wake p vs).record fun h =>
        { h with responded := (b, ⟨o, s.current p⟩) :: h.responded }).goto t .idle)
  -- `Destory`
  | destroyNone {pid node} : s.pc t = .destroy pid node → s.nodeMap pid = none →
      Move s t (s.goto t .idle)
  | destroyFind {pid node p} : s.pc t = .destroy pid node → s.nodeMap pid = some p →
      Move s t (s.goto t (.destroyTest p pid node))
  | destroyTest {p pid node} : s.pc t = .destroyTest p pid node → (s.procs p).state.mortal →
      Move s t ((s.record fun h => { h with exits := p :: h.exits }).goto t
        (.send (s.procs p).parentId (.exit (s.procs p).id) (.delete p pid node)))
  | destroyMark {p pid node} : s.pc t = .destroyTest p pid node → ¬(s.procs p).state.mortal →
      Move s t ((s.modify p ({ · with killed := true })).goto t .idle)
  | delete {p pid node} : s.pc t = .delete p pid node → (∀ t, (s.pc t).reads = none) →
      (∀ t, (s.pc t).holdsInt ≠ some p) → Move s t ((s.remove p pid).goto t .idle)
  -- `Spawn`
  | spawnThrow {id parentId} : s.pc t = .spawn id parentId → Move s t (s.goto t .idle)
  | spawn {id parentId pid nodeId} : s.pc t = .spawn id parentId → (∀ t, (s.pc t).reads = none) →
      s.choosePid id = some (pid, nodeId) →
      Move s t ((s.createNode pid nodeId parentId).goto t (.spawnEntry s.next))
  | spawnFail {p} : s.pc t = .spawnEntry p → Move s t (s.goto t .idle)
  | spawnStart {p} : s.pc t = .spawnEntry p → Move s t ((s.putTask p).goto t .idle)
  -- `Processor::Run`
  | resume {p} : s.pc t = .got p → (∀ t, (s.pc t).holdsInt ≠ some p) →
      Move s t ((s.resume p).goto t (.run p))
  | runRecv {p} (b) : s.pc t = .run p → Move s t (s.goto t (.recvLock p b))
  | runInt {p} : s.pc t = .run p → Move s t ((s.setState p .GLR_CALL).goto t (.int p))
  | runYield {p} : s.pc t = .run p → Move s t (s.goto t (.leave p))
  | runStop {p} : s.pc t = .run p → Move s t (s.goto t (.stop p))
  | recvLock {p b} : s.pc t = .recvLock p b → (∀ t, (s.pc t).holdsLock ≠ some p) →
      Move s t (s.goto t (.recvTest p b))
  | recvWait {p b} : s.pc t = .recvTest p b → (s.procs p).channel = [] →
      Move s t ((setTimeOut (s.setState p .RECV_WAIT) p b).goto t (.leave p))
  | recvFull {p b} : s.pc t = .recvTest p b → (s.procs p).channel ≠ [] →
      Move s t (s.goto t (.recvGet p))
  | recvNone {p} : s.pc t = .recvGet p → (s.procs p).channel = [] → Move s t (s.goto t (.run p))
  | recvGet {p m rest} : s.pc t = .recvGet p → (s.procs p).channel = m :: rest →
      Move s t (((s.modify p ({ · with channel := rest })).record (·.receive p [m])).goto t (.run p))
  | int {p} (d b) : s.pc t = .int p → Move s t ((serve s p d).goto t (.intDone p b))
  | intReturn {p b} : s.pc t = .intDone p b → (s.procs p).state = .INT_RESP →
      Move s t (s.goto t (.run p))
  | intLeave {p b} : s.pc t = .intDone p b → (s.procs p).state ≠ .INT_RESP →
      Move s t ((setTimeOut s p b).goto t (.leave p))
  | leaveKilled {p} : s.pc t = .leave p → (s.procs p).killed →
      Move s t ((s.setState p .KILLED).goto t (.destroy (s.procs p).id (some p)))
  | leaveWait {p} : s.pc t = .leave p → ¬(s.procs p).killed → (s.procs p).state.waits →
      Move s t (s.goto t (.test p (s.procs p).tick))
  | leaveYield {p} : s.pc t = .leave p → ¬(s.procs p).killed → ¬(s.procs p).state.waits →
      Move s t ((s.setState p .YIELD).goto t (.test p (s.procs p).tick))
  | stop {p} (st) : s.pc t = .stop p → st = .KILLED ∨ st = .STOPED →
      Move s t ((s.setState p st).goto t (.destroy (s.procs p).id (some p)))
  | testYield {p k} : s.pc t = .test p k → (s.procs p).state = .YIELD → Move s t (s.goto t (.put p))
  | testOther {p k} : s.pc t = .test p k → (s.procs p).state ≠ .YIELD → Move s t (s.goto t .idle)
  | put {p} : s.pc t = .put p → Move s t ((s.putTask p).goto t .idle)

def Action.thread : Action n → Fin n
  | .call t _ | .fire t _ | .complete t _ _ | .accept t _ _ | .run t _ => t

variable {s s' : State n} {t : Fin n}

theorem stepSend_cases {q : Pc} (hq : s.pc t = q) (h : stepSend s t q = some s') :
    Move s t s' := by
  cases q with
  | send pid m k =>
    simp only [stepSend] at h
    split at h <;> obtain rfl := Option.some.inj h
    · exact .sendNone hq ‹_›
    · exact .sendSome hq ‹_›
  | sendLock p m k =>
    simp only [stepSend, State.lockFree, decide_eq_true_eq] at h
    split at h
    · obtain rfl := Option.some.inj h
      exact .sendLock hq ‹_›
    · cases h
  | sendTest p m k =>
    simp only [stepSend] at h
    split at h <;> obtain rfl := Option.some.inj h
    · next hc => exact .sendTestTry hq hc.1 hc.2
    · exact .sendTestPut hq ‹_›
  | sendTry p m k =>
    simp only [stepSend, State.intFree, decide_eq_true_eq] at h
    split at h <;> obtain rfl := Option.some.inj h
    · exact .sendTry hq ‹_›
    · exact .sendBusy hq (by simp_all)
  | sendHand p m k =>
    simp only [stepSend, ne_eq, ite_not] at h
    split at h <;> obtain rfl := Option.some.inj h
    · exact .sendHand hq ‹_›
    · exact .sendBreak hq ‹_›
  | sendPut p m k =>
    obtain rfl := Option.some.inj h
    exact .sendPut hq
  | _ => cases h

theorem stepTimer_cases {q : Pc} (hq : s.pc t = q) (h : stepTimer s t q = some s') :
    Move s t s' := by
  cases q with
  | timer pid o =>
    simp only [stepTimer, ne_eq, ite_not] at h
    split at h
    · obtain rfl := Option.some.inj h
      exact .timerStale hq (by simp_all)
    · split at h <;> obtain rfl := Option.some.inj h
      · exact .timerFind hq ‹_› ‹_›
      · exact .timerStale hq (by simp_all)
  | timerInt p o =>
    simp only [stepTimer, State.intFree, decide_eq_true_eq] at h
    split at h <;> obtain rfl := Option.some.inj h
    · exact .timerInt hq ‹_›
    · exact .timerIntBusy hq (by simp_all)
  | timerLock p o =>
    simp only [stepTimer, State.lockFree, decide_eq_true_eq] at h
    split at h <;> obtain rfl := Option.some.inj h
    · exact .timerLock hq ‹_›
    · exact .timerLockBusy hq (by simp_all)
  | timerBody p o =>
    simp only [stepTimer, ne_eq, ite_not] at h
    split at h
    · split at h <;> obtain rfl := Option.some.inj h
      · exact .timerBody hq ‹_› ‹_›
      · exact .timerVoid hq (by simp_all)
    · obtain rfl := Option.some.inj h
      exact .timerVoid hq (by simp_all)
  | _ => cases h

theorem stepAnswer_cases {q : Pc} (hq : s.pc t = q) (h : stepAnswer s t q = some s') :
    Move s t s' := by
  cases q with
  | answer pid k vs =>
    simp only [stepAnswer, ne_eq, ite_not] at h
    split at h
    · obtain rfl := Option.some.inj h
      exact .answerStale hq (by simp_all)
    · split at h <;> obtain rfl := Option.some.inj h
      · exact .answerFind hq ‹_› ‹_›
      · exact .answerStale hq (by simp_all)
  | answerInt p k vs =>
    simp only [stepAnswer, State.intFree, decide_eq_true_eq] at h
    split at h
    · obtain rfl := Option.some.inj h
      exact .answerInt hq ‹_›
    · cases h
  | answerLock p k vs =>
    simp only [stepAnswer, State.lockFree, decide_eq_true_eq] at h
    split at h
    · obtain rfl := Option.some.inj h
      exact .answerLock hq ‹_›
    · cases h
  | answerBody p k vs =>
    simp only [stepAnswer] at h
    split at h <;> obtain rfl := Option.some.inj h
    · exact .answerBody hq ‹_›
    · exact .answerVoid hq ‹_›
  | _ => cases h

theorem stepResp_cases {q : Pc} (hq : s.pc t = q) (h : stepResp s t q = some s') :
    Move s t s' := by
  cases q with
  | resp pid vs b o =>
    simp only [stepResp] at h
    split at h <;> obtain rfl := Option.some.inj h
    · exact .respNone hq ‹_›
    · exact .respFind hq ‹_›
  | respInt p vs b o =>
    simp only [stepResp, State.intFree, decide_eq_true_eq] at h
    split at h
    · obtain rfl := Option.some.inj h
      exact .respInt hq ‹_›
    · cases h
  | respBody p vs b o =>
    simp only [stepResp] at h
    split at h <;> obtain rfl := Option.some.inj h
    · exact .respBody hq ‹_›
    · exact .respVoid hq ‹_›
  | _ => cases h

theorem stepDestroy_cases {q : Pc} (hq : s.pc t = q) (h : stepDestroy s t q = some s') :
    Move s t s' := by
  cases q with
  | destroy pid node =>
    simp only [stepDestroy] at h
    split at h <;> obtain rfl := Option.some.inj h
    · exact .destroyNone hq ‹_›
    · exact .destroyFind hq ‹_›
  | destroyTest p pid node =>
    simp only [stepDestroy] at h
    split at h <;> obtain rfl := Option.some.inj h
    · exact .destroyTest hq ‹_›
    · exact .destroyMark hq ‹_›
  | delete p pid node =>
    simp only [stepDestroy, State.mapFree, State.intFree, decide_eq_true_eq] at h
    split at h
    · next hfree =>
      obtain rfl := Option.some.inj h
      exact .delete hq hfree.1 hfree.2
    · cases h
  | _ => cases h

theorem stepSpawn_cases {q : Pc} {x : Choice} (hq : s.pc t = q)
    (h : stepSpawn s t x q = some s') : Move s t s' := by
  cases q with
  | spawn id parentId =>
    simp only [stepSpawn, State.mapFree, decide_eq_true_eq] at h
    split at h
    · split at h <;> obtain rfl := Option.some.inj h
      · exact .spawnThrow hq
      · exact .spawn hq ‹_› ‹_›
    · cases h
  | spawnEntry p =>
    simp only [stepSpawn] at h
    split at h <;> obtain rfl := Option.some.inj h
    · exact .spawnFail hq
    · exact .spawnStart hq
  | _ => cases h

theorem stepWorker_cases {q : Pc} {x : Choice} (hq : s.pc t = q)
    (h : stepWorker s t x q = some s') : Move s t s' := by
  cases q with
  | got p =>
    simp only [stepWorker, State.intFree, decide_eq_true_eq] at h
    split at h
    · obtain rfl := Option.some.inj h
      exact .resume hq ‹_›
    · cases h
  | run p =>
    cases x <;> simp only [stepWorker] at h <;> cases h
    · exact .runRecv _ hq
    · exact .runInt hq
    · exact .runYield hq
    · exact .runStop hq
  | recvLock p b =>
    simp only [stepWorker, State.lockFree, decide_eq_true_eq] at h
    split at h
    · obtain rfl := Option.some.inj h
      exact .recvLock hq ‹_›
    · cases h
  | recvTest p b =>
    simp only [stepWorker] at h
    split at h <;> obtain rfl := Option.some.inj h
    · exact .recvWait hq ‹_›
    · exact .recvFull hq ‹_›
  | recvGet p =>
    simp only [stepWorker] at h
    split at h <;> obtain rfl := Option.some.inj h
    · exact .recvNone hq ‹_›
    · exact .recvGet hq ‹_›
  | int p =>
    cases x <;> simp only [stepWorker] at h <;> cases h
    exact .int _ _ hq
  | intDone p b =>
    simp only [stepWorker] at h
    split at h <;> obtain rfl := Option.some.inj h
    · exact .intReturn hq ‹_›
    · exact .intLeave hq ‹_›
  | leave p =>
    simp only [stepWorker] at h
    split at h
    · obtain rfl := Option.some.inj h
      exact .leaveKilled hq ‹_›
    · split at h <;> obtain rfl := Option.some.inj h
      · exact .leaveWait hq ‹_› ‹_›
      · exact .leaveYield hq ‹_› ‹_›
  | stop p =>
    obtain rfl := Option.some.inj h
    exact .stop _ hq (by split <;> simp)
  | test p k =>
    simp only [stepWorker] at h
    split at h <;> obtain rfl := Option.some.inj h
    · exact .testYield hq ‹_›
    · exact .testOther hq ‹_›
  | put p =>
    obtain rfl := Option.some.inj h
    exact .put hq
  | _ => cases h

theorem stepRun_cases {x : Choice} (h : stepRun s t x = some s') : Move s t s' := by
  unfold stepRun at h
  split at h
  · cases h
  all_goals
    first
    | exact stepSend_cases rfl h
    | exact stepTimer_cases rfl h
    | exact stepAnswer_cases rfl h
    | exact stepResp_cases rfl h
    | exact stepDestroy_cases rfl h
    | exact stepSpawn_cases rfl h
    | exact stepWorker_cases rfl h

theorem startCall_cases {x : Call} (hidle : s.pc t = .idle) (h : startCall s t x = some s') :
    Move s t s' := by
  cases x with
  | get =>
    simp only [startCall] at h
    split at h
    · cases h
    · obtain rfl := Option.some.inj h
      exact .get hidle ‹_›
  | spawn id parentId =>
    simp only [startCall] at h
    split at h
    · next hid =>
      obtain rfl := Option.some.inj h
      exact .start _ hidle (by simpa [Pc.isStart] using hid)
    · cases h
  | _ =>
    obtain rfl := Option.some.inj h
    exact .start _ hidle rfl

theorem fire_cases {i : Nat} (hidle : s.pc t = .idle) (h : fire s t i = some s') :
    Move s t s' := by
  unfold fire at h
  split at h
  · cases h
  · next e he =>
    dsimp only at h
    split at h <;> obtain rfl := Option.some.inj h
    · exact .fireSleep hidle he ‹_›
    · exact .fireSignal hidle he ‹_›
    · exact .fireTimeout hidle he ‹_›

theorem idle_of (h : (s.pc t).isIdle) : s.pc t = .idle := by
  cases hq : s.pc t <;> simp_all [Pc.isIdle]

theorem step_cases {a : Action n} (h : step s a = some s') : Move s a.thread s' := by
  cases a with
  | call t x =>
    simp only [step] at h
    split at h
    · next hidle => exact startCall_cases (idle_of hidle) h
    · cases h
  | fire t i =>
    simp only [step] at h
    split at h
    · next hidle => exact fire_cases (idle_of hidle) h
    · cases h
  | complete t i vs =>
    simp only [step] at h
    split at h
    · next hidle =>
      obtain ⟨x, hx, rfl⟩ := Option.map_eq_some_iff.mp h
      exact .complete vs (idle_of hidle) hx
    · cases h
  | accept t i vs =>
    simp only [step] at h
    split at h
    · next hidle =>
      obtain ⟨x, hx, h⟩ := Option.bind_eq_some_iff.mp h
      split at h
      · obtain rfl := Option.some.inj h
        exact .accept vs (idle_of hidle) hx ‹_›
      · cases h
    · cases h
  | run t x => exact stepRun_cases h

-- ---------------------------------------------------------------------------
-- What a step does to one process
-- ---------------------------------------------------------------------------

def Pc.runs : Pc → Option Obj
  | .run p | .recvLock p _ | .recvTest p _ | .recvGet p | .int p | .intDone p _ | .leave p
  | .stop p => some p
  | _ => none

def Pc.wakes : Pc → Option Obj
  | .timerBody p _ | .answerBody p _ _ | .respBody p _ _ _ => some p
  | _ => none

/-- The ways in which a step of thread `t` can leave the process `p`. -/
inductive Change (s : State n) (t : Fin n) (p : Obj) : Process → Prop
  | same : Change s t p (s.procs p)
  | create (pid parentId) : p = s.next →
      Change s t p ⟨pid, parentId, .CREATED, 0, .none, false, []⟩
  | handOver {m k} : s.pc t = .sendHand p m k → (s.procs p).state = .RECV_WAIT →
      Change s t p { s.procs p with ret := .message m, state := .RECV_RETURN }
  | queue {m k} : s.pc t = .sendPut p m k →
      Change s t p { s.procs p with channel := (s.procs p).channel ++ [m] }
  | wake (vs) : (s.pc t).wakes = some p → (s.procs p).state.waits →
      Change s t p { s.procs p with ret := .values vs, state := .INT_RESP }
  | mark : Change s t p { s.procs p with killed := true }
  | resume : s.pc t = .got p → (∀ t, (s.pc t).holdsInt ≠ some p) →
      Change s t p
        { s.procs p with state := .RUNNING, tick := (s.procs p).tick + 1, ret := .none }
  | recvWait {b} : s.pc t = .recvTest p b → (s.procs p).channel = [] →
      Change s t p { s.procs p with state := .RECV_WAIT }
  | suspend : s.pc t = .int p → Change s t p { s.procs p with state := .INT_WAIT }
  | receive {m rest} : s.pc t = .recvGet p → (s.procs p).channel = m :: rest →
      Change s t p { s.procs p with channel := rest }
  | yield : s.pc t = .leave p → ¬(s.procs p).state.waits →
      Change s t p { s.procs p with state := .YIELD }
  | run (st : PState) : (s.pc t).runs = some p → st.waits = false → st ≠ .YIELD → st ≠ .CREATED →
      Change s t p { s.procs p with state := st }

theorem change_move (hm : Move s t s') (p : Obj) : Change s t p (s'.procs p) := by
  -- a step that changes the process `p'` leaves the others as they are
  have hother : ∀ (p' : Obj) (x : Process), (p = p' → Change s t p x) →
      Change s t p (Function.update s.procs p' x p) := by
    intro p' x hx
    rcases eq_or_ne p p' with rfl | hp
    · rw [Function.update_self]
      exact hx rfl
    · rw [Function.update_of_ne hp]
      exact .same
  cases hm
  case sendHand hpc hst => exact hother _ _ fun hp => by subst hp; exact .handOver hpc hst
  case sendPut hpc => exact hother _ _ fun hp => by subst hp; exact .queue hpc
  case timerBody hpc _ hst =>
    exact hother _ _ fun hp => by subst hp; exact .wake [] (by rw [hpc]; rfl) hst
  case answerBody hpc hst =>
    exact hother _ _ fun hp => by subst hp; exact .wake _ (by rw [hpc]; rfl) hst
  case respBody hpc hst =>
    exact hother _ _ fun hp => by subst hp; exact .wake _ (by rw [hpc]; rfl) hst
  case destroyMark hpc _ => exact hother _ _ fun hp => by subst hp; exact .mark
  case spawn => exact hother _ _ fun hp => .create _ _ hp
  case resume hpc hfree => exact hother _ _ fun hp => by subst hp; exact .resume hpc hfree
  case runInt hpc =>
    exact hother _ _ fun hp => by
      subst hp
      exact .run .GLR_CALL (by rw [hpc]; rfl) rfl (by simp) (by simp)
  case recvWait hpc hch => exact hother _ _ fun hp => by subst hp; exact .recvWait hpc hch
  case recvGet hpc hch => exact hother _ _ fun hp => by subst hp; exact .receive hpc hch
  case int d b hpc =>
    refine hother _ _ fun hp => ?_
    subst hp
    cases d
    case signal | ignore => exact .same
    case reply | acceptPoll => exact .run .INT_RESP (by rw [hpc]; rfl) rfl (by simp) (by simp)
    all_goals exact .suspend hpc
  case leaveKilled hpc _ =>
    exact hother _ _ fun hp => by
      subst hp
      exact .run .KILLED (by rw [hpc]; rfl) rfl (by simp) (by simp)
  case leaveYield hpc _ hst => exact hother _ _ fun hp => by subst hp; exact .yield hpc hst
  case stop st hpc hst =>
    refine hother _ _ fun hp => ?_
    subst hp
    refine .run st (by rw [hpc]; rfl) ?_ ?_ ?_ <;> rcases hst with rfl | rfl <;> simp [PState.waits]
  all_goals exact .same

-- ---------------------------------------------------------------------------
-- What a step does to the positions
-- ---------------------------------------------------------------------------

theorem pc_move_of_ne (hm : Move s t s') {t' : Fin n} (h : t' ≠ t) : s'.pc t' = s.pc t' := by
  cases hm <;> exact Function.update_of_ne h _ _

/-- A position of `s'` is the one that thread `t` moved to, or an old one. -/
theorem update_cases {α : Type*} {f : Pc → α} {x : α} {q : Pc} {t' : Fin n}
    (h : f (Function.update s.pc t q t') = x) : t' = t ∧ f q = x ∨ t' ≠ t ∧ f (s.pc t') = x := by
  rcases eq_or_ne t' t with rfl | ht
  · exact .inl ⟨rfl, by simpa using h⟩
  · exact .inr ⟨ht, by simpa [ht] using h⟩

end GalaLua.GLR
