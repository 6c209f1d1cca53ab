import GalaLua.Library.Transition
import Mathlib.Data.Fintype.Basic

/-!
# Processes, their scheduler and the bus

The part of the runtime that several threads work on at once: the process
table, the run queue, the mailboxes and the status words of the processes.
`n` threads run `Processor::Run`, `Process::SendMsg`, `Process::Destory`,
`Process::Spawn` and the completions of `Bus`, each at its own position `Pc`.
What a process does while a worker is inside `lua_resume` is chosen freely;
calls that Lua code makes on other processes are calls of another thread that
runs while the worker stands still.

A lock guard lives as long as the scope it is declared in, so a position says
which locks its thread holds, and a lock is free when no thread is at a
position that holds it. The write lock of the process table is held inside one
step. Objects are numbered in the order of their creation and never reused;
`nodeMap` is what `NodeMap` has at a pid.
-/

namespace GalaLua.GLR

abbrev Pid := Nat

abbrev Obj := Nat

/-- `ProcessStatus::STATE`. -/
inductive PState
  | CREATED | STOPED | RUNNING | YIELD | SUSPEND | RECV_WAIT | RECV_RETURN | INT_WAIT | INT_RESP
  | GLR_CALL | KILLED
  deriving DecidableEq, Repr

/-- The states in which a process waits for a completer. -/
def PState.waits : PState → Bool
  | .RECV_WAIT | .INT_WAIT => true
  | _ => false

/-- The states in which `Destory` deletes. -/
def PState.mortal : PState → Bool
  | .RECV_WAIT | .INT_WAIT | .STOPED | .KILLED => true
  | _ => false

inductive Msg
  | app (data : List UInt8)
  | exit (fromGpid : Pid)
  | timeoutSignal (pid : Pid)
  deriving DecidableEq, Repr

inductive Value
  | string (s : String)
  | number (i : Int)
  | nil
  | boolean (b : Bool)
  deriving DecidableEq, Repr

/-- The `_NArg` values pushed on the stack of a suspended process. -/
inductive Ret
  | none
  | message (m : Msg)
  | values (vs : List Value)
  deriving DecidableEq, Repr

def Ret.messages : Ret → List Msg
  | .message m => [m]
  | .none | .values _ => []

structure Process where
  id : Pid
  parentId : Pid
  state : PState
  tick : Nat
  ret : Ret
  killed : Bool
  channel : List Msg
  deriving Repr

/-- A suspended call: the object that made it and its `_Tick` then. -/
structure CallId where
  obj : Obj
  tick : Nat
  deriving DecidableEq, Repr

/-- What a clock event is for: `tick` -1, `tick` -2, or the tick of a call. -/
inductive ClockKind
  | sleep
  | signal
  | timeout
  deriving DecidableEq, Repr

structure ClockEvent where
  kind : ClockKind
  pid : Pid
  origin : CallId
  deriving DecidableEq, Repr

/-- The tasks of sockets that `Bus::Response` answers. -/
inductive TaskType
  | SEND
  | ACCEPT
  | ACCEPT_POLL
  deriving DecidableEq, Repr

structure Task where
  type : TaskType
  pid : Pid
  origin : CallId
  deriving DecidableEq, Repr

/-- What follows a `SendMsgToNode`: nothing, or the deletion in `Destory`. -/
inductive After
  | done
  | delete (p : Obj) (pid : Pid) (node : Option Obj)
  deriving DecidableEq, Repr

inductive Pc
  | idle
  -- `Process::SendMsgToNode`, `Process::SendMsg`
  | send (pid : Pid) (m : Msg) (k : After)
  | sendLock (p : Obj) (m : Msg) (k : After)
  | sendTest (p : Obj) (m : Msg) (k : After)
  | sendTry (p : Obj) (m : Msg) (k : After)
  | sendHand (p : Obj) (m : Msg) (k : After)
  | sendPut (p : Obj) (m : Msg) (k : After)
  -- `Bus::TimerSignal`
  | timer (pid : Pid) (origin : CallId)
  | timerInt (p : Obj) (origin : CallId)
  | timerLock (p : Obj) (origin : CallId)
  | timerBody (p : Obj) (origin : CallId)
  -- `Bus::ResponseEx`
  | answer (pid : Pid) (tick : Nat) (vs : List Value)
  | answerInt (p : Obj) (tick : Nat) (vs : List Value)
  | answerLock (p : Obj) (tick : Nat) (vs : List Value)
  | answerBody (p : Obj) (tick : Nat) (vs : List Value)
  -- `Bus::Response`
  | resp (pid : Pid) (vs : List Value) (poll : Bool) (origin : CallId)
  | respInt (p : Obj) (vs : List Value) (poll : Bool) (origin : CallId)
  | respBody (p : Obj) (vs : List Value) (poll : Bool) (origin : CallId)
  -- `Process::Destory`; `node` is what a worker got from the run queue
  | destroy (pid : Pid) (node : Option Obj)
  | destroyTest (p : Obj) (pid : Pid) (node : Option Obj)
  | delete (p : Obj) (pid : Pid) (node : Option Obj)
  -- `Process::Spawn`, `Process::SpawnEx`
  | spawn (id : Pid) (parentId : Pid)
  | spawnEntry (p : Obj)
  -- `Processor::Run`
  | got (p : Obj)
  | run (p : Obj)
  | recvLock (p : Obj) (timeout : Bool)
  | recvTest (p : Obj) (timeout : Bool)
  | recvGet (p : Obj)
  | int (p : Obj)
  | intDone (p : Obj) (timeout : Bool)
  | leave (p : Obj)
  | stop (p : Obj)
  | test (p : Obj) (tick : Nat)
  | put (p : Obj)

def Pc.isIdle : Pc → Bool
  | .idle => true
  | _ => false

/-- The process whose `_IntLock` a thread holds. -/
def Pc.holdsInt : Pc → Option Obj
  | .sendHand p _ _ | .timerLock p _ | .timerBody p _ | .answerLock p _ _ | .answerBody p _ _
  | .respBody p _ _ _ | .run p | .recvLock p _ | .recvTest p _ | .recvGet p | .int p
  | .intDone p _ | .leave p | .stop p => some p
  | _ => none

/-- The process whose `_Lock` a thread holds. -/
def Pc.holdsLock : Pc → Option Obj
  | .sendTest p _ _ | .sendTry p _ _ | .sendHand p _ _ | .sendPut p _ _ | .timerBody p _
  | .answerBody p _ _ | .recvTest p _ => some p
  | _ => none

/-- The process that a thread has looked up under the read lock of the table,
which it still holds. -/
def Pc.reads : Pc → Option Obj
  | .sendLock p _ _ | .sendTest p _ _ | .sendTry p _ _ | .sendHand p _ _ | .sendPut p _ _
  | .timerInt p _ | .timerLock p _ | .timerBody p _ | .answerInt p _ _ | .answerLock p _ _
  | .answerBody p _ _ | .respInt p _ _ _ | .respBody p _ _ _ | .recvLock p _ | .recvTest p _
  | .recvGet p => some p
  | _ => none

/-- An entry of the log of `Bus`: `p`, suspended with `now`, was resumed by an
answer meant for the call `origin`. -/
structure Answer where
  origin : CallId
  now : CallId
  deriving DecidableEq, Repr

/-- An entry of the log of `ResponseEx`: the tick it was called with, what it
returned, and the call that got its values. -/
structure Reply where
  tick : Nat
  result : Bool
  delivered : Option CallId
  deriving DecidableEq, Repr

/-- What happened so far. `acquired` lists the messages of a process in the
order in which their senders acquired `_Lock`, `received` what its receives
returned; `exits` has one entry for each EXIT message, `deleted` for each
deletion, `elegant` the table at each `ElegantExit`; `timed` has the answers of
`TimerSignal`, `answered` the calls of `ResponseEx` that have returned, and
`responded` the answers of `Response`, marked when the task was a poll, whose call
is not suspended; `consumed` has the clock events that `TimerSignal` was called
for. -/
structure History where
  acquired : Obj → List Msg
  received : Obj → List Msg
  exits : List Obj
  deleted : List Obj
  elegant : List (Pid → Option Obj)
  timed : List Answer
  answered : List Reply
  responded : List (Bool × Answer)
  consumed : List CallId

namespace History

def acquire (h : History) (p : Obj) (m : Msg) : History :=
  { h with acquired := Function.update h.acquired p (h.acquired p ++ [m]) }

def receive (h : History) (p : Obj) (ms : List Msg) : History :=
  { h with received := Function.update h.received p (h.received p ++ ms) }

def reply (h : History) (tick : Nat) (result : Bool) (delivered : Option CallId) : History :=
  { h with answered := ⟨tick, result, delivered⟩ :: h.answered }

end History

structure State (n : Nat) where
  procs : Obj → Process
  next : Obj
  nodeMap : Pid → Option Obj
  nodeId : Nat
  nodeCount : Int
  scheQueue : List Obj
  timers : List ClockEvent
  tasks : List Task
  pc : Fin n → Pc
  hist : History

def MAX_PROCESS_ID : Nat := 10240

def RESERVED_PID : Nat := 128

variable {n : Nat}

namespace State

@[simp] def goto (s : State n) (t : Fin n) (p : Pc) : State n :=
  { s with pc := Function.update s.pc t p }

@[simp] def modify (s : State n) (p : Obj) (f : Process → Process) : State n :=
  { s with procs := Function.update s.procs p (f (s.procs p)) }

@[simp] def setState (s : State n) (p : Obj) (st : PState) : State n :=
  s.modify p ({ · with state := st })

@[simp] def putTask (s : State n) (p : Obj) : State n :=
  { s with scheQueue := s.scheQueue ++ [p] }

@[simp] def record (s : State n) (f : History → History) : State n :=
  { s with hist := f s.hist }

def intFree (s : State n) (p : Obj) : Bool := decide (∀ t, (s.pc t).holdsInt ≠ some p)

def lockFree (s : State n) (p : Obj) : Bool := decide (∀ t, (s.pc t).holdsLock ≠ some p)

def mapFree (s : State n) : Bool := decide (∀ t, (s.pc t).reads = none)

/-- The suspended call of a process. -/
def current (s : State n) (p : Obj) : CallId := ⟨p, (s.procs p).tick⟩

-- ---------------------------------------------------------------------------
-- Process::CreateNode
-- ---------------------------------------------------------------------------

/-- The first free pid of `[a, b)`. -/
def searchFree (s : State n) (a b : Nat) : Option Pid :=
  (List.range' a (b - a)).find? fun i => (s.nodeMap i).isNone

/-- The pid and the `NodeId` from which `CreateNode(id)` makes a process, or
nothing if it throws. -/
def choosePid (s : State n) (id : Pid) : Option (Pid × Nat) :=
  if id ≠ 0 then
    if (s.nodeMap id).isSome then none else some (id, s.nodeId)
  else if s.nodeId < MAX_PROCESS_ID then some (s.nodeId, s.nodeId)
  else
    let wrapped := s.nodeId % MAX_PROCESS_ID
    let nodeId := if wrapped = 0 then s.nodeId + (RESERVED_PID + 1) else s.nodeId
    let current := if wrapped = 0 then RESERVED_PID + 1 else wrapped
    match s.searchFree current MAX_PROCESS_ID with
    | some i => some (i, nodeId)
    | none => (s.searchFree (RESERVED_PID + 1) current).map (·, nodeId)

/-- `++NodeId` of the constructor, which steps over the reserved pids. -/
def nextNodeId (nodeId : Nat) : Nat :=
  if nodeId + 1 = 1 then nodeId + 1 + RESERVED_PID else nodeId + 1

@[simp] def createNode (s : State n) (pid : Pid) (nodeId : Nat) (parentId : Pid) : State n :=
  { s with
    procs := Function.update s.procs s.next ⟨pid, parentId, .CREATED, 0, .none, false, []⟩
    next := s.next + 1
    nodeMap := Function.update s.nodeMap pid (some s.next)
    nodeId := nextNodeId nodeId
    nodeCount := s.nodeCount + 1 }

-- ---------------------------------------------------------------------------
-- Bodies of guarded sections
-- ---------------------------------------------------------------------------

/-- `SendMsg` to a process that waits in `Recieve`. -/
@[simp] def handOver (s : State n) (p : Obj) (m : Msg) : State n :=
  (s.modify p ({ · with ret := .message m, state := .RECV_RETURN })).putTask p

/-- A completer wakes a process with the values `vs`. -/
@[simp] def wake (s : State n) (p : Obj) (vs : List Value) : State n :=
  (s.modify p ({ · with ret := .values vs, state := .INT_RESP })).putTask p

/-- `Resume` up to `lua_resume`, which takes the values off the stack. -/
@[simp] def resume (s : State n) (p : Obj) : State n :=
  (s.modify p fun x => { x with state := .RUNNING, tick := x.tick + 1, ret := .none }).record
    (·.receive p (s.procs p).ret.messages)

/-- `NodeMap[pid] = NULL`, `delete p` and `NodeCount--`. -/
@[simp] def remove (s : State n) (p : Obj) (pid : Pid) : State n :=
  let nodeMap := Function.update s.nodeMap pid none
  { s with
    nodeMap := nodeMap
    nodeCount := s.nodeCount - 1
    hist := { s.hist with
      deleted := p :: s.hist.deleted
      elegant := if s.nodeCount - 1 = 0 then nodeMap :: s.hist.elegant else s.hist.elegant } }

end State

def After.pc : After → Pc
  | .done => .idle
  | .delete p pid node => .delete p pid node

-- ---------------------------------------------------------------------------
-- Steps
-- ---------------------------------------------------------------------------

/-- How a device serves an interrupt. -/
inductive Device
  /-- `Bus::Return` -/
  | reply (vs : List Value)
  /-- `IntSuspend`; the request keeps the tick -/
  | suspend
  /-- `Clock` with DO_TIMEOUT -/
  | sleep
  /-- `Clock` with DO_TIMEOUT_SIGNAL -/
  | signal
  /-- `SocketController::DoSend` -/
  | send
  /-- `SocketController::DoAccept` -/
  | accept
  /-- `SocketController::DoAcceptPoll`, which returns at once -/
  | acceptPoll
  /-- none of these -/
  | ignore
  deriving DecidableEq, Repr

/-- What is not decided by the shared state: what the Lua code of a process
does next, and whether the entry of a spawned process can be loaded. -/
inductive Choice
  | recv (timeout : Bool)
  | interrupt
  | device (d : Device) (timeout : Bool)
  | yield
  | stop
  | go
  | fail
  deriving DecidableEq, Repr

inductive Call
  | sendMsg (pid : Pid) (m : Msg)
  | responseEx (pid : Pid) (tick : Nat) (vs : List Value)
  | kill (pid : Pid)
  /-- `Spawn` with `id` 0, or `SpawnEx`, which throws outside its range -/
  | spawn (id : Pid) (parentId : Pid)
  /-- an iteration of `Processor::Run` -/
  | get
  deriving DecidableEq, Repr

inductive Action (n : Nat)
  | call (t : Fin n) (x : Call)
  /-- The clock takes its `i`-th event. -/
  | fire (t : Fin n) (i : Nat)
  /-- A socket finishes, or fails, its `i`-th task with `Bus::Response`. -/
  | complete (t : Fin n) (i : Nat) (vs : List Value)
  /-- A connection is given to the `i`-th task, an accept, by `ResponseEx`. -/
  | accept (t : Fin n) (i : Nat) (vs : List Value)
  | run (t : Fin n) (x : Choice)
  deriving Repr

def startCall (s : State n) (t : Fin n) : Call → Option (State n)
  | .sendMsg pid m => some (s.goto t (.send pid m .done))
  | .responseEx pid tick vs => some (s.goto t (.answer pid tick vs))
  | .kill pid => some (s.goto t (.destroy pid none))
  | .spawn id parentId =>
    if id < RESERVED_PID then some (s.goto t (.spawn id parentId)) else none
  | .get =>
    match s.scheQueue with
    | [] => none
    | p :: rest => some ({ s with scheQueue := rest }.goto t (.got p))

/-- The state in which a device leaves the process that called it. -/
def Device.state : Device → PState → PState
  | .reply _, _ | .acceptPoll, _ => .INT_RESP
  | .suspend, _ | .sleep, _ | .send, _ | .accept, _ => .INT_WAIT
  | .signal, st | .ignore, st => st

def Device.timers : Device → List ClockKind
  | .sleep => [.sleep]
  | .signal => [.signal]
  | _ => []

def Device.tasks : Device → List TaskType
  | .send => [.SEND]
  | .accept => [.ACCEPT]
  | .acceptPoll => [.ACCEPT_POLL]
  | _ => []

/-- The device's part of `Process::Interrupt`, on a worker inside `Resume`. -/
@[simp] def serve (s : State n) (p : Obj) (d : Device) : State n :=
  { s.modify p fun x => { x with state := d.state x.state } with
    timers := s.timers ++ d.timers.map fun kind => ⟨kind, (s.procs p).id, s.current p⟩
    tasks := s.tasks ++ d.tasks.map fun type => ⟨type, (s.procs p).id, s.current p⟩ }

/-- `Process::SetTimeOut`, if the call has a time-out. -/
@[simp] def setTimeOut (s : State n) (p : Obj) (timeout : Bool) : State n :=
  { s with
    timers := s.timers ++ if timeout then [⟨.timeout, (s.procs p).id, s.current p⟩] else [] }

def stepSend (s : State n) (t : Fin n) : Pc → Option (State n)
  | .send pid m k =>
    match s.nodeMap pid with
    | none => some (s.goto t k.pc)
    | some p => some (s.goto t (.sendLock p m k))
  | .sendLock p m k =>
    if s.lockFree p then
      some ((s.record (·.acquire p m)).goto t (.sendTest p m k))
    else none
  | .sendTest p m k =>
    if (s.procs p).channel = [] ∧ (s.procs p).state = .RECV_WAIT then some (s.goto t (.sendTry p m k))
    else some (s.goto t (.sendPut p m k))
  | .sendTry p m k =>
    if s.intFree p then some (s.goto t (.sendHand p m k)) else some (s.goto t (.sendTest p m k))
  | .sendHand p m k =>
    if (s.procs p).state ≠ .RECV_WAIT then some (s.goto t (.sendPut p m k))
    else some ((s.handOver p m).goto t k.pc)
  | .sendPut p m k =>
    some ((s.modify p fun x => { x with channel := x.channel ++ [m] }).goto t k.pc)
  | _ => none

def stepTimer (s : State n) (t : Fin n) : Pc → Option (State n)
  | .timer pid origin =>
    match s.nodeMap pid with
    | none => some (s.goto t .idle)
    | some p =>
      if (s.procs p).tick ≠ origin.tick then some (s.goto t .idle)
      else some (s.goto t (.timerInt p origin))
  | .timerInt p origin =>
    if s.intFree p then some (s.goto t (.timerLock p origin)) else some (s.goto t .idle)
  | .timerLock p origin =>
    if s.lockFree p then some (s.goto t (.timerBody p origin)) else some (s.goto t .idle)
  | .timerBody p origin =>
    if (s.procs p).tick ≠ origin.tick then some (s.goto t .idle)
    else if (s.procs p).state.waits then
      some (((s.wake p []).record fun h =>
        { h with timed := ⟨origin, s.current p⟩ :: h.timed }).goto t .idle)
    else some (s.goto t .idle)
  | _ => none

def stepAnswer (s : State n) (t : Fin n) : Pc → Option (State n)
  | .answer pid tick vs =>
    match s.nodeMap pid with
    | none => some ((s.record (·.reply tick false none)).goto t .idle)
    | some p =>
      if (s.procs p).tick ≠ tick then some ((s.record (·.reply tick false none)).goto t .idle)
      else some (s.goto t (.answerInt p tick vs))
  | .answerInt p tick vs =>
    if s.intFree p then some (s.goto t (.answerLock p tick vs)) else none
  | .answerLock p tick vs =>
    if s.lockFree p then some (s.goto t (.answerBody p tick vs)) else none
  | .answerBody p tick vs =>
    if (s.procs p).state.waits then
      some (((s.wake p vs).record (·.reply tick true (some (s.current p)))).goto t .idle)
    else some ((s.record (·.reply tick false none)).goto t .idle)
  | _ => none

def stepResp (s : State n) (t : Fin n) : Pc → Option (State n)
  | .resp pid vs poll origin =>
    match s.nodeMap pid with
    | none => some (s.goto t .idle)
    | some p => some (s.goto t (.respInt p vs poll origin))
  | .respInt p vs poll origin =>
    if s.intFree p then some (s.goto t (.respBody p vs poll origin)) else none
  | .respBody p vs poll origin =>
    if (s.procs p).state.waits then
      some (((s.wake p vs).record fun h =>
        { h with responded := (poll, ⟨origin, s.current p⟩) :: h.responded }).goto t .idle)
    else some (s.goto t .idle)
  | _ => none

def stepDestroy (s : State n) (t : Fin n) : Pc → Option (State n)
  | .destroy pid node =>
    match s.nodeMap pid with
    | none => some (s.goto t .idle)
    | some p => some (s.goto t (.destroyTest p pid node))
  | .destroyTest p pid node =>
    if (s.procs p).state.mortal then
      some ((s.record fun h => { h with exits := p :: h.exits }).goto t
        (.send (s.procs p).parentId (.exit (s.procs p).id) (.delete p pid node)))
    else some ((s.modify p ({ · with killed := true })).goto t .idle)
  | .delete p pid _ =>
    if s.mapFree ∧ s.intFree p then some ((s.remove p pid).goto t .idle) else none
  | _ => none

def stepSpawn (s : State n) (t : Fin n) (x : Choice) : Pc → Option (State n)
  | .spawn id parentId =>
    if s.mapFree then
      match s.choosePid id with
      | none => some (s.goto t .idle)
      | some (pid, nodeId) => some ((s.createNode pid nodeId parentId).goto t (.spawnEntry s.next))
    else none
  | .spawnEntry p =>
    match x with
    | .fail => some (s.goto t .idle)
    | _ => some ((s.putTask p).goto t .idle)
  | _ => none

def stepWorker (s : State n) (t : Fin n) (x : Choice) : Pc → Option (State n)
  | .got p => if s.intFree p then some ((s.resume p).goto t (.run p)) else none
  | .run p =>
    match x with
    | .recv timeout => some (s.goto t (.recvLock p timeout))
    | .interrupt => some ((s.setState p .GLR_CALL).goto t (.int p))
    | .yield => some (s.goto t (.leave p))
    | .stop => some (s.goto t (.stop p))
    | _ => none
  | .recvLock p timeout => if s.lockFree p then some (s.goto t (.recvTest p timeout)) else none
  | .recvTest p timeout =>
    if (s.procs p).channel = [] then
      some ((setTimeOut (s.setState p .RECV_WAIT) p timeout).goto t (.leave p))
    else some (s.goto t (.recvGet p))
  | .recvGet p =>
    match (s.procs p).channel with
    | [] => some (s.goto t (.run p))
    | m :: rest =>
      some (((s.modify p ({ · with channel := rest })).record (·.receive p [m])).goto t (.run p))
  | .int p =>
    match x with
    | .device d timeout => some ((serve s p d).goto t (.intDone p timeout))
    | _ => none
  | .intDone p timeout =>
    if (s.procs p).state = .INT_RESP then some (s.goto t (.run p))
    else some ((setTimeOut s p timeout).goto t (.leave p))
  | .leave p =>
    if (s.procs p).killed then
      some ((s.setState p .KILLED).goto t (.destroy (s.procs p).id (some p)))
    else if (s.procs p).state.waits then some (s.goto t (.test p (s.procs p).tick))
    else some ((s.setState p .YIELD).goto t (.test p (s.procs p).tick))
  | .stop p =>
    some ((s.setState p (if (s.procs p).killed then .KILLED else .STOPED)).goto t
      (.destroy (s.procs p).id (some p)))
  | .test p _ =>
    if (s.procs p).state = .YIELD then some (s.goto t (.put p)) else some (s.goto t .idle)
  | .put p => some ((s.putTask p).goto t .idle)
  | _ => none

def stepRun (s : State n) (t : Fin n) (x : Choice) : Option (State n) :=
  match s.pc t with
  | .idle => none
  | .send .. | .sendLock .. | .sendTest .. | .sendTry .. | .sendHand .. | .sendPut .. =>
    stepSend s t (s.pc t)
  | .timer .. | .timerInt .. | .timerLock .. | .timerBody .. => stepTimer s t (s.pc t)
  | .answer .. | .answerInt .. | .answerLock .. | .answerBody .. => stepAnswer s t (s.pc t)
  | .resp .. | .respInt .. | .respBody .. => stepResp s t (s.pc t)
  | .destroy .. | .destroyTest .. | .delete .. => stepDestroy s t (s.pc t)
  | .spawn .. | .spawnEntry .. => stepSpawn s t x (s.pc t)
  | .got .. | .run .. | .recvLock .. | .recvTest .. | .recvGet .. | .int .. | .intDone .. | .leave ..
  | .stop .. | .test .. | .put .. => stepWorker s t x (s.pc t)

def fire (s : State n) (t : Fin n) (i : Nat) : Option (State n) :=
  match s.timers[i]? with
  | none => none
  | some e =>
    let s := { s with timers := s.timers.eraseIdx i }
    match e.kind with
    | .sleep => some (s.goto t (.resp e.pid [] false e.origin))
    | .signal => some (s.goto t (.send e.pid (.timeoutSignal e.pid) .done))
    | .timeout =>
      some ((s.record fun h => { h with consumed := e.origin :: h.consumed }).goto t
        (.timer e.pid e.origin))

def step (s : State n) : Action n → Option (State n)
  | .call t x => if (s.pc t).isIdle then startCall s t x else none
  | .fire t i => if (s.pc t).isIdle then fire s t i else none
  | .complete t i vs =>
    if (s.pc t).isIdle then
      (s.tasks[i]?).map fun x =>
        { s with tasks := s.tasks.eraseIdx i }.goto t (.resp x.pid vs (decide (x.type = TaskType.ACCEPT_POLL)) x.origin)
    else none
  | .accept t i vs =>
    if (s.pc t).isIdle then
      (s.tasks[i]?).bind fun x =>
        if x.type = .ACCEPT then
          some ({ s with tasks := s.tasks.eraseIdx i }.goto t (.answer x.pid x.origin.tick vs))
        else none
    else none
  | .run t x => stepRun s t x

def State.init (n : Nat) : State n where
  procs := fun _ => ⟨0, 0, .CREATED, 0, .none, false, []⟩
  next := 0
  nodeMap := fun _ => none
  nodeId := 0
  nodeCount := 0
  scheQueue := []
  timers := []
  tasks := []
  pc := fun _ => .idle
  hist := ⟨fun _ => [], fun _ => [], [], [], [], [], [], [], []⟩

end GalaLua.GLR
