import GalaLua.Controllers.Stacks
import GalaLua.Library.Transition
import Mathlib.Data.Fintype.Basic

/-!
# Controllers and their poll worker

`n` threads run the calls of a controller, one worker thread polls the
selector and runs the handlers of the links. The model is one for
`SocketController`, whose callers share the read lock of the link map, and for
`BusController`, whose callers exclude each other; in both the worker removes
a link under the lock that excludes all of them. The queues have their own
locks, held for one operation, and the selector has its own.
-/

namespace GalaLua.Controllers

inductive Controller
  | socket
  | bus
  deriving DecidableEq, Repr

structure Link where
  stamp : Nat
  stack : Stack
  deriving DecidableEq, Repr

/-- `LinkStack::GetRealFd`. -/
def realFd (fd : Nat) : Fd := fd % 0x10000

def Link.checkDummyFd (l : Link) (fd : Nat) : Bool := fd / 0x10000 % 0x10000 == l.stamp

/-- The stamp of the constructor of `LinkStack`. -/
def stampOf (time : Nat) : Nat := time % 0x10000

/-- The calls on a link: `fd` is the handle of the process, and for a bus what
the router has for the node. -/
inductive Call
  | recv (pid fd len tick : Nat)
  | recvLine (pid fd tick : Nat)
  | send (pid fd : Nat) (buf : List UInt8)
  | accept (pid fd tick : Nat)
  | close (pid fd : Nat)
  | poll (pid fd : Nat)
  | acceptPoll (pid fd : Nat)
  | nodeSend (fd : Fd) (head msg : List UInt8)
  deriving DecidableEq, Repr

namespace Call

def controller : Call → Controller
  | .nodeSend .. => .bus
  | _ => .socket

def fd : Call → Fd
  | .recv _ fd _ _ | .recvLine _ fd _ | .send _ fd _ | .accept _ fd _ | .close _ fd | .poll _ fd
  | .acceptPoll _ fd => realFd fd
  | .nodeSend fd _ _ => fd

/-- The link in the map is the one the handle was made for. -/
def valid (l : Link) : Call → Bool
  | .recv _ fd _ _ | .recvLine _ fd _ | .send _ fd _ | .accept _ fd _ | .close _ fd | .poll _ fd
  | .acceptPoll _ fd => l.checkDummyFd fd
  | .nodeSend .. => true

/-- What `FastRecvReturn` takes from the cache. -/
def want : Call → List UInt8 → Option Nat
  | .recv _ _ len _ => StreamLinkStack.enough len
  | .recvLine .. => getLine
  | _ => fun _ => none

/-- The task is put: the stack and the event to register, or nothing when the
operation is not supported. -/
def put : Call → Stack → Option (Stack × Ev)
  | .recv pid _ len tick, .stream ls => some (.stream (ls.putRecvTask pid len tick), .evIn)
  | .recvLine pid _ tick, .stream ls => some (.stream (ls.putRecvLineTask pid tick), .evIn)
  | .send pid _ buf, .stream ls => some (.stream (ls.putSendTask pid buf), .evOut)
  | .accept pid _ tick, .server ls => some (.server (ls.putAcceptTask pid tick), .evIn)
  | .poll pid _, .stream ls => some (.stream (ls.putPollTask pid), .evIn)
  | .acceptPoll pid _, .server ls => some (.server (ls.putAcceptPollTask pid), .evIn)
  | .nodeSend _ head msg, .message ms => some (.message (ms.putSendTask head msg), .evOut)
  | _, _ => none

end Call

/-- Where a caller stands. From `fast` to `register` it holds the lock of the
map, at `eat` also the `_Lock` of the link. -/
inductive Pc
  | idle
  | lookup (c : Call)
  /-- at the first test of `FastRecvReturn` -/
  | fast (c : Call)
  /-- at `CQEmptyGuard` -/
  | eat (c : Call)
  | put (c : Call)
  | register (fd : Fd) (ev : Ev)
  /-- a link to a node is in the map, not yet in the selector -/
  | opened (fd : Fd)
  deriving DecidableEq, Repr

def Pc.holdsMap : Pc → Bool
  | .fast _ | .eat _ | .put _ | .register _ _ => true
  | .idle | .lookup _ | .opened _ => false

def Pc.holdsLink : Pc → Option Fd
  | .eat c => some c.fd
  | _ => none

/-- After the lookup. `DoSend` of nothing returns; `DoClose` shuts the socket
down and has only an event to register. -/
def Call.start : Call → Pc
  | .recv pid fd len tick => .fast (.recv pid fd len tick)
  | .recvLine pid fd tick => .fast (.recvLine pid fd tick)
  | .send pid fd buf => if buf = [] then .idle else .put (.send pid fd buf)
  | .close _ fd => .register (realFd fd) .evErr
  | c => .put c

/-- The link whose `_Lock` the worker holds. -/
def Handler.holdsLink : Handler → Option Fd
  | .receiving fd | .response fd | .recvLast fd | .recvRemove fd => some fd
  | _ => none

/-- `snapshot` is the copy of the slots that `WaitEvent` polls, `pending` the
events it returned that have not been handled. -/
structure State (n : Nat) where
  links : Fd → Option Link
  selector : Selector
  callers : Fin n → Pc
  worker : Handler
  snapshot : Option Selector
  pending : List (Fd × Ev)

variable {n : Nat}

namespace State

def init (pipe : Fd) (capacity : Nat) : State n where
  links _ := none
  selector := .new pipe capacity
  callers _ := .idle
  worker := .idle
  snapshot := none
  pending := []

@[simp] def goto (s : State n) (i : Fin n) (p : Pc) : State n :=
  { s with callers := Function.update s.callers i p }

@[simp] def setLink (s : State n) (fd : Fd) (l : Option Link) : State n :=
  { s with links := Function.update s.links fd l }

/-- The stack and the position that a turn of a handler leaves. -/
@[simp] def turn (s : State n) (fd : Fd) (l : Link) (r : Stack × Handler) : State n :=
  { s.setLink fd (some { l with stack := r.1 }) with worker := r.2 }

/-- The lock of the map can be taken for writing. -/
def mapFree (s : State n) : Bool := decide (∀ i, (s.callers i).holdsMap = false)

/-- No caller holds the `_Lock` of the link. -/
def linkFree (s : State n) (fd : Fd) : Bool := decide (∀ i, (s.callers i).holdsLink ≠ some fd)

/-- The kernel gives out `fd`: it belongs to no link and is not the pipe of the
selector. -/
def unused (s : State n) (fd : Fd) : Bool :=
  (s.links fd).isNone && decide ((s.selector.head?.bind (·.fd)) ≠ some fd)

-- ---------------------------------------------------------------------------
-- Callers
-- ---------------------------------------------------------------------------

/-- The common head of the calls: take the lock, find the link, check the
handle. -/
def lookup (k : Controller) (s : State n) (i : Fin n) (c : Call) : Option (State n) :=
  if k = .bus ∧ ¬ s.mapFree then none
  else
    match s.links c.fd with
    | none => some (s.goto i .idle)
    | some l => some (s.goto i (if c.valid l then c.start else .idle))

/-- `FastRecvReturn`; a server does not support it. -/
def fast (s : State n) (i : Fin n) (c : Call) : Option (State n) :=
  match s.links c.fd with
  | some ⟨_, .stream ls⟩ =>
    if s.linkFree c.fd ∧ s.worker.holdsLink ≠ some c.fd then
      some (s.goto i (if ls.recvTasks = [] then .eat c else .put c))
    else none
  | _ => some (s.goto i .idle)

/-- `CQEmptyGuard` throws if a task has come; otherwise the cache answers, or
the task is to be put. -/
def eat (s : State n) (i : Fin n) (c : Call) : Option (State n) :=
  match s.links c.fd with
  | some ⟨stamp, .stream ls⟩ =>
    if ls.recvTasks ≠ [] then some (s.goto i .idle)
    else
      match ls.fastRecvReturn c.want with
      | some ls' => some ((s.setLink c.fd (some ⟨stamp, .stream ls'⟩)).goto i .idle)
      | none => some (s.goto i (.put c))
  | _ => none

def put (s : State n) (i : Fin n) (c : Call) : Option (State n) :=
  match s.links c.fd with
  | none => none
  | some l =>
    match c.put l.stack with
    | some (st, ev) =>
      some ((s.setLink c.fd (some { l with stack := st })).goto i (.register c.fd ev))
    | none => some (s.goto i .idle)

def caller (k : Controller) (s : State n) (i : Fin n) : Option (State n) :=
  match s.callers i with
  | .idle => none
  | .lookup c => s.lookup k i c
  | .fast c => s.fast i c
  | .eat c => s.eat i c
  | .put c => s.put i c
  | .register fd ev => some ({ s with selector := s.selector.register fd ev }.goto i .idle)
  | .opened fd => some ({ s with selector := s.selector.register fd .evIn }.goto i .idle)

-- ---------------------------------------------------------------------------
-- The worker
-- ---------------------------------------------------------------------------

/-- The next event that `WaitEvent` returned: EV_IN goes before EV_OUT, and
what has no link is passed over. -/
def dispatch (s : State n) : Option (State n) :=
  match s.pending with
  | [] => none
  | (fd, ev) :: rest =>
    match s.links fd with
    | none => some { s with pending := rest }
    | some _ =>
      some { s with
        pending := rest
        worker :=
          match ev with
          | .evIn => .onRecv fd
          | .evOut => .onSend fd
          | .evErr => .onErr fd }

def join (s : State n) (recvfd : Fd) (l : Link) (h : Handler) : Option (State n) :=
  if s.unused recvfd then some { s.setLink recvfd (some l) with worker := h } else none

def onRecv (s : State n) (fd : Fd) (c : Choice) : Option (State n) :=
  match s.links fd with
  | none => none
  | some l =>
    match l.stack with
    | .stream ls =>
      if s.linkFree fd then
        some { s with worker := if ls.hanguped then .onErr fd else .receiving fd }
      else none
    | .server ls =>
      match ls.onRecv fd c, c.accept with
      | (_, .accepted fd recvfd), .fd _ time =>
        s.join recvfd ⟨stampOf time, .stream {}⟩ (.accepted fd recvfd)
      | (ls', h), _ => some (s.turn fd l (.server ls', h))
    | .message _ =>
      -- `Recv` and `OnMessage` return, or throw
      some { s with worker := match c.recv with | .data _ => .idle | _ => .onErr fd }
    | .messageServer =>
      match c.accept with
      | .fd recvfd _ => s.join recvfd ⟨0, .message {}⟩ (.joined recvfd)
      | _ => some { s with worker := .onErr fd }

/-- A turn of a handler that runs inside a stream link. -/
def inStream (s : State n) (fd : Fd) (f : StreamLinkStack → StreamLinkStack × Handler) :
    Option (State n) :=
  match s.links fd with
  | some ⟨stamp, .stream ls⟩ => some (s.turn fd ⟨stamp, .stream ls⟩ ((f ls).map .stream id))
  | _ => none

/-- The link of an accepted descriptor is looked up for its handle. -/
def serve (s : State n) (fd recvfd : Fd) (c : Choice) : Option (State n) :=
  match s.links fd, s.links recvfd with
  | some ⟨stamp, .server ls⟩, some _ =>
    some (s.turn fd ⟨stamp, .server ls⟩ (.server (ls.serve recvfd c.answered), .onRecv fd))
  | _, _ => none

def look (s : State n) (fd : Fd) (f : Stack → Handler) : Option (State n) :=
  (s.links fd).map fun l => { s with worker := f l.stack }

def work (s : State n) (c : Choice) : Option (State n) :=
  match s.worker with
  | .idle => s.dispatch
  | .onRecv fd => s.onRecv fd c
  | .receiving fd => s.inStream fd (·.onRecv fd c.recv)
  | .response fd => s.inStream fd (·.response fd c)
  | .accepted fd recvfd =>
    some { s with selector := s.selector.register recvfd .evErr, worker := .serve fd recvfd }
  | .serve fd recvfd => s.serve fd recvfd c
  | .recvLast fd => s.look fd (·.recvLast fd)
  | .recvRemove fd => some { s with selector := s.selector.remove fd .evIn, worker := .idle }
  | .joined recvfd =>
    some { s with selector := s.selector.register recvfd .evIn, worker := .idle }
  | .onSend fd => (s.links fd).map fun l => s.turn fd l (l.stack.onSend fd c.sent)
  | .sendLast fd => s.look fd (·.sendLast fd)
  | .sendRemove fd => some { s with selector := s.selector.remove fd .evOut, worker := .idle }
  | .onErr fd =>
    if s.mapFree then
      some { s.setLink fd none with selector := s.selector.removeFd fd, worker := .idle }
    else none

end State

-- ---------------------------------------------------------------------------
-- Steps
-- ---------------------------------------------------------------------------

/-- `poll` reports `ev` on a slot other than the pipe's. -/
def Selector.reports (m : Selector) (fd : Fd) (ev : Ev) : Bool :=
  m.tail.any fun i => decide (i.fd = some fd) && (decide (ev = .evErr) || i.events.has ev)

inductive Action (n : Nat)
  | call (i : Fin n) (c : Call)
  | caller (i : Fin n)
  /-- `DoServe`, `DoConn`: a socket gets its link -/
  | doServe (i : Fin n) (fd : Fd) (time : Nat)
  | doConn (i : Fin n) (fd : Fd) (time : Nat)
  /-- `DoNodeReg` and the node's own server -/
  | doNodeReg (i : Fin n) (fd : Fd)
  | serveNode (i : Fin n) (fd : Fd)
  /-- `WaitEvent` copies the slots, and returns -/
  | waitEvent
  | waited (evs : List (Fd × Ev))
  | work (c : Choice)
  deriving Repr

def State.openLink (s : State n) (i : Fin n) (fd : Fd) (l : Link) (p : Pc) : Option (State n) :=
  if s.callers i = .idle ∧ s.unused fd then some ((s.setLink fd (some l)).goto i p) else none

def step (k : Controller) (s : State n) : Action n → Option (State n)
  | .call i c =>
    if s.callers i = .idle ∧ c.controller = k then some (s.goto i (.lookup c)) else none
  | .caller i => s.caller k i
  | .doServe i fd time =>
    if k = .socket then s.openLink i fd ⟨stampOf time, .server {}⟩ .idle else none
  | .doConn i fd time =>
    if k = .socket then s.openLink i fd ⟨stampOf time, .stream {}⟩ .idle else none
  | .doNodeReg i fd =>
    if k = .bus then s.openLink i fd ⟨0, .message {}⟩ (.opened fd) else none
  | .serveNode i fd =>
    if k = .bus then s.openLink i fd ⟨0, .messageServer⟩ (.opened fd) else none
  | .waitEvent =>
    if s.worker = .idle ∧ s.pending = [] then some { s with snapshot := some s.selector }
    else none
  | .waited evs =>
    match s.snapshot with
    | none => none
    | some m =>
      if evs.all fun e => m.reports e.1 e.2 then
        some { s with snapshot := none, pending := evs }
      else none
  | .work c => s.work c

end GalaLua.Controllers
