import GalaLua.Controllers.Selector

/-!
# Link stacks

The four kinds of links and what one turn of their handlers does to them. A
handler stands at a position `Handler` between its turns; a turn gives the
stack it leaves and the next position. Controller calls add tasks meanwhile.
What sockets and the bus answer is a `Choice`.
-/

namespace GalaLua.Controllers

inductive TaskType
  | ACCEPT | RECV | SEND | WEEP | RECV_LINE | POLL | ACCEPT_POLL
  deriving DecidableEq, Repr

structure Task where
  type : TaskType
  pid : Nat
  current : Nat := 0
  len : Nat := 0
  tick : Nat := 0
  buffer : List UInt8 := []
  deriving DecidableEq, Repr

/-- `cache` is what `TcpCache` has between `_Begin` and `_End`. -/
structure StreamLinkStack where
  sendTasks : List Task := []
  recvTasks : List Task := []
  cache : List UInt8 := []
  hanguped : Bool := false
  deriving DecidableEq, Repr

structure StreamServerStack where
  recvTasks : List Task := []
  onFlyFd : Option Fd := none
  deriving DecidableEq, Repr

/-- `MessageLinkStack::Task` of a message to send. -/
structure MessageTask where
  current : Nat := 0
  buffer : List UInt8 := []
  deriving DecidableEq, Repr

/-- The send side; receiving uses neither the queue nor the selector. -/
structure MessageLinkStack where
  sendTask : MessageTask := {}
  sendTaskQ : List MessageTask := []
  deriving DecidableEq, Repr

inductive Stack
  | stream (ls : StreamLinkStack)
  | server (ls : StreamServerStack)
  | message (ms : MessageLinkStack)
  | messageServer
  deriving DecidableEq, Repr

/-- The handlers of the poll worker that are in progress. -/
inductive Handler
  | idle
  /-- at `OnRecv`; for a server, at the test of its loop -/
  | onRecv (fd : Fd)
  /-- in the loop of `StreamLinkStack::OnRecv` -/
  | receiving (fd : Fd)
  /-- at the test of the loop of `Response` -/
  | response (fd : Fd)
  /-- a server has put `recvfd` into the map -/
  | accepted (fd recvfd : Fd)
  | serve (fd recvfd : Fd)
  /-- after the loop, at the last test of the receive queue -/
  | recvLast (fd : Fd)
  | recvRemove (fd : Fd)
  /-- `MessageServerStack::OnRecv` has put `recvfd` into the map -/
  | joined (recvfd : Fd)
  | onSend (fd : Fd)
  /-- a buffer has been sent, at the last test of the send queue -/
  | sendLast (fd : Fd)
  | sendRemove (fd : Fd)
  /-- at the lock of the map, to remove the link -/
  | onErr (fd : Fd)
  deriving DecidableEq, Repr

inductive Recv
  | data (bs : List UInt8)
  | wouldBlock
  | peerClose
  | fails
  deriving DecidableEq, Repr

inductive Accept
  /-- the new descriptor, and the time from which its link takes its stamp -/
  | fd (recvfd : Fd) (time : Nat)
  | wouldBlock
  | fails
  deriving DecidableEq, Repr

/-- What the sockets and the bus answer to a handler: `canceled` is the result
of `IsCanceled`, `answered` of `ResponseEx`; `sent` is what the socket has room
for, or nothing when `Send` throws. -/
structure Choice where
  recv : Recv := .wouldBlock
  accept : Accept := .wouldBlock
  sent : Option Nat := none
  canceled : Bool := false
  answered : Bool := true
  deriving DecidableEq, Repr

/-- `TcpCache::GetLine`, `none` for -1. -/
def getLine : List UInt8 → Option Nat
  | [] => none
  | b :: bs => if b = 10 then some 1 else (getLine bs).map (· + 1)

-- ---------------------------------------------------------------------------
-- StreamLinkStack
-- ---------------------------------------------------------------------------

namespace StreamLinkStack

def putRecvTask (ls : StreamLinkStack) (pid len tick : Nat) : StreamLinkStack :=
  { ls with recvTasks := ls.recvTasks ++ [{ type := .RECV, pid, len, tick }] }

def putRecvLineTask (ls : StreamLinkStack) (pid tick : Nat) : StreamLinkStack :=
  { ls with recvTasks := ls.recvTasks ++ [{ type := .RECV_LINE, pid, tick }] }

def putSendTask (ls : StreamLinkStack) (pid : Nat) (buffer : List UInt8) : StreamLinkStack :=
  { ls with sendTasks := ls.sendTasks ++ [{ type := .SEND, pid, buffer }] }

/-- With data in the cache the process is told at once and nothing is put. -/
def putPollTask (ls : StreamLinkStack) (pid : Nat) : StreamLinkStack :=
  if ls.cache ≠ [] then ls else { ls with recvTasks := ls.recvTasks ++ [{ type := .POLL, pid }] }

/-- `FastRecvReturn` behind its guards: the link after an answer from the
cache, which takes the length that `want` gives. -/
def fastRecvReturn (ls : StreamLinkStack) (want : List UInt8 → Option Nat) :
    Option StreamLinkStack :=
  (want ls.cache).map fun k => { ls with cache := ls.cache.drop k }

/-- One turn of the loop of `OnRecv`. -/
def onRecv (ls : StreamLinkStack) (fd : Fd) : Recv → StreamLinkStack × Handler
  | .data bs => ({ ls with cache := ls.cache ++ bs }, .receiving fd)
  | .wouldBlock => (ls, .response fd)
  | .peerClose =>
    ({ ls with hanguped := true }, if ls.cache = [] then .onErr fd else .response fd)
  | .fails => (ls, .onErr fd)

/-- `Response` to a RECV or RECV_LINE at the head, when the cache has `want`
bytes for it, or not yet. -/
def respond (ls : StreamLinkStack) (fd : Fd) (rest : List Task) (answered : Bool) :
    Option Nat → StreamLinkStack × Handler
  | some k =>
    if answered then ({ ls with recvTasks := rest, cache := ls.cache.drop k }, .response fd)
    else ({ ls with recvTasks := rest }, .response fd)
  | none => (ls, if ls.hanguped then .onErr fd else .recvLast fd)

/-- The bytes a RECV waits for. -/
def enough (len : Nat) (cache : List UInt8) : Option Nat :=
  if len ≤ cache.length then some len else none

/-- One turn of the loop of `Response`. -/
def response (ls : StreamLinkStack) (fd : Fd) (c : Choice) : StreamLinkStack × Handler :=
  match ls.recvTasks with
  | [] => (ls, .recvLast fd)
  | t :: rest =>
    if t.type ≠ .POLL ∧ c.canceled then ({ ls with recvTasks := rest }, .response fd)
    else
      match t.type with
      | .RECV => ls.respond fd rest c.answered (enough t.len ls.cache)
      | .RECV_LINE => ls.respond fd rest c.answered (getLine ls.cache)
      | .POLL =>
        if ls.cache ≠ [] then ({ ls with recvTasks := rest }, .response fd)
        else (ls, .response fd)
      | _ => (ls, .response fd)

def onSend (ls : StreamLinkStack) (fd : Fd) (sent : Option Nat) : StreamLinkStack × Handler :=
  match ls.sendTasks with
  | [] => (ls, .sendRemove fd)
  | t :: rest =>
    match sent with
    | none => (ls, .onErr fd)
    | some room =>
      let current := t.current + min room (t.buffer.length - t.current)
      if current = t.buffer.length then ({ ls with sendTasks := rest }, .sendLast fd)
      else ({ ls with sendTasks := { t with current } :: rest }, .idle)

end StreamLinkStack

-- ---------------------------------------------------------------------------
-- StreamServerStack
-- ---------------------------------------------------------------------------

namespace StreamServerStack

def putAcceptTask (ls : StreamServerStack) (pid tick : Nat) : StreamServerStack :=
  { ls with recvTasks := ls.recvTasks ++ [{ type := .ACCEPT, pid, tick }] }

def putAcceptPollTask (ls : StreamServerStack) (pid : Nat) : StreamServerStack :=
  { ls with recvTasks := ls.recvTasks ++ [{ type := .ACCEPT_POLL, pid }] }

/-- A turn of the loop of `OnRecv` up to the descriptor for the head. -/
def onRecv (ls : StreamServerStack) (fd : Fd) (c : Choice) : StreamServerStack × Handler :=
  match ls.recvTasks with
  | [] => (ls, .recvLast fd)
  | t :: rest =>
    if t.type ≠ .ACCEPT_POLL ∧ c.canceled then ({ ls with recvTasks := rest }, .onRecv fd)
    else
      match ls.onFlyFd with
      | some recvfd => ({ ls with onFlyFd := none }, .serve fd recvfd)
      | none =>
        match c.accept with
        | .fd recvfd _ => (ls, .accepted fd recvfd)
        | .wouldBlock => (ls, .recvLast fd)
        | .fails => (ls, .onErr fd)

/-- The rest of the turn: the head gets `recvfd`, or `recvfd` is kept for the
next task. -/
def serve (ls : StreamServerStack) (recvfd : Fd) (answered : Bool) : StreamServerStack :=
  match ls.recvTasks with
  | [] => ls
  | t :: rest =>
    if t.type = .ACCEPT_POLL ∨ answered then { ls with recvTasks := rest }
    else { ls with onFlyFd := some recvfd }

end StreamServerStack

-- ---------------------------------------------------------------------------
-- MessageLinkStack
-- ---------------------------------------------------------------------------

namespace MessageLinkStack

/-- `head` is the `GLRPROTOCOL` that `PutSendTask` fills in before the
message. -/
def putSendTask (ms : MessageLinkStack) (head msg : List UInt8) : MessageLinkStack :=
  { ms with sendTaskQ := ms.sendTaskQ ++ [{ buffer := head ++ msg }] }

/-- `Send` of the rest of the current buffer. -/
def send (ms : MessageLinkStack) (fd : Fd) : Option Nat → MessageLinkStack × Handler
  | none => (ms, .onErr fd)
  | some room =>
    let current :=
      ms.sendTask.current + min room (ms.sendTask.buffer.length - ms.sendTask.current)
    ({ ms with sendTask := { ms.sendTask with current } },
      if current = ms.sendTask.buffer.length then .sendLast fd else .idle)

/-- A sent buffer is followed by the next of the queue. With none the handler
returns and leaves EV_OUT. -/
def onSend (ms : MessageLinkStack) (fd : Fd) (sent : Option Nat) : MessageLinkStack × Handler :=
  if ms.sendTask.current = ms.sendTask.buffer.length then
    match ms.sendTaskQ with
    | [] => (ms, .idle)
    | t :: rest => send { sendTask := t, sendTaskQ := rest } fd sent
  else ms.send fd sent

end MessageLinkStack

-- ---------------------------------------------------------------------------
-- Stack
-- ---------------------------------------------------------------------------

namespace Stack

/-- The link waits for the event: it has a receive (accept) task, or something
to send. -/
def wants : Stack → Ev → Bool
  | .stream ls, .evIn => decide (ls.recvTasks ≠ [])
  | .stream ls, .evOut => decide (ls.sendTasks ≠ [])
  | .server ls, .evIn => decide (ls.recvTasks ≠ [])
  | .message ms, .evOut =>
    decide (ms.sendTaskQ ≠ [] ∨ ms.sendTask.current ≠ ms.sendTask.buffer.length)
  | _, _ => false

/-- The last test of `Response` and of `StreamServerStack::OnRecv`. -/
def recvLast (st : Stack) (fd : Fd) : Handler :=
  match st with
  | .stream ls => if ls.recvTasks = [] then .recvRemove fd else .idle
  | .server ls => if ls.recvTasks = [] then .recvRemove fd else .idle
  | .message _ | .messageServer => .idle

/-- The last test of `OnSend`. -/
def sendLast (st : Stack) (fd : Fd) : Handler :=
  match st with
  | .stream ls => if ls.sendTasks = [] then .sendRemove fd else .idle
  | .message ms => if ms.sendTaskQ = [] then .sendRemove fd else .idle
  | .server _ | .messageServer => .idle

/-- `OnSend`; a server throws. -/
def onSend (st : Stack) (fd : Fd) (sent : Option Nat) : Stack × Handler :=
  match st with
  | .stream ls => (ls.onSend fd sent).map .stream id
  | .message ms => (ms.onSend fd sent).map .message id
  | .server _ | .messageServer => (st, .onErr fd)

end Stack

end GalaLua.Controllers
