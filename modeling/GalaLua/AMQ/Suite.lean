import GalaLua.AMQ.Infor
import GalaLua.Library.Transition

/-!
# Calls on a suite

`CSQSuite::Put`, `TimedPut`, `Get`, `TimedGet`, `GetCB` and `TimedGetCB`, run
by any number of threads on the queues of one media. A thread's program
counter is its position between two guarded sections together with what its
call holds in local variables and nursery guards; every section is one step.
`puts` and `gets` record, for every queue, the order of its `_Queue` sections.
-/

namespace GalaLua.AMQ

/-- The caller's patience: `TIMED_NOWAIT`, a negative time, or seconds. -/
inductive Wait
  | nowait
  | forever
  | timed
  deriving DecidableEq, Repr

def Wait.of (timeout : Int) : Wait :=
  if timeout = 0 then .nowait else if timeout < 0 then .forever else .timed

/-- Where a get delivers to: a buffer of the caller, or one that the callback
provides for the length of the message. -/
inductive Reader
  | buffer (maxLength : Nat)
  | callback
  deriving DecidableEq, Repr

inductive Call
  | put (q : Nat) (buffer : List UInt8)
  | timedPut (q : Nat) (buffer : List UInt8) (timeout : Int)
  | get (q : Nat) (maxLength : Nat)
  | timedGet (q : Nat) (maxLength : Nat) (timeout : Int)
  | getCB (q : Nat)
  | timedGetCB (q : Nat) (timeout : Int)

structure PutCall where
  q : Nat
  buffer : List UInt8
  wait : Wait

structure GetCall where
  q : Nat
  reader : Reader
  wait : Wait

/-- The position of a thread. `expired` marks a waiter whose time was up. -/
inductive Pc
  | idle
  /-- before `_PPL.Get` -/
  | putNode (x : PutCall)
  | putNodeWait (x : PutCall) (expired : Bool)
  /-- before `Allocate` -/
  | putAlloc (x : PutCall) (n : Int)
  /-- before `F_WriteData` -/
  | putWrite (x : PutCall) (n p : Int)
  /-- before `_Queue.Put` -/
  | putQueue (x : PutCall) (n p : Int)
  | putQueueWait (x : PutCall) (n p : Int) (expired : Bool)
  /-- before `~_NurseryAutoFree` of a put that failed -/
  | unwindNode (q : Nat) (n : Int) (p : Option Int)
  /-- before `~_NurseryPageFree` of a put that failed -/
  | unwindPage (p : Int)
  /-- before `_Queue.Get` -/
  | getQueue (x : GetCall)
  | getQueueWait (x : GetCall) (expired : Bool)
  /-- the node is the `k`-th one taken off the queue -/
  | getRead (x : GetCall) (n : Int) (k : Nat)
  /-- before `~_NurseryPageFree` -/
  | getFree (q : Nat) (n p : Int)
  /-- before `~_NurseryAutoFree` -/
  | getPut (q : Nat) (n : Int)

/-- What became of a message that was taken off a queue. -/
inductive Fetch
  | pending
  /-- copied to a buffer of `maxLength` bytes -/
  | delivered (maxLength : Nat) (bytes : List UInt8)
  /-- the callback threw or returned NULL -/
  | dropped
  deriving DecidableEq, Repr

structure State where
  media : Media
  pc : Nat → Pc
  puts : Nat → List (List UInt8)
  gets : Nat → List Fetch

def State.init (m : Media) : State := ⟨m, fun _ => .idle, fun _ => [], fun _ => []⟩

inductive Action
  | call (t : Nat) (x : Call)
  /-- The blocked thread `t` goes on without a signal. -/
  | wake (t : Nat) (expired : Bool)
  /-- Thread `t` runs its next section. `w` chooses among the waiters of the
  condition that the section signals, `buffer` is whether the callback returns
  a buffer. -/
  | run (t : Nat) (w : Nat) (buffer : Bool)

def Call.queue : Call → Nat
  | .put q _ | .timedPut q _ _ | .get q _ | .timedGet q _ _ | .getCB q | .timedGetCB q _ => q

def Call.start : Call → Pc
  | .put q buffer => .putNode ⟨q, buffer, .forever⟩
  | .timedPut q buffer timeout => .putNode ⟨q, buffer, .of timeout⟩
  | .get q maxLength => .getQueue ⟨q, .buffer maxLength, .forever⟩
  | .timedGet q maxLength timeout => .getQueue ⟨q, .buffer maxLength, .of timeout⟩
  | .getCB q => .getQueue ⟨q, .callback, .forever⟩
  | .timedGetCB q timeout => .getQueue ⟨q, .callback, .of timeout⟩

/-- The condition a thread waits on. -/
def Pc.cond : Pc → Option CondId
  | .putNodeWait x _ => some (.event x.q)
  | .putQueueWait x _ _ _ => some (.threshold2 x.q)
  | .getQueueWait x _ => some (.threshold1 x.q)
  | _ => none

/-- A wait that ends, with its time up only if the call set one. -/
def Pc.wake : Pc → Bool → Option Pc
  | .putNodeWait x _, expired =>
    if expired → x.wait = .timed then some (.putNodeWait x expired) else none
  | .putQueueWait x n p _, expired =>
    if expired → x.wait = .timed then some (.putQueueWait x n p expired) else none
  | .getQueueWait x _, expired =>
    if expired → x.wait = .timed then some (.getQueueWait x expired) else none
  | _, _ => none

namespace State

def goto (s : State) (t : Nat) (m : Media) (p : Pc) : State :=
  { s with media := m, pc := Function.update s.pc t p }

/-- `Wait` or `TimedWait`: the lock is given up until the thread is woken. -/
def sleep (s : State) (t : Nat) (k : CondId) (p : Pc) : State :=
  s.goto t (s.media.setCond k ((s.media.cond k).wait t)) p

/-- `TimedWait` returns `false`. -/
def timeout (s : State) (t : Nat) (k : CondId) (p : Pc) : State :=
  s.goto t (s.media.setCond k (s.media.cond k).expire) p

def enqueue (c : Config) (s : State) (t : Nat) (x : PutCall) (n : Int) (w : Nat) : State :=
  { s.goto t (s.media.doorPut c x.q n w) .idle with
    puts := Function.update s.puts x.q (s.puts x.q ++ [x.buffer]) }

def dequeue (s : State) (t : Nat) (x : GetCall) (n : Int) (m : Media) : State :=
  { s.goto t m (.getRead x n (s.gets x.q).length) with
    gets := Function.update s.gets x.q (s.gets x.q ++ [.pending]) }

def resolve (s : State) (q k : Nat) (f : Fetch) : State :=
  { s with gets := Function.update s.gets q ((s.gets q).set k f) }

end State

/-- The bytes a get copies, or `dropped`. -/
def fetch (c : Config) (m : Media) (reader : Reader) (n p : Int) (buffer : Bool) : Fetch :=
  let length := (m.nodes n).length
  match reader with
  | .buffer maxLength =>
    .delivered maxLength (readData c.pages m.pages (some p)
      (if length > maxLength then maxLength else length))
  | .callback =>
    if buffer then .delivered length (readData c.pages m.pages (some p) length) else .dropped

open State in
def nextSection (c : Config) (s : State) (t w : Nat) (buffer : Bool) : Pc → Option State
  | .idle => none
  | .putNode x =>
    match s.media.pplGet c x.q with
    | (some n, m) => some (s.goto t m (.putAlloc x n))
    | (none, _) =>
      if x.wait = .nowait then some (s.goto t s.media .idle)
      else some (s.sleep t (.event x.q) (.putNodeWait x false))
  | .putNodeWait x expired =>
    if expired then some (s.timeout t (.event x.q) .idle)
    else match s.media.getNode c (.ppl x.q) with
      | (some n, m) => some (s.goto t m (.putAlloc x n))
      | (none, _) => some (s.sleep t (.event x.q) (.putNodeWait x false))
  | .putAlloc x n =>
    match s.media.allocate c x.buffer.length with
    | (some p, m) => some (s.goto t m (.putWrite x n p))
    | (none, m) => some (s.goto t m (.unwindNode x.q n none))
  | .putWrite x n p =>
    let r := writeData c.pages s.media.pages (some p) x.buffer
    if r.2 = x.buffer.length then
      let nodes := setNodeLength (setNodePage s.media.nodes n (some p)) n x.buffer.length
      some (s.goto t { s.media with pages := r.1, nodes := nodes } (.putQueue x n p))
    else some (s.goto t { s.media with pages := r.1 } (.unwindNode x.q n (some p)))
  | .putQueue x n p =>
    if s.media.full x.q then
      if x.wait = .nowait then some (s.goto t s.media (.unwindNode x.q n (some p)))
      else some (s.sleep t (.threshold2 x.q) (.putQueueWait x n p false))
    else some (s.enqueue c t x n w)
  | .putQueueWait x n p expired =>
    if expired then some (s.timeout t (.threshold2 x.q) (.unwindNode x.q n (some p)))
    else if s.media.full x.q then some (s.sleep t (.threshold2 x.q) (.putQueueWait x n p false))
    else some (s.enqueue c t x n w)
  | .unwindNode q n p =>
    some (s.goto t (s.media.pplPut c q n w) (match p with
      | none => .idle
      | some p => .unwindPage p))
  | .unwindPage p => some (s.goto t (s.media.freeChain c p) .idle)
  | .getQueue x =>
    match s.media.doorGet c x.q w with
    | (some n, m) => some (s.dequeue t x n m)
    | (none, _) =>
      if x.wait = .nowait then some (s.goto t s.media .idle)
      else some (s.sleep t (.threshold1 x.q) (.getQueueWait x false))
  | .getQueueWait x expired =>
    if expired then some (s.timeout t (.threshold1 x.q) .idle)
    else match s.media.doorGet c x.q w with
      | (some n, m) => some (s.dequeue t x n m)
      | (none, _) => some (s.sleep t (.threshold1 x.q) (.getQueueWait x false))
  | .getRead x n k =>
    let m := { s.media with nodes := setNodePage s.media.nodes n none }
    match nodePage s.media.nodes n with
    | some p =>
      some ((s.goto t m (.getFree x.q n p)).resolve x.q k (fetch c s.media x.reader n p buffer))
    | none => some (s.goto t m (.getPut x.q n))
  | .getFree q n p => some (s.goto t (s.media.freeChain c p) (.getPut q n))
  | .getPut q n => some (s.goto t (s.media.pplPut c q n w) .idle)

/-- Whether a thread waits for a signal that has not come. -/
def State.blocked (s : State) (t : Nat) : Bool :=
  match (s.pc t).cond with
  | some k => decide (t ∈ (s.media.cond k).cnd)
  | none => false

def Pc.isIdle : Pc → Bool
  | .idle => true
  | _ => false

def step (c : Config) (s : State) : Action → Option State
  | .call t x =>
    if (s.pc t).isIdle ∧ x.queue < c.queues then some (s.goto t s.media x.start) else none
  | .wake t expired =>
    match (s.pc t).cond, (s.pc t).wake expired with
    | some k, some p =>
      if s.blocked t then some (s.goto t (s.media.setCond k ((s.media.cond k).leave t)) p)
      else none
    | _, _ => none
  | .run t w buffer => if s.blocked t then none else nextSection c s t w buffer (s.pc t)

end GalaLua.AMQ
