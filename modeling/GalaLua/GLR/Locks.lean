import GalaLua.GLR.Runtime
import GalaLua.Library.Exclusive

/-!
# The locks of a process

Any number of threads that call `SendMsg`, `Resume` with `Recieve`,
`TimerSignal`, `ResponseEx`, `Response` and `Destory` on one process, one step
for each `Lock` and `TryLock`. A position says which guards are open, and so
which locks its thread holds: the read or write lock of the process table
(`ProcessMapLock`), `_IntLock`, `_Lock` and the mutex of the channel. Readers
wait only for a writer that has the lock. What Lua code does inside
`lua_resume` is chosen freely, calls of the process on itself included.

There are two deadlocks. `ResponseEx` waits for `_Lock` with `_IntLock` in hand
while `SendMsg` retries `_IntLock` with `_Lock` in hand; `Destory` waits for
`_IntLock` with the write lock in hand while the process, which runs, waits for
the read lock.
-/

namespace GalaLua.GLR.Locks

open Library

/-- `own` is a call that the process makes on itself, inside `lua_resume`. -/
inductive Pos
  | idle
  -- `Process::SendMsgToNode`, `Process::SendMsg`
  | send (own : Bool)
  | sendLock (own : Bool)
  | sendEmpty (own : Bool)
  | sendEmptyIn (own : Bool)
  | sendState (own : Bool)
  | sendTry (own : Bool)
  | sendHand (own : Bool)
  | sendPut (own : Bool)
  | sendPutIn (own : Bool)
  -- `Process::Resume`, and `Process::Recieve` inside of it
  | resume
  | run
  | recv
  | recvLock
  | recvEmpty
  | recvEmptyIn
  | recvGet
  | recvGetIn
  | leave (stopped : Bool)
  | test
  -- `Bus::TimerSignal`
  | timer (tick : Nat)
  | timerInt (tick : Nat)
  | timerLock (tick : Nat)
  | timerBody (tick : Nat)
  -- `Bus::ResponseEx`
  | answer (tick : Nat)
  | answerInt
  | answerLock
  | answerBody
  -- `Bus::Response`
  | resp
  | respInt
  | respBody
  -- `Process::Destory`
  | destroy
  | destroyExit
  | delete
  | deleteInt
  | deleteBody
  deriving DecidableEq, Repr

namespace Pos

/-- The read lock of the process table. -/
def reads : Pos → Bool
  | .sendLock _ | .sendEmpty _ | .sendEmptyIn _ | .sendState _ | .sendTry _ | .sendHand _
  | .sendPut _ | .sendPutIn _ | .recvLock | .recvEmpty | .recvEmptyIn | .recvGet | .recvGetIn
  | .timerInt _ | .timerLock _ | .timerBody _ | .answerInt | .answerLock | .answerBody | .respInt
  | .respBody => true
  | _ => false

def writes : Pos → Bool
  | .deleteInt | .deleteBody => true
  | _ => false

/-- The process runs, and has not yet left `lua_resume`. -/
def working : Pos → Bool
  | .send own | .sendLock own | .sendEmpty own | .sendEmptyIn own | .sendState own | .sendTry own
  | .sendHand own | .sendPut own | .sendPutIn own => own
  | .run | .recv | .recvLock | .recvEmpty | .recvEmptyIn | .recvGet | .recvGetIn => true
  | _ => false

def holdsInt : Pos → Bool
  | .sendHand _ | .leave _ | .timerLock _ | .timerBody _ | .answerLock | .answerBody | .respBody
  | .deleteBody => true
  | q => q.working

def holdsLock : Pos → Bool
  | .sendEmpty _ | .sendEmptyIn _ | .sendState _ | .sendTry _ | .sendHand _ | .sendPut _
  | .sendPutIn _ | .recvEmpty | .recvEmptyIn | .timerBody _ | .answerBody => true
  | _ => false

def holdsChannel : Pos → Bool
  | .sendEmptyIn _ | .sendPutIn _ | .recvEmptyIn | .recvGetIn => true
  | _ => false

-- What a thread waits for in `Lock`.

def waitsRead : Pos → Bool
  | .send _ | .recv | .timer _ | .answer _ | .resp | .destroyExit => true
  | _ => false

def waitsWrite : Pos → Bool
  | .delete => true
  | _ => false

def waitsInt : Pos → Bool
  | .resume | .answerInt | .respInt | .deleteInt => true
  | _ => false

def waitsLock : Pos → Bool
  | .sendLock _ | .recvLock | .answerLock => true
  | _ => false

def waitsChannel : Pos → Bool
  | .sendEmpty _ | .sendPut _ | .recvEmpty | .recvGet => true
  | _ => false

/-- The loop of `SendMsg` around `TryLock`. -/
def retries : Pos → Bool
  | .sendEmpty _ | .sendEmptyIn _ | .sendState _ | .sendTry _ => true
  | _ => false

end Pos

variable {n : Nat}

/-- One process: `node` says that it is in the process table, `channel` is the
number of its messages and `tasks` that of its entries in the run queue. -/
structure State (n : Nat) where
  pos : Fin n → Pos
  node : Bool
  state : PState
  tick : Nat
  killed : Bool
  channel : Nat
  tasks : Nat

inductive Choice
  -- what an idle thread starts; `get` is a worker that takes the process from the run queue
  | send
  | get
  | timer (tick : Nat)
  | responseEx (tick : Nat)
  | response
  | destory
  -- what Lua code does
  | recv
  | sendSelf
  | killSelf
  | reply
  | int
  | yield
  | stop
  /-- the thread goes on from where it is -/
  | go
  deriving DecidableEq, Repr

abbrev Action (n : Nat) := Fin n × Choice

def State.goto (s : State n) (t : Fin n) (q : Pos) : State n :=
  { s with pos := Function.update s.pos t q }

/-- No thread is at a position that holds the lock. -/
abbrev State.Free (s : State n) (holds : Pos → Bool) : Prop := ∀ u, holds (s.pos u) = false

def start (s : State n) (t : Fin n) : Choice → Option (State n)
  | .send => some (s.goto t (.send false))
  | .get => if s.tasks = 0 then none else some ({ s with tasks := s.tasks - 1 }.goto t .resume)
  | .timer tick => some (s.goto t (.timer tick))
  | .responseEx tick => some (s.goto t (.answer tick))
  | .response => some (s.goto t .resp)
  | .destory => some (s.goto t .destroy)
  | _ => none

/-- One call of Lua code. A device answers at once, or leaves the process
waiting; `Kill` of the process itself finds it running. -/
def lua (s : State n) (t : Fin n) : Choice → Option (State n)
  | .recv => some (s.goto t .recv)
  | .sendSelf => some (s.goto t (.send true))
  | .killSelf => some { s with killed := true }
  | .reply => some { s with state := .INT_RESP }
  | .int => some ({ s with state := .INT_WAIT }.goto t (.leave false))
  | .yield => some (s.goto t (.leave false))
  | .stop => some (s.goto t (.leave true))
  | _ => none

/-- Behind a call of the process on itself its code goes on. -/
def back (own : Bool) : Pos := if own then .run else .idle

def go (s : State n) (t : Fin n) : Pos → Option (State n)
  | .send own =>
    if s.Free Pos.writes then some (s.goto t (if s.node then .sendLock own else back own)) else none
  | .sendLock own => if s.Free Pos.holdsLock then some (s.goto t (.sendEmpty own)) else none
  | .sendEmpty own => if s.Free Pos.holdsChannel then some (s.goto t (.sendEmptyIn own)) else none
  | .sendEmptyIn own => some (s.goto t (if s.channel = 0 then .sendState own else .sendPut own))
  | .sendState own =>
    some (s.goto t (if s.state = .RECV_WAIT then .sendTry own else .sendPut own))
  | .sendTry own =>
    some (s.goto t (if s.Free Pos.holdsInt then .sendHand own else .sendEmpty own))
  | .sendHand own =>
    if s.state = .RECV_WAIT then
      some ({ s with state := .RECV_RETURN, tasks := s.tasks + 1 }.goto t (back own))
    else some (s.goto t (.sendPut own))
  | .sendPut own => if s.Free Pos.holdsChannel then some (s.goto t (.sendPutIn own)) else none
  | .sendPutIn own => some ({ s with channel := s.channel + 1 }.goto t (back own))
  | .resume =>
    -- the task of a process that was deleted is dropped here
    if s.node = false then some (s.goto t .idle)
    else if s.Free Pos.holdsInt then
      some ({ s with state := .RUNNING, tick := s.tick + 1 }.goto t .run)
    else none
  | .recv => if s.Free Pos.writes then some (s.goto t .recvLock) else none
  | .recvLock => if s.Free Pos.holdsLock then some (s.goto t .recvEmpty) else none
  | .recvEmpty => if s.Free Pos.holdsChannel then some (s.goto t .recvEmptyIn) else none
  | .recvEmptyIn =>
    if s.channel = 0 then some ({ s with state := .RECV_WAIT }.goto t (.leave false))
    else some (s.goto t .recvGet)
  | .recvGet => if s.Free Pos.holdsChannel then some (s.goto t .recvGetIn) else none
  | .recvGetIn => some ({ s with channel := s.channel - 1 }.goto t .run)
  | .leave stopped =>
    if s.killed then some ({ s with state := .KILLED }.goto t .destroy)
    else if stopped then some ({ s with state := .STOPED }.goto t .destroy)
    else if s.state.waits then some (s.goto t .idle)
    else some ({ s with state := .YIELD }.goto t .test)
  | .test =>
    if s.state = .YIELD then some ({ s with tasks := s.tasks + 1 }.goto t .idle)
    else some (s.goto t .idle)
  | .timer tick =>
    if s.Free Pos.writes then
      some (s.goto t (if s.node && tick == s.tick then .timerInt tick else .idle))
    else none
  | .timerInt tick => some (s.goto t (if s.Free Pos.holdsInt then .timerLock tick else .idle))
  | .timerLock tick => some (s.goto t (if s.Free Pos.holdsLock then .timerBody tick else .idle))
  | .timerBody tick =>
    if tick == s.tick && s.state.waits then
      some ({ s with state := .INT_RESP, tasks := s.tasks + 1 }.goto t .idle)
    else some (s.goto t .idle)
  | .answer tick =>
    if s.Free Pos.writes then
      some (s.goto t (if s.node && tick == s.tick then .answerInt else .idle))
    else none
  | .answerInt => if s.Free Pos.holdsInt then some (s.goto t .answerLock) else none
  | .answerLock => if s.Free Pos.holdsLock then some (s.goto t .answerBody) else none
  | .answerBody =>
    if s.state.waits then
      some ({ s with state := .INT_RESP, tasks := s.tasks + 1 }.goto t .idle)
    else some (s.goto t .idle)
  | .resp =>
    if s.Free Pos.writes then some (s.goto t (if s.node then .respInt else .idle)) else none
  | .respInt => if s.Free Pos.holdsInt then some (s.goto t .respBody) else none
  | .respBody =>
    if s.state.waits then
      some ({ s with state := .INT_RESP, tasks := s.tasks + 1 }.goto t .idle)
    else some (s.goto t .idle)
  | .destroy =>
    if s.node = false then some (s.goto t .idle)
    else if s.state.mortal then some (s.goto t .destroyExit)
    else some ({ s with killed := true }.goto t .idle)
  | .destroyExit => if s.Free Pos.writes then some (s.goto t .delete) else none
  | .delete =>
    if s.Free Pos.writes ∧ s.Free Pos.reads then
      some (s.goto t (if s.node then .deleteInt else .idle))
    else none
  | .deleteInt => if s.Free Pos.holdsInt then some (s.goto t .deleteBody) else none
  | .deleteBody => some ({ s with node := false }.goto t .idle)
  | .idle | .run => none

def step (s : State n) (a : Action n) : Option (State n) :=
  match s.pos a.1, a.2 with
  | .idle, c => start s a.1 c
  | .run, c => lua s a.1 c
  | q, .go => go s a.1 q
  | _, _ => none

/-- A process that was spawned: it is in the run queue. -/
def init (n : Nat) : State n := ⟨fun _ => .idle, true, .CREATED, 0, false, 0, 1⟩

-- ---------------------------------------------------------------------------
-- Deadlock
-- ---------------------------------------------------------------------------

/-- `SendMsg` tries to hand over its message. -/
abbrev State.Wanting (s : State n) : Prop := s.state = .RECV_WAIT ∧ s.channel = 0

/-- The thread retries `_IntLock`, and will as long as nothing changes. -/
def State.Spins (s : State n) (t : Fin n) : Prop := (s.pos t).retries ∧ s.Wanting

/-- `u` has a lock that `t` waits or spins for. -/
inductive State.Blocks (s : State n) (u t : Fin n) : Prop
  | read : (s.pos t).waitsRead → (s.pos u).writes → s.Blocks u t
  | write : (s.pos t).waitsWrite → (s.pos u).reads ∨ (s.pos u).writes → s.Blocks u t
  | int : (s.pos t).waitsInt → (s.pos u).holdsInt → s.Blocks u t
  | lock : (s.pos t).waitsLock → (s.pos u).holdsLock → s.Blocks u t
  | channel : (s.pos t).waitsChannel → (s.pos u).holdsChannel → s.Blocks u t
  | spin : s.Spins t → (s.pos u).holdsInt → s.Blocks u t

/-- Each of the threads waits or spins for a lock of another one of them. -/
def State.Deadlocked (s : State n) (ts : Set (Fin n)) : Prop :=
  ts.Nonempty ∧ ∀ t ∈ ts, ∃ u ∈ ts, u ≠ t ∧ s.Blocks u t

/-- `ResponseEx` waits for the `_Lock` of a sender that waits for its `_IntLock`. -/
def State.Crossed (s : State n) : Prop :=
  (∃ t, s.pos t = .answerLock) ∧ (∃ t, (s.pos t).retries) ∧ s.Wanting

/-- The process has come to the read lock of the table. -/
abbrev Pos.enters (q : Pos) : Prop := q = .recv ∨ q = .send true

/-- `Destory` has the write lock and waits for the `_IntLock` of the process,
which runs and waits for the read lock. -/
def State.Trapped (s : State n) : Prop :=
  (∃ t, (s.pos t).enters) ∧ ∃ t, s.pos t = .deleteInt

/-- `ResponseEx` takes `_IntLock`, and a sender `_Lock`, only when the other one
does not have its lock while the process waits without messages; `Destory`
takes the write lock, and the running process comes to the read lock, only
when the other one is not there. -/
def Ordered (s : State n) (a : Action n) : Prop :=
  match s.pos a.1, a.2 with
  | .answerInt, .go => ¬ (s.Wanting ∧ ∃ t, (s.pos t).retries)
  | .sendLock _, .go => ¬ (s.Wanting ∧ ∃ t, s.pos t = .answerLock)
  | .delete, .go => ¬ ∃ t, (s.pos t).enters
  | .run, .recv | .run, .sendSelf => ¬ ∃ t, s.pos t = .deleteInt
  | _, _ => True

-- ---------------------------------------------------------------------------
-- Which threads can be in a deadlock
-- ---------------------------------------------------------------------------

variable {s s' : State n} {t u : Fin n} {ts : Set (Fin n)}

/-- A process that runs does not wait for a message. -/
def State.Awake (s : State n) : Prop := ∀ t, (s.pos t).working → s.state ≠ .RECV_WAIT

/-- A thread with the mutex of the channel waits for nothing, a thread with
`_Lock` at most for that mutex, and a reader of the table for no lock of it. -/
theorem Pos.order (q : Pos) :
    (q.holdsChannel → q.waitsChannel = false) ∧
    (q.holdsChannel ∨ q.holdsLock → q.waitsLock = false ∧ q.waitsInt = false) ∧
    (q.holdsChannel ∨ q.holdsLock ∨ q.reads ∨ q.writes →
      q.waitsRead = false ∧ q.waitsWrite = false) := by
  cases q <;> simp [holdsChannel, holdsLock, reads, writes, waitsChannel, waitsLock, waitsInt,
    waitsRead, waitsWrite]

section

variable (hts : ∀ t ∈ ts, ∃ u ∈ ts, u ≠ t ∧ s.Blocks u t)
include hts

theorem of_holdsChannel (ht : t ∈ ts) (h : (s.pos t).holdsChannel) :
    s.Spins t ∧ ∃ u ∈ ts, (s.pos u).holdsInt := by
  obtain ⟨u, hu, -, hb⟩ := hts t ht
  obtain ⟨h₁, h₂, h₃⟩ := (s.pos t).order
  cases hb with
  | read hw _ => simp [h₃ (.inl h)] at hw
  | write hw _ => simp [h₃ (.inl h)] at hw
  | int hw _ => simp [h₂ (.inl h)] at hw
  | lock hw _ => simp [h₂ (.inl h)] at hw
  | channel hw _ => simp [h₁ h] at hw
  | spin hs hi => exact ⟨hs, u, hu, hi⟩

/-- If this one does not spin, then the one it waits for does. -/
theorem of_holdsLock (ht : t ∈ ts) (h : (s.pos t).holdsLock) :
    (∃ u ∈ ts, s.Spins u) ∧ ∃ u ∈ ts, (s.pos u).holdsInt := by
  obtain ⟨u, hu, -, hb⟩ := hts t ht
  obtain ⟨-, h₂, h₃⟩ := (s.pos t).order
  cases hb with
  | read hw _ => simp [h₃ (.inr (.inl h))] at hw
  | write hw _ => simp [h₃ (.inr (.inl h))] at hw
  | int hw _ => simp [h₂ (.inr h)] at hw
  | lock hw _ => simp [h₂ (.inr h)] at hw
  | channel _ hc =>
    have hc := of_holdsChannel hts hu hc
    exact ⟨⟨u, hu, hc.1⟩, hc.2⟩
  | spin hs hi => exact ⟨⟨t, ht, hs⟩, u, hu, hi⟩

theorem of_writes (ht : t ∈ ts) (h : (s.pos t).writes) :
    s.pos t = .deleteInt ∧ ∃ u ∈ ts, (s.pos u).holdsInt := by
  obtain ⟨u, hu, -, hb⟩ := hts t ht
  cases hq : s.pos t <;> simp [hq, Pos.writes] at h
  · cases hb with
    | int _ hi => exact ⟨rfl, u, hu, hi⟩
    | spin hs _ => simp [State.Spins, hq, Pos.retries] at hs
    | read hw _ | write hw _ | lock hw _ | channel hw _ =>
      simp [hq, Pos.waitsRead, Pos.waitsWrite, Pos.waitsLock, Pos.waitsChannel] at hw
  · cases hb with
    | spin hs _ => simp [State.Spins, hq, Pos.retries] at hs
    | int hw _ | read hw _ | write hw _ | lock hw _ | channel hw _ =>
      simp [hq, Pos.waitsInt, Pos.waitsRead, Pos.waitsWrite, Pos.waitsLock, Pos.waitsChannel] at hw

/-- Every way through a deadlock comes to a thread that has `_IntLock`. -/
theorem exists_holdsInt (ht : t ∈ ts) : ∃ u ∈ ts, (s.pos u).holdsInt := by
  obtain ⟨u, hu, -, hb⟩ := hts t ht
  cases hb with
  | int _ hi => exact ⟨u, hu, hi⟩
  | spin _ hi => exact ⟨u, hu, hi⟩
  | channel _ hc => exact (of_holdsChannel hts hu hc).2
  | lock _ hl => exact (of_holdsLock hts hu hl).2
  | read _ hw => exact (of_writes hts hu hw).2
  | write _ hm =>
    -- a writer waits for a reader, which waits for another lock
    obtain ⟨v, hv, -, hb⟩ := hts u hu
    obtain ⟨-, -, h₃⟩ := (s.pos u).order
    cases hb with
    | int _ hi => exact ⟨v, hv, hi⟩
    | spin _ hi => exact ⟨v, hv, hi⟩
    | channel _ hc => exact (of_holdsChannel hts hv hc).2
    | lock _ hl => exact (of_holdsLock hts hv hl).2
    | read hw _ => simp [h₃ (.inr (.inr hm))] at hw
    | write hw _ => simp [h₃ (.inr (.inr hm))] at hw

theorem crossed_or_trapped (hawake : s.Awake) (ht : t ∈ ts) (h : (s.pos t).holdsInt) :
    s.Crossed ∨ s.Trapped := by
  obtain ⟨u, hu, -, hb⟩ := hts t ht
  -- a thread that spins shows that the process waits for a message
  have hwait : (∃ v ∈ ts, s.Spins v) → (s.pos t).working = false := by
    rintro ⟨v, -, hv⟩
    by_contra hworks
    exact hawake t (by simpa using hworks) hv.2.1
  cases hb with
  | read hw hwrites =>
    have henters : (s.pos t).enters := by
      cases hq : s.pos t <;> simp [hq, Pos.holdsInt, Pos.waitsRead, Pos.working] at h hw ⊢
      · exact .inr (congrArg Pos.send h)
      · exact .inl rfl
    exact .inr ⟨⟨t, henters⟩, u, (of_writes hts hu hwrites).1⟩
  | write hw _ =>
    cases hq : s.pos t <;> simp [hq, Pos.holdsInt, Pos.waitsWrite, Pos.working] at h hw
  | int hw _ =>
    cases hq : s.pos t <;> simp [hq, Pos.holdsInt, Pos.waitsInt, Pos.working] at h hw
  | lock hw hl =>
    obtain ⟨v, hv, hs⟩ := (of_holdsLock hts hu hl).1
    have hidle := hwait ⟨v, hv, hs⟩
    have hq : s.pos t = .answerLock := by
      cases hq : s.pos t <;> simp [hq, Pos.holdsInt, Pos.waitsLock, Pos.working] at h hw hidle ⊢
      simp [h] at hidle
    exact .inl ⟨⟨t, hq⟩, ⟨v, hs.1⟩, hs.2⟩
  | channel hw hc =>
    have hidle := hwait ⟨u, hu, (of_holdsChannel hts hu hc).1⟩
    cases hq : s.pos t <;> simp [hq, Pos.holdsInt, Pos.waitsChannel, Pos.working] at h hw hidle
    all_goals simp [h] at hidle
  | spin hs _ =>
    have hidle := hwait ⟨t, ht, hs⟩
    have hretries := hs.1
    cases hq : s.pos t <;> simp [hq, Pos.holdsInt, Pos.retries, Pos.working] at h hretries hidle
    all_goals simp [h] at hidle

end

theorem State.Crossed.deadlocked (h : s.Crossed) : ∃ ts, s.Deadlocked ts := by
  obtain ⟨⟨t, ht⟩, ⟨u, hu⟩, hwants⟩ := h
  have hlock : (s.pos u).holdsLock := by
    cases hq : s.pos u <;> simp [hq, Pos.retries, Pos.holdsLock] at hu ⊢
  have htu : t ≠ u := by
    rintro rfl
    simp [ht, Pos.retries] at hu
  refine ⟨{t, u}, ⟨t, by simp⟩, ?_⟩
  rintro x (rfl | rfl)
  · exact ⟨u, by simp, htu.symm, .lock (by rw [ht]; rfl) hlock⟩
  · exact ⟨t, by simp, htu, .spin ⟨hu, hwants⟩ (by rw [ht]; rfl)⟩

theorem State.Trapped.deadlocked (h : s.Trapped) : ∃ ts, s.Deadlocked ts := by
  obtain ⟨⟨t, ht⟩, u, hu⟩ := h
  have hread : (s.pos t).waitsRead ∧ (s.pos t).holdsInt ∧ s.pos t ≠ .deleteInt := by
    rcases ht with ht | ht <;> simp [ht, Pos.waitsRead, Pos.holdsInt, Pos.working]
  have htu : t ≠ u := by
    rintro rfl
    exact hread.2.2 hu
  refine ⟨{t, u}, ⟨t, by simp⟩, ?_⟩
  rintro x (rfl | rfl)
  · exact ⟨u, by simp, htu.symm, .read hread.1 (by rw [hu]; rfl)⟩
  · exact ⟨t, by simp, htu, .int (by rw [hu]; rfl) hread.2.1⟩

/-- There are no other deadlocks than these two. -/
theorem deadlocked_iff (hawake : s.Awake) : (∃ ts, s.Deadlocked ts) ↔ s.Crossed ∨ s.Trapped := by
  constructor
  · rintro ⟨ts, ⟨t, ht⟩, hts⟩
    obtain ⟨u, hu, hint⟩ := exists_holdsInt hts ht
    exact crossed_or_trapped hts hawake hu hint
  · rintro (h | h)
    · exact h.deadlocked
    · exact h.deadlocked

-- ---------------------------------------------------------------------------
-- One step
-- ---------------------------------------------------------------------------

/-- What the step of a thread to the position `q` can do: which locks it may have
taken, and what it needs to change the state or to empty the channel. -/
structure Effect (s : State n) (t : Fin n) (c : Choice) (s' : State n) (q : Pos) : Prop where
  pos : s'.pos = Function.update s.pos t q
  int : q.holdsInt → (s.pos t).holdsInt ∨ s.Free Pos.holdsInt
  works : q.working → (s.pos t).working ∧ s'.state = s.state ∨ s'.state ≠ .RECV_WAIT
  waits : s'.state = .RECV_WAIT → s.state = .RECV_WAIT ∨ (s.pos t).holdsInt
  empties : s'.channel = 0 → s.channel = 0 ∨ (s.pos t).holdsInt
  retries : q.retries → (s.pos t).retries ∨ ∃ own, s.pos t = .sendLock own ∧ c = .go
  answers : q = .answerLock → s.pos t = .answerInt ∧ c = .go
  enters : q.enters → s.pos t = .run ∧ (c = .recv ∨ c = .sendSelf)
  deletes : q = .deleteInt → s.pos t = .delete ∧ c = .go

theorem start_effect {c : Choice} (h : start s t c = some s') : ∃ q, Effect s t c s' q := by
  cases c <;> simp only [start, Option.some.injEq, reduceCtorEq] at h
  case get =>
    split at h
    · cases h
    · cases h
      exact ⟨_, rfl, nofun, nofun, .inl, .inl, nofun, nofun, nofun, nofun⟩
  all_goals
    subst h
    exact ⟨_, rfl, nofun, nofun, .inl, .inl, nofun, nofun, nofun, nofun⟩

theorem lua_effect {c : Choice} (hq : s.pos t = .run) (h : lua s t c = some s') :
    ∃ q, Effect s t c s' q := by
  have hint : (s.pos t).holdsInt := by rw [hq]; rfl
  have hworks : (s.pos t).working := by rw [hq]; rfl
  have hstay : s.pos = Function.update s.pos t .run := by rw [← hq, Function.update_eq_self]
  cases c <;> simp only [lua, Option.some.injEq, reduceCtorEq] at h <;> subst h
  case recv | sendSelf =>
    exact ⟨_, rfl, fun _ => .inl hint, fun _ => .inl ⟨hworks, rfl⟩, .inl, .inl, nofun, nofun,
      fun _ => ⟨hq, by simp⟩, nofun⟩
  case killSelf =>
    exact ⟨.run, hstay, fun _ => .inl hint, fun _ => .inl ⟨hworks, rfl⟩, .inl, .inl, nofun, nofun,
      nofun, nofun⟩
  case reply =>
    exact ⟨.run, hstay, fun _ => .inl hint, fun _ => .inr (by simp), nofun, .inl, nofun, nofun,
      nofun, nofun⟩
  case int =>
    exact ⟨_, rfl, fun _ => .inl hint, nofun, nofun, .inl, nofun, nofun, nofun, nofun⟩
  case yield | stop =>
    exact ⟨_, rfl, fun _ => .inl hint, nofun, .inl, .inl, nofun, nofun, nofun, nofun⟩

/-- The move takes no lock that a deadlock needs. -/
def Pos.plain (q₀ q : Pos) : Bool :=
  (q.holdsInt → q₀.holdsInt) ∧ (q.working → q₀.working) ∧ (q.retries → q₀.retries) ∧
    q ≠ .answerLock ∧ ¬ q.enters ∧ q ≠ .deleteInt

theorem Effect.plain {c : Choice} {q₀ q : Pos} (hq : s.pos t = q₀)
    (hpos : s'.pos = Function.update s.pos t q) (hplain : q₀.plain q)
    (hstate : s'.state = s.state ∨ s'.state ≠ .RECV_WAIT) (hchannel : s'.channel ≥ s.channel) :
    Effect s t c s' q := by
  subst hq
  obtain ⟨h₁, h₂, h₃, h₄, h₅, h₆⟩ := of_decide_eq_true hplain
  refine ⟨hpos, fun h => .inl (h₁ h), fun h => hstate.imp (fun he => ⟨h₂ h, he⟩) id, fun h => ?_,
    fun h => .inl (by omega), fun h => .inl (h₃ h), fun h => absurd h h₄, fun h => absurd h h₅,
    fun h => absurd h h₆⟩
  rcases hstate with he | he
  · exact .inl (he ▸ h)
  · exact absurd h he

theorem Effect.acquire {c : Choice} {q : Pos} (hpos : s'.pos = Function.update s.pos t q)
    (hfree : s.Free Pos.holdsInt) (hworks : q.working = (s.pos t).working)
    (hretries : q.retries = false) (hanswer : q = .answerLock → s.pos t = .answerInt ∧ c = .go)
    (henters : ¬ q.enters) (hdelete : q ≠ .deleteInt) (hstate : s'.state = s.state)
    (hchannel : s'.channel = s.channel) : Effect s t c s' q where
  pos := hpos
  int _ := .inr hfree
  works h := .inl ⟨hworks ▸ h, hstate⟩
  waits h := .inl (hstate ▸ h)
  empties h := .inl (hchannel ▸ h)
  retries h := by simp [hretries] at h
  answers := hanswer
  enters h := absurd h henters
  deletes h := absurd h hdelete

theorem go_effect (h : go s t (s.pos t) = some s') : ∃ q, Effect s t .go s' q := by
  cases hq : s.pos t <;> rw [hq] at h <;> simp only [go, reduceCtorEq] at h
  case sendLock own =>
    split at h
    · cases h
      exact ⟨_, rfl, fun h => .inl (hq ▸ h), fun h => .inl ⟨hq ▸ h, rfl⟩, .inl, .inl,
        fun _ => .inr ⟨own, hq, rfl⟩, nofun, nofun, nofun⟩
    · cases h
  case sendTry own =>
    split at h
    · next hfree =>
      cases h
      exact ⟨_, .acquire rfl hfree (by rw [hq]; rfl) rfl nofun nofun nofun rfl rfl⟩
    · cases h
      exact ⟨_, .plain hq rfl (by cases own <;> rfl) (.inl rfl) le_rfl⟩
  case resume =>
    split at h
    · cases h
      exact ⟨_, .plain hq rfl rfl (.inl rfl) le_rfl⟩
    · split at h
      · next hfree =>
        cases h
        exact ⟨_, rfl, fun _ => .inr hfree, fun _ => .inr (by simp [State.goto]), nofun, .inl, nofun,
          nofun, nofun, nofun⟩
      · cases h
  case recvEmptyIn =>
    split at h
    · cases h
      exact ⟨_, rfl, fun _ => .inl (by rw [hq]; rfl), nofun, fun _ => .inr (by rw [hq]; rfl), .inl,
        nofun, nofun, nofun, nofun⟩
    · cases h
      exact ⟨_, .plain hq rfl rfl (.inl rfl) le_rfl⟩
  case recvGetIn =>
    cases h
    exact ⟨_, rfl, fun _ => .inl (by rw [hq]; rfl), fun _ => .inl ⟨by rw [hq]; rfl, rfl⟩, .inl,
      fun _ => .inr (by rw [hq]; rfl), nofun, nofun, nofun, nofun⟩
  case timerInt tick =>
    split at h
    · next hfree =>
      cases h
      exact ⟨_, .acquire rfl hfree (by rw [hq]; rfl) rfl nofun nofun nofun rfl rfl⟩
    · cases h
      exact ⟨_, .plain hq rfl rfl (.inl rfl) le_rfl⟩
  case answerInt | respInt | deleteInt =>
    split at h
    · next hfree =>
      cases h
      exact ⟨_, .acquire rfl hfree (by rw [hq]; rfl) rfl (by simp [hq]) nofun nofun rfl rfl⟩
    · cases h
  case delete =>
    split at h
    · cases h
      split
      · exact ⟨_, rfl, nofun, nofun, .inl, .inl, nofun, nofun, nofun, fun _ => ⟨hq, rfl⟩⟩
      · exact ⟨_, .plain hq rfl rfl (.inl rfl) le_rfl⟩
    · cases h
  -- the other moves take no lock that matters
  case sendHand own =>
    split at h
    · cases h
      exact ⟨_, .plain hq rfl (by cases own <;> rfl) (.inr (by simp [State.goto])) le_rfl⟩
    · cases h
      exact ⟨_, .plain hq rfl (by cases own <;> rfl) (.inl rfl) le_rfl⟩
  case sendPutIn own =>
    cases h
    exact ⟨_, .plain hq rfl (by cases own <;> rfl) (.inl rfl) (Nat.le_succ _)⟩
  case send own | sendEmpty own | sendEmptyIn own | sendState own | sendPut own =>
    (repeat' split at h) <;> cases h <;>
      exact ⟨_, .plain hq rfl (by cases own <;> rfl) (.inl rfl) le_rfl⟩
  case leave stopped =>
    (repeat' split at h) <;> cases h
    · exact ⟨_, .plain hq rfl rfl (.inr (by simp [State.goto])) le_rfl⟩
    · exact ⟨_, .plain hq rfl rfl (.inr (by simp [State.goto])) le_rfl⟩
    · exact ⟨_, .plain hq rfl rfl (.inl rfl) le_rfl⟩
    · exact ⟨_, .plain hq rfl rfl (.inr (by simp [State.goto])) le_rfl⟩
  case timerBody tick | answerBody | respBody =>
    split at h
    · cases h
      exact ⟨_, .plain hq rfl rfl (.inr (by simp [State.goto])) le_rfl⟩
    · cases h
      exact ⟨_, .plain hq rfl rfl (.inl rfl) le_rfl⟩
  all_goals
    (repeat' split at h) <;> cases h <;> exact ⟨_, .plain hq rfl rfl (.inl rfl) le_rfl⟩

theorem step_effect {a : Action n} (h : step s a = some s') : ∃ q, Effect s a.1 a.2 s' q := by
  obtain ⟨t, c⟩ := a
  unfold step at h
  split at h
  · exact start_effect h
  · next hq => exact lua_effect hq h
  · next hc _ _ =>
    cases hc
    exact go_effect h
  · cases h

-- ---------------------------------------------------------------------------
-- Any number of steps
-- ---------------------------------------------------------------------------

/-- `_IntLock` as the lock that `Library.Exclusive` is about. -/
def Pos.int (q : Pos) : Option Unit := if q.holdsInt then some () else none

theorem Pos.int_eq_some {q : Pos} : q.int = some () ↔ q.holdsInt := by
  simp [Pos.int]

structure State.Inv (s : State n) : Prop where
  exclusive : Exclusive Pos.int s.pos
  awake : s.Awake

theorem State.Inv.eq (h : s.Inv) (ht : (s.pos t).holdsInt) (hu : (s.pos u).holdsInt) : t = u :=
  h.exclusive t u () (Pos.int_eq_some.mpr ht) (Pos.int_eq_some.mpr hu)

theorem holdsInt_of_working {q : Pos} (h : q.working) : q.holdsInt := by
  cases q <;> simp_all [Pos.working, Pos.holdsInt]

theorem Effect.inv {c : Choice} {q : Pos} (e : Effect s t c s' q) (h : s.Inv) : s'.Inv where
  exclusive := by
    rw [e.pos]
    by_cases hq : q.holdsInt
    · rcases e.int hq with ht | hfree
      · exact h.exclusive.keep rfl (.inr (by simp [Pos.int, hq, ht]))
      · exact h.exclusive.acquire (fun u => by simp [Pos.int, hfree u]) (Pos.int_eq_some.mpr hq)
    · exact h.exclusive.keep rfl (.inl (by simp [Pos.int, hq]))
  awake u hu hstate := by
    rw [e.pos] at hu
    by_cases hut : u = t
    · subst hut
      rw [Function.update_self] at hu
      rcases e.works hu with ⟨hworks, hsame⟩ | hother
      · exact h.awake u hworks (hsame ▸ hstate)
      · exact hother hstate
    · rw [Function.update_of_ne hut] at hu
      rcases e.waits hstate with hwait | ht
      · exact h.awake u hu hwait
      · exact hut (h.eq (holdsInt_of_working hu) ht)

/-- A position that `t` has come to, or that another thread had before. -/
theorem Effect.exists_pos {c : Choice} {q : Pos} (e : Effect s t c s' q) {p : Pos → Prop}
    (h : ∃ u, p (s'.pos u)) : p q ∨ ∃ u, u ≠ t ∧ p (s.pos u) := by
  obtain ⟨u, hu⟩ := h
  rw [e.pos] at hu
  by_cases hut : u = t
  · subst hut
    rw [Function.update_self] at hu
    exact .inl hu
  · rw [Function.update_of_ne hut] at hu
    exact .inr ⟨u, hut, hu⟩

theorem Effect.wanting {c : Choice} {q : Pos} (e : Effect s t c s' q) (ht : (s.pos t).holdsInt = false)
    (h : s'.Wanting) : s.Wanting := by
  refine ⟨(e.waits h.1).resolve_right ?_, (e.empties h.2).resolve_right ?_⟩
  · simp [ht]
  · simp [ht]

theorem Effect.not_crossed {c : Choice} {q : Pos} (e : Effect s t c s' q) (h : s.Inv)
    (hok : Ordered s (t, c)) (hs : ¬ s.Crossed) : ¬ s'.Crossed := by
  rintro ⟨hanswer, hretries, hwants⟩
  rcases e.exists_pos (p := (· = .answerLock)) hanswer with rfl | ⟨u, hut, hu⟩
  · -- `ResponseEx` has taken `_IntLock`
    obtain ⟨hq, rfl⟩ := e.answers rfl
    rcases e.exists_pos (p := (·.retries)) hretries with hr | ⟨v, -, hv⟩
    · cases hr
    · simp only [Ordered, hq] at hok
      exact hok ⟨e.wanting (by rw [hq]; rfl) hwants, v, hv⟩
  · have ht : (s.pos t).holdsInt = false := by
      by_contra ht
      exact hut (h.eq (by rw [hu]; rfl) (by simpa using ht))
    have hwants := e.wanting ht hwants
    rcases e.exists_pos (p := (·.retries)) hretries with hr | ⟨v, -, hv⟩
    · rcases e.retries hr with hr | ⟨own, hq, rfl⟩
      · exact hs ⟨⟨u, hu⟩, ⟨t, hr⟩, hwants⟩
      · -- the sender has taken `_Lock`
        simp only [Ordered, hq] at hok
        exact hok ⟨hwants, u, hu⟩
    · exact hs ⟨⟨u, hu⟩, ⟨v, hv⟩, hwants⟩

theorem Effect.not_trapped {c : Choice} {q : Pos} (e : Effect s t c s' q)
    (hok : Ordered s (t, c)) (hs : ¬ s.Trapped) : ¬ s'.Trapped := by
  rintro ⟨henters, hdelete⟩
  rcases e.exists_pos (p := Pos.enters) henters with hq | ⟨u, -, hu⟩
  · rcases e.exists_pos (p := (· = .deleteInt)) hdelete with rfl | ⟨v, -, hv⟩
    · rcases hq with hq | hq
      · cases hq
      · cases hq
    · obtain ⟨hrun, rfl | rfl⟩ := e.enters hq
      all_goals
        simp only [Ordered, hrun] at hok
        exact hok ⟨v, hv⟩
  · rcases e.exists_pos (p := (· = .deleteInt)) hdelete with rfl | ⟨v, -, hv⟩
    · obtain ⟨hq, rfl⟩ := e.deletes rfl
      simp only [Ordered, hq] at hok
      exact hok ⟨u, hu⟩
    · exact hs ⟨⟨u, hu⟩, v, hv⟩

theorem init_inv : (init n).Inv where
  exclusive _ _ _ := nofun
  awake _ := nofun

/-- In every run in which the locks are taken in order, no threads are deadlocked. -/
theorem never_deadlocked (h : Reach step Ordered (init n) s) : ¬ s.Deadlocked ts := by
  have hinv : s.Inv ∧ ¬ s.Crossed ∧ ¬ s.Trapped := by
    refine h.invariant (I := fun s => s.Inv ∧ ¬ s.Crossed ∧ ¬ s.Trapped)
      ⟨init_inv, ?_, ?_⟩ fun s a s' hi hok hs => ?_
    · rintro ⟨⟨t, ht⟩, -⟩
      cases ht
    · rintro ⟨-, t, ht⟩
      cases ht
    · obtain ⟨hi, hc, ht⟩ := hi
      obtain ⟨q, e⟩ := step_effect hs
      exact ⟨e.inv hi, e.not_crossed hi hok hc, e.not_trapped hok ht⟩
  obtain ⟨hinv, hcrossed, htrapped⟩ := hinv
  intro hts
  rcases (deadlocked_iff hinv.awake).mp ⟨ts, hts⟩ with hc | ht
  · exact hcrossed hc
  · exact htrapped ht

instance (s : State n) (a : Action n) : Decidable (Ordered s a) := by
  unfold Ordered
  split <;> infer_instance

/-- A message is handed over to a process that waits for it. -/
theorem handed_over_without_deadlock :
    ∃ s : State 2, Reach step Ordered (init 2) s ∧ s.state = .RECV_RETURN ∧
      ¬ s.Deadlocked Set.univ := by
  obtain ⟨s, hs, hp⟩ := @reach_of_runIf _ _ step Ordered (init 2) _
    [(0, .get), (0, .go), (0, .recv), (0, .go), (0, .go), (0, .go), (0, .go), (0, .go), (1, .send),
      (1, .go), (1, .go), (1, .go), (1, .go), (1, .go), (1, .go), (1, .go)]
    (fun s => s.state = .RECV_RETURN) (by decide)
  exact ⟨s, hs, of_decide_eq_true hp, never_deadlocked hs⟩

/-- The process is woken by a time-out after `ResponseEx` has compared its tick,
and waits for a message when `ResponseEx` takes `_IntLock` and a sender `_Lock`. -/
theorem responseEx_deadlocks_sender :
    ¬ ∀ (n : Nat) (s : State n) (ts : Set (Fin n)), Reach step Free (init n) s →
      ¬ s.Deadlocked ts := by
  intro h
  obtain ⟨s, hs, hp⟩ := @reach_of_run _ _ step (init 4)
    [(0, .get), (0, .go), (0, .int), (0, .go), (1, .responseEx 1), (1, .go), (2, .timer 1), (2, .go),
      (2, .go), (2, .go), (2, .go), (0, .get), (0, .go), (0, .recv), (0, .go), (0, .go), (0, .go),
      (0, .go), (0, .go), (3, .send), (3, .go), (3, .go), (3, .go), (3, .go), (3, .go),
      (1, .go)]
    (fun s => s.pos 1 = .answerLock ∧ s.pos 3 = .sendTry false ∧ s.Wanting) (by decide)
  obtain ⟨h₁, h₃, hwants⟩ := of_decide_eq_true hp
  have hcrossed : s.Crossed := ⟨⟨1, h₁⟩, ⟨3, by rw [h₃]; rfl⟩, hwants⟩
  obtain ⟨ts, hts⟩ := hcrossed.deadlocked
  exact h 4 s ts hs hts

/-- `Destory` finds the process waiting; then a message comes and the process
runs, up to its next receive. -/
theorem destory_deadlocks_process : ∃ s : State 3, Reach step Free (init 3) s ∧ s.Trapped := by
  obtain ⟨s, hs, hp⟩ := @reach_of_run _ _ step (init 3)
    [(0, .get), (0, .go), (0, .recv), (0, .go), (0, .go), (0, .go), (0, .go), (0, .go),
      (1, .destory), (1, .go), (1, .go), (2, .send), (2, .go), (2, .go), (2, .go), (2, .go), (2, .go),
      (2, .go), (2, .go), (0, .get), (0, .go), (1, .go), (0, .recv)]
    (fun s => s.pos 0 = .recv ∧ s.pos 1 = .deleteInt) (by decide)
  obtain ⟨h₀, h₁⟩ := of_decide_eq_true hp
  exact ⟨s, hs, ⟨0, .inl h₀⟩, 1, h₁⟩

end GalaLua.GLR.Locks
