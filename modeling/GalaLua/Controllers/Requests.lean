import GalaLua.Controllers.Broken
import GalaLua.Controllers.Links
import GalaLua.Controllers.Reading

/-!
# Requests of processes that are gone

`Response` of a link and `OnRecv` of a server socket, with the processes that
the bus looks up. `IsCanceled` throws for a pid that is free, so that such a
request takes the whole socket with it, and a pid that is in use again is known
by its tick alone. Requests of gone processes do no harm exactly if each, when
its turn comes, is skipped (`unharmed_iff`).
-/

namespace GalaLua.Controllers.Requests

open GLR (Miss Msg Obj)
open Library.Loop

variable {n : Nat}

-- ---------------------------------------------------------------------------
-- The source
-- ---------------------------------------------------------------------------

/-- A task, with the process that made it. -/
structure Request extends Task where
  owner : Obj
  deriving DecidableEq, Repr

inductive Sock
  | link (cache : List UInt8) (hanguped : Bool)
  | server (onFlyFd : Option Fd)
  deriving DecidableEq, Repr

/-- A socket with its receive queue, the processes, what `Accept` will return
before it would block, and the links of the map by their stamps. -/
structure Work (n : Nat) where
  runtime : GLR.State n
  queue : List Request
  sock : Sock
  accepts : List Accept
  linkMap : Fd → Option Nat

inductive Exit
  /-- whether EV_IN is removed after the loop -/
  | returns (removed : Bool)
  /-- what `SocketWorker::OnRecv` catches, to delete the link by `OnErr` -/
  | throws
  /-- a link that is not in the map -/
  | fault
  deriving DecidableEq, Repr

/-- `lua_pushlstring`; a length of 0 is for a string with a terminator. -/
def lstring (len : Nat) (buf : List UInt8) : GLR.Value :=
  let bytes := if len = 0 then buf.takeWhile (· ≠ 0) else buf.take len
  .string (String.ofList (bytes.map fun b => Char.ofNat b.toNat))

/-- `(_Stamp<<16) + _Sock->GetFD()` -/
def dummyFd (stamp : Nat) (fd : Fd) : BitVec 32 := (BitVec.ofNat 32 stamp <<< 16) + BitVec.ofNat 32 fd

/-- The message for an ACCEPT_POLL, with the handle in msgpack. -/
def accepted (fd : Fd) (handle : BitVec 32) : Msg :=
  .app (uint32 (SIZEOF_GLRPROTOCOL + 5 - 4) ++ [0, 0, 0, IOCP] ++ List.replicate 8 0 ++ uint32 fd ++
    List.replicate 20 0 ++ uint32 INT_NO ++ List.replicate 20 0 ++ [0xce] ++
    (Library.Endian.big.encode 4 handle.toNat).map UInt8.ofBitVec)

namespace Work

variable (fd : Fd) (w : Work n)

/-- `IsCanceled`, which polls are not asked for. -/
def canceled (poll : TaskType) (r : Request) : Except Miss Bool :=
  if r.type ≠ poll then w.runtime.isCanceled r.id r.tick else .ok false

/-- `_RecvTasks.Get()`, which leaves `rest`. -/
def get (rest : List Request) : Work n := { w with queue := rest }

/-- The loop is left for the last test of the queue. -/
def leave : Turn (Work n) (Work n × Exit) := .done (w, .returns (decide (w.queue = [])))

/-- `Response` to a RECV or RECV_LINE. -/
def respond (cache : List UInt8) (hanguped : Bool) (r : Request) (rest : List Request) :
    Option Nat → Turn (Work n) (Work n × Exit)
  | some k =>
    match w.runtime.responseEx r.id r.tick [lstring k cache] with
    | .error _ => .done (w, .throws)
    | .ok (true, runtime) =>
      .again { w with runtime, queue := rest, sock := .link (cache.drop k) hanguped }
    | .ok (false, runtime) => .again { w with runtime, queue := rest }
  | none => if hanguped then .done (w, .throws) else w.leave

/-- A turn of the loop of `StreamLinkStack::Response`. -/
def response (cache : List UInt8) (hanguped : Bool) : Turn (Work n) (Work n × Exit) :=
  match w.queue with
  | [] => w.leave
  | r :: rest =>
    match w.canceled .POLL r with
    | .error _ => .done (w, .throws)
    | .ok true => .again (w.get rest)
    | .ok false =>
      match r.type with
      | .RECV => w.respond cache hanguped r rest (StreamLinkStack.enough r.len cache)
      | .RECV_LINE => w.respond cache hanguped r rest (getLine cache)
      | .POLL =>
        if cache ≠ [] then
          match w.runtime.sendMsgToNode r.id (iocp fd) with
          | .error _ => .done (w, .throws)
          | .ok runtime => .again { w with runtime, queue := rest }
        else .again w
      | _ => .again w

/-- The rest of a turn of `StreamServerStack::OnRecv`, with a descriptor. -/
def give (r : Request) (rest : List Request) (recvfd : Fd) : Turn (Work n) (Work n × Exit) :=
  match w.linkMap recvfd with
  | none => .done (w, .fault)
  | some stamp =>
    if r.type = .ACCEPT_POLL then
      match w.runtime.sendMsgToNode r.id (accepted fd (dummyFd stamp recvfd)) with
      | .error _ => .done (w, .throws)
      | .ok runtime => .again { w with runtime, queue := rest }
    else
      match w.runtime.responseEx r.id r.tick [.number (dummyFd stamp recvfd).toInt] with
      | .error _ => .done (w, .throws)
      | .ok (true, runtime) => .again { w with runtime, queue := rest }
      | .ok (false, runtime) => .again { w with runtime, sock := .server (some recvfd) }

/-- The descriptor for the head of the queue: the one that is parked, or that of
a new connection. -/
def connect (r : Request) (rest : List Request) : Option Fd → Turn (Work n) (Work n × Exit)
  | some recvfd => { w with sock := .server none }.give fd r rest recvfd
  | none =>
    match w.accepts with
    | [] => w.leave
    | .wouldBlock :: accepts => { w with accepts }.leave
    | .fails :: accepts => .done ({ w with accepts }, .throws)
    | .fd recvfd time :: accepts =>
      { w with accepts, linkMap := Function.update w.linkMap recvfd (some (stampOf time)) }.give
        fd r rest recvfd

/-- A turn of the loop of `StreamServerStack::OnRecv`. -/
def serve (onFlyFd : Option Fd) : Turn (Work n) (Work n × Exit) :=
  match w.queue with
  | [] => w.leave
  | r :: rest =>
    match w.canceled .ACCEPT_POLL r with
    | .error _ => .done (w, .throws)
    | .ok true => .again (w.get rest)
    | .ok false => w.connect fd r rest onFlyFd

def turn : Turn (Work n) (Work n × Exit) :=
  match w.sock with
  | .link cache hanguped => w.response fd cache hanguped
  | .server onFlyFd => w.serve fd onFlyFd

end Work

-- ---------------------------------------------------------------------------
-- Requests of processes that are gone
-- ---------------------------------------------------------------------------

/-- The pid of the request is free, or that of another process. -/
def Dead (s : GLR.State n) (r : Request) : Bool :=
  match s.getNodeById r.id with
  | .ok p => decide (p ≠ r.owner)
  | .error _ => true

/-- As if the requests of gone processes had never been put. -/
def Work.forget (dead : Request → Bool) (w : Work n) : Work n :=
  { w with queue := w.queue.filter fun r => !dead r }

/-- Each request of a gone process is taken off the queue when its turn comes,
and nothing else is done about it; all the rest is as if there were none. -/
structure Unharmed (fd : Fd) (w : Work n) : Prop where
  discards : ∀ w', Visits (Work.turn fd) w w' → ∀ r rest, w'.queue = r :: rest → Dead w.runtime r →
    w'.turn fd = .again (w'.get rest)
  answers : ∀ w' e, Leaves (Work.turn fd) w (w', e) →
    Leaves (Work.turn fd) (w.forget (Dead w.runtime)) (w'.forget (Dead w.runtime), e)
  ends : ∀ w' e, Leaves (Work.turn fd) (w.forget (Dead w.runtime)) (w', e) →
    ∃ w'', Leaves (Work.turn fd) w (w'', e) ∧ w''.forget (Dead w.runtime) = w'

/-- The pid is in use by a process with another tick. -/
def Stale (s : GLR.State n) (r : Request) : Prop :=
  ∃ p, s.getNodeById r.id = .ok p ∧ (s.procs p).tick ≠ r.tick

/-- The pid is in use by a process that does not wait. -/
def Busy (s : GLR.State n) (r : Request) : Prop :=
  ∃ p, s.getNodeById r.id = .ok p ∧ (s.procs p).state.waits = false

/-- What makes the code pass over a request: on a link, a POLL of a free pid
with data in the cache, another request of a pid with another tick, or one that
could be answered to a process that does not wait; on a server, an ACCEPT of a
pid with another tick. -/
def Work.Skips (w : Work n) (r : Request) : Prop :=
  match w.sock with
  | .link cache _ =>
    if r.type = .POLL then cache ≠ [] ∧ w.runtime.getNodeById r.id = .error .notExist
    else Stale w.runtime r ∨
      (r.type = .RECV ∨ r.type = .RECV_LINE) ∧ (r.want cache).isSome ∧ Busy w.runtime r
  | .server _ => r.type ≠ .ACCEPT_POLL ∧ Stale w.runtime r

-- ---------------------------------------------------------------------------
-- The bus
-- ---------------------------------------------------------------------------

variable {fd recvfd : Fd} {w w₁ : Work n} {r : Request} {rest : List Request} {s : GLR.State n} {p : Obj}
  {cache : List UInt8} {hanguped : Bool} {poll : TaskType} {dead : Request → Bool}

theorem isCanceled_ok (hp : s.getNodeById r.id = .ok p) (tick : Nat) :
    s.isCanceled r.id tick = .ok (decide ((s.procs p).tick ≠ tick)) := by
  simp only [GLR.State.isCanceled, hp]

theorem responseEx_ok (hp : s.getNodeById r.id = .ok p) (tick : Nat) (vs : List GLR.Value) :
    s.responseEx r.id tick vs =
      .ok (if (s.procs p).tick = tick ∧ (s.procs p).state.waits then (true, s.wake p vs) else (false, s)) := by
  simp only [GLR.State.responseEx, GLR.State.withNode, hp]

theorem wake_ne (s : GLR.State n) (p : Obj) (vs : List GLR.Value) : s.wake p vs ≠ s := by
  intro h
  have hqueue := congrArg (fun s : GLR.State n => s.scheQueue.length) h
  simp at hqueue

theorem sendMsg_ne (s : GLR.State n) (p : Obj) (m : Msg) : s.sendMsg p m ≠ s := by
  intro h
  have hsame := GLR.sendMsg_changes (s := s) (p := p) m
  rw [h] at hsame
  exact hsame (GLR.Same.refl s)

@[simp] theorem get_runtime (w : Work n) (rest : List Request) : (w.get rest).runtime = w.runtime := rfl

@[simp] theorem get_queue (w : Work n) (rest : List Request) : (w.get rest).queue = rest := rfl

@[simp] theorem get_sock (w : Work n) (rest : List Request) : (w.get rest).sock = w.sock := rfl

@[simp] theorem get_accepts (w : Work n) (rest : List Request) : (w.get rest).accepts = w.accepts := rfl

theorem again_ne {w' : Work n} (hq : w'.queue = r :: rest) :
    (Turn.again w' : Turn (Work n) (Work n × Exit)) ≠ .again (w.get rest) := by
  intro h
  have hlen : w'.queue.length = (w.get rest).queue.length := by rw [Turn.again.inj h]
  simp [hq] at hlen

theorem again_runtime_ne {w' : Work n} (hr : w'.runtime ≠ w.runtime) :
    (Turn.again w' : Turn (Work n) (Work n × Exit)) ≠ .again (w.get rest) := by
  intro h
  exact hr (by rw [Turn.again.inj h, get_runtime])

-- ---------------------------------------------------------------------------
-- A turn with a request that is skipped
-- ---------------------------------------------------------------------------

theorem respond_skips_iff (hp : w.runtime.getNodeById r.id = .ok p)
    (htick : (w.runtime.procs p).tick = r.tick) (k : Option Nat) :
    w.respond cache hanguped r rest k = .again (w.get rest) ↔
      k.isSome ∧ (w.runtime.procs p).state.waits = false := by
  cases k with
  | none =>
    refine iff_of_false ?_ (by simp)
    cases hanguped <;> nofun
  | some k =>
    simp only [Work.respond, responseEx_ok hp, htick, true_and, Option.isSome_some]
    cases hw : (w.runtime.procs p).state.waits with
    | false => exact iff_of_true rfl rfl
    | true => exact iff_of_false (again_runtime_ne (wake_ne _ _ _)) (by simp)

theorem stale_iff (hp : s.getNodeById r.id = .ok p) : Stale s r ↔ (s.procs p).tick ≠ r.tick := by
  simp [Stale, hp]

theorem busy_iff (hp : s.getNodeById r.id = .ok p) : Busy s r ↔ (s.procs p).state.waits = false := by
  simp [Busy, hp]

theorem response_skips_iff (hsock : w.sock = .link cache hanguped) (hq : w.queue = r :: rest) :
    w.response fd cache hanguped = .again (w.get rest) ↔ w.Skips r := by
  have hskips : w.Skips r ↔
      if r.type = .POLL then cache ≠ [] ∧ w.runtime.getNodeById r.id = .error .notExist
      else Stale w.runtime r ∨
        (r.type = .RECV ∨ r.type = .RECV_LINE) ∧ (r.want cache).isSome ∧ Busy w.runtime r := by
    rw [Work.Skips, hsock]
  rw [hskips]
  simp only [Work.response, Work.canceled, hq]
  by_cases hpoll : r.type = .POLL
  · simp only [hpoll, ne_eq, not_true_eq_false, if_false, if_true]
    by_cases hc : cache = []
    · simp only [hc, not_true_eq_false, if_false, false_and, iff_false]
      exact again_ne hq
    · simp only [hc, not_false_eq_true, if_true, true_and, GLR.State.sendMsgToNode, GLR.State.withNode]
      cases hp : w.runtime.getNodeById r.id with
      | ok p => exact iff_of_false (again_runtime_ne (sendMsg_ne _ _ _)) fun herr => by cases herr
      | error e =>
        cases e with
        | notExist => exact iff_of_true rfl rfl
        | outside => exact absurd hp GLR.getNodeById_inside
  · simp only [hpoll, ne_eq, not_false_eq_true, if_true, if_false]
    cases hp : w.runtime.getNodeById r.id with
    | error e =>
      simp only [GLR.State.isCanceled, Stale, Busy, hp]
      exact iff_of_false (fun heq => by cases heq) (by rintro (⟨_, h, -⟩ | ⟨-, -, _, h, -⟩) <;> cases h)
    | ok p =>
      rw [isCanceled_ok hp, busy_iff hp, stale_iff hp]
      by_cases htick : (w.runtime.procs p).tick = r.tick
      · simp only [htick, ne_eq, not_true_eq_false, decide_false, false_or]
        cases htype : r.type with
        | RECV =>
          dsimp only
          rw [respond_skips_iff hp htick]
          simp [Task.want, htype]
        | RECV_LINE =>
          dsimp only
          rw [respond_skips_iff hp htick]
          simp [Task.want, htype]
        | POLL => exact absurd htype hpoll
        | ACCEPT | SEND | WEEP | ACCEPT_POLL => exact iff_of_false (again_ne hq) (by simp)
      · simp [htick]

/-- A request that is given a descriptor is not skipped. -/
theorem give_ne (hq : w₁.queue = r :: rest) (h : w₁.sock ≠ w.sock ∨ w₁.accepts ≠ w.accepts) :
    w₁.give fd r rest recvfd ≠ .again (w.get rest) := by
  have htaken : ∀ runtime, (Turn.again { w₁ with runtime, queue := rest } : Turn (Work n) (Work n × Exit)) ≠
      .again (w.get rest) := by
    intro runtime heq
    have heq := Turn.again.inj heq
    rcases h with hs | ha
    · exact hs (by rw [← get_sock w rest, ← heq])
    · exact ha (by rw [← get_accepts w rest, ← heq])
  have hparked : ∀ runtime, (Turn.again { w₁ with runtime, sock := .server (some recvfd) } :
      Turn (Work n) (Work n × Exit)) ≠ .again (w.get rest) := by
    exact fun runtime => again_ne hq
  unfold Work.give
  split
  · nofun
  · split
    · split
      · nofun
      · exact htaken _
    · split
      · nofun
      · exact htaken _
      · exact hparked _

theorem connect_ne {onFlyFd : Option Fd} (hsock : w.sock = .server onFlyFd) (hq : w.queue = r :: rest) :
    w.connect fd r rest onFlyFd ≠ .again (w.get rest) := by
  cases onFlyFd with
  | some recvfd => exact give_ne hq (.inl (by rw [hsock]; nofun))
  | none =>
    unfold Work.connect
    dsimp only
    split
    · simp [Work.leave]
    · simp [Work.leave]
    · nofun
    · next haccepts => exact give_ne hq (.inr (by rw [haccepts]; simp))

theorem serve_skips_iff {onFlyFd : Option Fd} (hsock : w.sock = .server onFlyFd)
    (hq : w.queue = r :: rest) :
    w.serve fd onFlyFd = .again (w.get rest) ↔ w.Skips r := by
  have hskips : w.Skips r ↔ r.type ≠ .ACCEPT_POLL ∧ Stale w.runtime r := by
    rw [Work.Skips, hsock]
  have hconnect : w.connect fd r rest onFlyFd ≠ .again (w.get rest) := connect_ne hsock hq
  rw [hskips]
  simp only [Work.serve, Work.canceled, hq]
  by_cases hpoll : r.type = .ACCEPT_POLL
  · simp only [hpoll, ne_eq, not_true_eq_false, if_false, false_and, iff_false]
    exact hconnect
  · simp only [hpoll, ne_eq, not_false_eq_true, if_true, true_and]
    cases hp : w.runtime.getNodeById r.id with
    | error e =>
      simp only [GLR.State.isCanceled, Stale, hp]
      exact iff_of_false (fun heq => by cases heq) (by rintro ⟨_, h, -⟩; cases h)
    | ok p =>
      rw [isCanceled_ok hp, stale_iff hp]
      by_cases htick : (w.runtime.procs p).tick = r.tick
      · simp only [htick, ne_eq, not_true_eq_false, decide_false, iff_false]
        exact hconnect
      · simp [htick]

theorem turn_skips_iff (hq : w.queue = r :: rest) :
    w.turn fd = .again (w.get rest) ↔ w.Skips r := by
  unfold Work.turn
  cases hsock : w.sock with
  | link cache hanguped => exact response_skips_iff hsock hq
  | server onFlyFd => exact serve_skips_iff hsock hq

-- ---------------------------------------------------------------------------
-- All the other turns
-- ---------------------------------------------------------------------------

def HeadKept (dead : Request → Bool) (w : Work n) : Prop := ∀ r ∈ w.queue.head?, dead r = false

theorem queue_forget (hq : w.queue = r :: rest) (hr : dead r = false) :
    (w.forget dead).queue = r :: rest.filter fun r => !dead r := by
  simp only [Work.forget, hq, List.filter_cons, hr, Bool.not_false, if_true]

theorem leave_forget (hw : HeadKept dead w) :
    (w.forget dead).leave = w.leave.map (Work.forget dead) (Prod.map (Work.forget dead) id) := by
  cases hq : w.queue with
  | nil =>
    have hq' : (w.forget dead).queue = [] := by simp only [Work.forget, hq, List.filter_nil]
    simp only [Work.leave, Turn.map, Prod.map, hq, hq', id]
  | cons r rest =>
    have hq' := queue_forget hq (hw r (by rw [hq]; rfl))
    simp only [Work.leave, Turn.map, Prod.map, hq, hq', id, reduceCtorEq, decide_false]

theorem respond_forget (hw : HeadKept dead w) (k : Option Nat) :
    (w.forget dead).respond cache hanguped r (rest.filter fun r => !dead r) k =
      (w.respond cache hanguped r rest k).map (Work.forget dead) (Prod.map (Work.forget dead) id) := by
  cases k with
  | none =>
    cases hanguped with
    | false => exact leave_forget hw
    | true => rfl
  | some k =>
    simp only [Work.respond, Work.forget]
    split <;> rfl

theorem give_forget (w : Work n) :
    (w.forget dead).give fd r (rest.filter fun r => !dead r) recvfd =
      (w.give fd r rest recvfd).map (Work.forget dead) (Prod.map (Work.forget dead) id) := by
  simp only [Work.give, Work.forget]
  split
  · rfl
  · split
    · split <;> rfl
    · split <;> rfl

theorem connect_forget (hw : HeadKept dead w) (onFlyFd : Option Fd) :
    (w.forget dead).connect fd r (rest.filter fun r => !dead r) onFlyFd =
      (w.connect fd r rest onFlyFd).map (Work.forget dead) (Prod.map (Work.forget dead) id) := by
  cases onFlyFd with
  | some recvfd => exact give_forget { w with sock := .server none }
  | none =>
    have haccepts : (w.forget dead).accepts = w.accepts := rfl
    simp only [Work.connect, haccepts]
    split
    · exact leave_forget hw
    · next accepts _ => exact leave_forget (w := { w with accepts }) hw
    · rfl
    · next recvfd time accepts _ =>
      exact give_forget
        { w with accepts, linkMap := Function.update w.linkMap recvfd (some (stampOf time)) }

/-- A turn with a request that is kept, or with none, is the same without the
others. -/
theorem turn_forget (hw : HeadKept dead w) :
    (w.forget dead).turn fd = (w.turn fd).map (Work.forget dead) (Prod.map (Work.forget dead) id) := by
  have hsock : (w.forget dead).sock = w.sock := rfl
  have hruntime : (w.forget dead).runtime = w.runtime := rfl
  unfold Work.turn
  rw [hsock]
  cases hq : w.queue with
  | nil =>
    have hq' : (w.forget dead).queue = [] := by simp only [Work.forget, hq, List.filter_nil]
    cases w.sock with
    | link cache hanguped =>
      simp only [Work.response, hq, hq']
      exact leave_forget hw
    | server onFlyFd =>
      simp only [Work.serve, hq, hq']
      exact leave_forget hw
  | cons r rest =>
    have hq' := queue_forget hq (hw r (by rw [hq]; rfl))
    cases w.sock with
    | link cache hanguped =>
      simp only [Work.response, Work.canceled, hq, hq', hruntime]
      split
      · rfl
      · rfl
      · split
        · exact respond_forget hw _
        · exact respond_forget hw _
        · split
          · split <;> rfl
          · rfl
        · rfl
    | server onFlyFd =>
      simp only [Work.serve, Work.canceled, hq, hq', hruntime]
      split
      · rfl
      · rfl
      · exact connect_forget hw _

-- ---------------------------------------------------------------------------
-- The loops
-- ---------------------------------------------------------------------------

theorem forgets_of_discards (dead : Request → Bool)
    (h : ∀ r rest, w.queue = r :: rest → dead r → w.turn fd = .again (w.get rest)) :
    Forgets (Work.turn fd) (Work.forget dead) (Prod.map (Work.forget dead) id) (fun w => w.queue.length) w := by
  by_cases hw : HeadKept dead w
  · exact .inr (turn_forget hw)
  · cases hq : w.queue with
    | nil => exact absurd (fun r hr => by rw [hq] at hr; cases hr) hw
    | cons r rest =>
      have hdead : dead r = true := by
        cases hr : dead r with
        | true => rfl
        | false =>
          refine absurd (fun r' hr' => ?_) hw
          rw [hq] at hr'
          obtain rfl := Option.some.inj hr'
          exact hr
      refine .inl ⟨w.get rest, h r rest hq hdead, ?_, ?_⟩
      · simp only [Work.forget, Work.get, hq, List.filter_cons, hdead, Bool.not_true, Bool.false_eq_true,
          if_false]
      · show rest.length < w.queue.length
        rw [hq]
        exact Nat.lt_succ_self _

/-- Requests of processes that are gone do no harm to a socket if and only if
the code skips each of them when its turn comes. -/
theorem unharmed_iff (fd : Fd) (w : Work n) :
    Unharmed fd w ↔ ∀ w', Visits (Work.turn fd) w w' → ∀ r rest, w'.queue = r :: rest →
      Dead w.runtime r → w'.Skips r := by
  constructor
  · intro h w' hw' r rest hq hdead
    exact (turn_skips_iff hq).mp (h.discards w' hw' r rest hq hdead)
  · intro h
    have hdiscards : ∀ w', Visits (Work.turn fd) w w' → ∀ r rest, w'.queue = r :: rest →
        Dead w.runtime r → w'.turn fd = .again (w'.get rest) := fun w' hw' r rest hq hdead =>
      (turn_skips_iff hq).mpr (h w' hw' r rest hq hdead)
    have hforgets := fun w' hw' => forgets_of_discards (Dead w.runtime) (hdiscards w' hw')
    refine ⟨hdiscards, fun w' e hleaves => hleaves.forget hforgets, fun w' e hleaves => ?_⟩
    obtain ⟨⟨w'', e'⟩, hr, hview⟩ := hleaves.recall hforgets
    obtain ⟨rfl, rfl⟩ := Prod.mk.inj hview
    exact ⟨w'', hr, rfl⟩

/-- The process of pid 199 is gone, that of pid 200 waits: a RECV of the one
takes the link from the other, an ACCEPT the server socket. -/
theorem gone_process_closes :
    (¬∀ (fd : Fd) (w : Work 0) cache hanguped, w.sock = .link cache hanguped → Unharmed fd w) ∧
      ¬∀ (fd : Fd) (w : Work 0) onFlyFd, w.sock = .server onFlyFd → Unharmed fd w := by
  constructor
  · intro h
    have hthrows := (h 7 ⟨threeWaiting, [⟨{ type := .RECV, pid := 199, len := 1, tick := 1 }, 9⟩,
      ⟨{ type := .RECV, pid := 200, len := 1, tick := 1 }, 0⟩], .link [65] false, [], fun _ => none⟩
      [65] false rfl).discards _ .refl _ _ rfl rfl
    cases hthrows
  · intro h
    have hthrows := (h 7 ⟨threeWaiting, [⟨{ type := .ACCEPT, pid := 199, tick := 1 }, 9⟩,
      ⟨{ type := .ACCEPT, pid := 200, tick := 1 }, 0⟩], .server none, [.fd 8 100], fun _ => none⟩
      none rfl).discards _ .refl _ _ rfl rfl
    cases hthrows

end GalaLua.Controllers.Requests
