import GalaLua.Controllers.Stacks
import GalaLua.Library.Transition

/-!
# Parked connections

A server socket with its callers, the connections that the kernel has for it,
and the poll worker in the loop of `StreamServerStack::OnRecv`. A connection
whose caller timed out between the two tests of its tick is parked in
`_OnFlyFd`. The loop gives it to the next task, but only the readiness of the
listening socket starts the loop: a request that is made while a connection is
parked waits for another connection (`parked_once_iff`).
-/

namespace GalaLua.Controllers.OnFly

open Library

/-- `_Tick`, and whether the process is in INT_WAIT. -/
structure Caller where
  tick : Nat
  waits : Bool
  deriving DecidableEq, Repr

/-- `backlog` has the connections that `Accept` will return; `accepted`,
`handed` and `made` are the connections it returned, those that tasks were given
and the tasks of all requests. -/
structure State where
  server : StreamServerStack := {}
  worker : Handler := .idle
  registered : Bool := false
  backlog : List Fd := []
  callers : Nat → Caller
  accepted : List Fd := []
  handed : List (Fd × Task) := []
  made : List Task := []

inductive Action
  | connect (recvfd : Fd)
  /-- `DoAccept` and `DoAcceptPoll` up to `Register(realFd, EV_IN)` -/
  | doAccept (pid : Nat)
  | doAcceptPoll (pid : Nat)
  | register
  /-- another completer wakes the process -/
  | wake (pid : Nat)
  | resume (pid : Nat)
  /-- the listening socket is reported to be readable -/
  | ready
  /-- a turn of the handler, at a time -/
  | work (time : Nat)
  deriving DecidableEq, Repr

namespace State

variable (fd : Fd) (s : State)

def caller (pid : Nat) (c : Caller) : State := { s with callers := Function.update s.callers pid c }

/-- What `ResponseEx` returns for a task. -/
def answers (t : Task) : Bool := (s.callers t.pid).tick == t.tick && (s.callers t.pid).waits

def Live (t : Task) : Prop := t.type = .ACCEPT_POLL ∨ s.answers t = true

instance (t : Task) : Decidable (s.Live t) := inferInstanceAs (Decidable (_ ∨ _))

/-- What the bus and the listening socket answer to the handler. -/
def choice (time : Nat) : Choice where
  accept :=
    match s.backlog with
    | [] => .wouldBlock
    | recvfd :: _ => .fd recvfd time
  canceled := s.server.recvTasks.head?.any fun t => (s.callers t.pid).tick != t.tick
  answered := s.server.recvTasks.head?.any s.answers

/-- A turn up to the descriptor for the head. -/
def onRecv (time : Nat) : State :=
  match s.server.onRecv fd (s.choice time) with
  | (server, .accepted fd recvfd) =>
    { s with
      server
      worker := .accepted fd recvfd
      backlog := s.backlog.tail
      accepted := s.accepted ++ [recvfd] }
  | (server, worker) => { s with server, worker }

/-- The rest of the turn. A caller that is answered waits no more. -/
def serve (recvfd : Fd) (time : Nat) : State :=
  match s.server.recvTasks with
  | [] => { s with worker := .onRecv fd }
  | t :: _ =>
    let s' := { s with server := s.server.serve recvfd (s.choice time).answered, worker := .onRecv fd }
    if t.type = .ACCEPT_POLL then { s' with handed := s.handed ++ [(recvfd, t)] }
    else if s.answers t then
      State.caller { s' with handed := s.handed ++ [(recvfd, t)] } t.pid ⟨t.tick, false⟩
    else s'

def work (time : Nat) : State :=
  match s.worker with
  | .onRecv _ => s.onRecv fd time
  | .accepted _ recvfd => { s with worker := .serve fd recvfd }
  | .serve _ recvfd => s.serve fd recvfd time
  | .recvLast _ => { s with worker := (Stack.server s.server).recvLast fd }
  | .recvRemove _ => { s with registered := false, worker := .idle }
  | _ => s

def next : Action → State
  | .connect recvfd => { s with backlog := s.backlog ++ [recvfd] }
  | .doAccept pid =>
    State.caller
      { s with
        server := s.server.putAcceptTask pid (s.callers pid).tick
        made := s.made ++ [{ type := .ACCEPT, pid, tick := (s.callers pid).tick }] }
      pid ⟨(s.callers pid).tick, true⟩
  | .doAcceptPoll pid =>
    { s with
      server := s.server.putAcceptPollTask pid
      made := s.made ++ [{ type := .ACCEPT_POLL, pid }] }
  | .register => { s with registered := true }
  | .wake pid => s.caller pid ⟨(s.callers pid).tick, false⟩
  | .resume pid => if (s.callers pid).waits then s else s.caller pid ⟨(s.callers pid).tick + 1, false⟩
  | .ready =>
    if s.worker = .idle ∧ s.registered ∧ s.backlog ≠ [] then { s with worker := .onRecv fd } else s
  | .work time => s.work fd time

end State

def State.init (callers : Nat → Caller) : State := { callers }

-- ---------------------------------------------------------------------------
-- What is asked
-- ---------------------------------------------------------------------------

/-- The worker is in the loop of `OnRecv`. -/
def inLoop : Handler → Bool
  | .onRecv _ | .accepted _ _ | .serve _ _ => true
  | _ => false

/-- The connection that was accepted and is not handed out yet. -/
def State.inHand (s : State) : List Fd :=
  match s.worker with
  | .accepted _ recvfd | .serve _ recvfd => [recvfd]
  | _ => s.server.onFlyFd.toList

/-- A connection is parked, and the worker is not about to hand it out. -/
def State.Parked (s : State) : Prop := inLoop s.worker = false ∧ s.server.onFlyFd ≠ none

instance (s : State) : Decidable s.Parked := inferInstanceAs (Decidable (_ ∧ _))

/-- What is asked of a step: every connection that was accepted is handed out
once or in hand, in order, to the requests in their order, each with a caller;
and none of these waits beside a parked connection. -/
structure Contract (fd : Fd) (s : State) (a : Action) : Prop where
  once : (s.next fd a).accepted = (s.next fd a).handed.map Prod.fst ++ (s.next fd a).inHand
  order : ((s.next fd a).handed.map Prod.snd).Sublist (s.next fd a).made
  live : ∀ x, (s.next fd a).handed = s.handed ++ [x] → s.Live x.2
  given : (s.next fd a).Parked → ∀ t ∈ (s.next fd a).server.recvTasks, ¬(s.next fd a).Live t

def Action.requests : Action → Bool
  | .doAccept _ | .doAcceptPoll _ => true
  | _ => false

/-- A request is not made while a connection is parked. -/
def Prompt (s : State) (a : Action) : Prop := a.requests → ¬s.Parked

-- ---------------------------------------------------------------------------
-- Steps
-- ---------------------------------------------------------------------------

variable {fd recvfd : Fd} {s : State} {a : Action} {t : Task} {rest : List Task} {time : Nat}

structure Good (s : State) : Prop where
  once : s.accepted = s.handed.map Prod.fst ++ s.inHand
  order : (s.handed.map Prod.snd ++ s.server.recvTasks).Sublist s.made
  /-- the task that a descriptor was taken for is still there -/
  busy : ∀ fd recvfd, s.worker = .accepted fd recvfd ∨ s.worker = .serve fd recvfd →
    s.server.recvTasks ≠ [] ∧ s.server.onFlyFd = none
  parked : s.Parked → s.server.recvTasks = []

theorem good_init (callers : Nat → Caller) : Good (State.init callers) :=
  ⟨rfl, List.Sublist.refl _, fun _ _ h => absurd h (by simp [State.init]), fun _ => rfl⟩

/-- A step that changes neither the socket nor the worker. -/
theorem Good.frame (h : Good s) {s' : State} (hserver : s'.server = s.server) (hworker : s'.worker = s.worker)
    (haccepted : s'.accepted = s.accepted) (hhanded : s'.handed = s.handed) (hmade : s'.made = s.made) :
    Good s' := by
  obtain ⟨honce, horder, hbusy, hparked⟩ := h
  unfold State.inHand at honce
  unfold State.Parked at hparked
  constructor
  · unfold State.inHand
    rw [haccepted, hhanded, hworker, hserver]
    exact honce
  · rw [hhanded, hserver, hmade]
    exact horder
  · rw [hworker, hserver]
    exact hbusy
  · unfold State.Parked
    rw [hworker, hserver]
    exact hparked

/-- A request is put while nothing is parked. -/
theorem Good.put (h : Good s) (hnot : ¬s.Parked) {s' : State}
    (hserver : s'.server = { s.server with recvTasks := s.server.recvTasks ++ [t] })
    (hworker : s'.worker = s.worker) (haccepted : s'.accepted = s.accepted) (hhanded : s'.handed = s.handed)
    (hmade : s'.made = s.made ++ [t]) : Good s' := by
  constructor
  · have honce := h.once
    unfold State.inHand at honce ⊢
    rw [haccepted, hhanded, hworker, hserver]
    exact honce
  · rw [hhanded, hserver, hmade]
    show (s.handed.map Prod.snd ++ (s.server.recvTasks ++ [t])).Sublist (s.made ++ [t])
    rw [← List.append_assoc]
    exact h.order.append (List.Sublist.refl [t])
  · rw [hworker, hserver]
    exact fun fd recvfd hw => ⟨by simp, (h.busy fd recvfd hw).2⟩
  · intro hparked
    unfold State.Parked at hparked
    rw [hworker, hserver] at hparked
    exact absurd hparked hnot

/-- The ways out of the first part of a turn. -/
theorem onRecv_cases (fd : Fd) (s : State) (time : Nat) :
    (s.server.recvTasks = [] ∨ s.server.onFlyFd = none) ∧
      s.onRecv fd time = { s with worker := .recvLast fd } ∨
    (∃ t rest, s.server.recvTasks = t :: rest ∧
      s.onRecv fd time = { s with server := { s.server with recvTasks := rest }, worker := .onRecv fd }) ∨
    (∃ recvfd, s.server.recvTasks ≠ [] ∧ s.server.onFlyFd = some recvfd ∧
      s.onRecv fd time = { s with server := { s.server with onFlyFd := none }, worker := .serve fd recvfd }) ∨
    ∃ recvfd, s.server.recvTasks ≠ [] ∧ s.server.onFlyFd = none ∧
      s.onRecv fd time =
        { s with
          worker := .accepted fd recvfd
          backlog := s.backlog.tail
          accepted := s.accepted ++ [recvfd] } := by
  unfold State.onRecv StreamServerStack.onRecv
  cases hq : s.server.recvTasks with
  | nil => exact .inl ⟨.inl rfl, rfl⟩
  | cons t rest =>
    by_cases hc : t.type ≠ .ACCEPT_POLL ∧ (s.choice time).canceled = true
    · simp only [if_pos hc]
      exact .inr (.inl ⟨t, rest, rfl, rfl⟩)
    · simp only [if_neg hc]
      cases hfly : s.server.onFlyFd with
      | some recvfd => exact .inr (.inr (.inl ⟨recvfd, by simp, rfl, by rw [hq]⟩))
      | none =>
        cases hbacklog : s.backlog with
        | nil =>
          simp only [State.choice, hbacklog]
          exact .inl ⟨.inr trivial, trivial⟩
        | cons recvfd backlog =>
          simp only [State.choice, hbacklog]
          exact .inr (.inr (.inr ⟨recvfd, by simp, trivial, rfl⟩))

/-- The ways out of the rest of a turn. -/
theorem serve_cases (fd recvfd : Fd) (s : State) (time : Nat) (hq : s.server.recvTasks = t :: rest) :
    (s.Live t ∧ ∃ callers, s.serve fd recvfd time =
      { s with
        server := { s.server with recvTasks := rest }
        worker := .onRecv fd
        handed := s.handed ++ [(recvfd, t)]
        callers }) ∨
    s.serve fd recvfd time =
      { s with server := { s.server with onFlyFd := some recvfd }, worker := .onRecv fd } := by
  have hanswered : (s.choice time).answered = s.answers t := by
    simp only [State.choice, hq, List.head?_cons, Option.any_some]
  simp only [State.serve, StreamServerStack.serve, hq, hanswered]
  by_cases hpoll : t.type = .ACCEPT_POLL
  · simp only [hpoll, true_or, if_true]
    exact .inl ⟨.inl hpoll, s.callers, rfl⟩
  · simp only [hpoll, false_or, if_false]
    cases hans : s.answers t with
    | true =>
      simp only [if_true]
      exact .inl ⟨.inr hans, _, rfl⟩
    | false =>
      simp only [Bool.false_eq_true, if_false]
      exact .inr trivial

theorem good_onRecv (h : Good s) {f : Fd} (hw : s.worker = .onRecv f) : Good (s.onRecv fd time) := by
  have honce := h.once
  rw [State.inHand, hw] at honce
  dsimp only at honce
  rcases onRecv_cases fd s time with ⟨hempty, hs⟩ | ⟨t, rest, hq, hs⟩ | ⟨recvfd, hq, hfly, hs⟩ |
    ⟨recvfd, hq, hfly, hs⟩
  · rw [hs]
    exact ⟨honce, h.order, nofun, fun hparked => hempty.resolve_right hparked.2⟩
  · rw [hs]
    refine ⟨honce, ?_, nofun, fun hparked => Bool.noConfusion hparked.1⟩
    have horder := h.order
    rw [hq] at horder
    exact (((List.sublist_cons_self t rest).append_left _).trans horder)
  · rw [hs]
    rw [hfly] at honce
    refine ⟨honce, h.order, fun f c hw => ⟨hq, rfl⟩, fun hparked => Bool.noConfusion hparked.1⟩
  · rw [hs]
    rw [hfly, Option.toList_none, List.append_nil] at honce
    refine ⟨?_, h.order, fun f c hw => ⟨hq, hfly⟩, fun hparked => Bool.noConfusion hparked.1⟩
    show s.accepted ++ [recvfd] = s.handed.map Prod.fst ++ [recvfd]
    rw [honce]

theorem good_serve (h : Good s) {f : Fd} (hw : s.worker = .serve f recvfd) :
    Good (s.serve fd recvfd time) ∧
      ∀ x, (s.serve fd recvfd time).handed = s.handed ++ [x] → s.Live x.2 := by
  obtain ⟨hne, hfly⟩ := h.busy f recvfd (.inr hw)
  have honce := h.once
  rw [State.inHand, hw] at honce
  dsimp only at honce
  obtain ⟨t, rest, hq⟩ := List.exists_cons_of_ne_nil hne
  rcases serve_cases fd recvfd s time hq with ⟨hlive, callers, hs⟩ | hs
  · rw [hs]
    refine ⟨⟨?_, ?_, nofun, fun hparked => Bool.noConfusion hparked.1⟩, fun x hx => ?_⟩
    · show s.accepted = (s.handed ++ [(recvfd, t)]).map Prod.fst ++ s.server.onFlyFd.toList
      rw [hfly, Option.toList_none, List.append_nil, List.map_append, honce]
      rfl
    · show ((s.handed ++ [(recvfd, t)]).map Prod.snd ++ rest).Sublist s.made
      have horder := h.order
      rw [hq] at horder
      rw [List.map_append, List.append_assoc]
      exact horder
    · have hx : s.handed ++ [(recvfd, t)] = s.handed ++ [x] := hx
      obtain rfl := List.singleton_inj.mp (List.append_cancel_left hx)
      exact hlive
  · rw [hs]
    refine ⟨⟨honce, h.order, nofun, fun hparked => Bool.noConfusion hparked.1⟩, fun x hx => ?_⟩
    have hlen := congrArg List.length hx
    simp at hlen

theorem good_work (h : Good s) (time : Nat) : Good (s.work fd time) := by
  have honce := h.once
  unfold State.inHand at honce
  unfold State.work
  cases hw : s.worker with
  | onRecv f => exact good_onRecv h hw
  | accepted f recvfd =>
    rw [hw] at honce
    exact ⟨honce, h.order, fun _ _ _ => h.busy f recvfd (.inl hw), fun hparked => Bool.noConfusion hparked.1⟩
  | serve f recvfd => exact (good_serve h hw).1
  | recvLast f =>
    rw [hw] at honce
    have hparked : s.server.onFlyFd ≠ none → s.server.recvTasks = [] := fun hfly =>
      h.parked ⟨by rw [hw]; rfl, hfly⟩
    dsimp only [Stack.recvLast]
    split
    · exact ⟨honce, h.order, nofun, fun hp => hparked hp.2⟩
    · exact ⟨honce, h.order, nofun, fun hp => hparked hp.2⟩
  | recvRemove f =>
    rw [hw] at honce
    exact ⟨honce, h.order, nofun, fun hp => h.parked ⟨by rw [hw]; rfl, hp.2⟩⟩
  | _ => exact h

theorem good_next (h : Good s) (hprompt : Prompt s a) : Good (s.next fd a) := by
  cases a with
  | connect recvfd => exact h.frame rfl rfl rfl rfl rfl
  | doAccept pid => exact h.put (hprompt rfl) rfl rfl rfl rfl rfl
  | doAcceptPoll pid => exact h.put (hprompt rfl) rfl rfl rfl rfl rfl
  | register => exact h.frame rfl rfl rfl rfl rfl
  | wake pid => exact h.frame rfl rfl rfl rfl rfl
  | resume pid =>
    unfold State.next
    dsimp only
    split
    · exact h
    · exact h.frame rfl rfl rfl rfl rfl
  | ready =>
    unfold State.next
    dsimp only
    split
    · next hready =>
      have honce := h.once
      unfold State.inHand at honce
      rw [hready.1] at honce
      exact ⟨honce, h.order, nofun, fun hparked => Bool.noConfusion hparked.1⟩
    · exact h
  | work time => exact good_work h time

/-- Only the second part of a turn hands a connection out. -/
theorem live_next (h : Good s) (x : Fd × Task) (hx : (s.next fd a).handed = s.handed ++ [x]) :
    s.Live x.2 := by
  have hsame : (s.next fd a).handed ≠ s.handed := by
    rw [hx]
    simp
  cases a with
  | resume pid =>
    unfold State.next at hsame
    dsimp only at hsame
    split at hsame <;> exact absurd rfl hsame
  | ready =>
    unfold State.next at hsame
    dsimp only at hsame
    split at hsame <;> exact absurd rfl hsame
  | work time =>
    unfold State.next State.work at hx hsame
    dsimp only at hx hsame
    cases hw : s.worker with
    | serve f recvfd =>
      rw [hw] at hx
      exact (good_serve h hw).2 x hx
    | onRecv f =>
      rw [hw] at hsame
      dsimp only at hsame
      rcases onRecv_cases fd s time with ⟨-, hs⟩ | ⟨_, _, -, hs⟩ | ⟨_, -, -, hs⟩ | ⟨_, -, -, hs⟩ <;>
        (rw [hs] at hsame; exact absurd rfl hsame)
    | _ =>
      rw [hw] at hsame
      exact absurd rfl hsame
  | _ => exact absurd rfl hsame

theorem contract_of_good (h : Good s) (hnext : Good (s.next fd a)) : Contract fd s a where
  once := hnext.once
  order := (List.sublist_append_left _ _).trans hnext.order
  live := live_next h
  given hparked t ht := by
    rw [hnext.parked hparked] at ht
    cases ht

/-- A request that is made while a connection is parked waits beside it. -/
theorem prompt_of_contract (hc : Contract fd s a) : Prompt s a := by
  intro hrequests hparked
  cases a with
  | doAccept pid =>
    refine hc.given hparked { type := .ACCEPT, pid, tick := (s.callers pid).tick } ?_ (.inr ?_)
    · exact List.mem_append_right _ (List.mem_singleton.mpr rfl)
    · simp [State.next, State.answers, State.caller]
  | doAcceptPoll pid =>
    refine hc.given hparked { type := .ACCEPT_POLL, pid } ?_ (.inl rfl)
    exact List.mem_append_right _ (List.mem_singleton.mpr rfl)
  | _ => cases hrequests

/-- For every order of connections, requests, time-outs and turns of the worker:
each connection is handed out once, in order and to a live request, and no live
request waits beside a parked connection, if and only if no request is made
while a connection is parked. -/
theorem parked_once_iff (fd : Fd) (callers : Nat → Caller) (as : List Action) :
    (∀ t ∈ turns (State.next fd) (State.init callers) as, Contract fd t.1 t.2) ↔
      ∀ t ∈ turns (State.next fd) (State.init callers) as, Prompt t.1 t.2 :=
  forall_turns_iff (I := Good)
    (fun _ _ h => ⟨prompt_of_contract, fun hp => contract_of_good h (good_next h hp)⟩)
    (fun _ _ h hc => good_next h (prompt_of_contract hc)) as (good_init callers)

/-- The caller of an accept times out before it is answered, and its connection
is parked. The next request is put beside it. -/
def parkedRun : List Action :=
  [.doAccept 1, .register, .connect 8, .ready, .work 100, .work 100, .wake 1, .resume 1, .work 100, .work 100,
    .work 100, .work 100, .work 100, .doAccept 2]

theorem parked_beside_request : ¬ ∀ (fd : Fd) (callers : Nat → Caller) (as : List Action),
    ∀ t ∈ turns (State.next fd) (State.init callers) as, Contract fd t.1 t.2 := by
  intro h
  have hcontract := h 7 (fun _ => ⟨0, false⟩) parkedRun _
    (mem_turns_append (State.next 7) _ (parkedRun.take 13) (.doAccept 2))
  exact prompt_of_contract hcontract rfl (by decide)

end GalaLua.Controllers.OnFly
