import GalaLua.Controllers.Stacks
import GalaLua.GLR.Entries
import GalaLua.Library.Bytes
import Mathlib.Data.List.Pairwise

/-!
# Broken links

`OnErr` of the two kinds of sockets takes all tasks off the queues. What it does
for a task is `serveErr`, by the type of the task: a caller is woken with an
error, a poll gets a message, and some get nothing of the kind. `Served` collects
the effects on the processes; `onErr_answers_iff` compares them with what the
requests are owed.
-/

namespace GalaLua.Controllers

open GLR (Msg Miss Obj)

variable {n : Nat}

-- ---------------------------------------------------------------------------
-- The source
-- ---------------------------------------------------------------------------

/-- `2, LUA_TNIL, LUA_TSTRING, errmsg.c_str(), errmsg.size()` -/
def ioError : List GLR.Value := [.nil, .string "IO Error"]

/-- A `uint32_t` in a `GLRPROTOCOL`. -/
def uint32 (k : Nat) : List UInt8 := (Library.Endian.little.encode 4 k).map UInt8.ofBitVec

def SIZEOF_GLRPROTOCOL : Nat := 64

def IOCP : UInt8 := 8

def INT_NO : Nat := 1

/-- The message for a poll: length, type, sender and port, and 0 elsewhere. -/
def iocp (fd : Fd) : Msg :=
  .app (uint32 (SIZEOF_GLRPROTOCOL - 4) ++ [0, 0, 0, IOCP] ++ List.replicate 8 0 ++ uint32 fd ++
    List.replicate 20 0 ++ uint32 INT_NO ++ List.replicate 20 0)

/-- `int pid` -/
def Task.id (t : Task) : BitVec 32 := BitVec.ofNat 32 t.pid

/-- A loop that takes all tasks off a queue. -/
def drain (serve : GLR.State n → Task → Except Miss (GLR.State n)) :
    GLR.State n → List Task → Except Miss (GLR.State n × List Task)
  | s, [] => .ok (s, [])
  | s, t :: rest =>
    match serve s t with
    | .ok s => drain serve s rest
    | .error e => .error e

namespace StreamLinkStack

/-- The body of the first loop of `OnErr`. -/
def errRecv (fd : Fd) (s : GLR.State n) (t : Task) : Except Miss (GLR.State n) :=
  if t.type = .RECV then (s.responseEx t.id t.tick ioError).map (·.2)
  else if t.type = .POLL then s.sendMsgToNode t.id (iocp fd)
  else .ok s

def errSend (s : GLR.State n) (t : Task) : Except Miss (GLR.State n) := s.response t.id ioError

def onErr (fd : Fd) (s : GLR.State n) (ls : StreamLinkStack) :
    Except Miss (GLR.State n × StreamLinkStack) :=
  match drain (errRecv fd) s ls.recvTasks with
  | .error e => .error e
  | .ok (s, recvTasks) =>
    match drain errSend s ls.sendTasks with
    | .error e => .error e
    | .ok (s, sendTasks) => .ok (s, { ls with recvTasks, sendTasks })

end StreamLinkStack

namespace StreamServerStack

def onErr (s : GLR.State n) (ls : StreamServerStack) : Except Miss (GLR.State n × StreamServerStack) :=
  match drain (fun s t => s.response t.id ioError) s ls.recvTasks with
  | .error e => .error e
  | .ok (s, recvTasks) => .ok (s, { ls with recvTasks })

end StreamServerStack

inductive Socket
  | link (ls : StreamLinkStack)
  | server (ls : StreamServerStack)
  deriving DecidableEq, Repr

namespace Socket

/-- The pending requests, in the order of `onErr`. -/
def tasks : Socket → List Task
  | link ls => ls.recvTasks ++ ls.sendTasks
  | server ls => ls.recvTasks

def onErr (fd : Fd) (s : GLR.State n) : Socket → Except Miss (GLR.State n × Socket)
  | link ls => (ls.onErr fd s).map fun r => (r.1, .link r.2)
  | server ls => (ls.onErr s).map fun r => (r.1, .server r.2)

/-- The types that the calls put into the queues. -/
def Typed : Socket → Prop
  | link ls => (∀ t ∈ ls.recvTasks, t.type = .RECV ∨ t.type = .RECV_LINE ∨ t.type = .POLL) ∧
      ∀ t ∈ ls.sendTasks, t.type = .SEND
  | server ls => ∀ t ∈ ls.recvTasks, t.type = .ACCEPT ∨ t.type = .ACCEPT_POLL

instance : (k : Socket) → Decidable k.Typed
  | link ls => inferInstanceAs (Decidable ((∀ t ∈ ls.recvTasks, _) ∧ ∀ t ∈ ls.sendTasks, _))
  | server ls => inferInstanceAs (Decidable (∀ t ∈ ls.recvTasks, _))

end Socket

-- ---------------------------------------------------------------------------
-- What requests are owed
-- ---------------------------------------------------------------------------

/-- The types of requests whose callers are suspended; the others are polls. -/
def TaskType.suspends : TaskType → Bool
  | .RECV | .RECV_LINE | .SEND | .ACCEPT => true
  | .POLL | .ACCEPT_POLL | .WEEP => false

/-- Not two suspended callers that are one process. -/
def Apart (s : GLR.State n) (t t' : Task) : Prop :=
  t.type.suspends → t'.type.suspends → s.nodeMap t.pid ≠ s.nodeMap t'.pid

instance (s : GLR.State n) : Std.Symm (Apart s) := ⟨fun _ _ h hs' hs => (h hs hs').symm⟩

instance (s : GLR.State n) (t t' : Task) : Decidable (Apart s t t') :=
  inferInstanceAs (Decidable (_ → _ → _))

/-- The requests are of live processes, those with a suspended caller of
different ones, which wait for them; a SEND has no tick. -/
structure Pending (s : GLR.State n) (tasks : List Task) : Prop where
  live : ∀ t ∈ tasks, t.pid < GLR.MAX_PROCESS_ID ∧ (s.nodeMap t.pid).isSome
  waits : ∀ t ∈ tasks, t.type.suspends → ∀ p, s.nodeMap t.pid = some p →
    (s.procs p).state = .INT_WAIT ∧ (t.type ≠ .SEND → (s.procs p).tick = t.tick)
  apart : tasks.Pairwise (Apart s)

/-- The messages a process has, received or not. -/
def mail (x : GLR.Process) : List Msg :=
  (if x.state = .RECV_RETURN then x.ret.messages else []) ++ x.channel

/-- The process goes on once, with the error as the result of its call. -/
structure Woken (s s' : GLR.State n) (p : Obj) : Prop where
  state : (s'.procs p).state = .INT_RESP
  ret : (s'.procs p).ret = .values ioError
  queued : s'.scheQueue.count p = s.scheQueue.count p + 1

/-- Whether a task is one of `types` and of the process `p`. -/
def asks (s : GLR.State n) (types : TaskType → Bool) (p : Obj) (t : Task) : Bool :=
  types t.type && decide (s.nodeMap t.pid = some p)

/-- Every suspended caller gets the error, every poll a message, and no request
is left. -/
structure Answered (fd : Fd) (s : GLR.State n) (k : Socket) (s' : GLR.State n) (k' : Socket) : Prop where
  callers : ∀ t ∈ k.tasks, t.type.suspends → ∀ p, s.nodeMap t.pid = some p → Woken s s' p
  polls : ∀ p, mail (s'.procs p) = mail (s.procs p) ++
    List.replicate (k.tasks.countP (asks s (!·.suspends) p)) (iocp fd)
  empty : k'.tasks = []

/-- `OnErr` comes to its end and has answered. -/
def Socket.Answers (fd : Fd) (s : GLR.State n) (k : Socket) : Prop :=
  ∃ s' k', k.onErr fd s = .ok (s', k') ∧ Answered fd s k s' k'

/-- Nobody waits for a line, and no accept is polled for. -/
def Socket.Covered (k : Socket) : Prop := ∀ t ∈ k.tasks, t.type ≠ .RECV_LINE ∧ t.type ≠ .ACCEPT_POLL

instance (k : Socket) : Decidable k.Covered := inferInstanceAs (Decidable (∀ t ∈ k.tasks, _))

-- ---------------------------------------------------------------------------
-- One request
-- ---------------------------------------------------------------------------

/-- The types whose callers `OnErr` wakes, and those it sends a message for. -/
def TaskType.woken : TaskType → Bool
  | .RECV | .SEND | .ACCEPT => true
  | _ => false

def TaskType.told : TaskType → Bool
  | .POLL => true
  | _ => false

/-- What serving tasks does to the processes. -/
structure Served (fd : Fd) (s : GLR.State n) (tasks : List Task) (s' : GLR.State n) : Prop where
  nodeMap : s'.nodeMap = s.nodeMap
  woken : ∀ t ∈ tasks, t.type.woken → ∀ p, s.nodeMap t.pid = some p → Woken s s' p
  kept : ∀ p, (s.procs p).state ≠ .RECV_WAIT →
    (∀ t ∈ tasks, t.type.woken → s.nodeMap t.pid ≠ some p) →
    (s'.procs p).state = (s.procs p).state ∧ (s'.procs p).ret = (s.procs p).ret ∧
      (s'.procs p).tick = (s.procs p).tick ∧ s'.scheQueue.count p = s.scheQueue.count p
  mail : ∀ p, mail (s'.procs p) = mail (s.procs p) ++
    List.replicate (tasks.countP (asks s TaskType.told p)) (iocp fd)

variable {fd : Fd} {s s₁ s₂ : GLR.State n} {t : Task} {ts ts' : List Task} {p : Obj}

theorem suspends_of_woken {type : TaskType} (h : type.woken) : type.suspends := by
  cases type <;> first | rfl | cases h

theorem withNode_some {σ : Type} {i : Nat} (hi : i < GLR.MAX_PROCESS_ID)
    (hp : s.nodeMap i = some p) (absent : σ) (f : Obj → σ) :
    s.withNode (BitVec.ofNat 32 i) absent f = .ok (f p) := by
  have hint : (BitVec.ofNat 32 i).toInt = i := by
    unfold GLR.MAX_PROCESS_ID at hi
    rw [BitVec.toInt_eq_toNat_cond, BitVec.toNat_ofNat, Nat.mod_eq_of_lt (by omega), if_pos (by omega)]
  have hlive : s.Live (BitVec.ofNat 32 i).toInt := ⟨i, hint, hi, by rw [hp]; rfl⟩
  obtain ⟨q, hq, hmap⟩ := GLR.getNodeById_live hlive
  have hsize : GLR.sizeT (BitVec.ofNat 32 i) = i := by
    have hlt := (GLR.sizeT_lt_iff (BitVec.ofNat 32 i)).mpr (by omega)
    have := GLR.sizeT_eq hlt
    omega
  rw [hsize, hp] at hmap
  obtain rfl := Option.some.inj hmap
  simp only [GLR.State.withNode, hq]

theorem Served.nil (fd : Fd) (s : GLR.State n) : Served fd s [] s :=
  ⟨rfl, nofun, fun _ _ _ => ⟨rfl, rfl, rfl, rfl⟩, fun _ => (List.append_nil _).symm⟩

theorem served_skip (hw : t.type.woken = false) (ht : t.type.told = false) : Served fd s [t] s := by
  refine ⟨rfl, ?_, fun _ _ _ => ⟨rfl, rfl, rfl, rfl⟩, fun p => ?_⟩
  · rintro t' ht' hwoken
    rw [List.mem_singleton.mp ht', hw] at hwoken
    cases hwoken
  · simp only [List.countP_singleton, asks, ht, Bool.false_and, Bool.false_eq_true, if_false,
      List.replicate_zero, List.append_nil]

/-- Waking the process of a task that is owed it. -/
theorem served_wake (hw : t.type.woken) (ht : t.type.told = false) (hp : s.nodeMap t.pid = some p)
    (hwait : (s.procs p).state = .INT_WAIT) : Served fd s [t] (s.wake p ioError) := by
  refine ⟨rfl, ?_, ?_, ?_⟩
  · rintro t' ht' - q hq
    rw [List.mem_singleton.mp ht', hp] at hq
    obtain rfl := Option.some.inj hq
    refine ⟨?_, ?_, ?_⟩ <;> simp
  · rintro q - hother
    have hne : q ≠ p := by
      rintro rfl
      exact hother t List.mem_cons_self hw hp
    simp [Function.update_of_ne hne, hne.symm]
  · intro q
    simp only [List.countP_singleton, asks, ht, Bool.false_and, Bool.false_eq_true, if_false,
      List.replicate_zero, List.append_nil]
    by_cases hq : q = p
    · subst hq
      simp [mail, hwait]
    · simp [mail, Function.update_of_ne hq]

/-- A message for a process that has one request, a poll. -/
theorem served_send (hw : t.type.woken = false) (ht : t.type.told) (hp : s.nodeMap t.pid = some p) :
    Served fd s [t] (s.sendMsg p (iocp fd)) := by
  refine ⟨?_, ?_, ?_, ?_⟩
  · unfold GLR.State.sendMsg
    split <;> rfl
  · rintro t' ht' hwoken
    rw [List.mem_singleton.mp ht', hw] at hwoken
    cases hwoken
  · rintro q hq -
    unfold GLR.State.sendMsg
    split
    · next hc =>
      have hne : q ≠ p := by
        rintro rfl
        exact hq hc.2
      simp [Function.update_of_ne hne, hne.symm]
    · by_cases hqp : q = p
      · subst hqp
        simp
      · simp [Function.update_of_ne hqp]
  · intro q
    simp only [List.countP_singleton, asks, ht, hp, Bool.true_and, Option.some.injEq,
      decide_eq_true_eq]
    by_cases hqp : q = p
    · subst hqp
      unfold GLR.State.sendMsg
      split
      · next hc => simp [mail, hc.1, hc.2, GLR.Ret.messages]
      · by_cases hr : (s.procs q).state = .RECV_RETURN <;> simp [mail, hr]
    · unfold GLR.State.sendMsg
      have hne : ¬p = q := fun h => hqp h.symm
      rw [if_neg hne]
      split <;> simp [mail, Function.update_of_ne hqp]

-- ---------------------------------------------------------------------------
-- A queue of requests
-- ---------------------------------------------------------------------------

theorem Pending.other (h : Pending s (ts ++ ts')) {t' : Task} (ht : t ∈ ts) (ht' : t' ∈ ts')
    (hs : t.type.suspends) (hs' : t'.type.suspends) : s.nodeMap t.pid ≠ s.nodeMap t'.pid :=
  (List.pairwise_append.mp h.apart).2.2 t ht t' ht' hs hs'

theorem Pending.left (h : Pending s (ts ++ ts')) : Pending s ts :=
  ⟨fun t ht => h.live t (List.mem_append_left _ ht), fun t ht => h.waits t (List.mem_append_left _ ht),
    (List.pairwise_append.mp h.apart).1⟩

theorem Served.kept_of_pending (h : Served fd s ts s₁) (hp : Pending s (ts ++ ts')) (ht : t ∈ ts')
    (hs : t.type.suspends) (hq : s.nodeMap t.pid = some p) :
    (s₁.procs p).state = (s.procs p).state ∧ (s₁.procs p).ret = (s.procs p).ret ∧
      (s₁.procs p).tick = (s.procs p).tick ∧ s₁.scheQueue.count p = s.scheQueue.count p := by
  have hwait := (hp.waits t (List.mem_append_right _ ht) hs p hq).1
  refine h.kept p (by rw [hwait]; decide) fun t' ht' hw heq => ?_
  exact hp.other ht' ht (suspends_of_woken hw) hs (heq.trans hq.symm)

theorem Served.pending (h : Served fd s ts s₁) (hp : Pending s (ts ++ ts')) : Pending s₁ ts' := by
  refine ⟨fun t ht => ?_, fun t ht hs p hq => ?_, ?_⟩
  · rw [h.nodeMap]
    exact hp.live t (List.mem_append_right _ ht)
  · rw [h.nodeMap] at hq
    obtain ⟨hstate, -, htick, -⟩ := h.kept_of_pending hp ht hs hq
    rw [hstate, htick]
    exact hp.waits t (List.mem_append_right _ ht) hs p hq
  · unfold Apart
    rw [h.nodeMap]
    exact (List.pairwise_append.mp hp.apart).2.1

theorem Served.trans (h : Served fd s ts s₁) (h' : Served fd s₁ ts' s₂) (hp : Pending s (ts ++ ts')) :
    Served fd s (ts ++ ts') s₂ := by
  have hmap := h.nodeMap
  refine ⟨h'.nodeMap.trans hmap, ?_, ?_, fun p => ?_⟩
  · intro t ht hw p hq
    have hs := suspends_of_woken hw
    rcases List.mem_append.mp ht with ht | ht
    · have hwoken := h.woken t ht hw p hq
      have hother : ∀ t' ∈ ts', t'.type.woken → s₁.nodeMap t'.pid ≠ some p := by
        rintro t' ht' hw' heq
        exact hp.other ht ht' hs (suspends_of_woken hw') (hq.trans (hmap ▸ heq).symm)
      obtain ⟨hstate, hret, -, hcount⟩ := h'.kept p (by rw [hwoken.state]; decide) hother
      exact ⟨hstate.trans hwoken.state, hret.trans hwoken.ret, hcount.trans hwoken.queued⟩
    · obtain ⟨-, -, -, hcount⟩ := h.kept_of_pending hp ht hs hq
      have hwoken := h'.woken t ht hw p (hmap ▸ hq)
      exact ⟨hwoken.state, hwoken.ret, hwoken.queued.trans (by rw [hcount])⟩
  · intro p hstate hother
    obtain ⟨hstate₁, hret₁, htick₁, hcount₁⟩ :=
      h.kept p hstate fun t ht => hother t (List.mem_append_left _ ht)
    obtain ⟨hstate₂, hret₂, htick₂, hcount₂⟩ := h'.kept p (hstate₁ ▸ hstate)
      fun t ht => hmap ▸ hother t (List.mem_append_right _ ht)
    exact ⟨hstate₂.trans hstate₁, hret₂.trans hret₁, htick₂.trans htick₁, hcount₂.trans hcount₁⟩
  · have hasks : asks s₁ TaskType.told p = asks s TaskType.told p := by
      unfold asks
      rw [hmap]
    rw [h'.mail, h.mail, hasks, List.countP_append, List.replicate_add, List.append_assoc]

theorem drain_served {serve : GLR.State n → Task → Except Miss (GLR.State n)} (ts : List Task)
    (hserve : ∀ (s : GLR.State n), ∀ t ∈ ts, Pending s [t] → ∃ s', serve s t = .ok s' ∧ Served fd s [t] s')
    (hp : Pending s ts) : ∃ s', drain serve s ts = .ok (s', []) ∧ Served fd s ts s' := by
  induction ts generalizing s with
  | nil => exact ⟨s, rfl, .nil fd s⟩
  | cons t ts ih =>
    have hp : Pending s ([t] ++ ts) := hp
    obtain ⟨s₁, hs₁, hserved⟩ := hserve s t List.mem_cons_self hp.left
    obtain ⟨s₂, hs₂, hrest⟩ := ih (fun s t' ht' => hserve s t' (List.mem_cons_of_mem _ ht'))
      (hserved.pending hp)
    exact ⟨s₂, by simp only [drain, hs₁, hs₂], hserved.trans hrest hp⟩

-- ---------------------------------------------------------------------------
-- The handlers
-- ---------------------------------------------------------------------------

theorem Pending.process (h : Pending s [t]) :
    t.pid < GLR.MAX_PROCESS_ID ∧ ∃ p, s.nodeMap t.pid = some p := by
  obtain ⟨hpid, hsome⟩ := h.live t List.mem_cons_self
  exact ⟨hpid, Option.isSome_iff_exists.mp hsome⟩

theorem response_served (fd : Fd) (h : Pending s [t]) (hw : t.type.woken) (ht : t.type.told = false) :
    ∃ s', s.response t.id ioError = .ok s' ∧ Served fd s [t] s' := by
  obtain ⟨hpid, p, hp⟩ := h.process
  obtain ⟨hwait, -⟩ := h.waits t List.mem_cons_self (suspends_of_woken hw) p hp
  refine ⟨s.wake p ioError, ?_, served_wake hw ht hp hwait⟩
  rw [GLR.State.response, Task.id, withNode_some hpid hp, hwait]
  rfl

theorem errRecv_served (fd : Fd) (h : Pending s [t])
    (ht : t.type = .RECV ∨ t.type = .RECV_LINE ∨ t.type = .POLL) :
    ∃ s', StreamLinkStack.errRecv fd s t = .ok s' ∧ Served fd s [t] s' := by
  obtain ⟨hpid, p, hp⟩ := h.process
  rcases ht with ht | ht | ht
  · obtain ⟨hwait, htick⟩ := h.waits t List.mem_cons_self (by rw [ht]; rfl) p hp
    have htick := htick (by rw [ht]; decide)
    refine ⟨s.wake p ioError, ?_, served_wake (by rw [ht]; rfl) (by rw [ht]; rfl) hp hwait⟩
    rw [StreamLinkStack.errRecv, if_pos ht, GLR.State.responseEx, Task.id, withNode_some hpid hp, hwait,
      if_pos ⟨htick, rfl⟩]
    rfl
  · refine ⟨s, ?_, served_skip (by rw [ht]; rfl) (by rw [ht]; rfl)⟩
    rw [StreamLinkStack.errRecv, if_neg (by rw [ht]; decide), if_neg (by rw [ht]; decide)]
  · refine ⟨_, ?_, served_send (by rw [ht]; rfl) (by rw [ht]; rfl) hp⟩
    rw [StreamLinkStack.errRecv, if_neg (by rw [ht]; decide), if_pos ht, GLR.State.sendMsgToNode,
      Task.id, withNode_some hpid hp]

theorem link_served (fd : Fd) {ls : StreamLinkStack} (htyped : (Socket.link ls).Typed)
    (hp : Pending s (Socket.link ls).tasks) :
    ∃ s', ls.onErr fd s = .ok (s', { ls with recvTasks := [], sendTasks := [] }) ∧
      Served fd s (Socket.link ls).tasks s' := by
  obtain ⟨hrecv, hsend⟩ := htyped
  obtain ⟨s₁, hs₁, hserved₁⟩ := drain_served ls.recvTasks
    (fun s t ht h => errRecv_served fd h (hrecv t ht)) hp.left
  obtain ⟨s₂, hs₂, hserved₂⟩ := drain_served ls.sendTasks
    (fun s t ht h => response_served fd h (by rw [hsend t ht]; rfl) (by rw [hsend t ht]; rfl))
    (hserved₁.pending hp)
  have hs₁ : drain (StreamLinkStack.errRecv fd) s ls.recvTasks = .ok (s₁, []) := hs₁
  have hs₂ : drain StreamLinkStack.errSend s₁ ls.sendTasks = .ok (s₂, []) := hs₂
  exact ⟨s₂, by simp only [StreamLinkStack.onErr, hs₁, hs₂], hserved₁.trans hserved₂ hp⟩

theorem server_served (fd : Fd) {ls : StreamServerStack}
    (haccept : ∀ t ∈ ls.recvTasks, t.type = .ACCEPT) (hp : Pending s ls.recvTasks) :
    ∃ s', ls.onErr s = .ok (s', { ls with recvTasks := [] }) ∧ Served fd s ls.recvTasks s' := by
  obtain ⟨s', hs', hserved⟩ := drain_served ls.recvTasks
    (fun s t ht h => response_served fd h (by rw [haccept t ht]; rfl) (by rw [haccept t ht]; rfl))
    hp
  exact ⟨s', by simp only [StreamServerStack.onErr, hs'], hserved⟩

/-- `Response` gives nobody a message. -/
theorem response_mail (s : GLR.State n) (id : BitVec 32) (vs : List GLR.Value) :
    ∃ s', s.response id vs = .ok s' ∧ ∀ p, mail (s'.procs p) = mail (s.procs p) := by
  rcases GLR.withNode_ok s id s fun p => if (s.procs p).state.waits then s.wake p vs else s with h | ⟨p, h⟩
  · exact ⟨s, h, fun _ => rfl⟩
  · refine ⟨_, h, fun q => ?_⟩
    split
    · next hwaits =>
      by_cases hq : q = p
      · subst hq
        have hne : (s.procs q).state ≠ .RECV_RETURN := by
          intro hstate
          rw [hstate] at hwaits
          cases hwaits
        simp [mail, hne]
      · simp [mail, Function.update_of_ne hq]
    · rfl

theorem server_mail (s : GLR.State n) (ls : StreamServerStack) :
    ∃ s', ls.onErr s = .ok (s', { ls with recvTasks := [] }) ∧
      ∀ p, mail (s'.procs p) = mail (s.procs p) := by
  have hdrain : ∀ ts : List Task, ∃ s', drain (fun s t => s.response t.id ioError) s ts = .ok (s', []) ∧
      ∀ p, mail (s'.procs p) = mail (s.procs p) := by
    intro ts
    induction ts generalizing s with
    | nil => exact ⟨s, rfl, fun _ => rfl⟩
    | cons t ts ih =>
      obtain ⟨s₁, hs₁, hmail₁⟩ := response_mail s t.id ioError
      obtain ⟨s₂, hs₂, hmail₂⟩ := ih s₁
      exact ⟨s₂, by simp only [drain, hs₁, hs₂], fun p => (hmail₂ p).trans (hmail₁ p)⟩
  obtain ⟨s', hs', hmail⟩ := hdrain ls.recvTasks
  exact ⟨s', by simp only [StreamServerStack.onErr, hs'], hmail⟩

-- ---------------------------------------------------------------------------
-- Broken sockets
-- ---------------------------------------------------------------------------

variable {k k' : Socket} {s' : GLR.State n}

theorem Socket.Typed.ne_weep (h : k.Typed) (ht : t ∈ k.tasks) : t.type ≠ .WEEP := by
  intro hweep
  cases k with
  | link ls =>
    rcases List.mem_append.mp ht with ht | ht
    · have := h.1 t ht
      simp [hweep] at this
    · have := h.2 t ht
      simp [hweep] at this
  | server ls =>
    have := h t ht
    simp [hweep] at this

theorem answered_of_served (htyped : k.Typed) (hcov : k.Covered) (h : Served fd s k.tasks s')
    (hempty : k'.tasks = []) : Answered fd s k s' k' := by
  refine ⟨fun t ht hs p hp => ?_, fun p => ?_, hempty⟩
  · have hline := (hcov t ht).1
    have hwoken : t.type.woken := by
      revert hs hline
      cases t.type <;> simp [TaskType.suspends, TaskType.woken]
    exact h.woken t ht hwoken p hp
  · rw [h.mail]
    congr 2
    refine List.countP_congr fun t ht => ?_
    have hpoll := (hcov t ht).2
    have hweep := htyped.ne_weep ht
    have htype : t.type.told = !t.type.suspends := by
      revert hpoll hweep
      cases t.type <;> simp [TaskType.suspends, TaskType.told]
    rw [asks, asks, htype]

/-- The process of a RECV_LINE goes on waiting. -/
theorem line_unanswered (hp : Pending s k.tasks) (h : Served fd s k.tasks s') (ht : t ∈ k.tasks)
    (hline : t.type = .RECV_LINE) : ¬Answered fd s k s' k' := by
  intro hans
  have hs : t.type.suspends := by rw [hline]; rfl
  obtain ⟨p, hq⟩ := Option.isSome_iff_exists.mp (hp.live t ht).2
  have hwait := (hp.waits t ht hs p hq).1
  have hkept := h.kept p (by rw [hwait]; decide) fun t' ht' hw heq => by
    have hne : t ≠ t' := by
      rintro rfl
      rw [hline] at hw
      cases hw
    exact hp.apart.forall ht ht' hne hs (suspends_of_woken hw) (hq.trans heq.symm)
  have hwoken := (hans.callers t ht hs p hq).state
  rw [hkept.1, hwait] at hwoken
  cases hwoken

theorem accept_poll_unanswered (hp : Pending s k.tasks)
    (h : ∀ p, mail (s'.procs p) = mail (s.procs p)) (ht : t ∈ k.tasks)
    (hpoll : t.type = .ACCEPT_POLL) : ¬Answered fd s k s' k' := by
  intro hans
  obtain ⟨p, hq⟩ := Option.isSome_iff_exists.mp (hp.live t ht).2
  have hlen := congrArg List.length (hans.polls p)
  rw [h, List.length_append, List.length_replicate] at hlen
  have hpos : 0 < k.tasks.countP (asks s (!·.suspends) p) := by
    refine List.countP_pos_iff.mpr ⟨t, ht, ?_⟩
    simp [asks, hpoll, hq, TaskType.suspends]
  omega

theorem covered_of_answers (htyped : k.Typed) (hp : Pending s k.tasks) (h : k.Answers fd s) :
    k.Covered := by
  obtain ⟨s', k', hok, hans⟩ := h
  intro t ht
  cases k with
  | link ls =>
    obtain ⟨s₁, hs₁, hserved⟩ := link_served fd htyped hp
    simp only [Socket.onErr, hs₁, Except.map, Except.ok.injEq, Prod.mk.injEq] at hok
    obtain ⟨rfl, rfl⟩ := hok
    refine ⟨fun hline => line_unanswered hp hserved ht hline hans, fun hpoll => ?_⟩
    rcases List.mem_append.mp ht with ht | ht
    · have := htyped.1 t ht
      simp [hpoll] at this
    · have := htyped.2 t ht
      simp [hpoll] at this
  | server ls =>
    obtain ⟨s₁, hs₁, hmail⟩ := server_mail s ls
    simp only [Socket.onErr, hs₁, Except.map, Except.ok.injEq, Prod.mk.injEq] at hok
    obtain ⟨rfl, rfl⟩ := hok
    refine ⟨fun hline => ?_, fun hpoll => accept_poll_unanswered hp hmail ht hpoll hans⟩
    have := htyped t ht
    simp [hline] at this

theorem answers_of_covered (htyped : k.Typed) (hp : Pending s k.tasks) (hcov : k.Covered) :
    k.Answers fd s := by
  cases k with
  | link ls =>
    obtain ⟨s₁, hs₁, hserved⟩ := link_served fd htyped hp
    refine ⟨s₁, .link { ls with recvTasks := [], sendTasks := [] }, ?_,
      answered_of_served htyped hcov hserved rfl⟩
    rw [Socket.onErr, hs₁]
    rfl
  | server ls =>
    have haccept : ∀ t ∈ ls.recvTasks, t.type = .ACCEPT := fun t ht =>
      (htyped t ht).resolve_right (hcov t ht).2
    obtain ⟨s₁, hs₁, hserved⟩ := server_served fd haccept hp
    refine ⟨s₁, .server { ls with recvTasks := [] }, ?_, answered_of_served htyped hcov hserved rfl⟩
    rw [Socket.onErr, hs₁]
    rfl

/-- `OnErr` answers every pending request exactly once if and only if there is
no RECV_LINE and no ACCEPT_POLL among them. -/
theorem onErr_answers_iff (fd : Fd) (s : GLR.State n) (k : Socket) (htyped : k.Typed)
    (hp : Pending s k.tasks) : k.Answers fd s ↔ k.Covered :=
  ⟨covered_of_answers htyped hp, answers_of_covered htyped hp⟩

/-- The processes 200 to 202, each in its first suspended call. -/
def threeWaiting : GLR.State 0 :=
  { GLR.State.init 0 with
    nodeMap := fun i => if 200 ≤ i ∧ i < 203 then some (i - 200) else none
    procs := fun p => ⟨200 + p, 0, .INT_WAIT, 1, .none, false, []⟩ }

theorem pending_threeWaiting (hlive : ∀ t ∈ ts, 200 ≤ t.pid ∧ t.pid < 203) (htick : ∀ t ∈ ts, t.tick = 1)
    (hapart : ts.Pairwise (Apart threeWaiting)) : Pending threeWaiting ts := by
  refine ⟨fun t ht => ?_, fun t ht _ p _ => ⟨rfl, fun _ => (htick t ht).symm⟩, hapart⟩
  obtain ⟨hge, hlt⟩ := hlive t ht
  refine ⟨by unfold GLR.MAX_PROCESS_ID; omega, ?_⟩
  simp only [threeWaiting, if_pos (And.intro hge hlt), Option.isSome_some]

/-- A link with a RECV, a POLL and a SEND. -/
theorem onErr_answers_three :
    (Socket.link
      { recvTasks := [{ type := .RECV, pid := 200, len := 5, tick := 1 },
          { type := .POLL, pid := 201, tick := 1 }],
        sendTasks := [{ type := .SEND, pid := 202, tick := 1, buffer := [65] }] }).Answers
      7 threeWaiting :=
  (onErr_answers_iff 7 threeWaiting _ (by decide)
    (pending_threeWaiting (by decide) (by decide) (by decide))).mpr (by decide)

/-- Neither the caller of a RECV_LINE on a link nor that of an ACCEPT_POLL on a
server is answered. -/
theorem line_and_accept_poll_lost :
    (¬∀ ls : StreamLinkStack, (Socket.link ls).Typed → Pending threeWaiting (Socket.link ls).tasks →
      (Socket.link ls).Answers 7 threeWaiting) ∧
    ¬∀ ls : StreamServerStack, (Socket.server ls).Typed →
      Pending threeWaiting (Socket.server ls).tasks → (Socket.server ls).Answers 7 threeWaiting := by
  constructor
  · intro h
    have hp : Pending threeWaiting [{ type := .RECV_LINE, pid := 200, tick := 1 }] :=
      pending_threeWaiting (by decide) (by decide) (by decide)
    have hans := h { recvTasks := [{ type := .RECV_LINE, pid := 200, tick := 1 }] } (by decide) hp
    exact (covered_of_answers (by decide) hp hans _ List.mem_cons_self).1 rfl
  · intro h
    have hp : Pending threeWaiting [{ type := .ACCEPT_POLL, pid := 200, tick := 1 }] :=
      pending_threeWaiting (by decide) (by decide) (by decide)
    have hans := h { recvTasks := [{ type := .ACCEPT_POLL, pid := 200, tick := 1 }] } (by decide) hp
    exact (covered_of_answers (by decide) hp hans _ List.mem_cons_self).2 rfl

end GalaLua.Controllers
