import GalaLua.GLR.Runtime
import GalaLua.Library.Words

/-!
# Entries by pid

The operations that are given a pid from outside: `Kill`, `SendMsgToNode`
and `Status` take a Lua number and convert it to an `int`, the operations
of `Bus` take an `int`. All but `Destory` look the process up by
`GetNodeById`. Each is one step here, as it is while no other thread holds a
lock of the process.
-/

namespace GalaLua.GLR

open Library.Words

variable {n : Nat}

-- ---------------------------------------------------------------------------
-- The table
-- ---------------------------------------------------------------------------

/-- What an operation that did not return was left by. -/
inductive Miss
  /-- the exception of `GetNodeById`, "Process Not Exist" -/
  | notExist
  /-- `NodeMap` was indexed outside of its bounds -/
  | outside
  deriving DecidableEq, Repr

/-- `(size_t)id` -/
def sizeT (id : BitVec 32) : Nat := (id.signExtend 64).toNat

namespace State

variable (s : State n)

/-- `NodeMap[id]` -/
def nodeAt (id : BitVec 32) : Except Miss (Option Obj) :=
  if sizeT id < MAX_PROCESS_ID then .ok (s.nodeMap (sizeT id)) else .error .outside

def getNodeById (id : BitVec 32) : Except Miss Obj :=
  if MAX_PROCESS_ID ≤ sizeT id then .error .notExist
  else
    match s.nodeAt id with
    | .error e => .error e
    | .ok none => .error .notExist
    | .ok (some p) => .ok p

/-- A handler that has nothing to do for a process that does not exist. -/
def withNode {σ : Type} (id : BitVec 32) (absent : σ) (f : Obj → σ) : Except Miss σ :=
  match s.getNodeById id with
  | .ok p => .ok (f p)
  | .error .notExist => .ok absent
  | .error .outside => .error .outside

-- ---------------------------------------------------------------------------
-- Process
-- ---------------------------------------------------------------------------

def sendMsg (p : Obj) (m : Msg) : State n :=
  if (s.procs p).channel = [] ∧ (s.procs p).state = .RECV_WAIT then s.handOver p m
  else s.modify p fun x => { x with channel := x.channel ++ [m] }

def sendMsgToNode (pid : BitVec 32) (m : Msg) : Except Miss (State n) :=
  s.withNode pid s fun p => s.sendMsg p m

def destory (pid : BitVec 32) : Except Miss (State n) :=
  match s.nodeAt pid with
  | .error e => .error e
  | .ok none => .ok s
  | .ok (some p) =>
    if (s.procs p).state.mortal then
      match s.sendMsgToNode (BitVec.ofNat 32 (s.procs p).parentId) (.exit (s.procs p).id) with
      | .error e => .error e
      | .ok s => .ok (s.remove p (sizeT pid))
    else .ok (s.modify p ({ · with killed := true }))

/-- The table that `Process::Status` returns, without its time stamps. -/
structure Status where
  state : PState
  scheTick : Nat
  msgNum : Nat
  deriving DecidableEq, Repr

def status (pid : BitVec 32) : Except Miss (Except String Status) :=
  s.withNode pid (.error "Process Not Exist") fun p =>
    .ok ⟨(s.procs p).state, (s.procs p).tick, (s.procs p).channel.length⟩

-- ---------------------------------------------------------------------------
-- Bus
-- ---------------------------------------------------------------------------

def timerSignal (pid : BitVec 32) (tick : Nat) : Except Miss (State n) :=
  s.withNode pid s fun p =>
    if (s.procs p).tick = tick ∧ (s.procs p).state.waits then s.wake p [] else s

/-- `Bus::IsCanceled`, which handles no exception. -/
def isCanceled (pid : BitVec 32) (tick : Nat) : Except Miss Bool :=
  match s.getNodeById pid with
  | .ok p => .ok (decide ((s.procs p).tick ≠ tick))
  | .error e => .error e

def responseEx (pid : BitVec 32) (tick : Nat) (vs : List Value) : Except Miss (Bool × State n) :=
  s.withNode pid (false, s) fun p =>
    if (s.procs p).tick = tick ∧ (s.procs p).state.waits then (true, s.wake p vs) else (false, s)

def response (pid : BitVec 32) (vs : List Value) : Except Miss (State n) :=
  s.withNode pid s fun p => if (s.procs p).state.waits then s.wake p vs else s

end State

-- ---------------------------------------------------------------------------
-- The entries
-- ---------------------------------------------------------------------------

/-- A call with a pid: of a whole Lua number, or of an `int`. -/
inductive Entry
  | kill (gpid : Int)
  | send (id : Int) (m : Msg)
  | status (pid : Int)
  | timerSignal (pid : BitVec 32) (tick : Nat)
  | response (pid : BitVec 32) (vs : List Value)
  | responseEx (pid : BitVec 32) (tick : Nat) (vs : List Value)
  | isCanceled (pid : BitVec 32) (tick : Nat)

def Entry.pid : Entry → Int
  | .kill pid | .send pid _ | .status pid => pid
  | .timerSignal pid _ | .response pid _ | .responseEx pid _ _ | .isCanceled pid _ => pid.toInt

/-- `int gpid = luaL_checkinteger(l, 1)` -/
def checkInt (pid : Int) : BitVec 32 := BitVec.ofInt 32 (checkInteger pid)

/-- The state after a call. -/
def State.perform (s : State n) : Entry → Except Miss (State n)
  | .kill gpid => s.destory (checkInt gpid)
  | .send id m => s.sendMsgToNode (checkInt id) m
  | .status pid => (s.status (checkInt pid)).map fun _ => s
  | .timerSignal pid tick => s.timerSignal pid tick
  | .response pid vs => s.response pid vs
  | .responseEx pid tick vs => (s.responseEx pid tick vs).map (·.2)
  | .isCanceled pid tick => (s.isCanceled pid tick).map fun _ => s

/-- The number is the pid of a process in the table. -/
def State.Live (s : State n) (pid : Int) : Prop :=
  ∃ i : Nat, pid = i ∧ i < MAX_PROCESS_ID ∧ (s.nodeMap i).isSome

/-- The processes, the table, the run queue and the counter are the same. -/
structure Same (s s' : State n) : Prop where
  procs : s'.procs = s.procs
  nodeMap : s'.nodeMap = s.nodeMap
  scheQueue : s'.scheQueue = s.scheQueue
  nodeCount : s'.nodeCount = s.nodeCount

structure Harmless (s : State n) (e : Entry) : Prop where
  inside : s.perform e ≠ .error .outside
  same : ∀ s', s.perform e = .ok s' → Same s s'

/-- What `Kill` and a send ask of the number that is left of a pid. -/
def Entry.Fine (s : State n) : Entry → Prop
  | .kill gpid => sizeT (checkInt gpid) < MAX_PROCESS_ID ∧
      ∀ p, s.nodeMap (sizeT (checkInt gpid)) = some p →
        (s.procs p).state.mortal = false ∧ (s.procs p).killed
  | .send id _ => ¬s.Live (checkInt id).toInt
  | _ => True

-- ---------------------------------------------------------------------------
-- Lookups
-- ---------------------------------------------------------------------------

variable {s s' : State n} {id : BitVec 32} {p : Obj}

theorem Same.refl (s : State n) : Same s s := ⟨rfl, rfl, rfl, rfl⟩

theorem sizeT_lt_iff (id : BitVec 32) :
    sizeT id < MAX_PROCESS_ID ↔ 0 ≤ id.toInt ∧ id.toInt < MAX_PROCESS_ID := by
  have hext : (id.signExtend 64).toInt = id.toInt := BitVec.toInt_signExtend_of_le (by decide)
  have hlt := (id.signExtend 64).isLt
  have hnat := BitVec.toInt_eq_toNat_cond (id.signExtend 64)
  have hlow := BitVec.le_toInt id
  have hhigh := BitVec.toInt_lt (x := id)
  rw [hext] at hnat
  unfold sizeT MAX_PROCESS_ID
  split at hnat <;> omega

theorem sizeT_eq (h : sizeT id < MAX_PROCESS_ID) : (sizeT id : Int) = id.toInt := by
  have hext : (id.signExtend 64).toInt = id.toInt := BitVec.toInt_signExtend_of_le (by decide)
  have hnat := BitVec.toInt_eq_toNat_cond (id.signExtend 64)
  rw [hext] at hnat
  unfold sizeT MAX_PROCESS_ID at *
  split at hnat <;> omega

theorem getNodeById_inside : s.getNodeById id ≠ .error .outside := by
  unfold State.getNodeById State.nodeAt
  split
  · nofun
  · next hlt =>
    rw [if_pos (Nat.lt_of_not_le hlt)]
    cases s.nodeMap (sizeT id) <;> nofun

theorem withNode_ok {σ : Type} (s : State n) (id : BitVec 32) (absent : σ) (f : Obj → σ) :
    s.withNode id absent f = .ok absent ∨ ∃ p, s.withNode id absent f = .ok (f p) := by
  unfold State.withNode
  cases hr : s.getNodeById id with
  | ok p => exact .inr ⟨p, rfl⟩
  | error e =>
    cases e with
    | notExist => exact .inl rfl
    | outside => exact absurd hr getNodeById_inside

theorem getNodeById_live (h : s.Live id.toInt) : ∃ p, s.getNodeById id = .ok p ∧
    s.nodeMap (sizeT id) = some p := by
  obtain ⟨i, hid, hi, hsome⟩ := h
  have hlt : sizeT id < MAX_PROCESS_ID := (sizeT_lt_iff id).mpr (by omega)
  have heq : sizeT id = i := by
    have := sizeT_eq hlt
    omega
  obtain ⟨p, hp⟩ := Option.isSome_iff_exists.mp hsome
  rw [← heq] at hp
  refine ⟨p, ?_, hp⟩
  simp only [State.getNodeById, if_neg (Nat.not_le.mpr hlt), State.nodeAt, if_pos hlt, hp]

theorem getNodeById_absent (h : ¬s.Live id.toInt) : s.getNodeById id = .error .notExist := by
  unfold State.getNodeById State.nodeAt
  split
  · rfl
  · next hlt =>
    have hlt' := Nat.lt_of_not_le hlt
    have hnone : s.nodeMap (sizeT id) = none := by
      cases hp : s.nodeMap (sizeT id) with
      | none => rfl
      | some p => exact absurd ⟨sizeT id, (sizeT_eq hlt').symm, hlt', by rw [hp]; rfl⟩ h
    simp only [if_pos hlt', hnone]

theorem withNode_absent {σ : Type} {absent : σ} {f : Obj → σ} (h : ¬s.Live id.toInt) :
    s.withNode id absent f = .ok absent := by
  simp only [State.withNode, getNodeById_absent h]

theorem status_ok (s : State n) (id : BitVec 32) : ∃ r, s.status id = .ok r := by
  rcases withNode_ok s id _ _ with h | ⟨p, h⟩
  · exact ⟨_, h⟩
  · exact ⟨_, h⟩

-- ---------------------------------------------------------------------------
-- What a process that was found undergoes
-- ---------------------------------------------------------------------------

theorem sendMsg_changes (m : Msg) : ¬Same s (s.sendMsg p m) := by
  rintro ⟨hprocs, -, hqueue, -⟩
  unfold State.sendMsg at hprocs hqueue
  split at hqueue
  · simp only [State.handOver, State.putTask, State.modify] at hqueue
    have := congrArg List.length hqueue
    simp at this
  · next hno =>
    rw [if_neg hno] at hprocs
    have hchannel := congrArg (fun f => (f p).channel.length) hprocs
    simp [State.modify] at hchannel

theorem sendMsg_nodeCount (m : Msg) : (s.sendMsg p m).nodeCount = s.nodeCount := by
  unfold State.sendMsg
  split <;> rfl

theorem sendMsgToNode_ok (s : State n) (id : BitVec 32) (m : Msg) :
    ∃ s', s.sendMsgToNode id m = .ok s' ∧ s'.nodeCount = s.nodeCount := by
  unfold State.sendMsgToNode
  rcases withNode_ok s id s fun p => s.sendMsg p m with h | ⟨p, h⟩
  · exact ⟨s, h, rfl⟩
  · exact ⟨_, h, sendMsg_nodeCount m⟩

theorem destory_mortal (hlt : sizeT id < MAX_PROCESS_ID) (hp : s.nodeMap (sizeT id) = some p)
    (hmortal : (s.procs p).state.mortal = true) :
    ∃ s', s.destory id = .ok s' ∧ s'.nodeCount = s.nodeCount - 1 := by
  obtain ⟨s₁, hsend, hcount⟩ := sendMsgToNode_ok s (BitVec.ofNat 32 (s.procs p).parentId)
    (.exit (s.procs p).id)
  refine ⟨s₁.remove p (sizeT id), ?_, ?_⟩
  · simp only [State.destory, State.nodeAt, if_pos hlt, hp, hmortal, if_true, hsend]
  · simp only [State.remove, hcount]

theorem destory_marked (hlt : sizeT id < MAX_PROCESS_ID) (hp : s.nodeMap (sizeT id) = some p)
    (hmortal : (s.procs p).state.mortal = false) :
    s.destory id = .ok (s.modify p ({ · with killed := true })) := by
  simp only [State.destory, State.nodeAt, if_pos hlt, hp, hmortal, Bool.false_eq_true, if_false]

/-- `Destory` leaves all as it is when the slot is empty, or has a process that
is already marked. -/
theorem destory_same_iff :
    (s.destory id ≠ .error .outside ∧ ∀ s', s.destory id = .ok s' → Same s s') ↔
      sizeT id < MAX_PROCESS_ID ∧ ∀ p, s.nodeMap (sizeT id) = some p →
        (s.procs p).state.mortal = false ∧ (s.procs p).killed := by
  by_cases hlt : sizeT id < MAX_PROCESS_ID
  swap
  · have hout : s.destory id = .error .outside := by
      simp only [State.destory, State.nodeAt, if_neg hlt]
    exact iff_of_false (fun h => h.1 hout) fun h => hlt h.1
  cases hp : s.nodeMap (sizeT id) with
  | none =>
    have hempty : s.destory id = .ok s := by simp only [State.destory, State.nodeAt, if_pos hlt, hp]
    rw [hempty]
    exact iff_of_true ⟨nofun, fun s' h => by cases h; exact .refl s⟩ ⟨hlt, nofun⟩
  | some p =>
    cases hmortal : (s.procs p).state.mortal with
    | true =>
      obtain ⟨s', hs', hcount⟩ := destory_mortal hlt hp hmortal
      refine iff_of_false (fun h => ?_) fun h => ?_
      · have := (h.2 s' hs').nodeCount
        omega
      · have := (h.2 p rfl).1
        rw [hmortal] at this
        cases this
    | false =>
      rw [destory_marked hlt hp hmortal]
      constructor
      · rintro ⟨-, h⟩
        have hkilled := congrFun (h _ rfl).procs p
        simp only [State.modify, Function.update_self] at hkilled
        refine ⟨hlt, fun p' hp' => ?_⟩
        obtain rfl := Option.some.inj hp'
        exact ⟨hmortal, by rw [← hkilled]⟩
      · rintro ⟨-, h⟩
        have hkilled := (h p rfl).2
        have hid : ({ s.procs p with killed := true } : Process) = s.procs p := by rw [← hkilled]
        refine ⟨nofun, fun s' hs' => ?_⟩
        cases hs'
        exact ⟨by simp only [State.modify, hid, Function.update_eq_self], rfl, rfl, rfl⟩

/-- A call with the pid of no process is harmless, but for a `Kill` or a send
whose pid is another number as an `int` (0 from 2^63 on), and a `Kill` beyond the
table. -/
theorem harmless_iff (s : State n) (e : Entry) (h : ¬s.Live e.pid) : Harmless s e ↔ e.Fine s := by
  have hsame : ∀ {r : Except Miss (State n)}, r = .ok s ∨ r = .error .notExist →
      r ≠ .error .outside ∧ ∀ s', r = .ok s' → Same s s' := by
    rintro r (rfl | rfl)
    · exact ⟨nofun, fun s' hs' => by cases hs'; exact .refl s⟩
    · exact ⟨nofun, nofun⟩
  have hquiet : s.perform e = .ok s ∨ s.perform e = .error .notExist → Harmless s e := fun hr =>
    ⟨(hsame hr).1, (hsame hr).2⟩
  cases e with
  | kill gpid =>
    constructor
    · rintro ⟨hin, hs⟩
      exact destory_same_iff.mp ⟨hin, hs⟩
    · intro hfine
      obtain ⟨hin, hs⟩ := destory_same_iff.mpr hfine
      exact ⟨hin, hs⟩
  | send id m =>
    by_cases hlive : s.Live (checkInt id).toInt
    · obtain ⟨p, hp, -⟩ := getNodeById_live hlive
      refine iff_of_false (fun hharm => ?_) fun hfine => hfine hlive
      refine sendMsg_changes (s := s) (p := p) m (hharm.same _ ?_)
      simp only [State.perform, State.sendMsgToNode, State.withNode, hp]
    · exact iff_of_true (hquiet (.inl (withNode_absent hlive))) hlive
  | status pid =>
    refine iff_of_true (hquiet (.inl ?_)) trivial
    obtain ⟨r, hr⟩ := status_ok s (checkInt pid)
    simp only [State.perform, hr, Except.map]
  | timerSignal pid tick => exact iff_of_true (hquiet (.inl (withNode_absent h))) trivial
  | response pid vs => exact iff_of_true (hquiet (.inl (withNode_absent h))) trivial
  | responseEx pid tick vs =>
    refine iff_of_true (hquiet (.inl ?_)) trivial
    simp only [State.perform, State.responseEx, withNode_absent (show ¬s.Live pid.toInt from h),
      Except.map]
  | isCanceled pid tick =>
    refine iff_of_true (hquiet (.inr ?_)) trivial
    simp only [State.perform, State.isCanceled, getNodeById_absent (show ¬s.Live pid.toInt from h),
      Except.map]

/-- A first process, which gets pid 0, and a second one with pid 129; 5 is free. -/
theorem harmless_free :
    Harmless (((State.init 1).createNode 0 0 0).createNode 129 129 0) (.kill 5) :=
  (harmless_iff _ (.kill 5) (by
    rintro ⟨i, hi, -, h⟩
    obtain rfl : i = 5 := (Int.ofNat_inj.mp hi).symm
    cases h)).mpr ⟨by decide, nofun⟩

/-- `glr.kill(-1)` reads before the table. -/
theorem kill_outside :
    ¬∀ (n : Nat) (s : State n) (e : Entry), ¬s.Live e.pid → Harmless s e := by
  intro h
  have hharm := h 1 (.init 1) (.kill (-1)) (by rintro ⟨i, -, -, h⟩; cases h)
  exact hharm.inside rfl

end GalaLua.GLR
