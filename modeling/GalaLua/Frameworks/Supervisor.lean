import GalaLua.Library.Transition
import Mathlib.Logic.Function.Basic
import Mathlib.Data.List.Nodup

/-!
# The supervisor

`core.supervisor` keeps an entry for each child under its gpid and starts a child
again when its EXIT message comes. It takes EXIT messages in the main loop and in
the waits of `start_process` and `stop_process`, which go by the gpid, too.

A child dies at any time, and the EXIT messages that are not taken yet are a set:
they come in any order, and a wait may end before one of them comes. The children
are counted, so that two of them with one gpid are told apart.
-/

namespace GalaLua.Frameworks.Supervisor

open Library Function

abbrev Pid := Nat

-- ---------------------------------------------------------------------------
-- Data
-- ---------------------------------------------------------------------------

inductive ProcessType
  | raw
  | gen
  deriving DecidableEq

/-- The parameters of `start_process`. -/
structure Params where
  /-- `none` is any other value -/
  processType : Option ProcessType
  /-- `mod_name` has `dispatcher` in it -/
  dispatcher : Bool
  /-- `process_params` has a `server_name` -/
  serverName : Bool
  /-- what is spawned -/
  process : Nat
  deriving DecidableEq

/-- An entry of `_processes`. -/
structure Info where
  startParams : Params
  id : Nat
  client : Bool
  tcpHandle : Option Nat
  /-- not in the source: the child that the entry was made for -/
  child : Nat
  deriving DecidableEq

/-- An entry is no parameter of `stop_process`: it has no field `process`. -/
def Info.process (_ : Info) : Option Pid := none

/-- Where the supervisor waits for a message. -/
inductive Wait
  | idle
  /-- in `start_process`, for the reply to `get_tcp_handle` -/
  | handle (child : Nat)
  /-- in `start_process`, for an EXIT of the new child -/
  | start (child : Nat) (tcpHandle : Option Nat)
  /-- in `start_process`, when there is no new child -/
  | noAddr
  /-- in `stop_process`, for the reply to `stop` -/
  | reply (addr : Pid) (restart : Option Params)
  /-- in `stop_process`, for an EXIT -/
  | stop (addr : Pid) (restart : Option Params)
  deriving DecidableEq

structure State where
  processes : Pid → Option Info
  id : Nat
  processesIndexedById : Nat → Option Info
  /-- the handles given to `glr.net.close` -/
  closed : List Nat
  wait : Wait
  -- the children
  count : Nat
  pid : Nat → Pid
  params : Nat → Params
  alive : Nat → Bool
  /-- the children whose EXIT was not taken yet -/
  exits : List Nat
  -- what happened to them
  recorded : Nat → Bool
  stopped : Nat → Bool
  /-- the calls of `start_process` for the EXIT of a child -/
  starts : Nat → List Params

def noParams : Params := ⟨none, false, false, 0⟩

def State.init : State :=
  ⟨fun _ => none, 0, fun _ => none, [], .idle, 0, fun _ => 0, fun _ => noParams, fun _ => false, [], fun _ => false,
    fun _ => false, fun _ => []⟩

-- ---------------------------------------------------------------------------
-- start_process
-- ---------------------------------------------------------------------------

def State.Unused (s : State) (p : Pid) : Prop := ∀ c < s.count, s.alive c = true → s.pid c ≠ p

instance (s : State) (p : Pid) : Decidable (s.Unused p) :=
  inferInstanceAs (Decidable (∀ c < s.count, s.alive c = true → s.pid c ≠ p))

/-- A new child with the gpid `p`. -/
def State.birth (s : State) (params : Params) (p : Pid) (wait : Wait) : State :=
  { s with
    count := s.count + 1
    pid := update s.pid s.count p
    params := update s.params s.count params
    alive := update s.alive s.count true
    wait := wait }

/-- `start_process` up to its first wait. `addr` is what `spawn` gives. -/
def State.startProcess (s : State) (params : Params) (addr : Option Pid) : Option State :=
  match params.processType, addr with
  | some .gen, some p =>
    if s.Unused p then
      some (s.birth params p (if params.dispatcher then .handle s.count else .start s.count none))
    else none
  | some .raw, some p => if s.Unused p then some (s.birth params p (.start s.count none)) else none
  -- `create_server` asserts that there is an address
  | some .gen, none => some { s with wait := .idle }
  | some .raw, none => some { s with wait := .noAddr }
  | none, none => some { s with wait := .noAddr }
  | none, some _ => none

/-- The rest of `start_process`. The address of a child with a server name is that
name, under which nothing is stored. -/
def State.started (s : State) (child : Nat) (tcpHandle : Option Nat) : State :=
  let params := s.params child
  let s := { s with id := s.id + 1, wait := .idle }
  if params.processType = some .gen ∧ params.serverName then s
  else
    let info : Info := ⟨params, s.id, decide (params.processType = some .gen), tcpHandle, child⟩
    { s with
      processes := update s.processes (s.pid child) (some info)
      processesIndexedById := update s.processesIndexedById s.id (some info)
      recorded := update s.recorded child true }

def State.take (s : State) (child : Nat) : State := { s with exits := s.exits.erase child }

-- ---------------------------------------------------------------------------
-- on_message
-- ---------------------------------------------------------------------------

/-- `on_message` with the EXIT of `child`. -/
def State.onExit (s : State) (child : Nat) (addr : Option Pid) : Option State :=
  let t := { s.take child with processes := update s.processes (s.pid child) none }
  match s.processes (s.pid child) with
  | none => some t
  | some info =>
    { t with
      closed := info.tcpHandle.toList ++ s.closed
      starts := update s.starts child (s.starts child ++ [info.startParams]) }.startProcess info.startParams addr

-- ---------------------------------------------------------------------------
-- stop_process
-- ---------------------------------------------------------------------------

def State.unrecord (s : State) (p : Pid) (child : Nat) (wait : Wait) : State :=
  { s with processes := update s.processes p none, stopped := update s.stopped child true, wait := wait }

/-- How a child is stopped: a service is asked to stop, and a process is killed. -/
def stopWait (processType : Option ProcessType) (client : Bool) (p : Pid) (restart : Option Params) : Wait :=
  match processType with
  -- the entry of a raw process has no client to ask
  | some .gen => if client then .reply p restart else .idle
  | _ => .stop p restart

/-- `stop_process` up to its first wait. What is killed dies at some later time. -/
def State.stopProcess (s : State) (process : Option Pid) (processType : Option ProcessType) (restart : Bool) : State :=
  match process with
  | none => s
  | some p =>
    match s.processes p with
    | none => s
    | some info =>
      s.unrecord p info.child (stopWait processType info.client p (if restart then some info.startParams else none))

/-- The end of `stop_process`, and of `restart_process`. -/
def State.stopDone (s : State) (restart : Option Params) (addr : Option Pid) : Option State :=
  match restart with
  | none => some { s with wait := .idle }
  | some params => s.startProcess params addr

/-- `stop_all`, the last child first. -/
def State.stopAll (s : State) : State :=
  (List.range s.id).reverse.foldl
    (fun s i => s.stopProcess ((s.processesIndexedById (i + 1)).bind Info.process) none false) s

/-- All children that have an entry are to be stopped. -/
def State.meantToStop (s : State) : State :=
  { s with stopped := fun c => s.stopped c || (s.processes (s.pid c)).any (·.child = c) }

-- ---------------------------------------------------------------------------
-- Steps
-- ---------------------------------------------------------------------------

inductive Act
  | startProcess (params : Params) (addr : Option Pid)
  | stopProcess (process : Option Pid) (processType : Option ProcessType)
  | stopAll
  | restartProcess (process : Option Pid) (processType : Option ProcessType)
  /-- the main loop takes an EXIT -/
  | onExit (child : Nat) (addr : Option Pid)
  /-- a wait for a reply ends -/
  | replied (tcpHandle : Option Nat)
  /-- a wait ends without an EXIT and, if it is for a reply, with an error -/
  | waited (addr : Option Pid)
  /-- a wait takes an EXIT -/
  | taken (child : Nat) (addr : Option Pid)
  | die (child : Nat)

/-- A wait that goes by the gpid takes the EXIT of `child`. -/
def State.taken (s : State) (child : Nat) (addr : Option Pid) : Option State :=
  match s.wait with
  | .idle => none
  -- the message is no reply: unpacking it raises an error
  | .handle n =>
    -- with a server name the wait goes by the gpid that has the name
    if s.pid child = s.pid n ∨ (s.params n).serverName then some { s.take child with wait := .idle } else none
  | .start n _ => if s.pid child = s.pid n then some { s.take child with wait := .idle } else none
  -- the condition of the wait raises an error, and the message is gone
  | .noAddr => some { s.take child with wait := .idle }
  | .reply p _ => if s.pid child = p then some { s.take child with wait := .idle } else none
  | .stop p restart => if s.pid child = p then (s.take child).stopDone restart addr else none

def step (s : State) : Act → Option State
  | .startProcess params addr => if s.wait = .idle then s.startProcess params addr else none
  | .stopProcess process processType => if s.wait = .idle then some (s.stopProcess process processType false) else none
  | .stopAll => if s.wait = .idle then some s.stopAll.meantToStop else none
  | .restartProcess process processType =>
    if s.wait = .idle then some (s.stopProcess process processType true) else none
  | .onExit child addr => if s.wait = .idle ∧ child ∈ s.exits then s.onExit child addr else none
  | .replied tcpHandle =>
    match s.wait with
    | .handle n => some { s with wait := .start n tcpHandle }
    | .reply p restart => some { s with wait := .stop p restart }
    | _ => none
  | .waited addr =>
    match s.wait with
    | .start n tcpHandle => some (s.started n tcpHandle)
    | .stop _ restart => s.stopDone restart addr
    | .idle => none
    | _ => some { s with wait := .idle }
  | .taken child addr => if child ∈ s.exits then s.taken child addr else none
  | .die child =>
    if s.alive child then some { s with alive := update s.alive child false, exits := child :: s.exits } else none

-- ---------------------------------------------------------------------------
-- The bookkeeping
-- ---------------------------------------------------------------------------

/-- The child is alive or its EXIT was not taken yet. -/
def State.Present (s : State) (c : Nat) : Prop := s.alive c = true ∨ c ∈ s.exits

instance (s : State) (c : Nat) : Decidable (s.Present c) := inferInstanceAs (Decidable (_ ∨ _))

/-- What the entries promise. -/
structure State.Good (s : State) : Prop where
  entry : ∀ p info, s.processes p = some info → s.pid info.child = p ∧ s.Present info.child
  /-- a recorded child is started again when its EXIT is taken, once and with its parameters -/
  restarted : ∀ c, s.recorded c = true → s.stopped c = false →
    s.starts c = if s.Present c then [] else [s.params c]
  stopped : ∀ c, s.stopped c = true → s.starts c = []

/-- No EXIT that is not taken yet has the gpid of the new child. -/
def State.Fresh (s : State) (addr : Option Pid) : Prop := ∀ p ∈ addr, ∀ c ∈ s.exits, s.pid c ≠ p

/-- In `start_process`, a wait that goes by a server name or by no address takes the EXIT of
the new child or of a child without an entry. -/
def State.Own (s : State) (c : Nat) : Wait → Prop
  | .handle n => s.pid c = s.pid n ∨ s.processes (s.pid c) = none
  | .noAddr => s.processes (s.pid c) = none
  | _ => True

/-- `stop_all` is used when there is no entry, a new child has a gpid of its own, and no wait
takes the EXIT of a child that has nothing to do with it. -/
def Ok (s : State) : Act → Prop
  | .startProcess _ addr => s.Fresh addr
  | .stopAll => ∀ c < s.count, s.processes (s.pid c) = none
  | .onExit c addr => (s.take c).Fresh addr
  | .waited addr => s.Fresh addr
  | .taken c addr => (s.take c).Fresh addr ∧ s.Own c s.wait
  | _ => True

instance (s : State) (addr : Option Pid) : Decidable (s.Fresh addr) :=
  match addr with
  | none => isTrue nofun
  | some p => decidable_of_iff (∀ c ∈ s.exits, s.pid c ≠ p) (by simp [State.Fresh])

instance (s : State) (c : Nat) : (w : Wait) → Decidable (s.Own c w)
  | .handle _ => inferInstanceAs (Decidable (_ ∨ _))
  | .noAddr => inferInstanceAs (Decidable (_ = _))
  | .idle | .start _ _ | .reply _ _ | .stop _ _ => isTrue trivial

instance (s : State) : (a : Act) → Decidable (Ok s a)
  | .startProcess _ addr => inferInstanceAs (Decidable (s.Fresh addr))
  | .stopAll => inferInstanceAs (Decidable (∀ c < s.count, s.processes (s.pid c) = none))
  | .onExit c addr => inferInstanceAs (Decidable ((s.take c).Fresh addr))
  | .waited addr => inferInstanceAs (Decidable (s.Fresh addr))
  | .taken c addr => inferInstanceAs (Decidable ((s.take c).Fresh addr ∧ s.Own c s.wait))
  | .stopProcess _ _ | .restartProcess _ _ | .replied _ | .die _ => isTrue trivial

-- ---------------------------------------------------------------------------
-- The invariant
-- ---------------------------------------------------------------------------

variable {s s' : State} {c n : Nat} {p : Pid} {info : Info} {params : Params} {addr : Option Pid} {w : Wait}

structure State.Inv (s : State) : Prop where
  lt : ∀ c, s.Present c → c < s.count
  nodup : s.exits.Nodup
  dead : ∀ c ∈ s.exits, s.alive c = false
  unique : ∀ c c', s.Present c → s.Present c' → s.pid c = s.pid c' → c = c'
  entry : ∀ p info, s.processes p = some info → s.pid info.child = p ∧ s.Present info.child ∧
    s.recorded info.child = true ∧ s.stopped info.child = false ∧ info.startParams = s.params info.child
  /-- a recorded child has an entry until its EXIT is taken -/
  held : ∀ c, s.recorded c = true → s.stopped c = false → s.Present c →
    ∃ info, s.processes (s.pid c) = some info ∧ info.child = c
  restarted : ∀ c, s.recorded c = true → s.stopped c = false →
    s.starts c = if s.Present c then [] else [s.params c]
  other : ∀ c, s.recorded c = false ∨ s.stopped c = true → s.starts c = []
  known : ∀ c, s.recorded c = true → c < s.count
  stopped_recorded : ∀ c, s.stopped c = true → s.recorded c = true

/-- What holds while the supervisor waits. -/
def State.Waits (s : State) : Prop :=
  match s.wait with
  | .handle n => s.Present n ∧ s.recorded n = false
  | .start n _ => s.Present n ∧ s.recorded n = false
  | .reply p _ => s.processes p = none
  | .stop p _ => s.processes p = none
  | _ => True

theorem State.Inv.good (h : s.Inv) : s.Good :=
  ⟨fun p info hp => ⟨(h.entry p info hp).1, (h.entry p info hp).2.1⟩, h.restarted, fun c hc => h.other c (.inr hc)⟩

theorem State.Inv.setWait (h : s.Inv) (w : Wait) : ({ s with wait := w } : State).Inv :=
  ⟨h.lt, h.nodup, h.dead, h.unique, h.entry, h.held, h.restarted, h.other, h.known, h.stopped_recorded⟩

theorem inv_init : State.init.Inv where
  lt := by rintro c (h | h) <;> cases h
  nodup := List.nodup_nil
  dead := nofun
  unique := by rintro c c' (h | h) <;> cases h
  entry := nofun
  held := nofun
  restarted := nofun
  other := fun _ _ => rfl
  known := nofun
  stopped_recorded := nofun

-- ---------------------------------------------------------------------------
-- Children come and go
-- ---------------------------------------------------------------------------

/-- A child that is not there has a number of its own after a birth. -/
theorem present_birth : (s.birth params p w).Present c ↔ c = s.count ∨ s.Present c := by
  rcases eq_or_ne c s.count with rfl | hne
  · simp [State.Present, State.birth]
  · simp [State.Present, State.birth, hne]

theorem State.Inv.birth (h : s.Inv) (hunused : s.Unused p) (hfresh : s.Fresh (some p)) (params : Params) (w : Wait) :
    (s.birth params p w).Inv := by
  have hnew : ¬ s.Present s.count := fun hc => Nat.lt_irrefl _ (h.lt _ hc)
  have hpid : ∀ c, s.Present c → s.pid c ≠ p := by
    intro c hc
    rcases hc with halive | hexit
    · exact hunused c (h.lt c (.inl halive)) halive
    · exact hfresh p rfl c hexit
  have hold : ∀ c, c ≠ s.count → (s.birth params p w).pid c = s.pid c ∧ (s.birth params p w).params c = s.params c :=
    fun c hc => ⟨update_of_ne hc _ _, update_of_ne hc _ _⟩
  have hself : (s.birth params p w).pid s.count = p := update_self ..
  have hrecorded : s.recorded s.count = false := by
    by_contra hr
    exact Nat.lt_irrefl _ (h.known _ (by simpa using hr))
  have hne : ∀ c, s.recorded c = true → c ≠ s.count := by
    rintro c hc rfl
    rw [hrecorded] at hc
    cases hc
  refine ⟨fun c hc => ?_, h.nodup, fun c hc => ?_, fun c c' hc hc' heq => ?_, fun q info hq => ?_, fun c hr hs hc => ?_,
    fun c hr hs => ?_, h.other, fun c hc => Nat.lt_succ_of_lt (h.known c hc), h.stopped_recorded⟩
  · rcases present_birth.mp hc with rfl | hc
    · exact Nat.lt_succ_self _
    · exact Nat.lt_succ_of_lt (h.lt c hc)
  · have hlt := h.lt c (.inr hc)
    show update s.alive s.count true c = false
    rw [update_of_ne (by omega)]
    exact h.dead c hc
  · rcases present_birth.mp hc with rfl | hc <;> rcases present_birth.mp hc' with rfl | hc'
    · rfl
    · rw [hself, (hold c' fun e => hnew (e ▸ hc')).1] at heq
      exact absurd heq.symm (hpid c' hc')
    · rw [hself, (hold c fun e => hnew (e ▸ hc)).1] at heq
      exact absurd heq (hpid c hc)
    · rw [(hold c fun e => hnew (e ▸ hc)).1, (hold c' fun e => hnew (e ▸ hc')).1] at heq
      exact h.unique c c' hc hc' heq
  · obtain ⟨hq, hc, hr, hs, hparams⟩ := h.entry q info hq
    obtain ⟨hpid', hparams'⟩ := hold _ (hne _ hr)
    exact ⟨hpid'.trans hq, present_birth.mpr (.inr hc), hr, hs, hparams.trans hparams'.symm⟩
  · rw [(hold c (hne c hr)).1]
    exact h.held c hr hs ((present_birth.mp hc).resolve_left (hne c hr))
  · have hiff : (s.birth params p w).Present c ↔ s.Present c := by
      rw [present_birth, or_iff_right (hne c hr)]
    rw [(hold c (hne c hr)).2]
    simp only [hiff]
    exact h.restarted c hr hs

theorem present_die (hc : s.alive c = true) (c' : Nat) :
    ({ s with alive := update s.alive c false, exits := c :: s.exits } : State).Present c' ↔ s.Present c' := by
  rcases eq_or_ne c' c with rfl | hne
  · simp [State.Present, hc]
  · simp [State.Present, hne]

theorem State.Inv.die (h : s.Inv) (hc : s.alive c = true) :
    ({ s with alive := update s.alive c false, exits := c :: s.exits } : State).Inv := by
  have hiff := present_die hc
  refine ⟨fun c' h' => h.lt c' ((hiff c').mp h'), List.nodup_cons.mpr ⟨fun hmem => ?_, h.nodup⟩, ?_,
    fun a b ha hb => h.unique a b ((hiff a).mp ha) ((hiff b).mp hb), fun p info hp => ?_,
    fun a hr hs ha => h.held a hr hs ((hiff a).mp ha), fun a hr hs => ?_, h.other, h.known, h.stopped_recorded⟩
  · rw [h.dead c hmem] at hc
    cases hc
  · rintro a ha
    rcases eq_or_ne a c with rfl | hne
    · exact update_self ..
    · exact (update_of_ne hne _ _).trans (h.dead a ((List.mem_cons.mp ha).resolve_left hne))
  · obtain ⟨hpid, hpresent, hrest⟩ := h.entry p info hp
    exact ⟨hpid, (hiff _).mpr hpresent, hrest⟩
  · simp only [hiff]
    exact h.restarted a hr hs

theorem present_take (h : s.Inv) (hc : c ∈ s.exits) (c' : Nat) : (s.take c).Present c' ↔ s.Present c' ∧ c' ≠ c := by
  have hdead := h.dead c hc
  rcases eq_or_ne c' c with rfl | hne
  · simp [State.Present, State.take, hdead, h.nodup.not_mem_erase]
  · simp [State.Present, State.take, hne, List.mem_erase_of_ne hne]

/-- The EXIT of a child without an entry is taken. -/
theorem State.Inv.take (h : s.Inv) (hc : c ∈ s.exits) (hno : s.recorded c = true → s.stopped c = true) :
    (s.take c).Inv := by
  have hiff := present_take h hc
  have hne : ∀ a, s.recorded a = true → s.stopped a = false → a ≠ c := by
    rintro a hr hs rfl
    rw [hno hr] at hs
    cases hs
  refine ⟨fun a ha => h.lt a ((hiff a).mp ha).1, h.nodup.erase c, fun a ha => h.dead a (List.mem_of_mem_erase ha),
    fun a b ha hb => h.unique a b ((hiff a).mp ha).1 ((hiff b).mp hb).1, fun p info hp => ?_,
    fun a hr hs ha => h.held a hr hs ((hiff a).mp ha).1, fun a hr hs => ?_, h.other, h.known, h.stopped_recorded⟩
  · obtain ⟨hpid, hpresent, hr, hs, hparams⟩ := h.entry p info hp
    exact ⟨hpid, (hiff _).mpr ⟨hpresent, hne _ hr hs⟩, hr, hs, hparams⟩
  · have hsame : (s.take c).Present a ↔ s.Present a := (hiff a).trans (and_iff_left (hne a hr hs))
    simp only [hsame]
    exact h.restarted a hr hs

/-- What has no entry under its gpid was stopped, if it was recorded. -/
theorem State.Inv.stopped_of_none (h : s.Inv) (hc : c ∈ s.exits) (hp : s.processes (s.pid c) = none)
    (hr : s.recorded c = true) : s.stopped c = true := by
  by_contra hs
  obtain ⟨info, hinfo, -⟩ := h.held c hr (by simpa using hs) (.inr hc)
  rw [hp] at hinfo
  cases hinfo

-- ---------------------------------------------------------------------------
-- Entries come and go
-- ---------------------------------------------------------------------------

theorem State.Inv.started (h : s.Inv) (hn : s.Present n) (hno : s.recorded n = false) (tcpHandle : Option Nat) :
    (s.started n tcpHandle).Inv := by
  have hstopped : s.stopped n = false := by
    by_contra hs
    rw [h.stopped_recorded n (by simpa using hs)] at hno
    cases hno
  rw [State.started]
  dsimp only
  split
  · exact ⟨h.lt, h.nodup, h.dead, h.unique, h.entry, h.held, h.restarted, h.other, h.known, h.stopped_recorded⟩
  refine ⟨h.lt, h.nodup, h.dead, h.unique, fun p info hp => ?_, fun c hr hs hc => ?_, fun c hr hs => ?_, fun c hc => ?_,
    fun c hr => ?_, fun c hs => ?_⟩
  · dsimp only at hp
    rcases eq_or_ne p (s.pid n) with rfl | hne
    · rw [update_self, Option.some.injEq] at hp
      subst hp
      exact ⟨rfl, hn, update_self .., hstopped, rfl⟩
    · rw [update_of_ne hne] at hp
      obtain ⟨hpid, hpresent, hr, hs, hparams⟩ := h.entry p info hp
      have hchild : info.child ≠ n := by
        rintro heq
        exact hne (hpid.symm.trans (congrArg s.pid heq))
      exact ⟨hpid, hpresent, (update_of_ne hchild _ _).trans hr, hs, hparams⟩
  · rcases eq_or_ne c n with rfl | hne
    · exact ⟨_, update_self .., rfl⟩
    · dsimp only at hr hs ⊢
      rw [update_of_ne hne] at hr
      have hpid : s.pid c ≠ s.pid n := fun heq => hne (h.unique c n hc hn heq)
      rw [update_of_ne hpid]
      exact h.held c hr hs hc
  · rcases eq_or_ne c n with rfl | hne
    · exact (h.other c (.inl hno)).trans (if_pos hn).symm
    · dsimp only at hr
      rw [update_of_ne hne] at hr
      exact h.restarted c hr hs
  · rcases eq_or_ne c n with rfl | hne
    · exact h.other c (.inl hno)
    · dsimp only at hc
      rw [update_of_ne hne] at hc
      exact h.other c hc
  · rcases eq_or_ne c n with rfl | hne
    · exact h.lt c hn
    · dsimp only at hr
      rw [update_of_ne hne] at hr
      exact h.known c hr
  · rcases eq_or_ne c n with rfl | hne
    · exact update_self ..
    · exact (update_of_ne hne _ _).trans (h.stopped_recorded c hs)

theorem unrecord_processes : (s.unrecord p c w).processes = update s.processes p none := rfl

theorem unrecord_stopped : (s.unrecord p c w).stopped = update s.stopped c true := rfl

theorem State.Inv.unrecord (h : s.Inv) (hp : s.processes p = some info) (w : Wait) :
    (s.unrecord p info.child w).Inv := by
  obtain ⟨hpid, hpresent, hr, hs, -⟩ := h.entry p info hp
  have hstarts : s.starts info.child = [] := (h.restarted _ hr hs).trans (if_pos hpresent)
  have hof : ∀ {c}, update s.stopped info.child true c = false → c ≠ info.child ∧ s.stopped c = false := by
    intro c hc
    rcases eq_or_ne c info.child with rfl | hne
    · rw [update_self] at hc
      cases hc
    · rw [update_of_ne hne] at hc
      exact ⟨hne, hc⟩
  refine ⟨h.lt, h.nodup, h.dead, h.unique, fun q info' hq => ?_, fun c hr' hs' hc => ?_,
    fun c hr' hs' => h.restarted c hr' (hof hs').2, fun c hc => ?_, h.known, fun c hs' => ?_⟩
  · have hne : q ≠ p := by
      rintro rfl
      rw [unrecord_processes, update_self] at hq
      cases hq
    rw [unrecord_processes, update_of_ne hne] at hq
    obtain ⟨hpid', hpresent', hr', hs', hparams⟩ := h.entry q info' hq
    have hchild : info'.child ≠ info.child := fun heq => hne (by rw [← hpid', ← hpid, heq])
    exact ⟨hpid', hpresent', hr', (update_of_ne hchild _ _).trans hs', hparams⟩
  · obtain ⟨hne, hs'⟩ := hof hs'
    obtain ⟨info', hinfo, hchild⟩ := h.held c hr' hs' hc
    have hpid' : s.pid c ≠ p := fun heq => hne (h.unique c _ hc hpresent (heq.trans hpid.symm))
    exact ⟨info', (update_of_ne hpid' _ _).trans hinfo, hchild⟩
  · rcases eq_or_ne c info.child with rfl | hne
    · exact hstarts
    · rw [unrecord_stopped, update_of_ne hne] at hc
      exact h.other c hc
  · rcases eq_or_ne c info.child with rfl | hne
    · exact hr
    · rw [unrecord_stopped, update_of_ne hne] at hs'
      exact h.stopped_recorded c hs'

/-- The state in which `on_message` calls `start_process`. -/
def State.restarting (s : State) (c : Nat) (info : Info) : State :=
  { s.take c with
    processes := update s.processes (s.pid c) none
    closed := info.tcpHandle.toList ++ s.closed
    starts := update s.starts c (s.starts c ++ [info.startParams]) }

theorem restarting_processes : (s.restarting c info).processes = update s.processes (s.pid c) none := rfl

theorem restarting_starts : (s.restarting c info).starts = update s.starts c (s.starts c ++ [info.startParams]) := rfl

theorem State.Inv.restarting (h : s.Inv) (hc : c ∈ s.exits) (hp : s.processes (s.pid c) = some info) :
    (s.restarting c info).Inv := by
  obtain ⟨hpid, hpresent, hr, hs, hparams⟩ := h.entry _ _ hp
  obtain rfl : info.child = c := h.unique _ _ hpresent (.inr hc) hpid
  have hiff := present_take h hc
  have hstarts : s.starts info.child = [] := (h.restarted _ hr hs).trans (if_pos hpresent)
  refine ⟨fun a ha => h.lt a ((hiff a).mp ha).1, h.nodup.erase _, fun a ha => h.dead a (List.mem_of_mem_erase ha),
    fun a b ha hb => h.unique a b ((hiff a).mp ha).1 ((hiff b).mp hb).1, fun p info' hq => ?_, fun a hr' hs' ha => ?_,
    fun a hr' hs' => ?_, fun a ha => ?_, h.known, h.stopped_recorded⟩
  · have hne : p ≠ s.pid info.child := by
      rintro rfl
      rw [restarting_processes, update_self] at hq
      cases hq
    rw [restarting_processes, update_of_ne hne] at hq
    obtain ⟨hpid', hpresent', hrest⟩ := h.entry p info' hq
    exact ⟨hpid', (hiff _).mpr ⟨hpresent', fun heq => hne (by rw [← hpid', heq])⟩, hrest⟩
  · obtain ⟨hpresent', hne⟩ := (hiff a).mp ha
    obtain ⟨info', hinfo, hchild⟩ := h.held a hr' hs' hpresent'
    have hpid' : s.pid a ≠ s.pid info.child := fun heq => hne (h.unique a _ hpresent' hpresent heq)
    exact ⟨info', (update_of_ne hpid' _ _).trans hinfo, hchild⟩
  · rcases eq_or_ne a info.child with rfl | hne
    · have hgone : ¬ (s.restarting info.child info).Present info.child := fun ha => ((hiff _).mp ha).2 rfl
      rw [if_neg hgone, restarting_starts, update_self, hstarts, hparams]
      rfl
    · have hsame : (s.restarting info.child info).Present a ↔ s.Present a := (hiff a).trans (and_iff_left hne)
      rw [restarting_starts, update_of_ne hne]
      simp only [hsame]
      exact h.restarted a hr' hs'
  · have hne : a ≠ info.child := by
      rintro rfl
      rcases ha with ha | ha
      · exact absurd (hr.symm.trans ha) (by decide)
      · exact absurd (hs.symm.trans ha) (by decide)
    exact (update_of_ne hne _ _).trans (h.other a ha)

-- ---------------------------------------------------------------------------
-- Steps keep the invariant
-- ---------------------------------------------------------------------------

theorem startProcess_cases (h : s.startProcess params addr = some s') :
    (∃ p w, addr = some p ∧ s.Unused p ∧ (w = .handle s.count ∨ w = .start s.count none) ∧ s' = s.birth params p w) ∨
      s' = { s with wait := .idle } ∨ s' = { s with wait := .noAddr } := by
  rw [State.startProcess.eq_def] at h
  split at h
  · next p htype =>
    split at h
    · next hunused =>
      refine .inl ⟨p, _, rfl, hunused, ?_, (Option.some.inj h).symm⟩
      split
      · exact .inl rfl
      · exact .inr rfl
    · cases h
  · next p htype =>
    split at h
    · next hunused => exact .inl ⟨p, _, rfl, hunused, .inr rfl, (Option.some.inj h).symm⟩
    · cases h
  · exact .inr (.inl (Option.some.inj h).symm)
  · exact .inr (.inr (Option.some.inj h).symm)
  · exact .inr (.inr (Option.some.inj h).symm)
  · cases h

theorem State.Inv.startProcess (h : s.Inv) (hfresh : s.Fresh addr) (hs : s.startProcess params addr = some s') :
    s'.Inv ∧ s'.Waits := by
  rcases startProcess_cases hs with ⟨p, w, rfl, hunused, hw, rfl⟩ | rfl | rfl
  · have hpresent : (s.birth params p w).Present s.count := present_birth.mpr (.inl rfl)
    have hno : s.recorded s.count = false := by
      by_contra hr
      exact Nat.lt_irrefl _ (h.known _ (by simpa using hr))
    refine ⟨h.birth hunused hfresh params w, ?_⟩
    rcases hw with rfl | rfl
    · exact ⟨hpresent, hno⟩
    · exact ⟨hpresent, hno⟩
  · exact ⟨h.setWait _, trivial⟩
  · exact ⟨h.setWait _, trivial⟩

theorem State.Inv.stopDone (h : s.Inv) {restart : Option Params} (hfresh : s.Fresh addr)
    (hs : s.stopDone restart addr = some s') : s'.Inv ∧ s'.Waits := by
  cases restart with
  | none =>
    cases hs
    exact ⟨h.setWait _, trivial⟩
  | some params => exact h.startProcess hfresh hs

theorem waits_unrecord (processType : Option ProcessType) (client : Bool) (restart : Option Params) :
    (s.unrecord p c (stopWait processType client p restart)).Waits := by
  have hnone : ∀ w, (s.unrecord p c w).processes p = none := fun w => update_self ..
  match processType, client with
  | none, _ => exact hnone _
  | some .raw, _ => exact hnone _
  | some .gen, true => exact hnone _
  | some .gen, false => trivial

theorem State.Inv.stopProcess (h : s.Inv) (hw : s.wait = .idle) (process : Option Pid) (processType : Option ProcessType)
    (restart : Bool) : (s.stopProcess process processType restart).Inv ∧ (s.stopProcess process processType restart).Waits := by
  have hidle : s.Waits := by
    rw [State.Waits, hw]
    trivial
  rw [State.stopProcess.eq_def]
  split
  · exact ⟨h, hidle⟩
  · next p =>
    split
    · exact ⟨h, hidle⟩
    · next info hinfo => exact ⟨h.unrecord hinfo _, waits_unrecord _ _ _⟩

/-- `stop_all` passes entries where parameters are expected, and stops nothing. -/
theorem stopAll_eq (s : State) : s.stopAll = s := by
  have hnone : ∀ i, (s.processesIndexedById i).bind Info.process = none := fun i => by
    cases s.processesIndexedById i <;> rfl
  have hloop : ∀ is : List Nat, is.foldl
      (fun t i => t.stopProcess ((t.processesIndexedById (i + 1)).bind Info.process) none false) s = s := by
    intro is
    induction is with
    | nil => rfl
    | cons i is ih => rw [List.foldl_cons, hnone, State.stopProcess, ih]
  exact hloop _

theorem State.Inv.meantToStop (h : s.Inv) (hnone : ∀ c < s.count, s.processes (s.pid c) = none) : s.meantToStop = s := by
  have hstopped : (fun c => s.stopped c || (s.processes (s.pid c)).any (·.child = c)) = s.stopped := by
    funext c
    cases hp : s.processes (s.pid c) with
    | none => simp
    | some info =>
      obtain ⟨hpid, hpresent, -⟩ := h.entry _ _ hp
      rw [← hpid, hnone _ (h.lt _ hpresent)] at hp
      cases hp
  rw [State.meantToStop, hstopped]

theorem State.Inv.onExit (h : s.Inv) (hw : s.wait = .idle) (hc : c ∈ s.exits) (hfresh : (s.take c).Fresh addr)
    (hs : s.onExit c addr = some s') : s'.Inv ∧ s'.Waits := by
  rw [State.onExit] at hs
  cases hp : s.processes (s.pid c) with
  | none =>
    rw [hp] at hs
    cases hs
    have hsame : update s.processes (s.pid c) none = s.processes := update_eq_self_iff.mpr hp.symm
    rw [hsame]
    refine ⟨h.take hc (h.stopped_of_none hc hp), ?_⟩
    show State.Waits { s.take c with processes := s.processes }
    rw [State.Waits]
    simp only [State.take, hw]
  | some info =>
    rw [hp] at hs
    exact (h.restarting hc hp).startProcess hfresh hs

theorem State.Inv.taken (h : s.Inv) (hwaits : s.Waits) (hc : c ∈ s.exits) (hok : Ok s (.taken c addr))
    (hs : s.taken c addr = some s') : s'.Inv ∧ s'.Waits := by
  obtain ⟨hfresh, hof⟩ := hok
  have hdone : (s.recorded c = true → s.stopped c = true) →
      ({ s.take c with wait := .idle } : State).Inv ∧ ({ s.take c with wait := .idle } : State).Waits :=
    fun hno => ⟨(h.take hc hno).setWait _, trivial⟩
  -- a wait for a new child takes the EXIT of that child
  have hself : ∀ {n}, s.Present n → s.recorded n = false → s.pid c = s.pid n → s.recorded c = true → s.stopped c = true := by
    intro n hn hno hpid hr
    rw [h.unique c n (.inr hc) hn hpid, hno] at hr
    cases hr
  rw [State.taken] at hs
  rw [State.Waits] at hwaits
  cases hw : s.wait with
  | idle =>
    rw [hw] at hs
    cases hs
  | handle n =>
    rw [hw] at hs hwaits hof
    dsimp only at hs
    split at hs
    · cases hs
      rcases hof with hpid | hp
      · exact hdone (hself hwaits.1 hwaits.2 hpid)
      · exact hdone (h.stopped_of_none hc hp)
    · cases hs
  | start n tcpHandle =>
    rw [hw] at hs hwaits
    dsimp only at hs
    split at hs
    · next hpid =>
      cases hs
      exact hdone (hself hwaits.1 hwaits.2 hpid)
    · cases hs
  | noAddr =>
    rw [hw] at hs hof
    cases hs
    exact hdone (h.stopped_of_none hc hof)
  | reply p restart =>
    rw [hw] at hs hwaits
    dsimp only at hs
    split at hs
    · next hpid =>
      cases hs
      exact hdone (h.stopped_of_none hc (by rw [hpid]; exact hwaits))
    · cases hs
  | stop p restart =>
    rw [hw] at hs hwaits
    dsimp only at hs
    split at hs
    · next hpid => exact (h.take hc (h.stopped_of_none hc (by rw [hpid]; exact hwaits))).stopDone hfresh hs
    · cases hs

theorem inv_step {a : Act} (h : s.Inv ∧ s.Waits) (hok : Ok s a) (hs : step s a = some s') : s'.Inv ∧ s'.Waits := by
  obtain ⟨h, hwaits⟩ := h
  cases a with
  | startProcess params addr =>
    simp only [step] at hs
    split at hs
    · exact h.startProcess hok hs
    · cases hs
  | stopProcess process processType =>
    simp only [step] at hs
    split at hs
    · next hw =>
      cases hs
      exact h.stopProcess hw _ _ _
    · cases hs
  | stopAll =>
    simp only [step] at hs
    split at hs
    · next hw =>
      cases hs
      rw [stopAll_eq, h.meantToStop hok]
      exact ⟨h, hwaits⟩
    · cases hs
  | restartProcess process processType =>
    simp only [step] at hs
    split at hs
    · next hw =>
      cases hs
      exact h.stopProcess hw _ _ _
    · cases hs
  | onExit c addr =>
    simp only [step] at hs
    split at hs
    · next hw => exact h.onExit hw.1 hw.2 hok hs
    · cases hs
  | replied tcpHandle =>
    rw [State.Waits] at hwaits
    simp only [step] at hs
    split at hs
    · next hw =>
      cases hs
      rw [hw] at hwaits
      exact ⟨h.setWait _, hwaits⟩
    · next hw =>
      cases hs
      rw [hw] at hwaits
      exact ⟨h.setWait _, hwaits⟩
    · cases hs
  | waited addr =>
    rw [State.Waits] at hwaits
    simp only [step] at hs
    split at hs
    · next hw =>
      cases hs
      rw [hw] at hwaits
      refine ⟨h.started hwaits.1 hwaits.2 _, ?_⟩
      rw [State.started]
      dsimp only
      split <;> trivial
    · exact h.stopDone hok hs
    · cases hs
    · cases hs
      exact ⟨h.setWait _, trivial⟩
  | taken c addr =>
    simp only [step] at hs
    split at hs
    · next hc => exact h.taken hwaits hc hok hs
    · cases hs
  | die c =>
    simp only [step] at hs
    split at hs
    · next hc =>
      cases hs
      refine ⟨h.die hc, ?_⟩
      rw [State.Waits] at hwaits ⊢
      cases hw : s.wait with
      | handle n =>
        rw [hw] at hwaits
        exact ⟨(present_die hc n).mpr hwaits.1, hwaits.2⟩
      | start n tcpHandle =>
        rw [hw] at hwaits
        exact ⟨(present_die hc n).mpr hwaits.1, hwaits.2⟩
      | reply p restart =>
        rw [hw] at hwaits
        exact hwaits
      | stop p restart =>
        rw [hw] at hwaits
        exact hwaits
      | idle => trivial
      | noAddr => trivial
    · cases hs

theorem onExit_enabled (hw : s.wait = .idle) (hc : c ∈ s.exits) : ∃ s', step s (.onExit c none) = some s' := by
  simp only [step, hw, hc, and_self, if_true, State.onExit]
  cases s.processes (s.pid c) with
  | none => exact ⟨_, rfl⟩
  | some info =>
    dsimp only
    generalize hp : info.startParams.processType = t
    match t with
    | none | some .raw | some .gen => exact ⟨_, by rw [State.startProcess.eq_def, hp]⟩

theorem inv_of_reach (h : Reach step Ok State.init s) : s.Inv ∧ s.Waits :=
  Reach.invariant (I := fun s => s.Inv ∧ s.Waits) ⟨inv_init, trivial⟩ (fun _ _ _ hi hok hs => inv_step hi hok hs) h

theorem State.Inv.processes_eq_none (h : s.Inv) (hnone : ∀ c < s.count, s.processes (s.pid c) = none) (p : Pid) :
    s.processes p = none := by
  by_contra hsome
  obtain ⟨info, hinfo⟩ := Option.ne_none_iff_exists'.mp hsome
  obtain ⟨rfl, hpresent, -⟩ := h.entry p info hinfo
  exact hsome (hnone _ (h.lt _ hpresent))

/-- In a run whose steps are all `Ok`, every state has its books in order, and the next EXIT
can be taken as soon as the supervisor does not wait. -/
theorem supervised (h : Reach step Ok State.init s) :
    s.Good ∧ (s.wait = .idle → ∀ c ∈ s.exits, ∃ s', step s (.onExit c none) = some s') := by
  exact ⟨(inv_of_reach h).1.good, fun hw c hc => onExit_enabled hw hc⟩

/-- A service is started, dies, is started again under the same gpid and is stopped. -/
def service : Params := ⟨some .gen, false, false, 1⟩

theorem supervised_service : ∃ s, Reach step Ok State.init s ∧ s.starts 0 = [service] ∧ s.stopped 1 = true ∧ s.Good := by
  obtain ⟨s, hreach, hs⟩ := @reach_of_runIf _ _ step Ok State.init _
    [.startProcess service (some 7), .waited none, .die 0, .onExit 0 (some 7), .waited none,
      .stopProcess (some 7) (some .gen), .replied none, .die 1, .taken 1 none]
    (fun s => decide (s.starts 0 = [service] ∧ s.stopped 1 = true)) (by decide)
  obtain ⟨hstarts, hstopped⟩ := of_decide_eq_true hs
  exact ⟨s, hreach, hstarts, hstopped, (supervised hreach).1⟩

-- ---------------------------------------------------------------------------
-- Runs that lose a child
-- ---------------------------------------------------------------------------

def State.lost (s : State) (p : Pid) : Bool := (s.processes p).any fun info => !decide (s.Present info.child)

theorem not_good_of_lost (h : s.lost p = true) : ¬ s.Good := by
  intro hgood
  obtain ⟨info, hinfo, hnot⟩ := (Option.any_eq_true ..).mp h
  simp [(hgood.entry p info hinfo).2] at hnot

/-- A new child gets the gpid of one whose EXIT was not taken yet; `stop_all` stops no one;
a `start_process` without an address loses the EXIT of another child. -/
theorem children_lost :
    (∃ s, run step State.init [.startProcess service (some 7), .waited none, .die 0, .startProcess service (some 7),
        .taken 0 none] = some s ∧ ¬ s.Good) ∧
      (∃ s, run step State.init [.startProcess service (some 7), .waited none, .stopAll, .die 0, .onExit 0 (some 8)] =
        some s ∧ ¬ s.Good) ∧
      ∃ s, run step State.init [.startProcess service (some 7), .waited none, .die 0,
        .startProcess { service with processType := some .raw } none, .taken 0 none] = some s ∧ ¬ s.Good := by
  refine ⟨?_, ?_, ?_⟩
  · obtain ⟨s, hs, hlost⟩ := (Option.any_eq_true ..).mp (show (run step State.init [.startProcess service (some 7),
      .waited none, .die 0, .startProcess service (some 7), .taken 0 none]).any (·.lost 7) = true by decide)
    exact ⟨s, hs, not_good_of_lost hlost⟩
  · obtain ⟨s, hs, hstarts⟩ := (Option.any_eq_true ..).mp (show (run step State.init [.startProcess service (some 7),
      .waited none, .stopAll, .die 0, .onExit 0 (some 8)]).any
        (fun s => decide (s.stopped 0 = true ∧ s.starts 0 ≠ [])) = true by decide)
    obtain ⟨hstopped, hne⟩ := of_decide_eq_true hstarts
    exact ⟨s, hs, fun hgood => hne (hgood.stopped 0 hstopped)⟩
  · obtain ⟨s, hs, hlost⟩ := (Option.any_eq_true ..).mp (show (run step State.init [.startProcess service (some 7),
      .waited none, .die 0, .startProcess { service with processType := some .raw } none, .taken 0 none]).any
        (·.lost 7) = true by decide)
    exact ⟨s, hs, not_good_of_lost hlost⟩

end GalaLua.Frameworks.Supervisor
