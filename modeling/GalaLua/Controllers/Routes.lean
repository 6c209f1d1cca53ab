import GalaLua.Library.Transition
import Mathlib.Data.List.Basic
import Mathlib.Logic.Function.Basic
import Mathlib.Tactic.Common

/-!
# Routes to the nodes

`_Router`, `_LinkMap` and the `_Id` of each link of the bus. The worker is one
thread; the calls of the processes run beside it, and only the removal of a
link, `DoNodeClose` and the second half of `DoNodeSend` take `_Mutex`. A
registration looks the id up and inserts it in two steps, from either side.

The descriptors come from the kernel, which gives a closed one out again even
when its link is still in the map; the map has 10240 slots. The removal of
a link copies its `_Id`, `RegisterTo` and `PutSendTask` copy the name of the own
host, to the end of a `GLRPROTOCOL`, whether there is room for it or not.
-/

namespace GalaLua.Controllers.Routes

open Library

abbrev Fd := Int

abbrev Id := List Char

abbrev Ref := Nat

abbrev Pid := Nat

/-- `_LinkMap(10240, NULL)` -/
def linkMapSize : Int := 10240

/-- `snprintf(id, sizeof(id), "%s::%d", host, port)` into 64 bytes. -/
def nodeId (host : List Char) (port : Int) : Id :=
  (host ++ "::".toList ++ (toString port).toList).take 63

structure Link where
  /-- `_Id`, empty until the link is registered -/
  id : Id
  /-- `_Sock->GetFD()`, which is -1 after `Close` -/
  fd : Fd
  deriving DecidableEq, Repr

inductive Work
  | idle
  /-- in `OnMessage`: `_Router` does not have the id of a REGISTER frame -/
  | register (fd : Fd) (r : Ref) (id : Id)
  /-- in the removal, with `_Mutex`: `_LinkMap[fd]` is `NULL` -/
  | remove (fd : Fd) (r : Ref)
  /-- in the removal, with `_Mutex`: the route is erased -/
  | discard (fd : Fd) (r : Ref)
  deriving DecidableEq, Repr

inductive Call
  | idle
  /-- in `DoNodeReg`: `_Router` does not have the id -/
  | nodeReg (id : Id)
  /-- in `DoNodeReg`: the link is in `_LinkMap` -/
  | insert (id : Id) (r : Ref) (fd : Fd)
  /-- in `DoNodeReg`: the route is in `_Router` -/
  | poll (fd : Fd)
  /-- in `DoNodeSend`: the route is looked up -/
  | nodeSend (id : Id) (fd : Fd)
  deriving DecidableEq, Repr

structure State where
  /-- `Runtime::Host()` -/
  host : List Char
  router : Id → Option Fd
  linkMap : Fd → Option Ref
  links : Ref → Link
  /-- the next object -/
  made : Ref
  /-- the descriptors `_Poller` waits for -/
  polled : Fd → Bool
  /-- the descriptors that are open -/
  opened : Fd → Bool
  work : Work
  call : Pid → Call
  /-- memory was used that belongs to no object, or to one of another class -/
  overrun : Bool

def State.init (host : List Char) : State where
  host := host
  router _ := none
  linkMap _ := none
  links _ := ⟨[], -1⟩
  made := 0
  polled _ := false
  opened _ := false
  work := .idle
  call _ := .idle
  overrun := false

inductive Action
  /-- `MessageServerStack::OnRecv` -/
  | accept (fd : Fd)
  /-- it throws, as `Accept` does -/
  | acceptFails
  /-- a REGISTER frame; `sent` is what `SegmentSend` returns -/
  | onMessage (fd : Fd) (host : List Char) (port : Int) (sent : Bool)
  | registered
  /-- an error of the link, or an exception of its handlers -/
  | onErr (fd : Fd)
  | erase
  | delete
  | doNodeReg (p : Pid) (host : List Char) (port : Int)
  /-- the socket and `RegisterTo` succeed, or they do not; `RegisterTo` needs a connection -/
  | registerTo (p : Pid) (fd : Fd)
  | cannotRegister (p : Pid) (connected : Bool)
  | insert (p : Pid)
  | pollerRegister (p : Pid)
  | doNodeSend (p : Pid) (host : List Char) (port : Int)
  /-- `len` is the length of the message -/
  | putSendTask (p : Pid) (len : Nat)
  | doNodeClose (host : List Char) (port : Int)
  deriving DecidableEq, Repr

namespace State

def Unopened (s : State) (fd : Fd) : Prop := 0 ≤ fd ∧ s.opened fd = false

instance (s : State) (fd : Fd) : Decidable (s.Unopened fd) :=
  inferInstanceAs (Decidable (_ ∧ _))

/-- The worker has `_Mutex` while it removes a link. -/
def locked (s : State) : Bool :=
  match s.work with
  | .remove _ _ | .discard _ _ => true
  | .idle | .register _ _ _ => false

/-- `_LinkMap[fd] = new MessageLinkStack(...)`, over what was there, or behind the last slot. -/
def newLink (s : State) (fd : Fd) (id : Id) : State :=
  { s with
    links := Function.update s.links s.made ⟨id, fd⟩
    made := s.made + 1
    linkMap := Function.update s.linkMap fd (some s.made)
    opened := Function.update s.opened fd true
    overrun := s.overrun || decide (linkMapSize ≤ fd) }

def close (s : State) (r : Ref) : State :=
  if (s.links r).fd = -1 then s
  else
    { s with
      links := Function.update s.links r { s.links r with fd := -1 }
      opened := Function.update s.opened (s.links r).fd false }

/-- `ConcurrentMap::insert` takes away the pair that was there. -/
def insert (s : State) (id : Id) (fd : Fd) : State :=
  { s with router := Function.update s.router id (some fd) }

def erase (s : State) (id : Id) : State :=
  { s with router := Function.update s.router id none }

def poll (s : State) (fd : Fd) : State :=
  { s with polled := Function.update s.polled fd true }

def setCall (s : State) (p : Pid) (c : Call) : State :=
  { s with call := Function.update s.call p c }

/-- `memcpy` to `_Host`, from which on a `GLRPROTOCOL` has 28 bytes, with `len` bytes of a message
behind it. What lies behind these is not followed. -/
def copyHost (s : State) (text : List Char) (len : Nat) : State :=
  { s with overrun := s.overrun || decide (28 + len < text.length) }

/-- `OnMessage` of a REGISTER frame, up to `has_key`. -/
def onMessage (s : State) (fd : Fd) (r : Ref) (id : Id) (sent : Bool) : State :=
  if sent = false then s.close r
  else if (s.router id).isSome then s.close r
  else { s with work := .register fd r id }

/-- The rest of it: the route, and then `_Id`, which no other thread reads. -/
def registered (s : State) (r : Ref) (id : Id) : State :=
  { s.insert id (s.links r).fd with
    links := Function.update s.links r { s.links r with id := id }
    work := .idle }

def doNodeReg (s : State) (p : Pid) (id : Id) : State :=
  if (s.router id).isSome then s else s.setCall p (.nodeReg id)

def doNodeSend (s : State) (p : Pid) (id : Id) : State :=
  match s.router id with
  | none => s
  | some fd => s.setCall p (.nodeSend id fd)

/-- The whole body has `_Mutex`. -/
def doNodeClose (s : State) (id : Id) : State :=
  match s.router id with
  | none => s
  | some fd =>
    match s.linkMap fd with
    | some r => s.close r
    | none => s.erase id

/-- One step of the worker or of a call. A link is the worker's alone, or the
call's, until it is in the map. -/
def step (s : State) : Action → Option State
  | .accept fd =>
    if s.work = .idle ∧ s.Unopened fd then some ((s.newLink fd []).poll fd) else none
  | .acceptFails =>
    -- `Run` takes the server for a `MessageLinkStack`, and copies its `_Id`
    if s.work = .idle then some { s with overrun := true } else none
  | .onMessage fd host port sent =>
    match s.linkMap fd with
    | some r =>
      -- `Recv` throws once the socket is closed
      if s.work = .idle ∧ s.polled fd = true ∧ (s.links r).fd ≠ -1 then
        some (s.onMessage fd r (nodeId host port) sent)
      else none
    | none => none
  | .registered =>
    match s.work with
    | .register _ r id => some (s.registered r id)
    | _ => none
  | .onErr fd =>
    match s.linkMap fd with
    | some r =>
      if s.work = .idle ∧ s.polled fd = true then
        some { s.copyHost (s.links r).id 0 with
          linkMap := Function.update s.linkMap fd none
          work := .remove fd r }
      else none
    | none => none
  | .erase =>
    match s.work with
    | .remove fd r => some { s.erase (s.links r).id with work := .discard fd r }
    | _ => none
  | .delete =>
    match s.work with
    | .discard fd r =>
      some { s.close r with polled := Function.update s.polled fd false, work := .idle }
    | _ => none
  | .doNodeReg p host port =>
    if s.call p = .idle then some (s.doNodeReg p (nodeId host port)) else none
  | .registerTo p fd =>
    match s.call p with
    | .nodeReg id =>
      if s.Unopened fd then
        some (((s.copyHost s.host 0).newLink fd id).setCall p (.insert id s.made fd))
      else none
    | _ => none
  | .cannotRegister p connected =>
    match s.call p with
    | .nodeReg _ => some ((if connected then s.copyHost s.host 0 else s).setCall p .idle)
    | _ => none
  | .insert p =>
    match s.call p with
    | .insert id _ fd => some ((s.insert id fd).setCall p (.poll fd))
    | _ => none
  | .pollerRegister p =>
    match s.call p with
    | .poll fd => some ((s.poll fd).setCall p .idle)
    | _ => none
  | .doNodeSend p host port =>
    if s.call p = .idle then some (s.doNodeSend p (nodeId host port)) else none
  | .putSendTask p len =>
    match s.call p with
    | .nodeSend _ fd =>
      if s.locked then none
      else if (s.linkMap fd).isSome then some (((s.copyHost s.host len).poll fd).setCall p .idle)
      else some (s.setCall p .idle)
    | _ => none
  | .doNodeClose host port =>
    if s.locked then none else some (s.doNodeClose (nodeId host port))

end State

-- ---------------------------------------------------------------------------
-- What is asked of the tables
-- ---------------------------------------------------------------------------

namespace State

def Quiet (s : State) : Prop := s.work = .idle ∧ ∀ p, s.call p = .idle

/-- A link is live while `_LinkMap` has it. -/
def Agrees (s : State) : Prop :=
  ∀ id fd, id ≠ [] → (s.router id = some fd ↔ ∃ r, s.linkMap fd = some r ∧ (s.links r).id = id)

/-- A send goes to the link that registered the id. -/
def Delivers (s : State) (a : Action) : Prop :=
  ∀ p len id fd r, a = .putSendTask p len → s.call p = .nodeSend id fd → s.linkMap fd = some r →
    (s.links r).id = id

def Removes (s : State) (id : Id) (fd : Fd) : Prop :=
  ∃ r, s.work = .remove fd r ∧ (s.links r).id = id

/-- A route is lost only with its own link. -/
def Keeps (s s' : State) : Prop :=
  ∀ id fd, s.router id = some fd → s'.router id = some fd ∨ s.Removes id fd

end State

def Work.uses : Work → Fd → Prop
  | .idle, _ => False
  | .register fd _ _, fd' => fd = fd'
  | .remove fd _, fd' => fd = fd'
  | .discard fd _, fd' => fd = fd'

def Call.uses : Call → Fd → Prop
  | .idle, _ => False
  | .nodeReg _, _ => False
  | .insert _ _ fd, fd' => fd = fd'
  | .poll fd, fd' => fd = fd'
  | .nodeSend _ fd, fd' => fd = fd'

namespace State

/-- Nothing of the bus names the descriptor any more. -/
structure Unused (s : State) (fd : Fd) : Prop where
  linkMap : s.linkMap fd = none
  router : ∀ id, s.router id ≠ some fd
  polled : s.polled fd = false
  work : ¬ s.work.uses fd
  call : ∀ p, ¬ (s.call p).uses fd

/-- A link that has an id registers no other one, an id that was not there at
the look-up is still not there at the insert, the kernel gives out only
descriptors that nothing names any more and the map has slots for, `Accept`
has a connection, and what is copied fits. -/
def Orderly (s : State) : Action → Prop
  | .accept fd => s.Unused fd ∧ fd < linkMapSize
  | .acceptFails => False
  | .registerTo _ fd => s.Unused fd ∧ fd < linkMapSize ∧ s.host.length ≤ 28
  | .cannotRegister _ connected => connected = true → s.host.length ≤ 28
  | .onErr fd => ∀ r, s.linkMap fd = some r → (s.links r).id.length ≤ 28
  | .putSendTask p len => ∀ id fd r, s.call p = .nodeSend id fd → s.linkMap fd = some r →
      s.host.length ≤ 28 + len
  | .onMessage fd host port sent => ∀ r, s.linkMap fd = some r → sent = true →
      s.router (nodeId host port) = none → (s.links r).id = []
  | .registered => ∀ fd r id, s.work = .register fd r id → s.router id = none
  | .insert p => ∀ id r fd, s.call p = .insert id r fd → s.router id = none
  | _ => True

end State

-- ---------------------------------------------------------------------------
-- The invariant of orderly runs
-- ---------------------------------------------------------------------------

/-- A call has put its link in the map and not yet inserted its route. -/
def State.Pending (s : State) (r : Ref) (fd : Fd) : Prop :=
  ∃ p, s.call p = .insert (s.links r).id r fd

/-- The tables and the worker. -/
structure Tables (s : State) : Prop where
  made : ∀ fd r, s.linkMap fd = some r → r < s.made
  inj : ∀ fd fd' r, s.linkMap fd = some r → s.linkMap fd' = some r → fd = fd'
  fd : ∀ fd r, s.linkMap fd = some r → (s.links r).fd = fd ∨ (s.links r).fd = -1
  routed : ∀ id fd, s.router id = some fd →
    id ≠ [] ∧ ((∃ r, s.linkMap fd = some r ∧ (s.links r).id = id) ∨ s.Removes id fd)
  registers : ∀ fd r id, s.work = .register fd r id →
    id ≠ [] ∧ s.linkMap fd = some r ∧ (s.links r).id = [] ∧ (s.links r).fd = fd
  removes : ∀ fd r, s.work = .remove fd r → r < s.made ∧ s.linkMap fd = none ∧
    ((s.links r).id = [] ∨ s.router (s.links r).id = some fd)

/-- The same with the calls. -/
structure Inv (s : State) : Prop extends Tables s where
  named : ∀ fd r, s.linkMap fd = some r →
    (s.links r).id = [] ∨ s.router (s.links r).id = some fd ∨ s.Pending r fd
  inserts : ∀ p id r fd, s.call p = .insert id r fd →
    id ≠ [] ∧ s.linkMap fd = some r ∧ (s.links r).id = id ∧ s.polled fd = false ∧
      (∀ q, (s.call q).uses fd → q = p) ∧ ∀ id', s.router id' ≠ some fd
  regs : ∀ p id, s.call p = .nodeReg id → id ≠ []
  sends : ∀ p id fd, s.call p = .nodeSend id fd → id ≠ [] ∧
    ∀ r, s.linkMap fd = some r → (s.links r).id = id

variable {s s' : State} {fd fd' : Fd} {r : Ref} {id : Id} {p : Pid} {host : List Char}

theorem nodeId_ne_nil (host : List Char) (port : Int) : nodeId host port ≠ [] := by
  unfold nodeId
  cases host <;> simp

theorem init_inv : Inv (.init host) := by
  constructor
  · constructor <;> nofun
  all_goals nofun

theorem copyHost_inv (h : Inv s) (text : List Char) (len : Nat) : Inv (s.copyHost text len) :=
  ⟨⟨h.made, h.inj, h.fd, h.routed, h.registers, h.removes⟩, h.named, h.inserts, h.regs, h.sends⟩

-- ---------------------------------------------------------------------------
-- A socket is closed
-- ---------------------------------------------------------------------------

theorem close_id (s : State) (r r' : Ref) : ((s.close r).links r').id = (s.links r').id := by
  unfold State.close
  split
  · rfl
  · by_cases hr : r' = r
    · simp [hr]
    · simp [hr]

theorem close_fd (s : State) (r r' : Ref) :
    ((s.close r).links r').fd = (s.links r').fd ∨ r' = r ∧ ((s.close r).links r').fd = -1 := by
  unfold State.close
  split
  · exact .inl rfl
  · by_cases hr : r' = r
    · exact .inr ⟨hr, by simp [hr]⟩
    · exact .inl (by simp [hr])

theorem close_frame (s : State) (r : Ref) :
    (s.close r).router = s.router ∧ (s.close r).linkMap = s.linkMap ∧
      (s.close r).made = s.made ∧ (s.close r).polled = s.polled ∧
      (s.close r).work = s.work ∧ (s.close r).call = s.call := by
  unfold State.close
  split
  · exact ⟨rfl, rfl, rfl, rfl, rfl, rfl⟩
  · exact ⟨rfl, rfl, rfl, rfl, rfl, rfl⟩

theorem close_inv (h : Inv s) (hr : ∀ fd id, s.work ≠ .register fd r id) : Inv (s.close r) := by
  obtain ⟨hrouter, hmap, hmade, hpolled, hwork, hcall⟩ := close_frame s r
  constructor
  · constructor
    all_goals simp only [State.Removes, hrouter, hmap, hmade, hwork, close_id]
    · exact h.made
    · exact h.inj
    · intro fd r' hm
      rcases close_fd s r r' with hfd | ⟨-, hfd⟩
      · rw [hfd]
        exact h.fd fd r' hm
      · exact .inr hfd
    · exact h.routed
    · intro fd r' id hw
      obtain ⟨hne, hm, hid, hfd⟩ := h.registers fd r' id hw
      rcases close_fd s r r' with hfd' | ⟨rfl, -⟩
      · exact ⟨hne, hm, hid, hfd'.trans hfd⟩
      · exact absurd hw (hr fd id)
    · exact h.removes
  all_goals simp only [State.Pending, hrouter, hmap, hpolled, hcall, close_id]
  · exact h.named
  · exact h.inserts
  · exact h.regs
  · exact h.sends

-- ---------------------------------------------------------------------------
-- A call moves on
-- ---------------------------------------------------------------------------

theorem poll_inv (h : Inv s) (hp : ∀ p id r, s.call p ≠ .insert id r fd) : Inv (s.poll fd) := by
  constructor
  · exact ⟨h.made, h.inj, h.fd, h.routed, h.registers, h.removes⟩
  · exact h.named
  · intro q id r fd' hc
    obtain ⟨hne, hm, hid, hpolled, hrest⟩ := h.inserts q id r fd' hc
    have hf : fd' ≠ fd := by
      rintro rfl
      exact hp q id r hc
    exact ⟨hne, hm, hid, (Function.update_of_ne hf _ _).trans hpolled, hrest⟩
  · exact h.regs
  · exact h.sends

/-- The places of a call at which it has no link of its own. -/
def Call.Fits (s : State) : Call → Prop
  | .idle => True
  | .nodeReg id => id ≠ []
  | .nodeSend id fd => s.router id = some fd
  | .insert _ _ _ | .poll _ => False

theorem Call.Fits.uses {c : Call} (hc : c.Fits s) (hu : c.uses fd) :
    ∃ id, s.router id = some fd := by
  cases c with
  | nodeSend id fd' =>
    obtain rfl : fd' = fd := hu
    exact ⟨id, hc⟩
  | insert | poll => exact hc.elim
  | idle | nodeReg => exact hu.elim

theorem pending_of_ne {c : Call} (hp : ∀ id r fd, s.call p ≠ .insert id r fd)
    (h : s.Pending r fd) : (s.setCall p c).Pending r fd := by
  obtain ⟨q, hq⟩ := h
  have hqp : q ≠ p := by
    rintro rfl
    exact hp _ _ _ hq
  exact ⟨q, (Function.update_of_ne hqp _ _).trans hq⟩

theorem id_of_router (h : Tables s) (hr : s.router id = some fd) (hm : s.linkMap fd = some r) :
    (s.links r).id = id := by
  obtain ⟨-, ⟨r', hm', hid⟩ | ⟨r', hw, -⟩⟩ := h.routed id fd hr
  · exact Option.some.inj (hm'.symm.trans hm) ▸ hid
  · exact absurd ((h.removes fd r' hw).2.1.symm.trans hm) nofun

theorem setCall_inv {c : Call} (h : Inv s) (hp : ∀ id r fd, s.call p ≠ .insert id r fd)
    (hc : c.Fits s) : Inv (s.setCall p c) := by
  constructor
  · exact ⟨h.made, h.inj, h.fd, h.routed, h.registers, h.removes⟩
  · intro fd' r' hm
    exact (h.named fd' r' hm).imp_right (Or.imp_right (pending_of_ne hp))
  · intro q id r fd' hq
    by_cases hqp : q = p
    · subst hqp
      obtain rfl : c = .insert id r fd' := (Function.update_self ..).symm.trans hq
      exact hc.elim
    · obtain ⟨hne, hm, hid, hpolled, huses, hroute⟩ :=
        h.inserts q id r fd' ((Function.update_of_ne hqp _ _).symm.trans hq)
      refine ⟨hne, hm, hid, hpolled, fun q' hu => ?_, hroute⟩
      by_cases hq' : q' = p
      · subst hq'
        obtain ⟨id', hid'⟩ := hc.uses (by simpa [State.setCall] using hu)
        exact absurd hid' (hroute id')
      · exact huses q' (by simpa [State.setCall, hq'] using hu)
  · intro q id hq
    by_cases hqp : q = p
    · subst hqp
      obtain rfl : c = .nodeReg id := (Function.update_self ..).symm.trans hq
      exact hc
    · exact h.regs q id ((Function.update_of_ne hqp _ _).symm.trans hq)
  · intro q id fd' hq
    by_cases hqp : q = p
    · subst hqp
      obtain rfl : c = .nodeSend id fd' := (Function.update_self ..).symm.trans hq
      exact ⟨(h.routed id fd' hc).1, fun r hm => id_of_router (s := s) h.toTables hc hm⟩
    · exact h.sends q id fd' ((Function.update_of_ne hqp _ _).symm.trans hq)

-- ---------------------------------------------------------------------------
-- A link is made
-- ---------------------------------------------------------------------------

/-- The slots after a new link is put in: its own, and the others with their
links as they were. -/
theorem newLink_slot (h : Tables s) {i : Id} (hm : (s.newLink fd i).linkMap fd' = some r) :
    (fd' = fd ∧ r = s.made ∧ (s.newLink fd i).links r = ⟨i, fd⟩) ∨
      (fd' ≠ fd ∧ s.linkMap fd' = some r ∧ (s.newLink fd i).links r = s.links r) := by
  unfold State.newLink at hm ⊢
  by_cases hf : fd' = fd
  · subst hf
    obtain rfl : s.made = r := by simpa using hm
    exact .inl ⟨rfl, rfl, Function.update_self ..⟩
  · replace hm : s.linkMap fd' = some r := by simpa [hf] using hm
    exact .inr ⟨hf, hm, Function.update_of_ne (Nat.ne_of_lt (h.made fd' r hm)) _ _⟩

theorem newLink_old (h : Tables s) (i : Id) (hu : s.linkMap fd = none)
    (hm : s.linkMap fd' = some r) :
    (s.newLink fd i).linkMap fd' = some r ∧ (s.newLink fd i).links r = s.links r := by
  have hf : fd' ≠ fd := by
    rintro rfl
    exact absurd (hu.symm.trans hm) nofun
  exact ⟨(Function.update_of_ne hf _ _).trans hm,
    Function.update_of_ne (Nat.ne_of_lt (h.made fd' r hm)) _ _⟩

theorem newLink_tables (h : Tables s) (hu : s.Unused fd) (i : Id) : Tables (s.newLink fd i) := by
  constructor
  case made =>
    intro fd' r hm
    rcases newLink_slot h hm with ⟨-, rfl, -⟩ | ⟨-, hm, -⟩
    · exact Nat.lt_succ_self _
    · exact Nat.lt_succ_of_lt (h.made fd' r hm)
  case inj =>
    intro fd₁ fd₂ r hm₁ hm₂
    rcases newLink_slot h hm₁ with ⟨hf₁, hr, -⟩ | ⟨-, hm₁, -⟩
    · rcases newLink_slot h hm₂ with ⟨hf₂, -, -⟩ | ⟨-, hm₂, -⟩
      · exact hf₁.trans hf₂.symm
      · exact absurd hr (Nat.ne_of_lt (h.made fd₂ r hm₂))
    · rcases newLink_slot h hm₂ with ⟨-, hr, -⟩ | ⟨-, hm₂, -⟩
      · exact absurd hr (Nat.ne_of_lt (h.made fd₁ r hm₁))
      · exact h.inj fd₁ fd₂ r hm₁ hm₂
  case fd =>
    intro fd' r hm
    rcases newLink_slot h hm with ⟨rfl, -, hl⟩ | ⟨-, hm, hl⟩
    · exact .inl (by rw [hl])
    · exact hl ▸ h.fd fd' r hm
  case routed =>
    intro id fd' hr
    obtain ⟨hne, ⟨r, hm, hid⟩ | ⟨r, hw, hid⟩⟩ := h.routed id fd' hr
    · obtain ⟨hm', hl⟩ := newLink_old h i hu.linkMap hm
      exact ⟨hne, .inl ⟨r, hm', hl ▸ hid⟩⟩
    · have hl := Function.update_of_ne (Nat.ne_of_lt (h.removes fd' r hw).1) ⟨i, fd⟩ s.links
      exact ⟨hne, .inr ⟨r, hw, (congrArg Link.id hl).trans hid⟩⟩
  case registers =>
    intro fd' r id hw
    obtain ⟨hne, hm, hid, hfd⟩ := h.registers fd' r id hw
    obtain ⟨hm', hl⟩ := newLink_old h i hu.linkMap hm
    rw [hl]
    exact ⟨hne, hm', hid, hfd⟩
  case removes =>
    intro fd' r hw
    obtain ⟨hlt, hm, hroute⟩ := h.removes fd' r hw
    have hl : (s.newLink fd i).links r = s.links r := Function.update_of_ne (Nat.ne_of_lt hlt) _ _
    have hf : fd' ≠ fd := by
      rintro rfl
      exact hu.work (by simp [show s.work = .remove fd' r from hw, Work.uses])
    rw [hl]
    exact ⟨Nat.lt_succ_of_lt hlt, (Function.update_of_ne hf _ _).trans hm, hroute⟩

theorem newLink_sends (h : Inv s) (hu : s.Unused fd) (i : Id)
    (hc : s.call p = .nodeSend id fd') :
    id ≠ [] ∧ ∀ r, (s.newLink fd i).linkMap fd' = some r →
      ((s.newLink fd i).links r).id = id := by
  obtain ⟨hne, hid⟩ := h.sends p id fd' hc
  refine ⟨hne, fun r hm => ?_⟩
  rcases newLink_slot h.toTables hm with ⟨rfl, -, -⟩ | ⟨-, hm, hl⟩
  · exact absurd (by simp [hc, Call.uses]) (hu.call p)
  · rw [hl]
    exact hid r hm

theorem newLink_inv (h : Inv s) (hu : s.Unused fd) : Inv (s.newLink fd []) := by
  constructor
  · exact newLink_tables h.toTables hu []
  · intro fd' r hm
    rcases newLink_slot h.toTables hm with ⟨-, -, hl⟩ | ⟨-, hm, hl⟩
    · exact .inl (by rw [hl])
    · rw [State.Pending, hl]
      exact h.named fd' r hm
  · intro q id r fd' hc
    obtain ⟨hne, hm, hid, hrest⟩ := h.inserts q id r fd' hc
    obtain ⟨hm', hl⟩ := newLink_old h.toTables [] hu.linkMap hm
    rw [hl]
    exact ⟨hne, hm', hid, hrest⟩
  · exact h.regs
  · exact fun q id fd' hc => newLink_sends h hu [] hc

theorem registerTo_inv (h : Inv s) (hu : s.Unused fd) (hc : s.call p = .nodeReg id) :
    Inv ((s.newLink fd id).setCall p (.insert id s.made fd)) := by
  have ht := newLink_tables h.toTables hu id
  have hold : ∀ {q c}, q ≠ p → ((s.newLink fd id).setCall p (.insert id s.made fd)).call q = c →
      s.call q = c := fun hq hc => (Function.update_of_ne hq _ _).symm.trans hc
  constructor
  · exact ⟨ht.made, ht.inj, ht.fd, ht.routed, ht.registers, ht.removes⟩
  · intro fd' r hm
    replace hm : (s.newLink fd id).linkMap fd' = some r := hm
    rcases newLink_slot h.toTables hm with ⟨rfl, rfl, hl⟩ | ⟨-, hm, hl⟩
    · -- the new link waits for its route
      refine .inr (.inr ⟨p, ?_⟩)
      rw [State.setCall, hl]
      exact Function.update_self ..
    · have hp : ∀ id r fd, s.call p ≠ .insert id r fd := by simp [hc]
      have hid : (((s.newLink fd id).setCall p (.insert id s.made fd)).links r).id =
          (s.links r).id := congrArg Link.id hl
      rcases h.named fd' r hm with hn | hn | hn
      · exact .inl (hid.trans hn)
      · refine .inr (.inl ?_)
        rw [hid]
        exact hn
      · obtain ⟨q, hq⟩ := pending_of_ne (c := .insert id s.made fd) hp hn
        exact .inr (.inr ⟨q, hq.trans (by rw [State.setCall, State.setCall, hl])⟩)
  · intro q i r fd' hq
    by_cases hqp : q = p
    · subst hqp
      cases (Function.update_self ..).symm.trans hq
      refine ⟨h.regs q _ hc, Function.update_self .., ?_, hu.polled, fun q' hu' => ?_, hu.router⟩
      · simp [State.setCall, State.newLink]
      · by_contra hne
        exact hu.call q' (by simpa [State.setCall, State.newLink, hne] using hu')
    · obtain ⟨hne, hm, hid, hpolled, huses, hroute⟩ := h.inserts q i r fd' (hold hqp hq)
      obtain ⟨hm', hl⟩ := newLink_old h.toTables id hu.linkMap hm
      refine ⟨hne, hm', (congrArg Link.id hl).trans hid, hpolled, fun q' hu' => ?_, hroute⟩
      by_cases hq' : q' = p
      · subst hq'
        have hf : fd = fd' := by simpa [State.setCall, Call.uses] using hu'
        subst hf
        exact absurd (hu.linkMap.symm.trans hm) nofun
      · exact huses q' (by simpa [State.setCall, State.newLink, hq'] using hu')
  · intro q i hq
    by_cases hqp : q = p
    · subst hqp
      cases (Function.update_self ..).symm.trans hq
    · exact h.regs q i (hold hqp hq)
  · intro q i fd' hq
    by_cases hqp : q = p
    · subst hqp
      cases (Function.update_self ..).symm.trans hq
    · exact newLink_sends h hu id (hold hqp hq)

-- ---------------------------------------------------------------------------
-- A route is inserted
-- ---------------------------------------------------------------------------

theorem insert_router (hnone : s.router id = none) {i : Id} (hr : s.router i = some fd') :
    (s.insert id fd).router i = some fd' := by
  have hne : i ≠ id := by
    rintro rfl
    exact absurd (hnone.symm.trans hr) nofun
  exact (Function.update_of_ne hne _ _).trans hr

theorem router_insert {i : Id} (hr : (s.insert id fd).router i = some fd') :
    (i = id ∧ fd' = fd) ∨ s.router i = some fd' := by
  unfold State.insert at hr
  by_cases hi : i = id
  · subst hi
    exact .inl ⟨rfl, by simpa using hr.symm⟩
  · exact .inr (by simpa [hi] using hr)

theorem router_erase {i : Id} (hr : (s.erase id).router i = some fd') :
    i ≠ id ∧ s.router i = some fd' := by
  unfold State.erase at hr
  by_cases hi : i = id
  · subst hi
    simp at hr
  · exact ⟨hi, by simpa [hi] using hr⟩

theorem not_removes (hw : s.work = .idle) : ¬ s.Removes id fd := by
  rintro ⟨r, hw', -⟩
  exact absurd (hw.symm.trans hw') nofun

theorem insert_tables (h : Tables s) (hnone : s.router id = none) (hne : id ≠ [])
    (hm : s.linkMap fd = some r) (hid : (s.links r).id = id) :
    Tables ((s.insert id fd).setCall p (.poll fd)) := by
  refine ⟨h.made, h.inj, h.fd, fun i fd' hr => ?_, h.registers, fun fd' r' hw => ?_⟩
  · rcases router_insert hr with ⟨rfl, rfl⟩ | hr
    · exact ⟨hne, .inl ⟨r, hm, hid⟩⟩
    · exact h.routed i fd' hr
  · obtain ⟨hlt, hm', hroute⟩ := h.removes fd' r' hw
    exact ⟨hlt, hm', hroute.imp_right (insert_router hnone)⟩

theorem insert_inv (h : Inv s) (ho : s.Orderly (.insert p)) (hc : s.call p = .insert id r fd) :
    Inv ((s.insert id fd).setCall p (.poll fd)) := by
  have hnone : s.router id = none := ho id r fd hc
  obtain ⟨hne, hm, hid, hpolled, huses, -⟩ := h.inserts p id r fd hc
  have hold : ∀ {q c}, q ≠ p → ((s.insert id fd).setCall p (.poll fd)).call q = c →
      s.call q = c := fun hq hc => (Function.update_of_ne hq _ _).symm.trans hc
  constructor
  · exact insert_tables h.toTables hnone hne hm hid
  · intro fd' r' hm'
    rcases h.named fd' r' hm' with hn | hn | ⟨q, hq⟩
    · exact .inl hn
    · exact .inr (.inl (insert_router hnone hn))
    · by_cases hqp : q = p
      · -- the call's own link has its route now
        subst hqp
        cases hc.symm.trans hq
        exact .inr (.inl (Function.update_self ..))
      · exact .inr (.inr ⟨q, (Function.update_of_ne hqp _ _).trans hq⟩)
  · intro q i r' fd' hq
    have hqp : q ≠ p := by
      rintro rfl
      cases (Function.update_self ..).symm.trans hq
    obtain ⟨hne', hm', hid', hpolled', huses', hroute'⟩ := h.inserts q i r' fd' (hold hqp hq)
    have hf : fd' ≠ fd := by
      rintro rfl
      exact hqp (huses q (by simp [hold hqp hq, Call.uses]))
    refine ⟨hne', hm', hid', hpolled', fun q' hu => ?_, fun i' hr => ?_⟩
    · by_cases hq' : q' = p
      · subst hq'
        exact absurd (by simpa [State.setCall, Call.uses] using hu) hf.symm
      · exact huses' q' (by simpa [State.setCall, State.insert, hq'] using hu)
    · rcases router_insert hr with ⟨-, rfl⟩ | hr
      · exact hf rfl
      · exact hroute' i' hr
  · intro q i hq
    by_cases hqp : q = p
    · subst hqp
      cases (Function.update_self ..).symm.trans hq
    · exact h.regs q i (hold hqp hq)
  · intro q i fd' hq
    by_cases hqp : q = p
    · subst hqp
      cases (Function.update_self ..).symm.trans hq
    · exact h.sends q i fd' (hold hqp hq)

-- ---------------------------------------------------------------------------
-- The worker
-- ---------------------------------------------------------------------------

theorem onMessage_inv {host : List Char} {port : Int} {sent : Bool} (h : Inv s)
    (ho : s.Orderly (.onMessage fd host port sent)) (hm : s.linkMap fd = some r)
    (hw : s.work = .idle) (hfd : (s.links r).fd ≠ -1) :
    Inv (s.onMessage fd r (nodeId host port) sent) := by
  have hclose : Inv (s.close r) := close_inv h (by simp [hw])
  unfold State.onMessage
  split
  · exact hclose
  · next hsent =>
    split
    · exact hclose
    · next hnone =>
      have hid := ho r hm (by simpa using hsent) (by simpa using hnone)
      have hfd' := (h.fd fd r hm).resolve_right hfd
      constructor
      · refine ⟨h.made, h.inj, h.fd, fun id fd' hr => ?_, ?_, nofun⟩
        · exact (h.routed id fd' hr).imp_right fun hl => .inl (hl.resolve_right (not_removes hw))
        · rintro fd' r' id hw'
          cases hw'
          exact ⟨nodeId_ne_nil host port, hm, hid, hfd'⟩
      · exact h.named
      · exact h.inserts
      · exact h.regs
      · exact h.sends

/-- A link that had no id gets its id with its route. -/
theorem registered_inv (h : Inv s) (ho : s.Orderly .registered)
    (hw : s.work = .register fd r id) : Inv (s.registered r id) := by
  have hnone : s.router id = none := ho fd r id hw
  obtain ⟨hne, hm, hid, hfd⟩ := h.registers fd r id hw
  have hself : ((s.registered r id).links r) = ⟨id, fd⟩ := by simp [State.registered, hfd]
  have hother : ∀ r', r' ≠ r → (s.registered r id).links r' = s.links r' :=
    fun r' hr => Function.update_of_ne hr _ _
  -- the links that are not the worker's
  have hnot : ∀ {r'}, (s.links r').id ≠ [] → r' ≠ r := by
    rintro r' hid' rfl
    exact hid' hid
  have hrouter : (s.registered r id).router = (s.insert id fd).router := by
    simp [State.registered, hfd, State.insert]
  constructor
  · constructor
    · exact h.made
    · exact h.inj
    · intro fd' r' hm'
      by_cases hr : r' = r
      · subst hr
        rw [hself]
        exact .inl (h.inj fd fd' r' hm hm')
      · rw [hother r' hr]
        exact h.fd fd' r' hm'
    · intro id' fd' hr
      rw [hrouter] at hr
      rcases router_insert hr with ⟨rfl, rfl⟩ | hr
      · exact ⟨hne, .inl ⟨r, hm, by rw [hself]⟩⟩
      · obtain ⟨hne', ⟨r', hm', hid'⟩ | hrem⟩ := h.routed id' fd' hr
        · refine ⟨hne', .inl ⟨r', hm', ?_⟩⟩
          rw [hother r' (hnot (hid' ▸ hne')), hid']
        · obtain ⟨r', hw', -⟩ := hrem
          exact absurd (hw.symm.trans hw') nofun
    · nofun
    · nofun
  · intro fd' r' hm'
    rw [State.Pending, hrouter]
    by_cases hr : r' = r
    · subst hr
      rw [hself]
      exact .inr (.inl ((Function.update_self ..).trans (congrArg some (h.inj _ _ _ hm hm'))))
    · rw [hother r' hr]
      exact (h.named fd' r' hm').imp_right (Or.imp_left (insert_router hnone))
  · intro q i r' fd' hq
    obtain ⟨hne', hm', hid', hpolled', huses', hroute'⟩ := h.inserts q i r' fd' hq
    have hr : r' ≠ r := hnot (hid' ▸ hne')
    refine ⟨hne', hm', by rw [hother r' hr, hid'], hpolled', huses', fun i' hi => ?_⟩
    rw [hrouter] at hi
    rcases router_insert hi with ⟨-, rfl⟩ | hi
    · exact hr (Option.some.inj (hm'.symm.trans hm))
    · exact hroute' i' hi
  · exact h.regs
  · intro q i fd' hq
    obtain ⟨hne', hid'⟩ := h.sends q i fd' hq
    refine ⟨hne', fun r' hm' => ?_⟩
    have hi := hid' r' hm'
    rw [hother r' (hnot (hi ▸ hne')), hi]

theorem onErr_inv (h : Inv s) (hm : s.linkMap fd = some r) (hw : s.work = .idle)
    (hp : s.polled fd = true) :
    Inv { s with linkMap := Function.update s.linkMap fd none, work := .remove fd r } := by
  have hslot : ∀ {fd' r'}, Function.update s.linkMap fd none fd' = some r' →
      fd' ≠ fd ∧ s.linkMap fd' = some r' := by
    intro fd' r' hm'
    by_cases hf : fd' = fd
    · subst hf
      simp at hm'
    · exact ⟨hf, by simpa [hf] using hm'⟩
  have hkeep : ∀ {fd' r'}, s.linkMap fd' = some r' → fd' ≠ fd →
      Function.update s.linkMap fd none fd' = some r' :=
    fun hm' hf => (Function.update_of_ne hf _ _).trans hm'
  -- a link whose route is still to be inserted is not polled
  have hins : ∀ {q i r' fd'}, s.call q = .insert i r' fd' → fd' ≠ fd := by
    rintro q i r' fd' hq rfl
    exact absurd (hp.symm.trans (h.inserts q i r' fd' hq).2.2.2.1) nofun
  constructor
  · constructor
    · exact fun fd' r' hm' => h.made fd' r' (hslot hm').2
    · exact fun fd₁ fd₂ r' hm₁ hm₂ => h.inj fd₁ fd₂ r' (hslot hm₁).2 (hslot hm₂).2
    · exact fun fd' r' hm' => h.fd fd' r' (hslot hm').2
    · intro id fd' hr
      obtain ⟨r', hm', hid'⟩ := (h.routed id fd' hr).2.resolve_right (not_removes hw)
      refine ⟨(h.routed id fd' hr).1, ?_⟩
      by_cases hf : fd' = fd
      · subst hf
        exact .inr ⟨r, rfl, Option.some.inj (hm'.symm.trans hm) ▸ hid'⟩
      · exact .inl ⟨r', hkeep hm' hf, hid'⟩
    · nofun
    · rintro fd' r' hw'
      cases hw'
      refine ⟨h.made fd r hm, Function.update_self .., ?_⟩
      rcases h.named fd r hm with hn | hn | ⟨q, hq⟩
      · exact .inl hn
      · exact .inr hn
      · exact absurd rfl (hins hq)
  · exact fun fd' r' hm' => h.named fd' r' (hslot hm').2
  · intro q i r' fd' hq
    exact (h.inserts q i r' fd' hq).imp_right (And.imp_left fun hm' => hkeep hm' (hins hq))
  · exact h.regs
  · intro q i fd' hq
    exact (h.sends q i fd' hq).imp_right fun hid r' hm' => hid r' (hslot hm').2

/-- The route that is erased is the one of the removed link. -/
theorem erase_inv (h : Inv s) (hw : s.work = .remove fd r) :
    Inv { s.erase (s.links r).id with work := .discard fd r } := by
  obtain ⟨-, hnone, hroute⟩ := h.removes fd r hw
  have hkeep : ∀ {id fd'}, s.router id = some fd' → fd' ≠ fd →
      Function.update s.router (s.links r).id none id = some fd' := by
    intro id fd' hr hf
    refine (Function.update_of_ne ?_ _ _).trans hr
    rintro rfl
    rcases hroute with hnil | hroute
    · exact absurd hnil (h.routed _ fd' hr).1
    · exact hf (Option.some.inj (hr.symm.trans hroute))
  have hslot : ∀ {fd' r'}, s.linkMap fd' = some r' → fd' ≠ fd := by
    rintro fd' r' hm' rfl
    exact absurd (hnone.symm.trans hm') nofun
  constructor
  · refine ⟨h.made, h.inj, h.fd, fun id fd' hr => ?_, nofun, nofun⟩
    obtain ⟨hid, hr⟩ := router_erase hr
    obtain ⟨hne, hm | ⟨r', hw', hid'⟩⟩ := h.routed id fd' hr
    · exact ⟨hne, .inl hm⟩
    · cases hw.symm.trans hw'
      exact absurd hid'.symm hid
  · intro fd' r' hm'
    exact (h.named fd' r' hm').imp_right (Or.imp_left fun hr => hkeep hr (hslot hm'))
  · intro q i r' fd' hq
    obtain ⟨hne', hm', hid', hpolled', huses', hroute'⟩ := h.inserts q i r' fd' hq
    exact ⟨hne', hm', hid', hpolled', huses', fun i' hi => hroute' i' (router_erase hi).2⟩
  · exact h.regs
  · exact h.sends

theorem delete_inv (h : Inv s) (hw : s.work = .discard fd r) :
    Inv { s.close r with polled := Function.update s.polled fd false, work := .idle } := by
  have hclose : Inv (s.close r) := close_inv h (by simp [hw])
  obtain ⟨-, -, -, hpolled, hwork, -⟩ := close_frame s r
  constructor
  · refine ⟨hclose.made, hclose.inj, hclose.fd, fun id fd' hr => ?_, nofun, nofun⟩
    obtain ⟨hne, hm | ⟨r', hw', -⟩⟩ := hclose.routed id fd' hr
    · exact ⟨hne, .inl hm⟩
    · rw [hwork, hw] at hw'
      cases hw'
  · exact hclose.named
  · intro q i r' fd' hq
    obtain ⟨hne, hm, hid, hp, hrest⟩ := hclose.inserts q i r' fd' hq
    refine ⟨hne, hm, hid, ?_, hrest⟩
    by_cases hf : fd' = fd
    · subst hf
      exact Function.update_self ..
    · exact (Function.update_of_ne hf _ _).trans (hpolled ▸ hp)
  · exact hclose.regs
  · exact hclose.sends

theorem not_register_of_id (h : Inv s) (hid : (s.links r).id ≠ []) (fd : Fd) (id : Id) :
    s.work ≠ .register fd r id :=
  fun hw => hid (h.registers fd r id hw).2.2.1

theorem linkMap_of_router (h : Inv s) (hl : s.locked = false) (hr : s.router id = some fd) :
    ∃ r, s.linkMap fd = some r ∧ (s.links r).id = id := by
  obtain ⟨-, hm | ⟨r, hw, -⟩⟩ := h.routed id fd hr
  · exact hm
  · simp [State.locked, hw] at hl

theorem doNodeClose_inv (h : Inv s) (hl : s.locked = false) : Inv (s.doNodeClose id) := by
  unfold State.doNodeClose
  cases hr : s.router id with
  | none => exact h
  | some fd =>
    obtain ⟨r, hm, hid⟩ := linkMap_of_router h hl hr
    simp only [hm]
    refine close_inv h (not_register_of_id h ?_)
    rw [hid]
    exact (h.routed id fd hr).1

theorem doNodeReg_inv {host : List Char} {port : Int} (h : Inv s) (hc : s.call p = .idle) :
    Inv (s.doNodeReg p (nodeId host port)) := by
  unfold State.doNodeReg
  split
  · exact h
  · exact setCall_inv h (by simp [hc]) (nodeId_ne_nil host port)

theorem doNodeSend_inv (h : Inv s) (hc : s.call p = .idle) : Inv (s.doNodeSend p id) := by
  unfold State.doNodeSend
  cases hr : s.router id with
  | none => exact h
  | some fd => exact setCall_inv h (by simp [hc]) hr

/-- A call that uses a descriptor and does not insert its route: no other call
is about to. -/
theorem not_insert_of_uses (h : Inv s) (hu : (s.call p).uses fd)
    (hp : ∀ i r fd, s.call p ≠ .insert i r fd) (q : Pid) (i : Id) (r : Ref) :
    s.call q ≠ .insert i r fd := by
  intro hq
  obtain rfl : p = q := (h.inserts q i r fd hq).2.2.2.2.1 p hu
  exact hp i r fd hq

-- ---------------------------------------------------------------------------
-- One step
-- ---------------------------------------------------------------------------

/-- What a step can do. -/
inductive Move (s : State) : Action → State → Prop
  | accept {fd : Fd} (hw : s.work = .idle) : Move s (.accept fd) ((s.newLink fd []).poll fd)
  | acceptFails : Move s .acceptFails { s with overrun := true }
  | onMessage {fd : Fd} {host : List Char} {port : Int} {sent : Bool} {r : Ref} (hm : s.linkMap fd = some r)
    (hw : s.work = .idle) (hfd : (s.links r).fd ≠ -1) :
    Move s (.onMessage fd host port sent) (s.onMessage fd r (nodeId host port) sent)
  | registered {fd : Fd} {r : Ref} {id : Id} (hw : s.work = .register fd r id) :
    Move s .registered (s.registered r id)
  | onErr {fd : Fd} {r : Ref} (hm : s.linkMap fd = some r) (hw : s.work = .idle) (hp : s.polled fd = true) :
    Move s (.onErr fd) { s.copyHost (s.links r).id 0 with
      linkMap := Function.update s.linkMap fd none
      work := .remove fd r }
  | erase {fd : Fd} {r : Ref} (hw : s.work = .remove fd r) :
    Move s .erase { s.erase (s.links r).id with work := .discard fd r }
  | delete {fd : Fd} {r : Ref} (hw : s.work = .discard fd r) :
    Move s .delete { s.close r with polled := Function.update s.polled fd false, work := .idle }
  | doNodeReg {p : Pid} {host : List Char} {port : Int} (hc : s.call p = .idle) :
    Move s (.doNodeReg p host port) (s.doNodeReg p (nodeId host port))
  | registerTo {p : Pid} {fd : Fd} {id : Id} (hc : s.call p = .nodeReg id) :
    Move s (.registerTo p fd) (((s.copyHost s.host 0).newLink fd id).setCall p (.insert id s.made fd))
  | cannotRegister {p : Pid} {connected : Bool} {id : Id} (hc : s.call p = .nodeReg id) :
    Move s (.cannotRegister p connected) ((if connected then s.copyHost s.host 0 else s).setCall p .idle)
  | insert {p : Pid} {id : Id} {r : Ref} {fd : Fd} (hc : s.call p = .insert id r fd) :
    Move s (.insert p) ((s.insert id fd).setCall p (.poll fd))
  | pollerRegister {p : Pid} {fd : Fd} (hc : s.call p = .poll fd) :
    Move s (.pollerRegister p) ((s.poll fd).setCall p .idle)
  | doNodeSend {p : Pid} {host : List Char} {port : Int} (hc : s.call p = .idle) :
    Move s (.doNodeSend p host port) (s.doNodeSend p (nodeId host port))
  | putSendTask {p : Pid} {len : Nat} {id : Id} {fd : Fd} {r : Ref} (hc : s.call p = .nodeSend id fd)
    (hm : s.linkMap fd = some r) :
    Move s (.putSendTask p len) (((s.copyHost s.host len).poll fd).setCall p .idle)
  | notRegistered {p : Pid} {len : Nat} {id : Id} {fd : Fd} (hc : s.call p = .nodeSend id fd) :
    Move s (.putSendTask p len) (s.setCall p .idle)
  | doNodeClose {host : List Char} {port : Int} (hl : s.locked = false) :
    Move s (.doNodeClose host port) (s.doNodeClose (nodeId host port))

theorem move_of_step {a : Action} (hs : s.step a = some s') : Move s a s' := by
  cases a with
  | accept fd =>
    simp only [State.step, Option.ite_none_right_eq_some, Option.some.injEq] at hs
    obtain ⟨⟨hw, -⟩, rfl⟩ := hs
    exact .accept hw
  | acceptFails =>
    simp only [State.step, Option.ite_none_right_eq_some, Option.some.injEq] at hs
    obtain ⟨-, rfl⟩ := hs
    exact .acceptFails
  | onMessage fd host port sent =>
    simp only [State.step] at hs
    split at hs
    · next r hm =>
      simp only [Option.ite_none_right_eq_some, Option.some.injEq] at hs
      obtain ⟨⟨hw, -, hfd⟩, rfl⟩ := hs
      exact .onMessage hm hw hfd
    · cases hs
  | registered =>
    simp only [State.step] at hs
    split at hs
    · next fd r id hw =>
      cases hs
      exact .registered hw
    · cases hs
  | onErr fd =>
    simp only [State.step] at hs
    split at hs
    · next r hm =>
      simp only [Option.ite_none_right_eq_some, Option.some.injEq] at hs
      obtain ⟨⟨hw, hp⟩, rfl⟩ := hs
      exact .onErr hm hw hp
    · cases hs
  | erase =>
    simp only [State.step] at hs
    split at hs
    · next fd r hw =>
      cases hs
      exact .erase hw
    · cases hs
  | delete =>
    simp only [State.step] at hs
    split at hs
    · next fd r hw =>
      cases hs
      exact .delete hw
    · cases hs
  | doNodeReg p host port =>
    simp only [State.step, Option.ite_none_right_eq_some, Option.some.injEq] at hs
    obtain ⟨hc, rfl⟩ := hs
    exact .doNodeReg hc
  | registerTo p fd =>
    simp only [State.step] at hs
    split at hs
    · next id hc =>
      simp only [Option.ite_none_right_eq_some, Option.some.injEq] at hs
      obtain ⟨-, rfl⟩ := hs
      exact .registerTo hc
    · cases hs
  | cannotRegister p connected =>
    simp only [State.step] at hs
    split at hs
    · next id hc =>
      cases hs
      exact .cannotRegister hc
    · cases hs
  | insert p =>
    simp only [State.step] at hs
    split at hs
    · next id r fd hc =>
      cases hs
      exact .insert hc
    · cases hs
  | pollerRegister p =>
    simp only [State.step] at hs
    split at hs
    · next fd hc =>
      cases hs
      exact .pollerRegister hc
    · cases hs
  | doNodeSend p host port =>
    simp only [State.step, Option.ite_none_right_eq_some, Option.some.injEq] at hs
    obtain ⟨hc, rfl⟩ := hs
    exact .doNodeSend hc
  | putSendTask p len =>
    simp only [State.step] at hs
    split at hs
    · next id fd hc =>
      simp only [Option.ite_none_left_eq_some] at hs
      obtain ⟨-, hs⟩ := hs
      split at hs
      · next hlink =>
        obtain ⟨r, hm⟩ := Option.isSome_iff_exists.mp hlink
        cases hs
        exact .putSendTask hc hm
      · cases hs
        exact .notRegistered hc
    · cases hs
  | doNodeClose host port =>
    simp only [State.step, Option.ite_none_left_eq_some, Option.some.injEq] at hs
    obtain ⟨hl, rfl⟩ := hs
    exact .doNodeClose (by simpa using hl)

theorem step_inv {a : Action} (h : Inv s) (ho : s.Orderly a) (hs : s.step a = some s') :
    Inv s' := by
  cases move_of_step hs with
  | accept =>
    refine poll_inv (newLink_inv h ho.1) fun q id r hq => ?_
    exact ho.1.call q (by simp [show s.call q = .insert id r _ from hq, Call.uses])
  | acceptFails => exact ho.elim
  | onMessage hm hw hfd => exact onMessage_inv h ho hm hw hfd
  | registered hw => exact registered_inv h ho hw
  | onErr hm hw hp => exact onErr_inv (copyHost_inv h _ _) hm hw hp
  | erase hw => exact erase_inv h hw
  | delete hw => exact delete_inv h hw
  | doNodeReg hc => exact doNodeReg_inv h hc
  | registerTo hc =>
    obtain ⟨hu, -⟩ := ho
    exact registerTo_inv (copyHost_inv h _ _) ⟨hu.linkMap, hu.router, hu.polled, hu.work, hu.call⟩ hc
  | cannotRegister hc =>
    rename_i connected _
    cases connected with
    | true => exact setCall_inv (copyHost_inv h _ _) (by simp [State.copyHost, hc]) trivial
    | false => exact setCall_inv h (by simp [hc]) trivial
  | insert hc => exact insert_inv h ho hc
  | pollerRegister hc =>
    rename_i p _
    have hp : ∀ i r fd, s.call p ≠ .insert i r fd := by simp [hc]
    exact setCall_inv (poll_inv h (not_insert_of_uses h (by simp [hc, Call.uses]) hp)) hp trivial
  | doNodeSend hc => exact doNodeSend_inv h hc
  | putSendTask hc hm =>
    rename_i p _ _ fd _
    have hp : ∀ i r fd, s.call p ≠ .insert i r fd := by simp [hc]
    have hothers := not_insert_of_uses h (show (s.call p).uses fd by simp [hc, Call.uses]) hp
    exact setCall_inv (poll_inv (copyHost_inv h _ _) hothers) hp trivial
  | notRegistered hc => exact setCall_inv h (by simp [hc]) trivial
  | doNodeClose hl => exact doNodeClose_inv h hl

theorem reach_inv (h : Reach State.step State.Orderly (.init host) s) : Inv s :=
  h.invariant init_inv fun _ _ _ hi ho hs => step_inv hi ho hs

-- ---------------------------------------------------------------------------
-- What is copied
-- ---------------------------------------------------------------------------

theorem copyHost_overrun {text : List Char} {len : Nat} (h : s.overrun = false)
    (hfit : text.length ≤ 28 + len) : (s.copyHost text len).overrun = false := by
  rw [State.copyHost, h, Bool.false_or, decide_eq_false (Nat.not_lt.mpr hfit)]

theorem newLink_overrun (h : s.overrun = false) (hfd : fd < linkMapSize) (i : Id) :
    (s.newLink fd i).overrun = false := by
  rw [State.newLink, h, Bool.false_or, decide_eq_false (Int.not_le.mpr hfd)]

theorem close_overrun (s : State) (r : Ref) : (s.close r).overrun = s.overrun := by
  unfold State.close
  split <;> rfl

theorem step_overrun {a : Action} (h : s.overrun = false) (ho : s.Orderly a) (hs : s.step a = some s') :
    s'.overrun = false := by
  cases move_of_step hs with
  | accept => exact newLink_overrun h ho.2 []
  | acceptFails => exact ho.elim
  | onErr hm => exact copyHost_overrun h (ho _ hm)
  | registerTo =>
    rename_i id _
    exact newLink_overrun (copyHost_overrun h ho.2.2) ho.2.1 id
  | cannotRegister =>
    rename_i connected _ _
    cases connected with
    | true => exact copyHost_overrun h (ho rfl)
    | false => exact h
  | putSendTask hc hm => exact copyHost_overrun h (ho _ _ _ hc hm)
  | registered | erase | insert | pollerRegister | notRegistered => exact h
  | delete => exact (close_overrun ..).trans h
  | onMessage | doNodeReg | doNodeSend | doNodeClose =>
    simp only [State.onMessage, State.doNodeReg, State.doNodeSend, State.doNodeClose]
    repeat' split
    all_goals simp only [close_overrun, State.setCall, State.erase, h]

theorem reach_overrun (h : Reach State.step State.Orderly (.init host) s) : s.overrun = false :=
  h.invariant (I := fun s => s.overrun = false) rfl fun _ _ _ hi ho hs => step_overrun hi ho hs

-- ---------------------------------------------------------------------------
-- The tables agree
-- ---------------------------------------------------------------------------

theorem agrees_of_quiet (h : Inv s) (hq : s.Quiet) : s.Agrees := by
  obtain ⟨hw, hcall⟩ := hq
  intro id fd hne
  constructor
  · intro hr
    exact linkMap_of_router h (by simp [State.locked, hw]) hr
  · rintro ⟨r, hm, rfl⟩
    rcases h.named fd r hm with hn | hn | ⟨p, hp⟩
    · exact absurd hn hne
    · exact hn
    · exact absurd ((hcall p).symm.trans hp) nofun

theorem delivers (h : Inv s) (a : Action) : s.Delivers a :=
  fun p _ id fd r _ hc hm => (h.sends p id fd hc).2 r hm

/-- Four steps change `_Router`. -/
theorem step_router {a : Action} (hs : s.step a = some s') :
    s'.router = s.router ∨
      (∃ fd r id, a = .registered ∧ s.work = .register fd r id ∧
        s'.router = (s.insert id (s.links r).fd).router) ∨
      (∃ p id r fd, a = .insert p ∧ s.call p = .insert id r fd ∧
        s'.router = (s.insert id fd).router) ∨
      (∃ fd r, s.work = .remove fd r ∧ s'.router = (s.erase (s.links r).id).router) ∨
      (∃ id fd, s.locked = false ∧ s.router id = some fd ∧ s.linkMap fd = none ∧
        s'.router = (s.erase id).router) := by
  cases move_of_step hs with
  | registered hw => exact .inr (.inl ⟨_, _, _, rfl, hw, rfl⟩)
  | insert hc => exact .inr (.inr (.inl ⟨_, _, _, _, rfl, hc, rfl⟩))
  | erase hw => exact .inr (.inr (.inr (.inl ⟨_, _, hw, rfl⟩)))
  | doNodeClose hl =>
    rename_i host port
    unfold State.doNodeClose
    cases hr : s.router (nodeId host port) with
    | none => exact .inl rfl
    | some fd =>
      cases hm : s.linkMap fd with
      | some r => exact .inl (by simp only [hm, (close_frame ..).1])
      | none =>
        refine .inr (.inr (.inr (.inr ⟨_, fd, hl, hr, hm, ?_⟩)))
        simp only [hm]
  | onMessage | doNodeReg | doNodeSend =>
    left
    simp only [State.onMessage, State.doNodeReg, State.doNodeSend]
    repeat' split
    all_goals simp only [(close_frame ..).1, State.setCall]
  | delete => exact .inl (close_frame ..).1
  | cannotRegister =>
    left
    simp only [State.setCall]
    split <;> rfl
  | accept | acceptFails | onErr | registerTo | pollerRegister | putSendTask | notRegistered => exact .inl rfl

theorem step_keeps {a : Action} (h : Inv s) (ho : s.Orderly a) (hs : s.step a = some s') :
    s.Keeps s' := by
  rcases step_router hs with heq | ⟨fd, r, id, rfl, hw, heq⟩ | ⟨p, id, r, fd, rfl, hc, heq⟩ |
    ⟨fd, r, hw, heq⟩ | ⟨id, fd, hl, hr, hm, heq⟩
  · exact fun id fd hr => .inl (heq ▸ hr)
  · intro id' fd' hr
    exact .inl (heq ▸ insert_router (ho fd r id hw) hr)
  · intro id' fd' hr
    exact .inl (heq ▸ insert_router (ho id r fd hc) hr)
  · intro id' fd' hr
    by_cases hid : id' = (s.links r).id
    · -- the route that is erased is the one of the link
      subst hid
      rcases (h.removes fd r hw).2.2 with hnil | hroute
      · exact absurd hnil (h.routed _ fd' hr).1
      · obtain rfl := Option.some.inj (hroute.symm.trans hr)
        exact .inr ⟨r, hw, rfl⟩
    · refine .inl ?_
      rw [heq]
      exact (Function.update_of_ne hid _ _).trans hr
  · obtain ⟨r, hm', -⟩ := linkMap_of_router h hl hr
    exact absurd (hm.symm.trans hm') nofun

/-- In every orderly run: no memory of something else is used, the tables agree between the
handlers, a send goes to the link that registered the id, and a route is lost only
with its link. -/
theorem routes_agree (h : Reach State.step State.Orderly (.init host) s) :
    s.overrun = false ∧ (s.Quiet → s.Agrees) ∧
      ∀ a s', s.Orderly a → s.step a = some s' → s.Delivers a ∧ s.Keeps s' := by
  have hi := reach_inv h
  refine ⟨reach_overrun h, agrees_of_quiet hi, fun a s' ho hs => ?_⟩
  exact ⟨delivers hi a, step_keeps hi ho hs⟩

/-- An incoming link registers, a process registers to another node, and the first link is
removed. -/
theorem routes_agree_two_nodes :
    ∃ s, Reach State.step State.Orderly (.init ['h']) s ∧ s.router (nodeId ['a'] 1) = none ∧
      s.router (nodeId ['b'] 2) = some 6 ∧ s.overrun = false ∧ s.Agrees := by
  have haccept : Reach State.step State.Orderly (.init ['h']) _ :=
    Reach.init.next (a := .accept 5) ⟨⟨rfl, nofun, rfl, id, fun _ => id⟩, by decide⟩ rfl
  have hmessage := haccept.next (a := .onMessage 5 ['a'] 1 true) (by
    rintro r hr - -
    cases hr
    rfl) rfl
  have hregistered := hmessage.next (a := .registered) (by
    rintro fd r id hw
    cases hw
    rfl) rfl
  have hcheck := hregistered.next (a := .doNodeReg 129 ['b'] 2) (by trivial) rfl
  have hput := hcheck.next (a := .registerTo 129 6) (by
    refine ⟨⟨rfl, fun id hr => ?_, rfl, id, fun p => ?_⟩, by decide, by decide⟩
    · change Function.update (fun _ => none) (nodeId ['a'] 1) (some 5) id = some 6 at hr
      grind [Function.update_apply]
    · change ¬ (Function.update (fun _ => Call.idle) 129 (.nodeReg (nodeId ['b'] 2)) p).uses 6
      grind [Function.update_apply, Call.uses]) rfl
  have hinsert := hput.next (a := .insert 129) (by
    rintro id r fd hc
    cases hc
    rfl) rfl
  have hpolled := hinsert.next (a := .pollerRegister 129) (by trivial) rfl
  have herr := hpolled.next (a := .onErr 5) (by
    rintro r hr
    cases hr
    decide) rfl
  have herase := herr.next (a := .erase) (by trivial) rfl
  have hend := herase.next (a := .delete) (by trivial) rfl
  obtain ⟨hfits, hagrees, -⟩ := routes_agree hend
  refine ⟨_, hend, rfl, rfl, hfits, hagrees ⟨rfl, fun p => ?_⟩⟩
  by_cases hp : p = 129
  · subst hp
    rfl
  · simp only [(close_frame ..).2.2.2.2.2, State.erase, State.copyHost, State.setCall, State.poll, State.insert,
      State.newLink, Function.update_of_ne hp]
    exact Function.update_of_ne hp _ _

/-- The link registers a second id, and its first route stays. -/
theorem second_register_leaves_route :
    ¬ ∀ host s, Reach State.step Free (.init host) s → s.Quiet → s.Agrees := by
  intro h
  have hrun : run State.step (.init ['h']) [.accept 5, .onMessage 5 ['a'] 1 true, .registered,
    .onMessage 5 ['b'] 2 true, .registered] = some _ := rfl
  have ha := h ['h'] _ (Reach.init.run hrun) ⟨rfl, fun _ => rfl⟩
  obtain ⟨r, hm, hid⟩ := (ha (nodeId ['a'] 1) 5 (nodeId_ne_nil _ _)).mp (by decide)
  cases hm
  exact absurd hid (by decide)

end GalaLua.Controllers.Routes
