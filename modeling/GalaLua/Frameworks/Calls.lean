import GalaLua.Frameworks.Rpc

/-!
# RPC calls

One process with any number of `client` objects, and the servers they call.
`client:call` sends a request and then receives by the address of the server:
it takes the first message of that process, whatever it is. A message that
waits from before the call, or that the server sends before its answer, is
returned in place of the answer.
-/

namespace GalaLua.Frameworks.Calls

open Library Wrappers
open Rpc (Value Body Mail Send Event Class RPC_CORRID)

/-- The type of a message sent by `glr.send`. -/
abbrev APP : Int := 3

/-- `_server_addr`: a table, or a registered name. -/
inductive Target
  | table (addr : Addr)
  | name (name : String)
  deriving DecidableEq, Repr

structure Client where
  serverAddr : Target
  id : Int
  deriving DecidableEq, Repr

def Client.init (serverAddr : Target) : Client := ⟨serverAddr, 1⟩

/-- The table that goes to the packer of the client. -/
structure Request where
  method : Value
  params : Value
  id : Int

/-- A `call` behind its request. -/
structure Waiting where
  serverAddr : Target
  timed : Bool
  server : Addr
  msgid : Int
  /-- the messages that the receive has passed over -/
  cache : List Message
  /-- what the server has sent in answer to this request -/
  answered : List Message
  deriving DecidableEq, Repr

/-- What a `call` returned, nothing after a time-out; the text of the message
still goes through the unpacker. -/
structure Return where
  answered : List Message
  result : Option Message
  deriving DecidableEq, Repr

/-- The process of the clients, the code of the servers, and the two packers. -/
structure Net (σ : Type) where
  self : Addr
  server : Addr → Class σ
  packRequest : Request → List UInt8
  packBody : Body → List UInt8

/-- `outbox a` has the messages from `a` to the client that are still under
way, `channel` those that `_glr.recv` has not yet returned. -/
structure System (σ : Type) where
  servers : Addr → Rpc.State σ
  inbox : Addr → List Mail
  outbox : Addr → List Message
  registered : String → Option Int
  cacheBox : MailBox Message
  channel : List Message
  clients : List Client
  waiting : Option Waiting
  returns : List Return

inductive Action
  | new (serverAddr : Target)
  | request (i : Nat) (method params : Value) (msgid : Int)
  | call (i : Nat) (method params : Value) (msgid : Int) (timed : Bool)
  /-- one round of the loop of `recv_by_addr` -/
  | take
  | timeout
  /-- any receive of the process outside of a call -/
  | receive (c : Wrappers.Call) (timed : Bool)
  /-- the server at `a` takes its next message -/
  | serve (a : Addr)
  | tick (a : Addr)
  /-- a message of another process to the server at `a` -/
  | post (a : Addr) (m : Mail)
  | deliver (a : Addr)
  /-- a message from `a` that its RPC loop has not sent -/
  | other (a : Addr) (mType : Int) (msg : Option (List UInt8))
  | register (name : String) (gpid : Option Int)

variable {σ : Type} (net : Net σ)

-- ---------------------------------------------------------------------------
-- Addresses
-- ---------------------------------------------------------------------------

/-- The process that `glr.send` sends to; it raises for an unknown name. -/
def Target.addr? (registered : String → Option Int) : Target → Option Addr
  | .table addr => some addr
  | .name x => (registered x).map fun gpid => ⟨net.self.host, net.self.port, gpid⟩

/-- The receive of `recv_by_addr`. -/
def Target.receive (registered : String → Option Int) : Target → Wrappers.Call
  | .table addr => .recvByAddr addr
  | .name x => .recvByName net.self.host net.self.port (registered x)

/-- With a name `recv_by_addr` drops the time-out. -/
def Target.limited : Target → Bool
  | .table _ => true
  | .name _ => false

-- ---------------------------------------------------------------------------
-- Servers
-- ---------------------------------------------------------------------------

def Net.message (a : Addr) (x : Send) : Message :=
  ⟨APP, a, if net.packBody x.body = [] then none else some (net.packBody x.body)⟩

def sendOf : Event → Send
  | .own x | .reply x => x

/-- An answer has the `msgid` of the request as its `corrid`; the response to
`stop` has it as its `msgid`. -/
def refersTo (msgid : Int) (x : Send) : Bool := x.corrid == msgid || x.msgid == some msgid

/-- What the server at `a` sends to the clients' process in one turn. -/
def System.sends (s : System σ) (a : Addr) (x : Rpc.Arrival) : List Send :=
  ((Rpc.main (net.server a) (s.servers a) x).1.map sendOf).filter fun y => y.addr = net.self

def Waiting.note (w : Waiting) (a : Addr) (sends : List Send) : Waiting :=
  if w.server = a then
    { w with answered := w.answered ++ (sends.filter (refersTo w.msgid)).map (net.message a) }
  else w

def System.turn (s : System σ) (a : Addr) (x : Rpc.Arrival) : System σ :=
  { s with
    servers := Function.update s.servers a (Rpc.main (net.server a) (s.servers a) x).2
    outbox := Function.update s.outbox a (s.outbox a ++ (s.sends net a x).map (net.message a))
    waiting := s.waiting.map fun w => w.note net a (s.sends net a x) }

-- ---------------------------------------------------------------------------
-- The client process
-- ---------------------------------------------------------------------------

/-- `client:request`, with the process it sent to. A name that is not
registered raises, when `_id` has been counted up. -/
def System.request (s : System σ) (i : Nat) (method params : Value) (msgid : Int) :
    Option (System σ × Client × Option Addr) := do
  let c ← s.clients[i]?
  let c : Client := { c with id := c.id + 1 }
  let s := { s with clients := s.clients.set i c }
  match c.serverAddr.addr? net s.registered with
  | none => some (s, c, none)
  | some a =>
    if a = net.self then none
    else
      let m : Mail := ⟨APP, ⟨net.self, ⟨msgid, RPC_CORRID⟩⟩,
        some (net.packRequest ⟨method, params, c.id⟩)⟩
      some ({ s with inbox := Function.update s.inbox a (s.inbox a ++ [m]) }, c, some a)

/-- `client:call` up to its receive. -/
def System.call (s : System σ) (i : Nat) (method params : Value) (msgid : Int) (timed : Bool) : Option (System σ) :=
  (s.request net i method params msgid).map fun r =>
    { r.1 with waiting := r.2.2.map fun a => ⟨r.2.1.serverAddr, timed, a, msgid, [], []⟩ }

/-- The end of `recv_by_condition`. -/
def System.restore (s : System σ) (w : Waiting) (world : World) : System σ :=
  { s with
    cacheBox := world.cacheBox.restore w.cache
    channel := world.arrivals.filterMap Wrappers.Arrival.message?
    waiting := none }

def System.take (s : System σ) (w : Waiting) : Option (System σ) :=
  match recv ⟨s.cacheBox, s.channel.map .message⟩ with
  | some (some m, world) =>
    match (w.serverAddr.receive net s.registered).condition m with
    | .yes => some { s.restore w world with returns := s.returns ++ [⟨w.answered, some m⟩] }
    | .raises => some (s.restore w world)
    | .no => some { s with
        cacheBox := world.cacheBox
        channel := world.arrivals.filterMap Wrappers.Arrival.message?
        waiting := some { w with cache := w.cache ++ [m] } }
  | _ => none

def step (s : System σ) : Action → Option (System σ)
  | .new serverAddr =>
    if s.waiting.isSome then none
    else some { s with clients := s.clients ++ [Client.init serverAddr] }
  | .request i method params msgid =>
    if s.waiting.isSome then none else (s.request net i method params msgid).map (·.1)
  | .call i method params msgid timed =>
    if s.waiting.isSome then none else s.call net i method params msgid timed
  | .take => s.waiting.bind (s.take net)
  | .timeout => s.waiting.bind fun w =>
    if w.timed && w.serverAddr.limited && !s.cacheBox.available then
      some { s.restore w ⟨s.cacheBox, s.channel.map .message⟩ with
        returns := s.returns ++ [⟨w.answered, none⟩] }
    else none
  | .receive c timed =>
    if s.waiting.isSome then none
    else
      (c.perform ⟨s.cacheBox, s.channel.map .message ++ if timed then [.timeout] else []⟩).map fun r =>
        { s with
          cacheBox := r.2.cacheBox
          channel := r.2.arrivals.filterMap Wrappers.Arrival.message? }
  | .serve a =>
    match s.inbox a with
    | [] => none
    | m :: ms => some (System.turn net { s with inbox := Function.update s.inbox a ms } a (.mail m))
  | .tick a => some (s.turn net a .timeout)
  | .post a m =>
    if m.desc.addr = net.self then none
    else some { s with inbox := Function.update s.inbox a (s.inbox a ++ [m]) }
  | .deliver a =>
    match s.outbox a with
    | [] => none
    | m :: ms =>
      some { s with outbox := Function.update s.outbox a ms, channel := s.channel ++ [m] }
  | .other a mType msg =>
    some { s with outbox := Function.update s.outbox a (s.outbox a ++ [⟨mType, a, msg⟩]) }
  | .register name gpid => some { s with registered := Function.update s.registered name gpid }

/-- Before the first client object: servers in any state, and any names. -/
def System.init (servers : Addr → Rpc.State σ) (registered : String → Option Int) : System σ :=
  ⟨servers, fun _ => [], fun _ => [], registered, .new, [], [], none, []⟩

-- ---------------------------------------------------------------------------
-- The answer to the request
-- ---------------------------------------------------------------------------

/-- The call timed out, or returned what the server sent in answer to its own
request. -/
def Return.Right (r : Return) : Prop := ∀ m, r.result = some m → m ∈ r.answered

/-- The messages of the process, in the order of their reading. -/
def System.unread (s : System σ) : List Message :=
  s.waiting.elim [] (·.cache) ++ (s.cacheBox.toList ++ s.channel)

/-- The messages from `a` that are unread or under way. -/
def System.pending (s : System σ) (a : Addr) : List Message :=
  (s.unread ++ s.outbox a).filter fun m => m.addr = a

/-- The first message of the turn is not taken for an answer that it is not. -/
def System.InTurn (s : System σ) (a : Addr) (x : Rpc.Arrival) : Prop :=
  ∀ w, s.waiting = some w → w.server = a → s.pending a = [] →
    ∀ y ∈ (s.sends net a x).head?, refersTo w.msgid y

/-- A call is made when no message of the server is unread or under way; while
it waits, the first message that the server sends is the answer, and the name
of the server is not registered anew. -/
def Undisturbed (s : System σ) : Action → Prop
  | .call i _ _ _ _ => ∀ c a, s.clients[i]? = some c →
      c.serverAddr.addr? net s.registered = some a → s.pending a = []
  | .serve a => ∀ m ms, s.inbox a = m :: ms → s.InTurn net a (.mail m)
  | .tick a => s.InTurn net a .timeout
  | .other a _ _ => ∀ w, s.waiting = some w → w.server = a → s.pending a ≠ []
  | .register name _ => ∀ w, s.waiting = some w → w.serverAddr ≠ .name name
  | _ => True

structure System.Inv (s : System σ) : Prop where
  holds : ∃ xs, s.cacheBox.Holds xs
  sender : ∀ a, ∀ m ∈ s.outbox a, m.addr = a
  target : ∀ w, s.waiting = some w → w.serverAddr.addr? net s.registered = some w.server
  passed : ∀ w, s.waiting = some w → ∀ m ∈ w.cache, m.addr ≠ w.server
  first : ∀ w, s.waiting = some w → ∀ m ∈ (s.pending w.server).head?, m ∈ w.answered
  returns : ∀ r ∈ s.returns, r.Right

-- ---------------------------------------------------------------------------
-- Messages
-- ---------------------------------------------------------------------------

variable {net} {s s' : System σ} {a : Addr}

@[simp] theorem messages_map (ms : List Message) :
    (ms.map Wrappers.Arrival.message).filterMap Wrappers.Arrival.message? = ms := by
  rw [List.filterMap_map]
  exact List.filterMap_some

theorem condition_eq {t : Target} {registered : String → Option Int}
    (h : t.addr? net registered = some a) (m : Message) :
    (t.receive net registered).condition m = .of (m.addr = a) := by
  obtain ⟨_, ⟨host, port, gpid⟩, _⟩ := m
  cases t with
  | table addr =>
    cases h
    obtain ⟨host', port', gpid'⟩ := a
    simp only [Target.receive, Wrappers.Call.condition, addrCondition, Addr.mk.injEq]
    congr 1
    simp [Bool.and_assoc, Bool.decide_and, beq_eq_decide]
  | name x =>
    simp only [Target.addr?, Option.map_eq_some_iff] at h
    obtain ⟨g, hg, rfl⟩ := h
    simp only [Target.receive, Wrappers.Call.condition, nameCondition, hg, Addr.mk.injEq]
    by_cases hhost : host = net.self.host <;> by_cases hport : port = net.self.port <;>
      simp [hhost, hport, Verdict.of]

theorem forall_head?_append {xs ys answered : List Message}
    (hx : ∀ m ∈ xs.head?, m ∈ answered) (hy : xs = [] → ∀ m ∈ ys.head?, m ∈ answered) :
    ∀ m ∈ (xs ++ ys).head?, m ∈ answered := by
  cases xs with
  | nil => exact hy rfl
  | cons x xs => exact hx

theorem sender_update {outbox : Addr → List Message} {b : Addr} {ms : List Message}
    (h : ∀ a, ∀ m ∈ outbox a, m.addr = a) (hms : ∀ m ∈ ms, m.addr = b) (a : Addr) :
    ∀ m ∈ Function.update outbox b ms a, m.addr = a := by
  by_cases hb : a = b
  · subst hb
    rw [Function.update_self]
    exact hms
  · rw [Function.update_of_ne hb]
    exact h a

theorem pending_deliver {b : Addr} {m : Message} {ms : List Message} (hb : s.outbox b = m :: ms)
    (hm : m.addr = b) :
    System.pending
      { s with outbox := Function.update s.outbox b ms, channel := s.channel ++ [m] } a =
      s.pending a := by
  simp only [System.pending, System.unread]
  by_cases h : b = a
  · subst h
    simp [hb]
  · rw [Function.update_of_ne (Ne.symm h)]
    simp [hm, h]

/-- A message that is not from the server moves to the messages passed over. -/
theorem pending_skip {w : Waiting} {xs xs' : List Message} {world : World} {m : Message}
    (hw : s.waiting = some w) (hxs : s.cacheBox.Holds xs) (hxs' : world.cacheBox.Holds xs')
    (hseq : xs ++ s.channel =
      m :: (xs' ++ world.arrivals.filterMap Wrappers.Arrival.message?)) :
    System.pending { s with
      cacheBox := world.cacheBox
      channel := world.arrivals.filterMap Wrappers.Arrival.message?
      waiting := some { w with cache := w.cache ++ [m] } } a = s.pending a := by
  simp only [System.pending, System.unread, hw, hxs.toList_eq, hxs'.toList_eq, hseq, Option.elim]
  simp

-- ---------------------------------------------------------------------------
-- One step
-- ---------------------------------------------------------------------------

theorem System.Inv.idle (h : s.Inv net) (hw : s'.waiting = none) (hholds : ∃ xs, s'.cacheBox.Holds xs)
    (houtbox : s'.outbox = s.outbox) (hreturns : ∀ r ∈ s'.returns, r.Right) : s'.Inv net where
  holds := hholds
  sender := houtbox ▸ h.sender
  target w hw' := by cases hw.symm.trans hw'
  passed w hw' := by cases hw.symm.trans hw'
  first w hw' := by cases hw.symm.trans hw'
  returns := hreturns

theorem System.Inv.turn (h : s.Inv net) {x : Rpc.Arrival} (hx : s.InTurn net a x) :
    (s.turn net a x).Inv net where
  holds := h.holds
  sender := by
    refine sender_update h.sender fun m hm => ?_
    rcases List.mem_append.mp hm with hm | hm
    · exact h.sender a m hm
    · obtain ⟨y, -, rfl⟩ := List.mem_map.mp hm
      rfl
  target w' hw' := by
    obtain ⟨w, hw, rfl⟩ := Option.map_eq_some_iff.mp hw'
    have ht := h.target w hw
    unfold Waiting.note
    split
    · exact ht
    · exact ht
  passed w' hw' := by
    obtain ⟨w, hw, rfl⟩ := Option.map_eq_some_iff.mp hw'
    have hp := h.passed w hw
    unfold Waiting.note
    split
    · exact hp
    · exact hp
  first w' hw' := by
    obtain ⟨w, hw, rfl⟩ := Option.map_eq_some_iff.mp hw'
    by_cases ha : w.server = a
    · have hpending : (s.turn net a x).pending a =
          s.pending a ++ (s.sends net a x).map (net.message a) := by
        simp [System.pending, System.unread, System.turn, hw, Waiting.note, ha, Net.message]
      simp only [Waiting.note, if_pos ha]
      rw [ha, hpending]
      refine forall_head?_append (fun m hm => ?_) (fun hempty m hm => ?_)
      · exact List.mem_append_left _ (h.first w hw m (ha ▸ hm))
      · rw [List.head?_map, Option.mem_def, Option.map_eq_some_iff] at hm
        obtain ⟨y, hy, rfl⟩ := hm
        refine List.mem_append_right _ (List.mem_map_of_mem ?_)
        exact List.mem_filter.mpr ⟨List.mem_of_mem_head? hy, hx w hw ha hempty y hy⟩
    · have hpending : (s.turn net a x).pending w.server = s.pending w.server := by
        simp [System.pending, System.unread, System.turn, hw, Waiting.note, ha]
      simp only [Waiting.note, if_neg ha]
      rw [hpending]
      exact h.first w hw
  returns := h.returns

theorem head?_pending {w : Waiting} {xs rest : List Message} {m : Message} (h : s.Inv net)
    (hw : s.waiting = some w) (hxs : s.cacheBox.Holds xs) (hseq : xs ++ s.channel = m :: rest)
    (hm : m.addr = w.server) : m ∈ (s.pending w.server).head? := by
  have hpassed : w.cache.filter (fun x => x.addr = w.server) = [] :=
    List.filter_eq_nil_iff.mpr (by simpa using h.passed w hw)
  simp [System.pending, System.unread, hw, hxs.toList_eq, hseq, hpassed, hm]

theorem forall_mem_concat {p : Return → Prop} {rs : List Return} {r : Return}
    (hrs : ∀ x ∈ rs, p x) (hr : p r) : ∀ x ∈ rs ++ [r], p x := by
  simpa [or_imp, forall_and] using ⟨hrs, hr⟩

theorem System.Inv.take {w : Waiting} (h : s.Inv net) (hw : s.waiting = some w)
    (ht : s.take net w = some s') : s'.Inv net := by
  obtain ⟨xs, hxs⟩ := h.holds
  rcases recv_cases (w := ⟨s.cacheBox, s.channel.map .message⟩) hxs with ⟨hr, _⟩ | ⟨_, hr, _⟩ |
    ⟨m, world, xs', hr, hxs', hseq, -⟩
  · simp [System.take, hr] at ht
  · simp [System.take, hr] at ht
  · rw [messages_map] at hseq
    have hrestore := hxs'.restore w.cache
    simp only [System.take, hr, condition_eq (h.target w hw)] at ht
    by_cases hm : m.addr = w.server
    · -- the message is the first one from the server
      simp only [hm, decide_true, Verdict.of, if_true, Option.some.injEq] at ht
      subst ht
      refine h.idle rfl ⟨_, hrestore⟩ rfl (forall_mem_concat h.returns fun x hx => ?_)
      cases hx
      exact h.first w hw m (head?_pending h hw hxs hseq hm)
    · simp only [hm, decide_false, Verdict.of, Bool.false_eq_true, if_false, Option.some.injEq] at ht
      subst ht
      exact {
        holds := ⟨xs', hxs'⟩
        sender := h.sender
        target := by
          rintro _ ⟨⟩
          exact h.target w hw
        passed := by
          rintro _ ⟨⟩ x hx
          rcases List.mem_append.mp hx with hx | hx
          · exact h.passed w hw x hx
          · exact List.mem_singleton.mp hx ▸ hm
        first := by
          rintro _ ⟨⟩
          rw [pending_skip hw hxs hxs' hseq]
          exact h.first w hw
        returns := h.returns }

/-- `client:request` leaves the messages of the process alone. -/
theorem request_cases {i : Nat} {method params : Value} {msgid : Int} {c' : Client}
    {r : Option Addr} (hq : s.request net i method params msgid = some (s', c', r)) :
    ∃ c, s.clients[i]? = some c ∧ c'.serverAddr = c.serverAddr ∧
      r = c.serverAddr.addr? net s.registered ∧ s'.registered = s.registered ∧
      s'.cacheBox = s.cacheBox ∧ s'.channel = s.channel ∧ s'.outbox = s.outbox ∧
      s'.waiting = s.waiting ∧ s'.returns = s.returns := by
  obtain ⟨c, hc, hq⟩ := Option.bind_eq_some_iff.mp hq
  refine ⟨c, hc, ?_⟩
  simp only at hq
  split at hq
  · next ha =>
    cases hq
    exact ⟨rfl, ha.symm, rfl, rfl, rfl, rfl, rfl, rfl⟩
  · next ha =>
    split at hq
    · cases hq
    · cases hq
      exact ⟨rfl, ha.symm, rfl, rfl, rfl, rfl, rfl, rfl⟩

theorem System.Inv.call {i : Nat} {method params : Value} {msgid : Int} {timed : Bool}
    (h : s.Inv net) (hok : Undisturbed net s (.call i method params msgid timed))
    (hidle : s.waiting = none) {c' : Client} {r : Option Addr}
    (hq : s.request net i method params msgid = some (s', c', r)) :
    System.Inv net
      { s' with waiting := r.map fun a => ⟨c'.serverAddr, timed, a, msgid, [], []⟩ } := by
  obtain ⟨c, hc, hserver, rfl, hreg, hbox, hchannel, houtbox, -, hreturns⟩ := request_cases hq
  cases ha : c.serverAddr.addr? net s.registered with
  | none => exact h.idle rfl (hbox ▸ h.holds) houtbox (hreturns ▸ h.returns)
  | some a =>
    have hempty := hok c a hc ha
    exact {
      holds := hbox ▸ h.holds
      sender := houtbox ▸ h.sender
      target := by
        rintro _ ⟨⟩
        rw [hserver, hreg]
        exact ha
      passed := by
        rintro _ ⟨⟩
        exact nofun
      first := by
        rintro _ ⟨⟩
        have hpending : System.pending
            { s' with waiting := some ⟨c'.serverAddr, timed, a, msgid, [], []⟩ } a = s.pending a := by
          simp only [System.pending, System.unread, hidle, hbox, hchannel, houtbox, Option.elim]
        intro m hm
        have hnone : (s.pending a).head? = some m := hpending ▸ hm
        rw [hempty] at hnone
        cases hnone
      returns := hreturns ▸ h.returns }

theorem step_inv {act : Action} (h : s.Inv net) (hok : Undisturbed net s act)
    (hs : step net s act = some s') : s'.Inv net := by
  cases act with
  | new serverAddr =>
    simp only [step] at hs
    split at hs
    · cases hs
    · next hw =>
      cases hs
      exact h.idle (by simpa using hw) h.holds rfl h.returns
  | request i method params msgid =>
    simp only [step] at hs
    split at hs
    · cases hs
    · next hw =>
      obtain ⟨⟨s₁, c', r⟩, hq, rfl⟩ := Option.map_eq_some_iff.mp hs
      obtain ⟨c, -, -, -, -, hbox, -, houtbox, hwaiting, hreturns⟩ := request_cases hq
      exact h.idle (by simpa [hwaiting] using hw) (hbox ▸ h.holds) houtbox (hreturns ▸ h.returns)
  | call i method params msgid timed =>
    simp only [step] at hs
    split at hs
    · cases hs
    · next hw =>
      obtain ⟨⟨s₁, c', r⟩, hq, rfl⟩ := Option.map_eq_some_iff.mp hs
      exact h.call hok (by simpa using hw) hq
  | take =>
    obtain ⟨w, hw, ht⟩ := Option.bind_eq_some_iff.mp hs
    exact h.take hw ht
  | timeout =>
    obtain ⟨w, hw, ht⟩ := Option.bind_eq_some_iff.mp hs
    obtain ⟨xs, hxs⟩ := h.holds
    split at ht
    · cases ht
      exact h.idle rfl ⟨_, hxs.restore w.cache⟩ rfl (forall_mem_concat h.returns nofun)
    · cases ht
  | receive c timed =>
    simp only [step] at hs
    split at hs
    · cases hs
    · next hw =>
      obtain ⟨⟨o, world⟩, hp, rfl⟩ := Option.map_eq_some_iff.mp hs
      obtain ⟨xs, hxs⟩ := h.holds
      have hsel := c.perform_selects
        (w := ⟨s.cacheBox, s.channel.map .message ++ if timed then [.timeout] else []⟩) hxs
      rw [hp] at hsel
      exact h.idle (by simpa using hw) hsel.holds rfl h.returns
  | serve a =>
    simp only [step] at hs
    split at hs
    · cases hs
    · next m ms hi =>
      cases hs
      have h' : System.Inv net { s with inbox := Function.update s.inbox a ms } :=
        ⟨h.holds, h.sender, h.target, h.passed, h.first, h.returns⟩
      exact h'.turn (hok m ms hi)
  | tick a =>
    cases hs
    exact h.turn hok
  | post a m =>
    simp only [step] at hs
    split at hs
    · cases hs
    · cases hs
      exact ⟨h.holds, h.sender, h.target, h.passed, h.first, h.returns⟩
  | deliver b =>
    simp only [step] at hs
    split at hs
    · cases hs
    · next m ms hb =>
      cases hs
      have hm := h.sender b m (hb ▸ List.mem_cons_self ..)
      exact {
        holds := h.holds
        sender := sender_update h.sender fun x hx => h.sender b x (hb ▸ List.mem_cons_of_mem m hx)
        target := h.target
        passed := h.passed
        first w hw := by
          rw [pending_deliver hb hm]
          exact h.first w hw
        returns := h.returns }
  | other b mType msg =>
    cases hs
    exact {
      holds := h.holds
      sender := by
        refine sender_update h.sender fun x hx => ?_
        rcases List.mem_append.mp hx with hx | hx
        · exact h.sender b x hx
        · rw [List.mem_singleton.mp hx]
      target := h.target
      passed := h.passed
      first w hw := by
        by_cases hb : w.server = b
        · have hpending : System.pending { s with
              outbox := Function.update s.outbox b (s.outbox b ++ [⟨mType, b, msg⟩]) } b =
              s.pending b ++ [⟨mType, b, msg⟩] := by
            simp [System.pending, System.unread]
          rw [hb, hpending]
          exact forall_head?_append (hb ▸ h.first w hw) fun he => absurd he (hok w hw hb)
        · have hpending : System.pending { s with
              outbox := Function.update s.outbox b (s.outbox b ++ [⟨mType, b, msg⟩]) } w.server =
              s.pending w.server := by
            simp [System.pending, System.unread, hb]
          rw [hpending]
          exact h.first w hw
      returns := h.returns }
  | register name gpid =>
    cases hs
    refine ⟨h.holds, h.sender, fun w hw => ?_, h.passed, h.first, h.returns⟩
    rw [← h.target w hw]
    have hname := hok w hw
    cases ht : w.serverAddr with
    | table addr => rfl
    | name x =>
      have hx : x ≠ name := fun he => hname (he ▸ ht)
      simp [Target.addr?, hx]

theorem init_inv (servers : Addr → Rpc.State σ) (registered : String → Option Int) :
    (System.init servers registered).Inv net where
  holds := ⟨[], MailBox.holds_new⟩
  sender _ := nofun
  target := nofun
  passed := nofun
  first := nofun
  returns := nofun

-- ---------------------------------------------------------------------------
-- Any number of calls
-- ---------------------------------------------------------------------------

/-- In every run whose calls are not disturbed, each call returns nothing or
the answer to its own request. -/
theorem calls_answered {servers : Addr → Rpc.State σ} {registered : String → Option Int}
    (h : Reach (step net) (Undisturbed net) (System.init servers registered) s) :
    ∀ r ∈ s.returns, r.Right :=
  (h.invariant (init_inv servers registered) fun _ _ _ hi hok hs => step_inv hi hok hs).returns

/-- A server with one method, which returns its parameters. -/
def echo : Class Unit where
  unpack
    | some [id] => .ok (.table [("method", .string "echo"), ("params", .boolean true),
        ("id", .number id.toNat)])
    | _ => .error "Bad data format in input."
  password _ := .nil
  member
    | _, .string "echo" => some (.method fun o params _ => ⟨[], o, .ok (.value params, .nil)⟩)
    | _, _ => none
  onInit o := ⟨[], o, .ok ()⟩
  onStop o := ⟨[], o, .ok ()⟩
  onTimeout o := ⟨[], o, .ok ()⟩
  onMessage _ o := ⟨[], o, .ok ()⟩

def echoNet : Net Unit where
  self := ⟨"h", 1, 129⟩
  server _ := echo
  packRequest r := [UInt8.ofNat r.id.toNat]
  packBody b :=
    match b.id with
    | .number i => [UInt8.ofNat i.toNat]
    | _ => []

def echoSystem : System Unit := .init (fun _ => ⟨⟨(), none⟩, .running⟩) fun _ => none

theorem answered_call_reached :
    ∃ s, Reach (step echoNet) (Undisturbed echoNet) echoSystem s ∧
      s.returns.map (·.result) = [some ⟨APP, ⟨"h", 1, 130⟩, some [2]⟩] ∧ ∀ r ∈ s.returns, r.Right := by
  have hinit : Reach (step echoNet) (Undisturbed echoNet) echoSystem echoSystem := .init
  have hnew := hinit.next (a := .new (.table ⟨"h", 1, 130⟩)) (by trivial) rfl
  have hcall := hnew.next (a := .call 0 (.string "echo") (.boolean true) 7 true)
    (by
      rintro c a - -
      rfl) rfl
  have hserve := hcall.next (a := .serve ⟨"h", 1, 130⟩) (by
    rintro m ms hi w hw - - y hy
    cases hi
    cases hw
    cases hy
    rfl) rfl
  have hdeliver := hserve.next (a := .deliver ⟨"h", 1, 130⟩) (by trivial) rfl
  have htake := hdeliver.next (a := .take) (by trivial) rfl
  exact ⟨_, htake, rfl, calls_answered htake⟩

/-- The first call times out, its answer comes late, and the second call returns it. -/
theorem late_answer_returned :
    ¬ ∀ s, Reach (step echoNet) Free echoSystem s → ∀ r ∈ s.returns, r.Right := by
  intro h
  let a : Addr := ⟨"h", 1, 130⟩
  obtain ⟨s, hs, hwrong⟩ := @reach_of_run _ _ (step echoNet) echoSystem
    [.new (.table a), .call 0 (.string "echo") (.boolean true) 7 true, .timeout, .serve a, .deliver a,
      .call 0 (.string "echo") (.boolean true) 8 true, .take]
    (fun s => s.returns.getLast? = some ⟨[], some ⟨APP, a, some [2]⟩⟩) (by decide)
  have hright := h s hs ⟨[], some ⟨APP, a, some [2]⟩⟩ (List.mem_of_getLast? (of_decide_eq_true hwrong))
  exact absurd (hright _ rfl) List.not_mem_nil

end GalaLua.Frameworks.Calls
