import GalaLua.Library.Transition
import GalaLua.Wrappers.Receive

/-!
# The RPC server

`server:_main_loop` takes one message at a time, calls the method that a
request names and sends its result back. `server:_main` runs the loop in
`pcall` and enters it again after an error, so that a request whose method
raises is over without a response. Methods, hooks and the message pack decoder
are those of the server object, and arbitrary; a method returns or raises, and
may send responses of its own.
-/

namespace GalaLua.Frameworks.Rpc

open Library Wrappers

abbrev RPC_CORRID : Int := 0x12345678

inductive Value
  | nil
  | boolean (b : Bool)
  | number (i : Int)
  | string (s : String)
  | table (fields : List (String × Value))
  deriving Repr

def Value.truthy : Value → Bool
  | .nil | .boolean false => false
  | _ => true

def Value.toOption : Value → Option Value
  | .nil => none
  | v => some v

/-- Errors are compared with the two tables `stop_error` and `restart_error`. -/
inductive Error
  | stop
  | restart
  | other (message : String)
  deriving DecidableEq, Repr

/-- `v.key` for a key that is not the name of a function of `string`. -/
def Value.index : Value → String → Except String Value
  | .table fields, key => .ok ((fields.lookup key).getD .nil)
  | .string _, _ => .ok .nil
  | _, _ => .error "attempt to index"

/-- `==` of a string, a number or a boolean; a table that was unpacked is equal
to no other value. -/
def Value.eq : Value → Value → Bool
  | .nil, .nil => true
  | .boolean a, .boolean b => a == b
  | .number a, .number b => a == b
  | .string a, .string b => a == b
  | _, _ => false

structure Attr where
  msgid : Int
  corrid : Int
  deriving DecidableEq, Repr

structure Desc where
  addr : Addr
  attr : Attr
  deriving DecidableEq, Repr

structure Mail where
  mType : Int
  desc : Desc
  msg : Option (List UInt8)
  deriving DecidableEq, Repr

/-- The table that goes to the packer. -/
structure Body where
  error : Value
  id : Value
  result : Value
  deriving Repr

/-- `glr.send(addr, packer(body), attr)`; without a `msgid` the runtime makes one. -/
structure Send where
  addr : Addr
  msgid : Option Int
  corrid : Int
  body : Body
  deriving Repr

inductive Response
  | ok
  | noResponse
  | value (v : Value)
  deriving Repr

def Response.truthy : Response → Bool
  | .value v => v.truthy
  | .ok | .noResponse => true

/-- `stopCaller` has `_stop_caller_addr` and `_stop_caller_attr`. -/
structure Object (σ : Type) where
  fields : σ
  stopCaller : Option Desc

/-- What a piece of code of the server object sends, and how it ends. -/
structure Outcome (σ α : Type) where
  sends : List Send
  object : Object σ
  result : Except Error α

abbrev Hook (σ : Type) := Object σ → Outcome σ Unit

abbrev Method (σ : Type) := Object σ → Value → Desc → Outcome σ (Response × Value)

/-- `self[key]` -/
inductive Member (σ : Type)
  | absent
  | method (f : Method σ)
  /-- any other value, which cannot be called -/
  | field

structure Class (σ : Type) where
  unpack : Option (List UInt8) → Except String Value
  password : σ → Value
  /-- the members of the object and of the classes derived from `server` -/
  member : Object σ → Value → Option (Member σ)
  onInit : Hook σ
  onStop : Hook σ
  onTimeout : Hook σ
  onMessage : Mail → Hook σ

/-- A message that `glr.recv` returns, or its time-out. -/
inductive Arrival
  | mail (m : Mail)
  | timeout

inductive Event
  /-- sent by a method or a hook -/
  | own (s : Send)
  | reply (s : Send)

variable {σ : Type} (c : Class σ)

-- ---------------------------------------------------------------------------
-- Methods of every server
-- ---------------------------------------------------------------------------

def stop : Method σ := fun o _ desc =>
  let r := c.onStop o
  match r.result with
  | .error e => ⟨r.sends, r.object, .error e⟩
  | .ok _ => ⟨r.sends, { r.object with stopCaller := some desc }, .error .stop⟩

/-- `server:_send`, for methods that answer later. -/
def send (desc : Desc) (result : Value) : Send :=
  ⟨desc.addr, none, desc.attr.msgid, ⟨.nil, .nil, result⟩⟩

def restart : Method σ := fun o params _ =>
  match params.index "password" with
  | .error e => ⟨[], o, .error (.other e)⟩
  | .ok password =>
    if password.truthy && password.eq (c.password o.fields) then ⟨[], o, .error .restart⟩
    else ⟨[], o, .ok (.value .nil, .nil)⟩

def lookup (o : Object σ) (key : Value) : Member σ :=
  match c.member o key with
  | some x => x
  | none =>
    match key with
    | .string "stop" => .method (stop c)
    | .string "restart" => .method (restart c)
    | _ => .absent

-- ---------------------------------------------------------------------------
-- The loop
-- ---------------------------------------------------------------------------

/-- What one round of the loop sends, and the error it leaves the loop with. -/
structure Round (σ : Type) where
  events : List Event
  object : Object σ
  error : Option Error

def Hook.round (h : Hook σ) (o : Object σ) : Round σ :=
  let r := h o
  ⟨r.sends.map .own, r.object, match r.result with | .ok _ => none | .error e => some e⟩

def reply (desc : Desc) (body : Body) : Event := .reply ⟨desc.addr, none, desc.attr.msgid, body⟩

/-- The branches behind the call of a method. -/
def respond (desc : Desc) (id : Value) (response : Response) (errorMsg : Value) : List Event :=
  match response with
  | .noResponse => []
  | .ok => [reply desc ⟨.nil, id, .nil⟩]
  | .value v =>
    if v.truthy then [reply desc ⟨.nil, id, v⟩] else [reply desc ⟨errorMsg, id, .nil⟩]

def Method.round (f : Method σ) (o : Object σ) (params id : Value) (desc : Desc) : Round σ :=
  let r := f o params desc
  match r.result with
  | .error e => ⟨r.sends.map .own, r.object, some e⟩
  | .ok (response, errorMsg) =>
    ⟨r.sends.map .own ++ respond desc id response errorMsg, r.object, none⟩

/-- The member that a request names, its parameters and its id. -/
def resolve (o : Object σ) (m : Mail) : Except String (Member σ × Value × Value) := do
  let call ← c.unpack m.msg
  let method ← call.index "method"
  let params ← call.index "params"
  let id ← call.index "id"
  return (if method.truthy then lookup c o method else .absent, params, id)

def request (o : Object σ) (m : Mail) : Round σ :=
  match resolve c o m with
  | .error e => ⟨[], o, some (.other e)⟩
  | .ok (.method f, params, id) => f.round o params id m.desc
  | .ok (.field, _, _) => ⟨[], o, some (.other "attempt to call")⟩
  | .ok (.absent, _, id) =>
    ⟨[reply m.desc ⟨.string "no method or method not exist", id, .nil⟩], o, none⟩

def mainLoop (o : Object σ) : Arrival → Round σ
  | .timeout => Hook.round c.onTimeout o
  | .mail m =>
    if m.desc.attr.corrid ≠ RPC_CORRID then Hook.round (c.onMessage m) o else request c o m

-- ---------------------------------------------------------------------------
-- _main
-- ---------------------------------------------------------------------------

inductive Status
  | running
  | stopped
  /-- `on_init` raised -/
  | dead
  deriving DecidableEq, Repr

structure State (σ : Type) where
  object : Object σ
  status : Status

/-- From `::entry::` to the loop. -/
def entry (o : Object σ) : List Event × State σ :=
  let r := c.onInit o
  (r.sends.map .own, ⟨r.object, match r.result with | .ok _ => .running | .error _ => .dead⟩)

/-- The response of `_main` to the caller of `stop`, with the attributes of its
request; to nobody when there was none. -/
def farewell (o : Object σ) : List Event :=
  match o.stopCaller with
  | none => []
  | some desc => [.reply ⟨desc.addr, some desc.attr.msgid, desc.attr.corrid,
      ⟨.nil, .number 1, .table [("status", .string "stopped")]⟩⟩]

/-- One message, with what `_main` does when the loop was left. -/
def main (s : State σ) (a : Arrival) : List Event × State σ :=
  match s.status with
  | .running =>
    let r := mainLoop c s.object a
    match r.error with
    | none => (r.events, ⟨r.object, .running⟩)
    | some .stop => (r.events ++ farewell r.object, ⟨r.object, .stopped⟩)
    | some _ => (r.events ++ (entry c r.object).1, (entry c r.object).2)
  | _ => ([], s)

-- ---------------------------------------------------------------------------
-- Responses
-- ---------------------------------------------------------------------------

/-- A response to the requester, with the `msgid` of its request. -/
def Send.answers (m : Mail) (s : Send) : Bool :=
  s.addr = m.desc.addr ∧ s.corrid = m.desc.attr.msgid

/-- Whoever sends it: the loop, `_main`, or a method or a hook of the object. -/
def Event.answers (m : Mail) : Event → Bool
  | .reply s | .own s => s.answers m

/-- A response of the loop or of `_main`. -/
def Event.replies (m : Mail) : Event → Bool
  | .reply s => s.answers m
  | .own _ => false

/-- The method that the request names returns `no_response`. -/
def Silent (o : Object σ) (m : Mail) : Prop :=
  ∃ f params id e, resolve c o m = .ok (.method f, params, id) ∧
    (f o params m.desc).result = .ok (.noResponse, e)

/-- The arrival is a request, and the server takes it. -/
def Takes (s : State σ) (a : Arrival) (m : Mail) : Prop :=
  s.status = .running ∧ a = .mail m ∧ m.desc.attr.corrid = RPC_CORRID

/-- One response before the next message, with those that the object sends itself;
for `no_response` the server adds none to them. -/
def Answered (s : State σ) (a : Arrival) : Prop :=
  ∀ m, Takes s a m →
    (Silent c s.object m ∧ (main c s a).1.countP (·.replies m) = 0) ∨
      (¬ Silent c s.object m ∧ (main c s a).1.countP (·.answers m) = 1)

/-- The responses to `m` among what the object sends itself. -/
def own (m : Mail) (sends : List Send) : Nat := sends.countP (·.answers m)

/-- `_main` answers to the requester of `m`, with its `msgid`. -/
def Object.Recalls (o : Object σ) (m : Mail) : Prop :=
  ∃ d, o.stopCaller = some d ∧ d.addr = m.desc.addr ∧ d.attr.corrid = m.desc.attr.msgid

instance (o : Object σ) (m : Mail) : Decidable (o.Recalls m) :=
  match h : o.stopCaller with
  | none => .isFalse fun ⟨_, hd, _⟩ => by rw [h] at hd; cases hd
  | some d =>
    decidable_of_iff (d.addr = m.desc.addr ∧ d.attr.corrid = m.desc.attr.msgid)
      ⟨fun hd => ⟨d, h, hd⟩, fun ⟨d', hd', h'⟩ => by rw [h] at hd'; cases hd'; exact h'⟩

/-- What the methods and the hooks of the object send themselves for the request:
nothing where the loop responds, and the one response where it does not. The loop
responds to a request that names no member and when a method returns; `_main` does
when `stop_error` was raised with the requester recorded so that the response has
its `msgid`. After any other error `on_init` runs again. -/
def Handled (o : Object σ) (m : Mail) : Prop :=
  match resolve c o m with
  | .error _ | .ok (.field, _, _) => own m (c.onInit o).sends = 1
  | .ok (.absent, _, _) => True
  | .ok (.method f, params, _) =>
    let r := f o params m.desc
    match r.result with
    | .ok (.noResponse, _) => True
    | .ok _ => own m r.sends = 0
    | .error .stop => own m r.sends = if r.object.Recalls m then 0 else 1
    | .error _ => own m r.sends + own m (c.onInit r.object).sends = 1

-- ---------------------------------------------------------------------------
-- One request
-- ---------------------------------------------------------------------------

variable {c} {m : Mail} {s : State σ} {a : Arrival} {o : Object σ}

@[simp] theorem answers_reply (b : Body) : (reply m.desc b).answers m = true := by
  simp [reply, Event.answers, Send.answers]

theorem countP_own (sends : List Send) : (sends.map Event.own).countP (·.answers m) = own m sends := by
  rw [List.countP_map]
  rfl

theorem countP_entry : (entry c o).1.countP (·.answers m) = own m (c.onInit o).sends :=
  countP_own _

theorem countP_respond (id e : Value) {r : Response} :
    (respond m.desc id r e).countP (·.answers m) =
      match r with
      | .noResponse => 0
      | _ => 1 := by
  cases r with
  | value v =>
    simp only [respond]
    split
    · simp
    · simp
  | ok => simp [respond]
  | noResponse => rfl

theorem countP_farewell : (farewell o).countP (·.answers m) = if o.Recalls m then 1 else 0 := by
  unfold farewell
  cases hd : o.stopCaller with
  | none =>
    rw [if_neg fun ⟨d, h, _⟩ => by rw [hd] at h; cases h]
    rfl
  | some d =>
    have hiff : o.Recalls m ↔ d.addr = m.desc.addr ∧ d.attr.corrid = m.desc.attr.msgid := by
      simp [Object.Recalls, hd]
    simp only [hiff, List.countP_singleton, Event.answers, Send.answers, decide_eq_true_eq]

theorem main_of_takes (h : Takes s a m) :
    main c s a =
      match (request c s.object m).error with
      | none => ((request c s.object m).events, ⟨(request c s.object m).object, .running⟩)
      | some .stop => ((request c s.object m).events ++ farewell (request c s.object m).object,
          ⟨(request c s.object m).object, .stopped⟩)
      | some _ => ((request c s.object m).events ++ (entry c (request c s.object m).object).1,
          (entry c (request c s.object m).object).2) := by
  obtain ⟨hrun, rfl, hcorrid⟩ := h
  have hloop : mainLoop c s.object (.mail m) = request c s.object m := if_neg (not_not.mpr hcorrid)
  simp only [main, hrun, hloop]

/-- The number of responses to a request, as the way it ends decides it. -/
theorem countP_main (h : Takes s a m) :
    (main c s a).1.countP (·.answers m) =
      match resolve c s.object m with
      | .error _ | .ok (.field, _, _) => own m (c.onInit s.object).sends
      | .ok (.absent, _, _) => 1
      | .ok (.method f, params, _) =>
        match (f s.object params m.desc).result with
        | .ok (.noResponse, _) => own m (f s.object params m.desc).sends
        | .ok _ => own m (f s.object params m.desc).sends + 1
        | .error .stop => own m (f s.object params m.desc).sends +
            if (f s.object params m.desc).object.Recalls m then 1 else 0
        | .error _ => own m (f s.object params m.desc).sends +
            own m (c.onInit (f s.object params m.desc).object).sends := by
  rw [main_of_takes h]
  cases hr : resolve c s.object m with
  | error e => simp [request, hr, countP_entry]
  | ok r =>
    obtain ⟨x, params, id⟩ := r
    cases x with
    | absent => simp [request, hr]
    | field => simp [request, hr, countP_entry]
    | method f =>
      have hq : request c s.object m = f.round s.object params id m.desc := by
        simp only [request, hr]
      rw [hq]
      cases hf : (f s.object params m.desc).result with
      | ok r =>
        obtain ⟨r, e⟩ := r
        simp only [Method.round, hf, List.countP_append, countP_own, countP_respond]
        cases r <;> rfl
      | error e =>
        simp only [Method.round, hf]
        cases e with
        | stop => simp only [List.countP_append, countP_own, countP_farewell]
        | restart => simp only [List.countP_append, countP_own, countP_entry]
        | other => simp only [List.countP_append, countP_own, countP_entry]

theorem silent_iff {f : Method σ} {params id : Value}
    (hr : resolve c o m = .ok (.method f, params, id)) :
    Silent c o m ↔ ∃ e, (f o params m.desc).result = .ok (.noResponse, e) := by
  constructor
  · rintro ⟨f', params', id', e, hr', he⟩
    cases hr.symm.trans hr'
    exact ⟨e, he⟩
  · rintro ⟨e, he⟩
    exact ⟨f, params, id, e, hr, he⟩

theorem not_silent (hr : ∀ f params id, resolve c o m ≠ .ok (.method f, params, id)) :
    ¬ Silent c o m :=
  fun ⟨f, params, id, _, h, _⟩ => hr f params id h

theorem countP_silent (h : Takes s a m) (hs : Silent c s.object m) :
    (main c s a).1.countP (·.replies m) = 0 := by
  obtain ⟨f, params, id, e, hr, hf⟩ := hs
  have hq : request c s.object m = f.round s.object params id m.desc := by simp only [request, hr]
  rw [main_of_takes h, hq]
  simp [Method.round, hf, respond, List.countP_eq_zero, Event.replies]

/-- A request is answered exactly when it is handled. -/
theorem answered_iff (s : State σ) (a : Arrival) :
    Answered c s a ↔ ∀ m, Takes s a m → Handled c s.object m := by
  refine forall₂_congr fun m h => ?_
  have hsilent := countP_silent (c := c) h
  rw [countP_main h]
  unfold Handled
  cases hr : resolve c s.object m with
  | error e => simp [not_silent (c := c) (o := s.object) (m := m) (by simp [hr])]
  | ok r =>
    obtain ⟨x, params, id⟩ := r
    cases x with
    | absent => simp [not_silent (c := c) (o := s.object) (m := m) (by simp [hr])]
    | field => simp [not_silent (c := c) (o := s.object) (m := m) (by simp [hr])]
    | method f =>
      rw [silent_iff hr] at hsilent ⊢
      cases hf : (f s.object params m.desc).result with
      | ok r =>
        obtain ⟨r, e⟩ := r
        cases r with
        | noResponse => simp [hf, hsilent ⟨e, hf⟩]
        | ok => simp [hf]
        | value v => simp [hf]
      | error e =>
        cases e with
        | stop =>
          by_cases hrecalls : (f s.object params m.desc).object.Recalls m
          · simp [hf, hrecalls]
          · simp [hf, hrecalls]
        | restart => simp [hf]
        | other => simp [hf]

-- ---------------------------------------------------------------------------
-- Any number of messages
-- ---------------------------------------------------------------------------

def next (c : Class σ) (s : State σ) (a : Arrival) : State σ := (main c s a).2

/-- Over any messages and time-outs, of any server object: every request that the
server takes is answered before the next message exactly when each of them is
handled. -/
theorem requests_answered_iff (c : Class σ) (o : Object σ) (as : List Arrival) :
    (∀ t ∈ turns (next c) (entry c o).2 as, Answered c t.1 t.2) ↔
      ∀ t ∈ turns (next c) (entry c o).2 as, ∀ m, Takes t.1 t.2 m → Handled c t.1.object m :=
  forall_turns_iff (I := fun _ => True) (fun s a _ => answered_iff s a) (fun _ _ _ _ => trivial) as
    trivial

/-- A message with the byte 0xc1, which begins no value of message pack. -/
theorem bad_format_unanswered :
    ¬ ∀ (c : Class Unit) (o : Object Unit) (as : List Arrival),
      ∀ t ∈ turns (next c) (entry c o).2 as, Answered c t.1 t.2 := by
  intro h
  let quiet : Hook Unit := fun o => ⟨[], o, .ok ()⟩
  let c : Class Unit := ⟨fun _ => .error "Bad data format in input.", fun _ => .nil, fun _ _ => none,
    quiet, quiet, quiet, fun _ => quiet⟩
  let m : Mail := ⟨1, ⟨⟨"h", 1, 130⟩, ⟨7, RPC_CORRID⟩⟩, some [0xc1]⟩
  have hanswered := h c ⟨(), none⟩ [.mail m] _ (List.mem_cons_self ..)
  have hone : own m [] = 1 := (answered_iff _ _).mp hanswered m ⟨rfl, rfl, rfl⟩
  exact absurd hone (by decide)

end GalaLua.Frameworks.Rpc
