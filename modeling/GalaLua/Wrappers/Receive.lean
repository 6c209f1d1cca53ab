import GalaLua.Wrappers.MailBox

/-!
# Selective receive

`recv` and `recv_by_condition` of `_core.lua`. Messages that a condition passes
over are kept in `cacheBox`, and read before new ones. Seen from outside,
`cacheBox` and the messages not yet fetched are one sequence: a receive takes
one message out of it. A condition that raises an error loses the message it
was called with.
-/

namespace GalaLua.Wrappers

structure Addr where
  host : String
  port : Int
  gpid : Int
  deriving DecidableEq, Repr

/-- What `_glr.recv` returns for a message; the text of an empty one is nil. -/
structure Message where
  mType : Int
  addr : Addr
  msg : Option (List UInt8)
  deriving DecidableEq, Repr

/-- How a call of a condition ends. -/
inductive Verdict
  | yes
  | no
  | raises
  deriving DecidableEq, Repr

def Verdict.of (b : Bool) : Verdict := if b then .yes else .no

/-- A return of `_glr.recv`. -/
inductive Arrival
  | message (m : Message)
  | timeout
  deriving DecidableEq, Repr

structure World where
  cacheBox : MailBox Message
  arrivals : List Arrival

def World.init (arrivals : List Arrival) : World := ⟨.new, arrivals⟩

inductive Outcome
  | got (m : Message)
  | nothing
  | raised
  deriving DecidableEq, Repr

/-- `recv`; nothing while it waits for a message. -/
def recv (w : World) : Option (Option Message × World) :=
  if w.cacheBox.available then
    w.cacheBox.pop.map fun r => (r.1, { w with cacheBox := r.2 })
  else
    match w.arrivals with
    | [] => none
    | .message m :: as => some (some m, { w with arrivals := as })
    | .timeout :: as => some (none, { w with arrivals := as })

/-- The loop of `recv_by_condition`: `cache` has the messages passed over. -/
def recvLoop (condition : Message → Verdict) : Nat → List Message → World → Option (Outcome × World)
  | 0, _, _ => none
  | fuel + 1, cache, w =>
    match recv w with
    | none => none
    | some (none, w) => some (.nothing, { w with cacheBox := w.cacheBox.restore cache })
    | some (some m, w) =>
      match condition m with
      | .raises => some (.raised, { w with cacheBox := w.cacheBox.restore cache })
      | .yes => some (.got m, { w with cacheBox := w.cacheBox.restore cache })
      | .no => recvLoop condition fuel (cache ++ [m]) w

/-- Every round takes a message from `cacheBox` or an arrival. -/
def World.rounds (w : World) : Nat := w.cacheBox.size + w.arrivals.length + 1

def recvByCondition (condition : Message → Verdict) (w : World) : Option (Outcome × World) :=
  recvLoop condition w.rounds [] w

/-- The condition of `recv_by_addr` with a table. -/
def addrCondition (addr : Addr) (m : Message) : Verdict :=
  .of (m.addr.host == addr.host && m.addr.port == addr.port && m.addr.gpid == addr.gpid)

/-- The condition of `recv_by_addr` with a name, which indexes nil when the
name table has no such name. -/
def nameCondition (selfHost : String) (selfPort : Int) (registered : Option Int) (m : Message) :
    Verdict :=
  if m.addr.host == selfHost && m.addr.port == selfPort then
    match registered with
    | none => .raises
    | some gpid => .of (m.addr.gpid == gpid)
  else .no

def typeCondition (mType : Int) (m : Message) : Verdict := .of (m.mType == mType)

inductive Call
  | recv
  | recvByCondition (condition : Message → Verdict)
  | recvByAddr (addr : Addr)
  | recvByName (selfHost : String) (selfPort : Int) (registered : Option Int)
  | recvByType (mType : Int)

/-- The condition a call looks for; `recv` takes any message. -/
def Call.condition : Call → Message → Verdict
  | .recv => fun _ => .yes
  | .recvByCondition condition => condition
  | .recvByAddr addr => addrCondition addr
  | .recvByName host port registered => nameCondition host port registered
  | .recvByType mType => typeCondition mType

def Call.perform (w : World) : Call → Option (Outcome × World)
  | .recv => (Wrappers.recv w).map fun r => (r.1.elim .nothing .got, r.2)
  | c => Wrappers.recvByCondition c.condition w

-- ---------------------------------------------------------------------------
-- The sequence
-- ---------------------------------------------------------------------------

def Arrival.message? : Arrival → Option Message
  | .message m => some m
  | .timeout => none

/-- The messages that come before the next time-out. -/
def prompt : List Arrival → List Message
  | .message m :: as => m :: prompt as
  | _ => []

/-- `cacheBox`, followed by the messages not yet fetched. -/
def World.sequence (w : World) : List Message :=
  w.cacheBox.toList ++ w.arrivals.filterMap Arrival.message?

def World.front (w : World) : List Message := w.cacheBox.toList ++ prompt w.arrivals

/-- The first message that the condition does not pass over makes it raise. -/
def Call.Trips (c : Call) (w : World) : Prop :=
  (w.front.find? fun m => c.condition m != .no).any (fun m => c.condition m == .raises)

instance (c : Call) (w : World) : Decidable (c.Trips w) := inferInstanceAs (Decidable (_ = true))

/-- A call with the world it was made in, and what it did; it has no result
when it waits for ever. -/
structure Receipt where
  call : Call
  before : World
  result : Option (Outcome × World)

/-- The calls of a process, up to one that waits for ever. -/
def exchange : World → List Call → List Receipt
  | _, [] => []
  | w, c :: cs => ⟨c, w, c.perform w⟩ :: (c.perform w).elim [] fun r => exchange r.2 cs

/-- What the call did to the sequence: it took out the message it returned,
the first one its condition holds of, and nothing when it returned none. -/
def Receipt.Selective (r : Receipt) : Prop :=
  match r.result with
  | some (.got m, w) => ∃ pre post, r.before.sequence = pre ++ m :: post ∧
      (∀ x ∈ pre, r.call.condition x = .no) ∧ r.call.condition m = .yes ∧
      w.sequence = pre ++ post
  | some (.nothing, w) => (∀ x ∈ r.before.front, r.call.condition x = .no) ∧
      w.sequence = r.before.sequence
  | some (.raised, w) => w.sequence = r.before.sequence
  | none => .timeout ∉ r.before.arrivals ∧ ∀ x ∈ r.before.sequence, r.call.condition x = .no

-- ---------------------------------------------------------------------------
-- One receive
-- ---------------------------------------------------------------------------

variable {w : World} {xs cache : List Message} {m : Message} {as : List Arrival}
  {condition : Message → Verdict}

theorem recv_cache (h : w.cacheBox.Holds (m :: xs)) :
    ∃ b, recv w = some (some m, ⟨b, w.arrivals⟩) ∧ b.Holds xs := by
  obtain ⟨b, hpop, hb⟩ := h.pop_cons
  refine ⟨b, ?_, hb⟩
  unfold recv
  rw [if_pos h.available_cons, hpop]
  rfl

theorem recv_fetch (h : w.cacheBox.Holds []) : recv w =
    match w.arrivals with
    | [] => none
    | .message m :: as => some (some m, ⟨w.cacheBox, as⟩)
    | .timeout :: as => some (none, ⟨w.cacheBox, as⟩) := by
  unfold recv
  rw [if_neg (by simp [h.available_nil])]

/-- The three ways out of `recv`: it waits, it times out, or it takes the first
message of the sequence. -/
theorem recv_cases (h : w.cacheBox.Holds xs) :
    (recv w = none ∧ xs = [] ∧ w.arrivals = []) ∨
    (∃ as, recv w = some (none, ⟨w.cacheBox, as⟩) ∧ xs = [] ∧ w.arrivals = .timeout :: as) ∨
    ∃ m w' xs', recv w = some (some m, w') ∧ w'.cacheBox.Holds xs' ∧
      xs ++ w.arrivals.filterMap Arrival.message? =
        m :: (xs' ++ w'.arrivals.filterMap Arrival.message?) ∧
      xs ++ prompt w.arrivals = m :: (xs' ++ prompt w'.arrivals) ∧
      (.timeout ∈ w.arrivals → .timeout ∈ w'.arrivals) ∧
      xs.length + w.arrivals.length = xs'.length + w'.arrivals.length + 1 := by
  cases xs with
  | cons m xs =>
    obtain ⟨b, hr, hb⟩ := recv_cache h
    refine .inr (.inr ⟨m, _, xs, hr, hb, rfl, rfl, id, ?_⟩)
    simp only [List.length_cons]
    omega
  | nil =>
    have hr := recv_fetch h
    cases ha : w.arrivals with
    | nil =>
      rw [ha] at hr
      exact .inl ⟨hr, rfl, rfl⟩
    | cons a as =>
      rw [ha] at hr
      cases a with
      | message m => exact .inr (.inr ⟨m, _, [], hr, h, rfl, rfl, by simp, by simp⟩)
      | timeout => exact .inr (.inl ⟨as, hr, rfl, rfl⟩)

/-- What a receive with this condition does, when `cacheBox` has `xs`, the
arrivals are `as`, and it has passed over `cache` before. -/
def Selects (condition : Message → Verdict) (cache xs : List Message) (as : List Arrival) :
    Option (Outcome × World) → Prop
  | some (.got m, w) => ∃ pre post rest ys,
      xs ++ as.filterMap Arrival.message? = pre ++ m :: post ∧ xs ++ prompt as = pre ++ m :: rest ∧
      (∀ x ∈ pre, condition x = .no) ∧ condition m = .yes ∧ w.cacheBox.Holds ys ∧
      ys ++ w.arrivals.filterMap Arrival.message? = cache ++ pre ++ post
  | some (.raised, w) => ∃ m pre post rest ys,
      xs ++ as.filterMap Arrival.message? = pre ++ m :: post ∧ xs ++ prompt as = pre ++ m :: rest ∧
      (∀ x ∈ pre, condition x = .no) ∧ condition m = .raises ∧ w.cacheBox.Holds ys ∧
      ys ++ w.arrivals.filterMap Arrival.message? = cache ++ pre ++ post
  | some (.nothing, w) => ∃ ys, (∀ x ∈ xs ++ prompt as, condition x = .no) ∧
      w.cacheBox.Holds ys ∧
      ys ++ w.arrivals.filterMap Arrival.message? =
        cache ++ xs ++ as.filterMap Arrival.message?
  | none => .timeout ∉ as ∧ ∀ x ∈ xs ++ as.filterMap Arrival.message?, condition x = .no

/-- The message at the front is passed over: from `cacheBox`. -/
theorem Selects.skip {xs' : List Message} {as' : List Arrival} {r : Option (Outcome × World)}
    (hseq : xs ++ as.filterMap Arrival.message? = m :: (xs' ++ as'.filterMap Arrival.message?))
    (hfront : xs ++ prompt as = m :: (xs' ++ prompt as')) (htime : .timeout ∈ as → .timeout ∈ as')
    (hno : condition m = .no) (h : Selects condition (cache ++ [m]) xs' as' r) :
    Selects condition cache xs as r := by
  match r, h with
  | some (.got x, w), ⟨pre, post, rest, ys, h₁, h₂, h₃, h₄, h₅, h₆⟩ =>
    refine ⟨m :: pre, post, rest, ys, by rw [hseq, h₁]; rfl, by rw [hfront, h₂]; rfl, ?_, h₄, h₅,
      by simpa using h₆⟩
    exact List.forall_mem_cons.mpr ⟨hno, h₃⟩
  | some (.raised, w), ⟨x, pre, post, rest, ys, h₁, h₂, h₃, h₄, h₅, h₆⟩ =>
    refine ⟨x, m :: pre, post, rest, ys, by rw [hseq, h₁]; rfl, by rw [hfront, h₂]; rfl, ?_, h₄, h₅,
      by simpa using h₆⟩
    exact List.forall_mem_cons.mpr ⟨hno, h₃⟩
  | some (.nothing, w), ⟨ys, h₁, h₂, h₃⟩ =>
    refine ⟨ys, ?_, h₂, ?_⟩
    · rw [hfront]
      exact List.forall_mem_cons.mpr ⟨hno, h₁⟩
    · rw [h₃, List.append_assoc cache xs, hseq]
      simp
  | none, ⟨h₁, h₂⟩ =>
    refine ⟨fun ht => h₁ (htime ht), ?_⟩
    rw [hseq]
    exact List.forall_mem_cons.mpr ⟨hno, h₂⟩

theorem Selects.stop {xs' : List Message} {w' : World} {o : Outcome}
    (hseq : xs ++ as.filterMap Arrival.message? =
      m :: (xs' ++ w'.arrivals.filterMap Arrival.message?))
    (hfront : xs ++ prompt as = m :: (xs' ++ prompt w'.arrivals)) (hb : w'.cacheBox.Holds xs')
    (ho : condition m = .yes ∧ o = .got m ∨ condition m = .raises ∧ o = .raised) :
    Selects condition cache xs as
      (some (o, { w' with cacheBox := w'.cacheBox.restore cache })) := by
  obtain ⟨hc, rfl⟩ | ⟨hc, rfl⟩ := ho
  · exact ⟨[], _, _, _, hseq, hfront, nofun, hc, hb.restore cache, by simp⟩
  · exact ⟨m, [], _, _, _, hseq, hfront, nofun, hc, hb.restore cache, by simp⟩

theorem recvLoop_selects (fuel : Nat) (h : w.cacheBox.Holds xs)
    (hf : xs.length + w.arrivals.length < fuel) :
    Selects condition cache xs w.arrivals (recvLoop condition fuel cache w) := by
  induction fuel generalizing w xs cache with
  | zero => omega
  | succ fuel ih =>
    unfold recvLoop
    rcases recv_cases h with ⟨hr, rfl, ha⟩ | ⟨as, hr, rfl, ha⟩ |
      ⟨m, w', xs', hr, hb, hseq, hfront, htime, hlen⟩
    · rw [hr, ha]
      exact ⟨nofun, nofun⟩
    · rw [hr, ha]
      exact ⟨_, nofun, h.restore cache, by simp [List.filterMap_cons, Arrival.message?]⟩
    · simp only [hr]
      cases hc : condition m with
      | raises => exact .stop hseq hfront hb (.inr ⟨hc, rfl⟩)
      | yes => exact .stop hseq hfront hb (.inl ⟨hc, rfl⟩)
      | no => exact .skip hseq hfront htime hc (ih hb (by omega))

theorem recvByCondition_selects (h : w.cacheBox.Holds xs) :
    Selects condition [] xs w.arrivals (recvByCondition condition w) := by
  apply recvLoop_selects _ h
  rw [World.rounds, h.size_eq]
  omega

theorem recv_selects (h : w.cacheBox.Holds xs) :
    Selects (fun _ => .yes) [] xs w.arrivals
      ((recv w).map fun r => (r.1.elim .nothing .got, r.2)) := by
  rcases recv_cases h with ⟨hr, rfl, ha⟩ | ⟨as, hr, rfl, ha⟩ |
    ⟨m, w', xs', hr, hb, hseq, hfront, -, -⟩
  · rw [hr, ha]
    exact ⟨nofun, nofun⟩
  · rw [hr, ha]
    exact ⟨[], nofun, h, by simp [List.filterMap_cons, Arrival.message?]⟩
  · rw [hr]
    exact ⟨[], _, _, xs', hseq, hfront, nofun, rfl, hb, rfl⟩

theorem Call.perform_selects (c : Call) (h : w.cacheBox.Holds xs) :
    Selects c.condition [] xs w.arrivals (c.perform w) := by
  cases c with
  | recv => exact recv_selects h
  | _ => exact recvByCondition_selects h

-- ---------------------------------------------------------------------------
-- Any number of receives
-- ---------------------------------------------------------------------------

theorem holds_init (arrivals : List Arrival) : (World.init arrivals).cacheBox.Holds [] :=
  MailBox.holds_new

theorem Selects.holds {o : Outcome} {w' : World} (h : Selects condition cache xs as (some (o, w'))) :
    ∃ ys, w'.cacheBox.Holds ys := by
  cases o with
  | got m =>
    obtain ⟨_, _, _, ys, _, _, _, _, hb, _⟩ := h
    exact ⟨ys, hb⟩
  | raised =>
    obtain ⟨_, _, _, _, ys, _, _, _, _, hb, _⟩ := h
    exact ⟨ys, hb⟩
  | nothing =>
    obtain ⟨ys, _, hb, _⟩ := h
    exact ⟨ys, hb⟩

theorem prompt_subset (as : List Arrival) : prompt as ⊆ as.filterMap Arrival.message? := by
  induction as with
  | nil => exact nofun
  | cons a as ih =>
    cases a with
    | message m => exact List.cons_subset_cons m ih
    | timeout => exact nofun

theorem find?_skip {p : Message → Bool} {pre rest : List Message} (h : ∀ x ∈ pre, p x = false)
    (hm : p m) : (pre ++ m :: rest).find? p = some m := by
  rw [List.find?_append, List.find?_eq_none.mpr (by simpa using h), List.find?_cons_of_pos hm]
  rfl

/-- A call meets the contract exactly when its condition does not raise at the
first message that it does not pass over. -/
theorem Receipt.selective_iff (c : Call) (h : w.cacheBox.Holds xs) :
    (Receipt.mk c w (c.perform w)).Selective ↔ ¬ c.Trips w := by
  have hsel := c.perform_selects h
  unfold Receipt.Selective Call.Trips World.front
  simp only [World.sequence, h.toList_eq]
  generalize c.perform w = r at hsel
  match r, hsel with
  | some (.got m, w'), ⟨pre, post, rest, ys, h₁, h₂, h₃, h₄, h₅, h₆⟩ =>
    rw [h₂, find?_skip (by simpa using h₃) (by simp [h₄])]
    simp only [h₅.toList_eq, Option.any_some, h₄]
    exact iff_of_true ⟨pre, post, h₁, h₃, trivial, h₆⟩ (by decide)
  | some (.raised, w'), ⟨m, pre, post, rest, ys, h₁, h₂, h₃, h₄, h₅, h₆⟩ =>
    rw [h₂, find?_skip (by simpa using h₃) (by simp [h₄])]
    simp only [h₅.toList_eq, Option.any_some, h₄]
    refine iff_of_false (fun he => ?_) (by decide)
    -- the message itself is in neither box
    have := congrArg List.length (h₆.symm.trans (he.trans h₁))
    simp at this
  | some (.nothing, w'), ⟨ys, h₁, h₂, h₃⟩ =>
    rw [List.find?_eq_none.mpr (by simpa using h₁)]
    simp only [h₂.toList_eq]
    exact iff_of_true ⟨h₁, by simpa using h₃⟩ nofun
  | none, ⟨h₁, h₂⟩ =>
    have hfront : ∀ x ∈ xs ++ prompt w.arrivals, c.condition x = .no := by
      intro x hx
      exact h₂ x (List.mem_append.mpr ((List.mem_append.mp hx).imp_right (prompt_subset _ ·)))
    rw [List.find?_eq_none.mpr (by simpa using hfront)]
    exact iff_of_true ⟨h₁, h₂⟩ nofun

/-- Over any calls of a process and any arrivals: the calls all meet the
contract exactly when none of them trips. -/
theorem exchange_selective_iff (arrivals : List Arrival) (calls : List Call) :
    (∀ r ∈ exchange (.init arrivals) calls, r.Selective) ↔
      ∀ r ∈ exchange (.init arrivals) calls, ¬ r.call.Trips r.before := by
  suffices h : ∀ w xs, w.cacheBox.Holds xs →
      ∀ r ∈ exchange w calls, (r.Selective ↔ ¬ r.call.Trips r.before) from
    forall₂_congr (h _ _ (holds_init arrivals))
  induction calls with
  | nil =>
    intro w xs _ r hr
    exact absurd hr List.not_mem_nil
  | cons c cs ih =>
    intro w xs hw r hr
    simp only [exchange, List.mem_cons] at hr
    rcases hr with rfl | hr
    · exact Receipt.selective_iff c hw
    · have hsel := c.perform_selects hw
      cases hp : c.perform w with
      | none =>
        rw [hp] at hr
        cases hr
      | some p =>
        rw [hp] at hr hsel
        obtain ⟨ys, hys⟩ := hsel.holds
        exact ih p.2 ys hys r hr

/-- One message, and a condition that raises: the message is gone. -/
theorem raising_condition_loses_message :
    ¬ ∀ (arrivals : List Arrival) (calls : List Call),
      ∀ r ∈ exchange (.init arrivals) calls, r.Selective := by
  intro h
  have hr := h [.message ⟨1, ⟨"h", 1, 129⟩, none⟩] [.recvByCondition fun _ => .raises] _
    (List.mem_cons_self ..)
  have hempty : ([] : List Message) = [⟨1, ⟨"h", 1, 129⟩, none⟩] := hr
  cases hempty

end GalaLua.Wrappers
