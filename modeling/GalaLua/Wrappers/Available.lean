import GalaLua.Wrappers.Receive

/-!
# `msg_available`

A process with its channel. A receive that finds neither `cacheBox` nor the
channel with a message waits (`call_waits`), and keeps what it has passed over; the
next message is handed to it without going through the channel. `msg_available`
looks at the channel only, and `recv` at `cacheBox` first.
-/

namespace GalaLua.Wrappers

-- ---------------------------------------------------------------------------
-- The process
-- ---------------------------------------------------------------------------

/-- `ProcessStatus`: a call that waits or has been handed its arrival keeps the
messages it has passed over. -/
inductive Standing
  | running
  | recvWait (c : Call) (cache : List Message)
  | recvReturn (c : Call) (cache : List Message) (a : Arrival)

structure Proc where
  cacheBox : MailBox Message
  channel : List Message
  standing : Standing

namespace Proc

def init : Proc := ⟨.new, [], .running⟩

/-- `recv` of `_core.lua`; nothing when `_glr.recv` suspends the process. -/
def recv (p : Proc) : Option (Option Message × Proc) :=
  if p.cacheBox.available then
    p.cacheBox.pop.map fun r => (r.1, { p with cacheBox := r.2 })
  else
    match p.channel with
    | [] => none
    | m :: ms => some (some m, { p with channel := ms })

/-- A call that returns; `recv` has nothing to restore. -/
def leave (p : Proc) (c : Call) (cache : List Message) : Proc :=
  match c with
  | .recv => { p with standing := .running }
  | _ => { p with standing := .running, cacheBox := p.cacheBox.restore cache }

/-- The rounds of a call, up to its return or to a wait. -/
def rounds (c : Call) : Nat → List Message → Proc → Option Outcome × Proc
  | 0, cache, p => (none, { p with standing := .recvWait c cache })
  | fuel + 1, cache, p =>
    match p.recv with
    | none => (none, { p with standing := .recvWait c cache })
    | some (none, p) => (some .nothing, p.leave c cache)
    | some (some m, p) =>
      match c.condition m with
      | .raises => (some .raised, p.leave c cache)
      | .yes => (some (.got m), p.leave c cache)
      | .no => rounds c fuel (cache ++ [m]) p

/-- Every round takes a message from `cacheBox` or the channel. -/
def held (p : Proc) : Nat := p.cacheBox.size + p.channel.length

def call (p : Proc) (c : Call) : Option Outcome × Proc := rounds c (p.held + 1) [] p

/-- The call goes on with what `_glr.recv` returned. -/
def resume (p : Proc) (c : Call) (cache : List Message) : Arrival → Option Outcome × Proc
  | .timeout => (some .nothing, p.leave c cache)
  | .message m =>
    match c.condition m with
    | .raises => (some .raised, p.leave c cache)
    | .yes => (some (.got m), p.leave c cache)
    | .no => rounds c (p.held + 1) (cache ++ [m]) p

def sendMsg (p : Proc) (m : Message) : Proc :=
  match p.channel, p.standing with
  | [], .recvWait c cache => { p with standing := .recvReturn c cache (.message m) }
  | _, _ => { p with channel := p.channel ++ [m] }

def messageAvailable (p : Proc) : Bool := !p.channel.isEmpty

inductive Event
  | sendMsg (m : Message)
  | timeOut
  | resumed
  | call (c : Call)

/-- One event; nothing when the process is not in the state for it. -/
def step (p : Proc) : Event → Option Proc
  | .sendMsg m => some (p.sendMsg m)
  | .timeOut =>
    match p.standing with
    | .recvWait c cache => some { p with standing := .recvReturn c cache .timeout }
    | _ => none
  | .resumed =>
    match p.standing with
    | .recvReturn c cache a => some (p.resume c cache a).2
    | _ => none
  | .call c =>
    match p.standing with
    | .running => some (p.call c).2
    | _ => none

/-- The process after the events. -/
def after (p : Proc) : List Event → Option Proc
  | [] => some p
  | e :: es => (p.step e).bind fun p => p.after es

/-- `recv` would return a message, and not suspend the process. -/
def RecvReturns (p : Proc) : Prop := ∃ m, (p.call .recv).1 = some (.got m)

-- ---------------------------------------------------------------------------
-- One receive
-- ---------------------------------------------------------------------------

variable {p p' : Proc} {c : Call} {xs cache : List Message} {m : Message}

/-- `cacheBox` stands for some sequence. -/
def Boxed (p : Proc) : Prop := ∃ xs, p.cacheBox.Holds xs

/-- A process whose `cacheBox` stands for `xs` takes the first message of `xs`
and then of the channel. -/
theorem recv_cases (h : p.cacheBox.Holds xs) :
    (p.recv = none ∧ xs = [] ∧ p.channel = []) ∨
    ∃ m p' xs', p.recv = some (some m, p') ∧ p'.cacheBox.Holds xs' ∧
      xs ++ p.channel = m :: (xs' ++ p'.channel) := by
  cases xs with
  | cons m xs =>
    obtain ⟨b, hpop, hb⟩ := h.pop_cons
    refine .inr ⟨m, { p with cacheBox := b }, xs, ?_, hb, rfl⟩
    rw [Proc.recv, if_pos h.available_cons, hpop]
    rfl
  | nil =>
    have hr : p.recv = match p.channel with
        | [] => none
        | m :: ms => some (some m, { p with channel := ms }) :=
      if_neg (by simp [h.available_nil])
    cases hc : p.channel with
    | nil => exact .inl ⟨by rw [hr, hc], rfl, rfl⟩
    | cons m ms => exact .inr ⟨m, { p with channel := ms }, [], by rw [hr, hc], h, rfl⟩

theorem leave_boxed (h : p.Boxed) : (p.leave c cache).Boxed := by
  obtain ⟨xs, hxs⟩ := h
  cases c with
  | recv => exact ⟨xs, hxs⟩
  | _ => exact ⟨_, hxs.restore cache⟩

theorem rounds_boxed (fuel : Nat) (h : p.Boxed) : (rounds c fuel cache p).2.Boxed := by
  induction fuel generalizing cache p with
  | zero => exact h
  | succ fuel ih =>
    obtain ⟨xs, hxs⟩ := h
    unfold rounds
    obtain ⟨hr, -, -⟩ | ⟨m, p', xs', hr, hxs', -⟩ := recv_cases hxs
    · rw [hr]
      exact ⟨xs, hxs⟩
    · simp only [hr]
      cases c.condition m with
      | raises => exact leave_boxed ⟨xs', hxs'⟩
      | yes => exact leave_boxed ⟨xs', hxs'⟩
      | no => exact ih ⟨xs', hxs'⟩

theorem rounds_waits {fuel : Nat} (h : p.cacheBox.Holds xs) (hf : xs.length + p.channel.length < fuel)
    (hnone : (rounds c fuel cache p).1 = none) :
    (rounds c fuel cache p).2.cacheBox.Holds [] ∧ (rounds c fuel cache p).2.channel = [] := by
  induction fuel generalizing cache p xs with
  | zero => omega
  | succ fuel ih =>
    unfold rounds at hnone ⊢
    obtain ⟨hr, rfl, hc⟩ | ⟨m, p', xs', hr, hxs', hseq⟩ := recv_cases h
    · rw [hr]
      exact ⟨h, hc⟩
    · simp only [hr] at hnone ⊢
      have hlen := congrArg List.length hseq
      simp only [List.length_append, List.length_cons] at hlen
      cases hv : c.condition m with
      | raises =>
        rw [hv] at hnone
        cases hnone
      | yes =>
        rw [hv] at hnone
        cases hnone
      | no =>
        rw [hv] at hnone
        exact ih hxs' (by omega) hnone

/-- The rounds of a call are enough: one that waits has looked at everything there is. -/
theorem call_waits (h : p.Boxed) (hnone : (p.call c).1 = none) :
    (p.call c).2.cacheBox.Holds [] ∧ (p.call c).2.channel = [] := by
  obtain ⟨xs, hxs⟩ := h
  refine rounds_waits hxs ?_ hnone
  rw [held, hxs.size_eq]
  exact Nat.lt_succ_self _

theorem resume_boxed (h : p.Boxed) (a : Arrival) : (p.resume c cache a).2.Boxed := by
  cases a with
  | timeout => exact leave_boxed h
  | message m =>
    simp only [resume]
    cases c.condition m with
    | raises => exact leave_boxed h
    | yes => exact leave_boxed h
    | no => exact rounds_boxed _ h

theorem sendMsg_boxed (h : p.Boxed) (m : Message) : (p.sendMsg m).Boxed := by
  unfold sendMsg
  split
  · exact h
  · exact h

theorem step_boxed {e : Event} (h : p.Boxed) (hs : p.step e = some p') : p'.Boxed := by
  cases e with
  | sendMsg m =>
    obtain rfl := Option.some.inj hs
    exact sendMsg_boxed h m
  | timeOut =>
    simp only [step] at hs
    split at hs
    · obtain rfl := Option.some.inj hs
      exact h
    · cases hs
  | resumed =>
    simp only [step] at hs
    split at hs
    · obtain rfl := Option.some.inj hs
      exact resume_boxed h _
    · cases hs
  | call c =>
    simp only [step] at hs
    split at hs
    · obtain rfl := Option.some.inj hs
      exact rounds_boxed _ h
    · cases hs

-- ---------------------------------------------------------------------------
-- Any number of events
-- ---------------------------------------------------------------------------

theorem after_boxed {es : List Event} (h : p.Boxed) (hs : p.after es = some p') : p'.Boxed := by
  induction es generalizing p with
  | nil =>
    obtain rfl := Option.some.inj hs
    exact h
  | cons e es ih =>
    obtain ⟨q, hq, hrest⟩ := Option.bind_eq_some_iff.mp hs
    exact ih (step_boxed h hq) hrest

theorem init_boxed : init.Boxed := ⟨[], MailBox.holds_new⟩

/-- `recv` returns a message exactly when one of the two has a message. -/
theorem recvReturns_iff (h : p.cacheBox.Holds xs) : p.RecvReturns ↔ xs ≠ [] ∨ p.channel ≠ [] := by
  unfold RecvReturns call rounds
  obtain ⟨hr, rfl, hc⟩ | ⟨m, p', xs', hr, -, hseq⟩ := recv_cases h
  · rw [hr, hc]
    exact iff_of_false nofun (by simp)
  · rw [hr]
    refine iff_of_true ⟨m, rfl⟩ ?_
    by_contra hnone
    simp only [ne_eq, not_or, not_not] at hnone
    rw [hnone.1, hnone.2] at hseq
    cases hseq

/-- After any events: `msg_available` tells what `recv` would do exactly when
no message that a selective receive has passed over is kept, or the channel has
one too. -/
theorem messageAvailable_iff (es : List Event) (h : init.after es = some p) :
    (p.messageAvailable ↔ p.RecvReturns) ↔ p.cacheBox.toList = [] ∨ p.channel ≠ [] := by
  obtain ⟨xs, hxs⟩ := after_boxed init_boxed h
  have havail : p.messageAvailable = true ↔ p.channel ≠ [] := by
    simp [messageAvailable]
  rw [havail, recvReturns_iff hxs, hxs.toList_eq]
  by_cases hc : p.channel = []
  · simp [hc]
  · simp [hc]

/-- The message of type 1 is passed over, the one of type 3 stays in the channel. -/
def passesOver : List Event :=
  [.sendMsg ⟨1, ⟨"h", 1, 129⟩, none⟩, .sendMsg ⟨2, ⟨"h", 1, 130⟩, none⟩, .call (.recvByType 2),
    .sendMsg ⟨3, ⟨"h", 1, 131⟩, none⟩]

theorem kept_and_available : ∃ p, init.after passesOver = some p ∧ p.cacheBox.toList ≠ [] ∧
    (p.messageAvailable ↔ p.RecvReturns) :=
  ⟨_, rfl, by decide, (messageAvailable_iff passesOver rfl).mpr (.inr (by decide))⟩

/-- A process that waits for a message of type 2 is sent one of type 1 first:
`recv` returns that one, and `msg_available` denies it. -/
theorem passed_over_not_available : ¬ ∀ (es : List Event) (p : Proc), init.after es = some p →
    p.standing = .running → (p.messageAvailable ↔ p.RecvReturns) := by
  intro h
  have hiff := h [.call (.recvByType 2), .sendMsg ⟨1, ⟨"h", 1, 129⟩, none⟩, .resumed,
    .sendMsg ⟨2, ⟨"h", 1, 130⟩, none⟩, .resumed] _ rfl rfl
  have havail := hiff.mpr ⟨_, rfl⟩
  revert havail
  decide

end Proc

end GalaLua.Wrappers
