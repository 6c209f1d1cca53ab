import GalaLua.Controllers.Stacks
import GalaLua.GLR.Protocol
import GalaLua.Library.Transition

/-!
# The output of a node link

`MessageLinkStack` puts its buffers into the socket one behind the other. An
`Output` is a link with what was queued and what the socket has taken. The last
test of `OnSend` and its `Remove` are turns of their own: other threads put
tasks at any time.
-/

namespace GalaLua.Controllers

open Library GLR.Protocol

namespace MessageLinkStack

/-- What `OnSend` sends from: the current task, or the next one of the queue. -/
def fetch (ms : MessageLinkStack) : Option MessageLinkStack :=
  if ms.sendTask.current = ms.sendTask.buffer.length then
    match ms.sendTaskQ with
    | [] => none
    | t :: rest => some { sendTask := t, sendTaskQ := rest }
  else some ms

/-- The bytes of the current buffer that are left. -/
def offered (ms : MessageLinkStack) : List UInt8 := ms.sendTask.buffer.drop ms.sendTask.current

/-- The bytes that the socket takes in a call of `OnSend`. -/
def taken (ms : MessageLinkStack) (sent : Option Nat) : List UInt8 :=
  match ms.fetch, sent with
  | some ms, some room => ms.offered.take room
  | _, _ => []

def queue (ms : MessageLinkStack) : List UInt8 := ms.sendTaskQ.flatMap (·.buffer)

/-- What is still to be sent. -/
def pending (ms : MessageLinkStack) : List UInt8 := ms.offered ++ ms.queue

/-- Cursors are inside their buffers, and no task of the queue is begun or
empty. -/
structure Wf (ms : MessageLinkStack) : Prop where
  current : ms.sendTask.current ≤ ms.sendTask.buffer.length
  tasks : ∀ t ∈ ms.sendTaskQ, t.current = 0 ∧ t.buffer ≠ []

end MessageLinkStack

structure Output where
  ms : MessageLinkStack := {}
  worker : Handler := .idle
  /-- the buffers of all tasks, in the order of the puts -/
  queued : List UInt8 := []
  accepted : List UInt8 := []

inductive OutputAct
  /-- `PutSendTask` of a message, with the header it fills in -/
  | putSendTask (head msg : List UInt8)
  /-- `OnSend` up to its last test; the socket has room for `sent` bytes, or
  `Send` throws -/
  | onSend (sent : Option Nat)
  /-- the test of the queue behind a buffer that was sent -/
  | sendLast
  /-- `Remove(fd, EV_OUT)` -/
  | remove

namespace Output

variable (fd : Fd)

def next (s : Output) : OutputAct → Output
  | .putSendTask head msg =>
    { s with ms := s.ms.putSendTask head msg, queued := s.queued ++ (head ++ msg) }
  | .onSend sent =>
    { s with
      ms := (s.ms.onSend fd sent).1
      worker := (s.ms.onSend fd sent).2
      accepted := s.accepted ++ s.ms.taken sent }
  | .sendLast => { s with worker := (Stack.message s.ms).sendLast fd }
  | .remove => { s with worker := .idle }

/-- The worker takes its turns in order, and a socket that takes bytes takes
at least one. -/
def Legal (s : Output) : OutputAct → Prop
  | .putSendTask head _ => head.length = headerSize
  | .onSend sent => s.worker = .idle ∧ sent ≠ some 0
  | .sendLast => s.worker = .sendLast fd
  | .remove => s.worker = .sendRemove fd

instance (s : Output) : (a : OutputAct) → Decidable (s.Legal fd a)
  | .putSendTask _ _ => inferInstanceAs (Decidable (_ = _))
  | .onSend _ => inferInstanceAs (Decidable (_ ∧ _))
  | .sendLast => inferInstanceAs (Decidable (_ = _))
  | .remove => inferInstanceAs (Decidable (_ = _))

/-- What the socket has taken begins what was queued; at `Remove` it is all of
it. -/
structure Exact (s : Output) (a : OutputAct) : Prop where
  begins : (s.next fd a).accepted <+: (s.next fd a).queued
  drained : a = .remove → (s.next fd a).accepted = (s.next fd a).queued

/-- No task has come between the last test of the queue and `Remove`. -/
def Undisturbed (s : Output) (a : OutputAct) : Prop := a = .remove → s.ms.sendTaskQ = []

instance (s : Output) : (a : OutputAct) → Decidable (s.Undisturbed a)
  | .remove => decidable_of_iff (s.ms.sendTaskQ = []) ⟨fun h _ => h, fun h => h rfl⟩
  | .putSendTask _ _ | .onSend _ | .sendLast => isTrue nofun

end Output

-- ---------------------------------------------------------------------------
-- One call
-- ---------------------------------------------------------------------------

namespace MessageLinkStack

variable {ms ms' : MessageLinkStack} {fd : Fd}

theorem onSend_eq (ms : MessageLinkStack) (fd : Fd) (sent : Option Nat) : ms.onSend fd sent =
    match ms.fetch with
    | none => (ms, .idle)
    | some ms => ms.send fd sent := by
  unfold onSend fetch
  split
  · cases ms.sendTaskQ <;> rfl
  · rfl

/-- The next task is the current one, with everything still to be sent. -/
theorem Wf.fetch (hw : ms.Wf) (h : ms.fetch = some ms') :
    ms'.Wf ∧ ms'.pending = ms.pending ∧ ms'.offered ≠ [] := by
  unfold MessageLinkStack.fetch at h
  split at h
  · next hcur =>
    split at h
    · cases h
    · next t rest hq =>
      obtain rfl := Option.some.inj h
      obtain ⟨hzero, hne⟩ := hw.tasks t (by rw [hq]; exact List.mem_cons_self)
      refine ⟨⟨by simp [hzero], fun t ht => hw.tasks t (by rw [hq]; exact List.mem_cons_of_mem _ ht)⟩,
        ?_, ?_⟩
      · simp only [pending, offered, queue, hcur, hq, hzero, List.drop_length, List.drop_zero,
          List.flatMap_cons, List.nil_append]
      · simpa only [offered, hzero, List.drop_zero] using hne
  · next hcur =>
    obtain rfl := Option.some.inj h
    refine ⟨hw, rfl, fun hnil => hcur ?_⟩
    exact Nat.le_antisymm hw.current (List.drop_eq_nil_iff.mp hnil)

/-- `Send` takes its bytes off the front. -/
theorem Wf.send (hw : ms.Wf) (room : Nat) : (ms.send fd (some room)).1.Wf ∧
    ms.pending = ms.offered.take room ++ (ms.send fd (some room)).1.pending := by
  have hcur := hw.current
  refine ⟨⟨?_, hw.tasks⟩, ?_⟩
  · show ms.sendTask.current + min room (ms.sendTask.buffer.length - ms.sendTask.current) ≤
      ms.sendTask.buffer.length
    omega
  · have hlen : ms.offered.length = ms.sendTask.buffer.length - ms.sendTask.current := List.length_drop
    have hleft : (ms.send fd (some room)).1.offered = ms.offered.drop room := by
      show ms.sendTask.buffer.drop (ms.sendTask.current +
        min room (ms.sendTask.buffer.length - ms.sendTask.current)) = _
      rw [← hlen, ← List.drop_drop]
      rcases Nat.le_total room ms.offered.length with hle | hle
      · rw [Nat.min_eq_left hle]
        rfl
      · rw [Nat.min_eq_right hle, List.drop_eq_nil_of_le hle]
        exact List.drop_length
    rw [pending, pending, hleft, ← List.append_assoc, List.take_append_drop]
    rfl

/-- A call of `OnSend` takes from what is pending what the socket takes. -/
theorem Wf.onSend (hw : ms.Wf) (fd : Fd) (sent : Option Nat) : (ms.onSend fd sent).1.Wf ∧
    ms.pending = ms.taken sent ++ (ms.onSend fd sent).1.pending := by
  rw [onSend_eq]
  cases hf : ms.fetch with
  | none =>
    simp only [taken, hf]
    exact ⟨hw, rfl⟩
  | some ms' =>
    obtain ⟨hw', hpending, -⟩ := hw.fetch hf
    rw [← hpending]
    simp only [taken, hf]
    cases sent with
    | none => exact ⟨hw', rfl⟩
    | some room => exact hw'.send room

/-- The worker goes to the last test with the current buffer sent. -/
theorem onSend_sendLast {sent : Option Nat} (h : (ms.onSend fd sent).2 = .sendLast fd) :
    (ms.onSend fd sent).1.offered = [] := by
  rw [onSend_eq] at h ⊢
  cases hf : ms.fetch with
  | none =>
    rw [hf] at h
    cases h
  | some ms' =>
    rw [hf] at h
    cases sent with
    | none => cases h
    | some room =>
      simp only [send] at h ⊢
      split at h
      · next hall =>
        simp only [offered, hall, List.drop_length]
      · cases h

end MessageLinkStack

-- ---------------------------------------------------------------------------
-- Any number of calls
-- ---------------------------------------------------------------------------

namespace Output

variable {fd : Fd} {s : Output} {a : OutputAct}

/-- What was queued is what the socket has taken and what is pending; a worker
that is about to test or to remove has the current buffer behind it. -/
structure Inv (fd : Fd) (s : Output) : Prop where
  wf : s.ms.Wf
  queued : s.queued = s.accepted ++ s.ms.pending
  sent : s.worker = .sendLast fd ∨ s.worker = .sendRemove fd → s.ms.offered = []

theorem init_inv : Inv fd {} := ⟨⟨Nat.le_refl 0, nofun⟩, rfl, fun _ => rfl⟩

theorem onSend_worker (ms : MessageLinkStack) (sent : Option Nat) :
    (ms.onSend fd sent).2 ≠ .sendRemove fd := by
  rw [MessageLinkStack.onSend_eq]
  cases ms.fetch with
  | none => nofun
  | some ms =>
    cases sent with
    | none => nofun
    | some room =>
      simp only [MessageLinkStack.send]
      split <;> nofun

theorem Inv.putSendTask {head msg : List UInt8} (h : s.Inv fd) (hhead : head.length = headerSize) :
    (s.next fd (.putSendTask head msg)).Inv fd where
  wf := by
    refine ⟨h.wf.current, fun t ht => ?_⟩
    obtain ht | ht := List.mem_append.mp ht
    · exact h.wf.tasks t ht
    · obtain rfl := List.mem_singleton.mp ht
      refine ⟨rfl, fun hnil => ?_⟩
      rw [(List.append_eq_nil_iff.mp hnil).1] at hhead
      cases hhead
  queued := by
    have hqueue : (s.ms.putSendTask head msg).queue = s.ms.queue ++ (head ++ msg) := by
      simp only [MessageLinkStack.queue, MessageLinkStack.putSendTask, List.flatMap_append,
        List.flatMap_singleton]
    simp only [next, MessageLinkStack.pending, hqueue]
    rw [h.queued, MessageLinkStack.pending, List.append_assoc, List.append_assoc]
    rfl
  sent := h.sent

theorem Inv.next (h : s.Inv fd) (hl : s.Legal fd a) : (s.next fd a).Inv fd := by
  cases a with
  | putSendTask head msg => exact h.putSendTask hl
  | onSend sent =>
    obtain ⟨hw, hpending⟩ := h.wf.onSend fd sent
    refine ⟨hw, ?_, ?_⟩
    · simp only [Output.next]
      rw [List.append_assoc, ← hpending]
      exact h.queued
    · rintro (hlast | hremove)
      · exact MessageLinkStack.onSend_sendLast hlast
      · exact absurd hremove (onSend_worker s.ms sent)
  | sendLast => exact ⟨h.wf, h.queued, fun _ => h.sent (.inl hl)⟩
  | remove => exact ⟨h.wf, h.queued, by rintro (hlast | hremove) <;> contradiction⟩

/-- Whatever other threads do in between. -/
theorem Inv.begins (h : s.Inv fd) : s.accepted <+: s.queued := by
  rw [h.queued]
  exact List.prefix_append ..

theorem Inv.exact (h : s.Inv fd) (hl : s.Legal fd a) : s.Exact fd a ↔ s.Undisturbed a := by
  constructor
  · rintro hexact rfl
    have hall : s.accepted = s.queued := hexact.drained rfl
    rw [h.queued, List.self_eq_append_right] at hall
    have hqueue := (List.append_eq_nil_iff.mp hall).2
    -- a task in the queue has a buffer
    refine List.eq_nil_iff_forall_not_mem.mpr fun t ht => (h.wf.tasks t ht).2 ?_
    exact List.flatMap_eq_nil_iff.mp hqueue t ht
  · intro hq
    refine ⟨(h.next hl).begins, ?_⟩
    rintro rfl
    show s.accepted = s.queued
    rw [h.queued, MessageLinkStack.pending, h.sent (.inr hl), MessageLinkStack.queue, hq rfl]
    exact (List.append_nil _).symm

/-- Over any puts and turns of the worker: the output is exact exactly when no
task is put between the last test of the queue and `Remove`. -/
theorem exact_iff (acts : List OutputAct) (hl : ∀ t ∈ turns (next fd) {} acts, t.1.Legal fd t.2) :
    (∀ t ∈ turns (next fd) {} acts, t.1.Exact fd t.2) ↔
      ∀ t ∈ turns (next fd) {} acts, t.1.Undisturbed t.2 :=
  forall_turns_iff_of (I := Inv fd) (l := Legal fd) (fun _ _ h hl => h.exact hl)
    (fun _ _ h hl _ => h.next hl) acts init_inv hl

/-- Two empty messages, the second one put while the first one is half sent. -/
def twoMessages : List OutputAct :=
  [.putSendTask (List.replicate 64 1) [], .onSend (some 40), .putSendTask (List.replicate 64 2) [],
    .onSend (some 99), .sendLast, .onSend (some 64), .sendLast, .remove]

theorem two_messages_sent :
    (twoMessages.foldl (next 5) {}).accepted = List.replicate 64 1 ++ List.replicate 64 2 ∧
      ∀ t ∈ turns (next 5) {} twoMessages, t.1.Exact 5 t.2 :=
  ⟨by decide, (exact_iff _ (by decide)).mpr (by decide)⟩

/-- A task that is put when `OnSend` has found the queue empty is left behind
without the write interest. -/
theorem message_left_behind : ¬ ∀ (fd : Fd) (acts : List OutputAct),
    (∀ t ∈ turns (next fd) {} acts, t.1.Legal fd t.2) → ∀ t ∈ turns (next fd) {} acts, t.1.Exact fd t.2 := by
  intro h
  have hexact := h 5 [.putSendTask (List.replicate 64 1) [], .onSend (some 64), .sendLast,
    .putSendTask (List.replicate 64 2) [], .remove] (by decide) _ (List.getLast_mem (by simp [turns]))
  have hall := hexact.drained rfl
  revert hall
  decide

end Output

end GalaLua.Controllers
