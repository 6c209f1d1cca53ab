import GalaLua.Controllers.Stacks

/-!
# What a turn of a handler leaves

Handlers only take: no turn makes work for an event. A handler goes on to the
removal of an event only from a test that found no work for it, or, for a
message link, from the test of the queue behind a message that has been sent.
-/

namespace GalaLua.Controllers

/-- The event that a handler is about to take out of the selector. -/
def Handler.removing : Handler → Option (Fd × Ev)
  | .recvRemove fd => some (fd, .evIn)
  | .sendRemove fd => some (fd, .evOut)
  | _ => none

def Stack.sent : Stack → Bool
  | .message ms => decide (ms.sendTask.current = ms.sendTask.buffer.length)
  | _ => true

/-- A turn makes no work; it sets out to remove an event only if nothing waits
for it, and goes to the last test of a send queue with nothing half sent. -/
structure Turns (st : Stack) (fd : Fd) (r : Stack × Handler) : Prop where
  fewer : ∀ ev, r.1.wants ev → st.wants ev
  removing : ∀ fd' ev, r.2.removing = some (fd', ev) → fd' = fd ∧ r.1.wants ev = false
  sent : ∀ fd', r.2 = .sendLast fd' → fd' = fd ∧ r.1.sent

section

variable {st st' : Stack} {fd : Fd} {h : Handler}

theorem Turns.of_fewer (hw : ∀ ev, st'.wants ev → st.wants ev) (hr : h.removing = none)
    (hs : ∀ fd', h ≠ .sendLast fd') : Turns st fd (st', h) where
  fewer := hw
  removing _ _ he := by
    rw [hr] at he
    cases he
  sent fd' he := absurd he (hs fd')

theorem Turns.removes {ev : Ev} (hr : h.removing = some (fd, ev)) (hw : st.wants ev = false) :
    Turns st fd (st, h) where
  fewer _ hev := hev
  removing fd' ev' he := by
    obtain ⟨rfl, rfl⟩ := Prod.mk.inj (Option.some.inj (hr.symm.trans he))
    exact ⟨rfl, hw⟩
  sent fd' he := by
    subst he
    cases hr

theorem Turns.test {ev : Ev} {p : Prop} [Decidable p] (hr : h.removing = some (fd, ev))
    (hp : p → st.wants ev = false) : Turns st fd (st, if p then h else .idle) := by
  split
  next hyes => exact .removes hr (hp hyes)
  next => exact .of_fewer (fun _ hev => hev) rfl nofun

theorem wants_stream {ls ls' : StreamLinkStack} (hr : ls'.recvTasks ≠ [] → ls.recvTasks ≠ [])
    (hs : ls'.sendTasks ≠ [] → ls.sendTasks ≠ []) (ev : Ev) (h : (Stack.stream ls').wants ev) :
    (Stack.stream ls).wants ev := by
  cases ev with
  | evIn => exact decide_eq_true (hr (of_decide_eq_true h))
  | evOut => exact decide_eq_true (hs (of_decide_eq_true h))
  | evErr => cases h

theorem wants_server {ls ls' : StreamServerStack} (hr : ls'.recvTasks ≠ [] → ls.recvTasks ≠ [])
    (ev : Ev) (h : (Stack.server ls').wants ev) : (Stack.server ls).wants ev := by
  cases ev with
  | evIn => exact decide_eq_true (hr (of_decide_eq_true h))
  | evOut | evErr => cases h

end

namespace StreamLinkStack

variable (ls : StreamLinkStack) (fd : Fd)

theorem onRecv_turns (r : Recv) : Turns (.stream ls) fd ((ls.onRecv fd r).map .stream id) := by
  cases r with
  | data bs => exact .of_fewer (wants_stream id id) rfl nofun
  | wouldBlock => exact .of_fewer (wants_stream id id) rfl nofun
  | peerClose =>
    simp only [onRecv]
    split <;> exact .of_fewer (wants_stream id id) rfl nofun
  | fails => exact .of_fewer (wants_stream id id) rfl nofun

theorem respond_turns {t : Task} {rest : List Task} (hq : ls.recvTasks = t :: rest)
    (answered : Bool) (k : Option Nat) :
    Turns (.stream ls) fd ((ls.respond fd rest answered k).map .stream id) := by
  have hne : ls.recvTasks ≠ [] := by simp [hq]
  cases k with
  | none =>
    simp only [respond]
    split <;> exact .of_fewer (wants_stream id id) rfl nofun
  | some k =>
    simp only [respond]
    split <;> exact .of_fewer (wants_stream (fun _ => hne) id) rfl nofun

theorem response_turns (c : Choice) :
    Turns (.stream ls) fd ((ls.response fd c).map .stream id) := by
  unfold response
  split
  · exact .of_fewer (wants_stream id id) rfl nofun
  next t rest hq =>
    have hne : ls.recvTasks ≠ [] := by simp [hq]
    split
    · exact .of_fewer (wants_stream (fun _ => hne) id) rfl nofun
    · split
      · exact ls.respond_turns fd hq ..
      · exact ls.respond_turns fd hq ..
      · split
        · exact .of_fewer (wants_stream (fun _ => hne) id) rfl nofun
        · exact .of_fewer (wants_stream id id) rfl nofun
      · exact .of_fewer (wants_stream id id) rfl nofun

theorem onSend_turns (sent : Option Nat) :
    Turns (.stream ls) fd ((ls.onSend fd sent).map .stream id) := by
  unfold onSend
  split
  next hq => exact .removes rfl (decide_eq_false (not_not_intro hq))
  next t rest hq =>
    have hne : ls.sendTasks ≠ [] := by simp [hq]
    split
    · exact .of_fewer (wants_stream id id) rfl nofun
    · simp only
      split
      · refine ⟨wants_stream id (fun _ => hne), nofun, ?_⟩
        rintro fd' ⟨⟩
        exact ⟨rfl, rfl⟩
      · exact .of_fewer (wants_stream id (fun _ => hne)) rfl nofun

end StreamLinkStack

namespace StreamServerStack

variable (ls : StreamServerStack) (fd : Fd)

theorem onRecv_turns (c : Choice) : Turns (.server ls) fd ((ls.onRecv fd c).map .server id) := by
  unfold onRecv
  split
  · exact .of_fewer (wants_server id) rfl nofun
  next t rest hq =>
    have hne : ls.recvTasks ≠ [] := by simp [hq]
    split
    · exact .of_fewer (wants_server (fun _ => hne)) rfl nofun
    · split
      · exact .of_fewer (wants_server id) rfl nofun
      · split <;> exact .of_fewer (wants_server id) rfl nofun

theorem serve_turns (recvfd : Fd) (answered : Bool) :
    Turns (.server ls) fd (.server (ls.serve recvfd answered), .onRecv fd) := by
  refine .of_fewer (wants_server ?_) rfl nofun
  unfold serve
  split
  · exact id
  next t rest hq =>
    have hne : ls.recvTasks ≠ [] := by simp [hq]
    split <;> exact fun _ => hne

end StreamServerStack

namespace MessageLinkStack

variable (ms : MessageLinkStack) (fd : Fd)

theorem wants_message (ev : Ev) :
    (Stack.message ms).wants ev ↔
      ev = .evOut ∧ (ms.sendTaskQ ≠ [] ∨ ms.sendTask.current ≠ ms.sendTask.buffer.length) := by
  cases ev with
  | evIn => exact ⟨nofun, nofun⟩
  | evOut => simp only [Stack.wants, decide_eq_true_eq, true_and]
  | evErr => exact ⟨nofun, nofun⟩

/-- Sending makes no work out of a link that has some. -/
theorem send_turns {st : Stack} (hst : st.wants .evOut) (sent : Option Nat) :
    Turns st fd ((ms.send fd sent).map .message id) := by
  have hw : ∀ (ms' : MessageLinkStack) (ev : Ev), (Stack.message ms').wants ev → st.wants ev := by
    intro ms' ev h
    obtain ⟨rfl, -⟩ := (ms'.wants_message ev).mp h
    exact hst
  cases sent with
  | none => exact .of_fewer (hw _) rfl nofun
  | some room =>
    simp only [send]
    split
    next hsent =>
      refine ⟨hw _, nofun, ?_⟩
      rintro fd' ⟨⟩
      exact ⟨rfl, decide_eq_true hsent⟩
    next => exact .of_fewer (hw _) rfl nofun

theorem onSend_turns (sent : Option Nat) :
    Turns (.message ms) fd ((ms.onSend fd sent).map .message id) := by
  unfold onSend
  split
  · split
    · exact .of_fewer (fun _ h => h) rfl nofun
    next t rest hq =>
      exact send_turns _ fd ((ms.wants_message _).mpr ⟨rfl, .inl (by simp [hq])⟩) sent
  next hrest => exact send_turns ms fd ((ms.wants_message _).mpr ⟨rfl, .inr hrest⟩) sent

end MessageLinkStack

theorem Stack.onSend_turns (st : Stack) (fd : Fd) (sent : Option Nat) :
    Turns st fd (st.onSend fd sent) := by
  cases st with
  | stream ls => exact ls.onSend_turns fd sent
  | message ms => exact ms.onSend_turns fd sent
  | server ls => exact .of_fewer (fun _ h => h) rfl nofun
  | messageServer => exact .of_fewer (fun _ h => h) rfl nofun

theorem Stack.recvLast_turns (st : Stack) (fd : Fd) : Turns st fd (st, st.recvLast fd) := by
  cases st with
  | stream ls => exact .test rfl fun hq => decide_eq_false (not_not_intro hq)
  | server ls => exact .test rfl fun hq => decide_eq_false (not_not_intro hq)
  | message ms => exact .of_fewer (fun _ h => h) rfl nofun
  | messageServer => exact .of_fewer (fun _ h => h) rfl nofun

/-- The last test of a send queue, which does not look at the current message:
it must have been sent. -/
theorem Stack.sendLast_turns {st : Stack} (hsent : st.sent) (fd : Fd) :
    Turns st fd (st, st.sendLast fd) := by
  cases st with
  | stream ls => exact .test rfl fun hq => decide_eq_false (not_not_intro hq)
  | message ms =>
    have hdone : ms.sendTask.current = ms.sendTask.buffer.length := of_decide_eq_true hsent
    exact .test rfl fun hq => decide_eq_false (by simp [hq, hdone])
  | server ls => exact .of_fewer (fun _ h => h) rfl nofun
  | messageServer => exact .of_fewer (fun _ h => h) rfl nofun

end GalaLua.Controllers
