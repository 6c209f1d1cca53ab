import GalaLua.Controllers.Links
import GalaLua.Controllers.Turns
import GalaLua.Library.Signal

/-!
# No forgotten request

A caller puts its task and then registers the event; a handler finds the queue
empty and then removes the event. For every link and event this is a
`Library.Signal`, and every step of the controllers is a step of each of these
signals, as long as no caller registers an event of a queue with work between
the test and the removal of the worker. A caller that does loses its event: the
worker takes it back and nobody polls for the task.
-/

namespace GalaLua.Controllers

open Library (Signal Reach Free run runIf reach_of_run reach_of_runIf)

variable {n : Nat}

namespace State

def wants (s : State n) (fd : Fd) (ev : Ev) : Bool := (s.links fd).any (·.stack.wants ev)

def signal (s : State n) (fd : Fd) (ev : Ev) : Signal where
  work := s.wants fd ev
  up := s.selector.interest fd ev
  raising := ∃ i, s.callers i = .register fd ev
  clearing := s.worker.removing = some (fd, ev)

def quiet (s : State n) : Bool :=
  decide (∀ i, s.callers i = .idle) && decide (s.worker = .idle)

end State

/-- A caller does not register the event of a queue with work while the
worker, which found this queue empty, has still to remove the event. -/
def inOrder (s : State n) : Action n → Bool
  | .caller i =>
    match s.callers i with
    | .register fd ev => !(s.wants fd ev && decide (s.worker.removing = some (fd, ev)))
    | _ => true
  | _ => true

-- ---------------------------------------------------------------------------
-- Steps of the worker
-- ---------------------------------------------------------------------------

section

variable {s s' : State n} {fd : Fd} {ev : Ev}

theorem wants_of {l : Link} (hl : s.links fd = some l) : s.wants fd ev = l.stack.wants ev := by
  simp [State.wants, hl]

theorem wants_setLink {l : Option Link} (hl : ∀ ev, l.any (·.stack.wants ev) → s.wants fd ev)
    {fd' : Fd} (h : (s.setLink fd l).wants fd' ev) : s.wants fd' ev := by
  rcases eq_or_ne fd' fd with rfl | hne
  · simp only [State.wants, State.setLink, Function.update_self] at h
    exact hl ev h
  · simpa only [State.wants, State.setLink, Function.update_of_ne hne] using h

/-- What a step of the worker can do: work on a link, remove an event, or
remove a link. -/
inductive Worked (s s' : State n) : Prop
  | turn (callers : s'.callers = s.callers)
      (selector : ∀ fd ev, s.selector.interest fd ev → s'.selector.interest fd ev)
      (fewer : ∀ fd ev, s'.wants fd ev → s.wants fd ev)
      (removing : ∀ fd ev, s'.worker.removing = some (fd, ev) → s'.wants fd ev = false)
      (sent : ∀ fd l, s'.worker = .sendLast fd → s'.links fd = some l → l.stack.sent)
  | remove (fd : Fd) (ev : Ev) (hr : s.worker.removing = some (fd, ev))
      (hs : s' = { s with selector := s.selector.remove fd ev, worker := .idle })
  | drop (fd : Fd)
      (hs : s' = { s.setLink fd none with
        selector := s.selector.removeFd fd
        worker := .idle })

theorem Worked.go (hc : s'.callers = s.callers)
    (hm : ∀ fd ev, s.selector.interest fd ev → s'.selector.interest fd ev)
    (hw : ∀ fd ev, s'.wants fd ev → s.wants fd ev) (hr : s'.worker.removing = none)
    (hs : ∀ fd, s'.worker ≠ .sendLast fd) : Worked s s' := by
  refine .turn hc hm hw ?_ ?_
  · intro fd ev he
    rw [hr] at he
    cases he
  · intro fd l he
    exact absurd he (hs fd)

theorem Worked.of_turns {l : Link} {r : Stack × Handler} (hl : s.links fd = some l)
    (ht : Turns l.stack fd r) : Worked s (s.turn fd l r) := by
  have hl' : (s.turn fd l r).links fd = some { l with stack := r.1 } := Function.update_self ..
  refine .turn rfl (fun _ _ h => h) ?_ ?_ ?_
  · intro fd' ev h
    refine wants_setLink (fun ev hev => ?_) (s := s) (l := some { l with stack := r.1 }) h
    rw [wants_of hl]
    exact ht.fewer ev hev
  · intro fd' ev he
    obtain ⟨rfl, hno⟩ := ht.removing fd' ev he
    rw [wants_of hl']
    exact hno
  · intro fd' l' he hl''
    obtain ⟨rfl, hsent⟩ := ht.sent fd' he
    obtain rfl := Option.some.inj (hl'.symm.trans hl'')
    exact hsent

theorem wants_join {l : Link} (hl : ∀ ev, l.stack.wants ev = false) {fd' : Fd}
    (h : (s.setLink fd (some l)).wants fd' ev) : s.wants fd' ev := by
  refine wants_setLink (fun ev hev => ?_) h
  rw [Option.any_some, hl ev] at hev
  cases hev

theorem Worked.join {l : Link} {h : Handler} (hs : s.join fd l h = some s')
    (hl : ∀ ev, l.stack.wants ev = false) (hr : h.removing = none)
    (hsl : ∀ fd', h ≠ .sendLast fd') : Worked s s' := by
  rw [State.join, Option.ite_none_right_eq_some] at hs
  obtain ⟨-, hs⟩ := hs
  cases hs
  exact .go rfl (fun _ _ h => h) (fun _ _ h => wants_join hl h) hr hsl

theorem dispatch_worked (hw : s.worker = .idle) (h : s.dispatch = some s') : Worked s s' := by
  unfold State.dispatch at h
  split at h
  · cases h
  · split at h
    · cases h
      exact .go rfl (fun _ _ h => h) (fun _ _ h => h) (congrArg Handler.removing hw)
        (fun fd he => nomatch hw.symm.trans he)
    next =>
      cases h
      split <;> exact .go rfl (fun _ _ h => h) (fun _ _ h => h) rfl nofun

theorem onRecv_worked {c : Choice} (h : s.onRecv fd c = some s') : Worked s s' := by
  unfold State.onRecv at h
  split at h
  · cases h
  next l hl =>
    split at h
    next ls hst =>
      split at h
      · cases h
        split <;> exact .go rfl (fun _ _ h => h) (fun _ _ h => h) rfl nofun
      · cases h
    next ls hst =>
      have ht := ls.onRecv_turns fd c
      split at h
      · exact .join h (fun ev => by cases ev <;> rfl) rfl nofun
      next heq _ =>
        cases h
        rw [heq, ← hst] at ht
        exact .of_turns hl ht
    next =>
      cases h
      split <;> exact .go rfl (fun _ _ h => h) (fun _ _ h => h) rfl nofun
    next =>
      split at h
      · exact .join h (fun ev => by cases ev <;> rfl) rfl nofun
      · cases h
        exact .go rfl (fun _ _ h => h) (fun _ _ h => h) rfl nofun

theorem inStream_worked {f : StreamLinkStack → StreamLinkStack × Handler}
    (hf : ∀ ls, Turns (.stream ls) fd ((f ls).map .stream id)) (h : s.inStream fd f = some s') :
    Worked s s' := by
  unfold State.inStream at h
  split at h
  next stamp ls hl =>
    cases h
    exact .of_turns hl (hf ls)
  next => cases h

theorem serve_worked {recvfd : Fd} {c : Choice} (h : s.serve fd recvfd c = some s') :
    Worked s s' := by
  unfold State.serve at h
  split at h
  next stamp ls _ hl _ =>
    cases h
    exact .of_turns hl (ls.serve_turns fd recvfd c.answered)
  next => cases h

theorem look_worked {f : Stack → Handler}
    (hf : ∀ l, s.links fd = some l → Turns l.stack fd (l.stack, f l.stack))
    (h : s.look fd f = some s') : Worked s s' := by
  obtain ⟨l, hl, rfl⟩ := Option.map_eq_some_iff.mp h
  have hsame : Function.update s.links fd (some l) = s.links := by rw [← hl, Function.update_eq_self]
  have hturn : s.turn fd l (l.stack, f l.stack) = { s with worker := f l.stack } := by
    simp only [State.turn, State.setLink, hsame]
  exact hturn ▸ .of_turns hl (hf l hl)

/-- The last test of a send queue follows a finished buffer. -/
def Sent (s : State n) : Prop :=
  ∀ fd l, s.worker = .sendLast fd → s.links fd = some l → l.stack.sent

theorem work_worked {c : Choice} (hsent : Sent s) (h : s.work c = some s') : Worked s s' := by
  unfold State.work at h
  split at h
  next hw => exact dispatch_worked hw h
  next => exact onRecv_worked h
  next fd _ => exact inStream_worked (fun ls => ls.onRecv_turns fd c.recv) h
  next fd _ => exact inStream_worked (fun ls => ls.response_turns fd c) h
  next =>
    cases h
    exact .go rfl (fun _ _ h => Selector.interest_register h) (fun _ _ h => h) rfl nofun
  next => exact serve_worked h
  next fd _ => exact look_worked (fun l _ => l.stack.recvLast_turns fd) h
  next fd hw =>
    cases h
    exact .remove fd .evIn (congrArg Handler.removing hw) rfl
  next =>
    cases h
    exact .go rfl (fun _ _ h => Selector.interest_register h) (fun _ _ h => h) rfl nofun
  next fd _ =>
    obtain ⟨l, hl, rfl⟩ := Option.map_eq_some_iff.mp h
    exact .of_turns hl (l.stack.onSend_turns fd c.sent)
  next fd hw =>
    exact look_worked (fun l hl => Stack.sendLast_turns (hsent fd l hw hl) fd) h
  next fd hw =>
    cases h
    exact .remove fd .evOut (congrArg Handler.removing hw) rfl
  next fd _ =>
    split at h
    · cases h
      exact .drop fd rfl
    · cases h

/-- A step of the worker is a step of every signal. -/
theorem Worked.signal (h : Worked s s') (fd : Fd) (ev : Ev) :
    (s.signal fd ev).Step (s'.signal fd ev) := by
  cases h with
  | turn hc hm hw hr =>
    refine .keep (fun h => .inl (hw fd ev h)) (hm fd ev) ?_ ?_
    · rintro ⟨i, hi⟩
      exact ⟨i, (congrFun hc i).trans hi⟩
    · intro hclear hwork
      exact absurd ((hr fd ev hclear).symm.trans hwork) Bool.false_ne_true
  | remove fd' ev' hr hs =>
    subst hs
    by_cases he : fd = fd' ∧ ev = ev'
    · obtain ⟨rfl, rfl⟩ := he
      exact .clear id id hr nofun
    · exact .keep .inl (Selector.interest_remove he) id nofun
  | drop fd' hs =>
    subst hs
    rcases eq_or_ne fd fd' with rfl | hne
    · refine .drop ?_
      simp [State.signal, State.wants]
    · refine .keep (fun h => .inl ?_) (Selector.interest_removeFd hne) id nofun
      exact wants_setLink (fun _ he => by cases he) h

theorem Worked.sent_of (h : Worked s s') : Sent s' := by
  cases h with
  | turn _ _ _ _ hsent => exact hsent
  | remove _ _ _ hs =>
    subst hs
    exact nofun
  | drop _ hs =>
    subst hs
    exact nofun

end

-- ---------------------------------------------------------------------------
-- Steps of the callers
-- ---------------------------------------------------------------------------

theorem StreamLinkStack.putPollTask_sendTasks (ls : StreamLinkStack) (pid : Nat) :
    (ls.putPollTask pid).sendTasks = ls.sendTasks := by
  unfold putPollTask
  split <;> rfl

/-- A call makes work only for the event that it then registers. -/
theorem Call.put_spec {c : Call} {st st' : Stack} {ev : Ev} (h : c.put st = some (st', ev)) :
    (∀ ev', st'.wants ev' → st.wants ev' ∨ ev' = ev) ∧ st'.sent = st.sent := by
  unfold Call.put at h
  split at h <;> cases h
  case h_5 pid _ ls =>
    refine ⟨fun ev' hw => ?_, rfl⟩
    cases ev' with
    | evIn => exact .inr rfl
    | evOut =>
      simp only [Stack.wants, ls.putPollTask_sendTasks] at hw
      exact .inl hw
    | evErr => cases hw
  all_goals
    refine ⟨fun ev' hw => ?_, rfl⟩
    cases ev' <;> first | exact .inr rfl | exact .inl hw

section

variable {k : Controller} {s s' : State n} {i : Fin n} {fd : Fd} {ev : Ev} {p : Pc}

/-- What a step can do that registers nothing and is not the worker's. -/
structure Kept (s s' : State n) : Prop where
  worker : s'.worker = s.worker
  selector : ∀ fd ev, s.selector.interest fd ev → s'.selector.interest fd ev
  callers : ∀ i fd ev, s.callers i = .register fd ev → s'.callers i = .register fd ev
  work : ∀ fd ev, s'.wants fd ev → s.wants fd ev ∨ ∃ i, s'.callers i = .register fd ev
  sent : Sent s → Sent s'

theorem Kept.signal (h : Kept s s') (fd : Fd) (ev : Ev) :
    (s.signal fd ev).Step (s'.signal fd ev) := by
  refine .keep (h.work fd ev) (h.selector fd ev) ?_ ?_
  · rintro ⟨i, hi⟩
    exact ⟨i, h.callers i fd ev hi⟩
  · intro hclear _
    exact (congrArg Handler.removing h.worker).symm.trans hclear

theorem register_goto (hp : ∀ fd ev, s.callers i ≠ .register fd ev) (j : Fin n) (fd : Fd) (ev : Ev)
    (h : s.callers j = .register fd ev) : (s.goto i p).callers j = .register fd ev := by
  rcases eq_or_ne j i with rfl | hne
  · exact absurd h (hp fd ev)
  · simpa only [State.goto, Function.update_of_ne hne] using h

theorem Kept.goto (hp : ∀ fd ev, s.callers i ≠ .register fd ev) : Kept s (s.goto i p) where
  worker := rfl
  selector _ _ h := h
  callers := register_goto hp
  work _ _ h := .inl h
  sent h := h

theorem sent_setLink {l : Link} (hl : s.worker = .sendLast fd → l.stack.sent) (h : Sent s) :
    Sent (s.setLink fd (some l)) := by
  intro fd' l' hw hl'
  rcases eq_or_ne fd' fd with rfl | hne
  · simp only [State.setLink, Function.update_self, Option.some.injEq] at hl'
    exact hl' ▸ hl hw
  · simp only [State.setLink, Function.update_of_ne hne] at hl'
    exact h fd' l' hw hl'

theorem Kept.setLink {l : Link} (hp : ∀ fd ev, s.callers i ≠ .register fd ev)
    (hwork : ∀ ev, l.stack.wants ev → s.wants fd ev ∨ p = .register fd ev)
    (hsent : Sent s → s.worker = .sendLast fd → l.stack.sent) :
    Kept s ((s.setLink fd (some l)).goto i p) where
  worker := rfl
  selector _ _ h := h
  callers := register_goto (s := s.setLink fd (some l)) hp
  work fd' ev h := by
    rcases eq_or_ne fd' fd with rfl | hne
    · simp only [State.wants, State.goto, State.setLink, Function.update_self] at h
      exact (hwork ev h).imp_right fun hreg => ⟨i, by simp [hreg]⟩
    · simp only [State.wants, State.goto, State.setLink, Function.update_of_ne hne] at h
      exact .inl h
  sent h := sent_setLink (hsent h) h

theorem lookup_kept {c : Call} (hp : ∀ fd ev, s.callers i ≠ .register fd ev)
    (h : s.lookup k i c = some s') : Kept s s' := by
  unfold State.lookup at h
  split at h
  · cases h
  · split at h <;> cases h <;> exact .goto hp

theorem fast_kept {c : Call} (hp : ∀ fd ev, s.callers i ≠ .register fd ev)
    (h : s.fast i c = some s') : Kept s s' := by
  unfold State.fast at h
  split at h
  · split at h <;> cases h
    exact .goto hp
  · cases h
    exact .goto hp

theorem eat_kept {c : Call} (hp : ∀ fd ev, s.callers i ≠ .register fd ev)
    (h : s.eat i c = some s') : Kept s s' := by
  unfold State.eat at h
  split at h
  next stamp ls hl =>
    split at h
    · cases h
      exact .goto hp
    · split at h
      next ls' heat =>
        cases h
        obtain ⟨m, -, rfl⟩ := Option.map_eq_some_iff.mp heat
        refine .setLink hp (fun ev hev => .inl ?_) fun _ _ => rfl
        rw [wants_of hl]
        cases ev <;> exact hev
      next =>
        cases h
        exact .goto hp
  next => cases h

theorem put_kept {c : Call} (hp : ∀ fd ev, s.callers i ≠ .register fd ev)
    (h : s.put i c = some s') : Kept s s' := by
  unfold State.put at h
  split at h
  · cases h
  next l hl =>
    split at h
    next st ev hput =>
      obtain ⟨hwork, hsent⟩ := Call.put_spec hput
      cases h
      refine .setLink hp (fun ev' hev => ?_) fun hs hw => ?_
      · rw [wants_of hl]
        rcases hwork ev' hev with hold | rfl
        · exact .inl hold
        · exact .inr rfl
      · exact hsent.trans (hs _ l hw hl)
    next =>
      cases h
      exact .goto hp

theorem openLink_kept {l : Link} (hl : ∀ ev, l.stack.wants ev = false) (hsent : l.stack.sent)
    (h : s.openLink i fd l p = some s') : Kept s s' := by
  rw [State.openLink, Option.ite_none_right_eq_some] at h
  obtain ⟨⟨hidle, -⟩, h⟩ := h
  cases h
  refine .setLink (fun _ _ he => nomatch hidle.symm.trans he) (fun ev hev => ?_) fun _ _ => hsent
  rw [hl ev] at hev
  cases hev

/-- `Register` is a step of every signal, if it comes in order. -/
theorem register_signal (hp : s.callers i = .register fd ev) (hok : inOrder s (.caller i))
    (fd' : Fd) (ev' : Ev) :
    (s.signal fd' ev').Step
      (({ s with selector := s.selector.register fd ev }.goto i .idle).signal fd' ev') := by
  by_cases he : fd' = fd ∧ ev' = ev
  · obtain ⟨rfl, rfl⟩ := he
    refine .raise id Selector.interest_register_self id ?_
    rintro ⟨hwork, hclear⟩
    simp [inOrder, hp, show s.wants fd' ev' = true from hwork,
      show s.worker.removing = some (fd', ev') from hclear] at hok
  · refine .keep .inl Selector.interest_register ?_ (fun h _ => h)
    rintro ⟨j, hj⟩
    refine ⟨j, ?_⟩
    rcases eq_or_ne j i with rfl | hne
    · obtain ⟨rfl, rfl⟩ := Pc.register.inj (hp.symm.trans hj)
      exact absurd ⟨rfl, rfl⟩ he
    · simpa only [State.goto, Function.update_of_ne hne] using hj

/-- Every step is the worker's, or registers nothing, or is a `Register`. -/
theorem step_cases {a : Action n} (hs : Sent s) (h : step k s a = some s') :
    Worked s s' ∨ Kept s s' ∨ ∃ i fd ev, a = .caller i ∧ s.callers i = .register fd ev ∧
      s' = { s with selector := s.selector.register fd ev }.goto i .idle := by
  cases a with
  | call i c =>
    rw [step, Option.ite_none_right_eq_some] at h
    obtain ⟨⟨hidle, -⟩, h⟩ := h
    cases h
    exact .inr (.inl (.goto fun _ _ he => nomatch hidle.symm.trans he))
  | caller i =>
    simp only [step, State.caller] at h
    split at h
    next => cases h
    next hpc => exact .inr (.inl (lookup_kept (fun _ _ he => nomatch hpc.symm.trans he) h))
    next hpc => exact .inr (.inl (fast_kept (fun _ _ he => nomatch hpc.symm.trans he) h))
    next hpc => exact .inr (.inl (eat_kept (fun _ _ he => nomatch hpc.symm.trans he) h))
    next hpc => exact .inr (.inl (put_kept (fun _ _ he => nomatch hpc.symm.trans he) h))
    next fd ev hpc =>
      cases h
      exact .inr (.inr ⟨i, fd, ev, rfl, hpc, rfl⟩)
    next fd hpc =>
      cases h
      refine .inr (.inl ⟨rfl, fun _ _ => Selector.interest_register, ?_, fun _ _ => .inl, id⟩)
      exact register_goto fun _ _ he => nomatch hpc.symm.trans he
  | doServe i fd time =>
    rw [step, Option.ite_none_right_eq_some] at h
    exact .inr (.inl (openLink_kept (fun ev => by cases ev <;> rfl) rfl h.2))
  | doConn i fd time =>
    rw [step, Option.ite_none_right_eq_some] at h
    exact .inr (.inl (openLink_kept (fun ev => by cases ev <;> rfl) rfl h.2))
  | doNodeReg i fd =>
    rw [step, Option.ite_none_right_eq_some] at h
    exact .inr (.inl (openLink_kept (fun ev => by cases ev <;> rfl) rfl h.2))
  | serveNode i fd =>
    rw [step, Option.ite_none_right_eq_some] at h
    exact .inr (.inl (openLink_kept (fun ev => by cases ev <;> rfl) rfl h.2))
  | waitEvent =>
    rw [step, Option.ite_none_right_eq_some] at h
    obtain ⟨-, h⟩ := h
    cases h
    exact .inr (.inl ⟨rfl, fun _ _ => id, fun _ _ _ => id, fun _ _ => .inl, id⟩)
  | waited evs =>
    simp only [step] at h
    split at h
    · cases h
    · split at h
      · cases h
        exact .inr (.inl ⟨rfl, fun _ _ => id, fun _ _ _ => id, fun _ _ => .inl, id⟩)
      · cases h
  | work c => exact .inl (work_worked hs h)

theorem sent_step {a : Action n} (hs : Sent s) (h : step k s a = some s') : Sent s' := by
  rcases step_cases hs h with hw | hk | ⟨i, fd, ev, -, -, rfl⟩
  · exact hw.sent_of
  · exact hk.sent hs
  · exact hs

theorem signal_step {a : Action n} (hs : Sent s) (hok : inOrder s a) (h : step k s a = some s')
    (fd : Fd) (ev : Ev) : (s.signal fd ev).Step (s'.signal fd ev) := by
  rcases step_cases hs h with hw | hk | ⟨i, fd', ev', rfl, hpc, rfl⟩
  · exact hw.signal fd ev
  · exact hk.signal fd ev
  · exact register_signal hpc hok fd ev

end

-- ---------------------------------------------------------------------------
-- Runs
-- ---------------------------------------------------------------------------

section

variable {k : Controller} {pipe : Fd} {capacity : Nat} {s : State n}

/-- The runs in which callers register in order. -/
abbrev Orderly (k : Controller) (pipe : Fd) (capacity : Nat) : State n → Prop :=
  Reach (step k) (fun s a => inOrder s a = true) (.init pipe capacity)

theorem orderly_sent (h : Orderly k pipe capacity s) : Sent s := by
  refine h.invariant (I := Sent) ?_ fun _ _ _ hs _ hstep => sent_step hs hstep
  intro fd l hw
  cases hw

theorem orderly_kept (h : Orderly k pipe capacity s) (fd : Fd) (ev : Ev) :
    (s.signal fd ev).Kept := by
  refine h.invariant_of (I := fun s => (s.signal fd ev).Kept) (fun _ => orderly_sent) ?_ ?_
  · exact ⟨nofun, nofun⟩
  · intro s a s' hs hk hok hstep
    exact hk.step (signal_step hs hok hstep fd ev)

/-- When no call and no handler is in progress, the selector asks for every
event that a link waits for. -/
theorem requests_polled (h : Orderly k pipe capacity s) (hq : s.quiet) {fd : Fd} {l : Link}
    (hl : s.links fd = some l) {ev : Ev} (hw : l.stack.wants ev) : s.selector.interest fd ev := by
  simp only [State.quiet, Bool.and_eq_true, decide_eq_true_eq] at hq
  rcases (orderly_kept h fd ev).seen ((wants_of hl).trans hw) with hup | ⟨i, hi⟩
  · exact hup
  · rw [hq.1 i] at hi
    cases hi

end

theorem orderly_of_run (k : Controller) (pipe : Fd) (capacity : Nat) (as : List (Action n))
    (P : State n → Bool)
    (h : (runIf (step k) (fun s a => inOrder s a = true) (.init pipe capacity) as).any P) :
    ∃ s, Orderly k pipe capacity s ∧ P s :=
  reach_of_runIf as P h

theorem free_of_run (k : Controller) (pipe : Fd) (capacity : Nat) (as : List (Action n))
    (P : State n → Bool) (h : (run (step k) (.init pipe capacity) as).any P) :
    ∃ s, Reach (step k) Free (.init pipe capacity) s ∧ P s :=
  reach_of_run as P h

def whole (c : Call) (steps : Nat) : List (Action 1) :=
  .call 0 c :: List.replicate steps (.caller 0)

def polled (e : Fd × Ev) (cs : List Choice) : List (Action 1) :=
  .waitEvent :: .waited [e] :: .work {} :: cs.map .work

/-- A connection with half a buffer sent and a line awaited. -/
theorem requests_polled_half : ∃ s : State 1, ∃ l, Orderly .socket 3 8 s ∧ s.quiet ∧
    s.links 5 = some l ∧ (l.stack.wants .evIn ∧ s.selector.interest 5 .evIn) ∧
    l.stack.wants .evOut ∧ s.selector.interest 5 .evOut := by
  obtain ⟨s, hs, hp⟩ := orderly_of_run .socket 3 8
    (Action.doConn 0 5 0 :: whole (.send 7 5 [1, 2]) 3 ++ whole (.recvLine 7 5 0) 5 ++
      polled (5, .evOut) [{ sent := some 1 }])
    (fun s : State 1 => s.quiet && s.wants 5 .evIn && s.wants 5 .evOut) (by decide +kernel)
  simp only [Bool.and_eq_true] at hp
  obtain ⟨⟨hq, hin⟩, hout⟩ := hp
  obtain ⟨l, hl, hin⟩ := (Option.any_eq_true ..).mp hin
  rw [wants_of hl] at hout
  exact ⟨s, l, hs, hq, hl, ⟨hin, requests_polled hs hq hl hin⟩, hout,
    requests_polled hs hq hl hout⟩

/-- A process accepts in a loop: its second task is put and registered after the
worker, which has served the first, found the queue empty. The worker then
removes EV_IN. -/
theorem request_forgotten : ∃ s : State 1, ∃ l, Reach (step .socket) Free (.init 3 8) s ∧
    s.quiet ∧ s.links 5 = some l ∧ l.stack.wants .evIn ∧ s.selector.interest 5 .evIn = false := by
  obtain ⟨s, hs, hp⟩ := free_of_run .socket 3 8
    (Action.doServe 0 5 0 :: whole (.accept 7 5 1) 3 ++
      polled (5, .evIn) [{ accept := .fd 6 0 }, {}, {}, {}, {}] ++
      whole (.accept 7 5 2) 3 ++ [Action.work {}])
    (fun s : State 1 => s.quiet && s.wants 5 .evIn && !s.selector.interest 5 .evIn)
    (by decide +kernel)
  simp only [Bool.and_eq_true, Bool.not_eq_true'] at hp
  obtain ⟨⟨hq, hin⟩, hno⟩ := hp
  obtain ⟨l, hl, hin⟩ := (Option.any_eq_true ..).mp hin
  exact ⟨s, l, hs, hq, hl, hin, hno⟩

end GalaLua.Controllers
