import GalaLua.GLR.Table

/-!
# The mailbox of a process

A message reaches a process by hand-over, onto the stack of a process that
waits in `Recieve`, or through `_Channel`. What a process has received, what
lies on its stack and what is in its channel are together, in this order, what
its senders brought in the order in which they acquired `_Lock`, less the
message of a sender that still holds the lock (`fifo`).
-/

namespace GalaLua.GLR

open Library (Reach Free reach_of_run reach_of_runIf)

variable {n : Nat} {s s' : State n} {t : Fin n} {p : Obj}

/-- The message that a sender has brought and not yet delivered. -/
def Pc.carries : Pc → Option (Obj × Msg)
  | .sendTest p m _ | .sendTry p m _ | .sendHand p m _ | .sendPut p m _ => some (p, m)
  | _ => none

def Pc.offers : Pc → Option Obj
  | .sendTry p _ _ | .sendHand p _ _ => some p
  | _ => none

def Pc.queues : Pc → Option Obj
  | .sendPut p _ _ => some p
  | _ => none

theorem holdsInt_of_runs {q : Pc} (h : q.runs = some p) : q.holdsInt = some p := by
  cases q <;> first | exact h | cases h

theorem holdsInt_of_wakes {q : Pc} (h : q.wakes = some p) : q.holdsInt = some p := by
  cases q <;> first | exact h | cases h

theorem not_runs_of_wakes {q : Pc} (h : q.wakes = some p) : q.runs ≠ some p := by
  intro hr
  cases q <;> first | (cases h; done) | cases hr

theorem holdsLock_of_offers {q : Pc} (h : q.offers = some p) : q.holdsLock = some p := by
  cases q <;> first | exact h | cases h

theorem holdsLock_of_queues {q : Pc} (h : q.queues = some p) : q.holdsLock = some p := by
  cases q <;> first | exact h | cases h

-- ---------------------------------------------------------------------------
-- Which route a message takes
-- ---------------------------------------------------------------------------

/-- While a process waits in `Recieve` its channel is empty, and there is
nothing on the stack of a process that waits or runs. -/
structure Route (s : State n) : Prop where
  wait : ∀ p, (s.procs p).state = .RECV_WAIT → (s.procs p).channel = []
  ret : ∀ p, (s.procs p).state.waits → (s.procs p).ret = .none
  runs : ∀ t p, (s.pc t).runs = some p → (s.procs p).ret = .none
  offers : ∀ t p, (s.pc t).offers = some p → (s.procs p).channel = []
  queues : ∀ t p, (s.pc t).queues = some p → (s.procs p).state ≠ .RECV_WAIT

theorem runs_start {q : Pc} (h : q.isStart) : q.runs = none := by
  cases q <;> first | rfl | cases h

theorem offers_start {q : Pc} (h : q.isStart) : q.offers = none := by
  cases q <;> first | rfl | cases h

theorem runs_after (k : After) : k.pc.runs = none := by cases k <;> rfl

theorem queues_start {q : Pc} (h : q.isStart) : q.queues = none := by
  cases q <;> first | rfl | cases h

theorem queues_after (k : After) : k.pc.queues = none := by cases k <;> rfl

theorem offers_after (k : After) : k.pc.offers = none := by cases k <;> rfl

theorem runs_move (hm : Move s t s') {t' : Fin n} (h : (s'.pc t').runs = some p) :
    (s.pc t').runs = some p ∨ (s'.procs p).ret = .none := by
  cases hm
  case start hq =>
    rcases update_cases h with ⟨-, hn⟩ | ⟨-, hn⟩
    · simp [runs_start hq] at hn
    · exact .inl hn
  case resume =>
    rcases update_cases h with ⟨-, hn⟩ | ⟨-, hn⟩
    · cases hn
      exact .inr (by simp)
    · exact .inl hn
  all_goals
    have hpc := ‹s.pc t = _›
    rcases update_cases h with ⟨rfl, hn⟩ | ⟨-, hn⟩
    · first
      | cases hn; done
      | exact .inl (hpc ▸ hn)
      | (rw [runs_after] at hn; cases hn)
    · exact .inl hn

theorem offers_move (hm : Move s t s') {t' : Fin n} (h : (s'.pc t').offers = some p) :
    (s.pc t').offers = some p ∨ (s'.procs p).channel = [] := by
  cases hm
  case start hq =>
    rcases update_cases h with ⟨-, hn⟩ | ⟨-, hn⟩
    · simp [offers_start hq] at hn
    · exact .inl hn
  case sendTestTry hch _ =>
    rcases update_cases h with ⟨-, hn⟩ | ⟨-, hn⟩
    · cases hn
      exact .inr hch
    · exact .inl hn
  all_goals
    have hpc := ‹s.pc t = _›
    rcases update_cases h with ⟨rfl, hn⟩ | ⟨-, hn⟩
    · first
      | cases hn; done
      | exact .inl (hpc ▸ hn)
      | (rw [offers_after] at hn; cases hn)
    · exact .inl hn

theorem queues_move (hr : Route s) (hm : Move s t s') {t' : Fin n}
    (h : (s'.pc t').queues = some p) :
    (s.pc t').queues = some p ∨ (s'.procs p).state ≠ .RECV_WAIT := by
  cases hm
  case start hq =>
    rcases update_cases h with ⟨-, hn⟩ | ⟨-, hn⟩
    · simp [queues_start hq] at hn
    · exact .inl hn
  case sendTestPut hst =>
    rcases update_cases h with ⟨-, hn⟩ | ⟨-, hn⟩
    · cases hn
      exact .inr fun hwait => hst ⟨hr.wait _ hwait, hwait⟩
    · exact .inl hn
  case sendBreak hst =>
    rcases update_cases h with ⟨-, hn⟩ | ⟨-, hn⟩
    · cases hn
      exact .inr hst
    · exact .inl hn
  all_goals
    have hpc := ‹s.pc t = _›
    rcases update_cases h with ⟨rfl, hn⟩ | ⟨-, hn⟩
    · first
      | cases hn
      | exact .inl (hpc ▸ hn)
      | (rw [queues_after] at hn; cases hn)
    · exact .inl hn

theorem Route.move (hb : Base s) (h : Route s) (hm : Move s t s') : Route s' := by
  -- the locks of `p` that the thread of a change holds
  have hint : ∀ {t' p}, (s.pc t').runs = some p → (s.pc t).holdsInt = some p → t' = t :=
    fun hr ht => hb.int _ _ _ (holdsInt_of_runs hr) ht
  refine ⟨fun p hst => ?_, fun p hst => ?_, fun t' p hrun => ?_, fun t' p hoff => ?_,
    fun t' p hq => ?_⟩
  · have hold := h.wait p
    have hc := change_move hm p
    generalize s'.procs p = x at hc hst ⊢
    cases hc with
    | same | mark => exact hold hst
    | queue hpc => exact absurd hst (h.queues t p (by rw [hpc]; rfl))
    | recvWait _ hch => exact hch
    | receive _ hch => cases (hold hst).symm.trans hch
    | run st _ hwait =>
      obtain rfl : st = .RECV_WAIT := hst
      cases hwait
    | _ => cases hst
  · have hold := h.ret p
    have hruns := h.runs t p
    have hc := change_move hm p
    generalize s'.procs p = x at hc hst ⊢
    cases hc with
    | same | mark | queue | receive => exact hold hst
    | create | resume => rfl
    | recvWait hpc | suspend hpc => exact hruns (by rw [hpc]; rfl)
    | run st _ hwait => cases hwait.symm.trans hst
    | _ => cases hst
  · rcases runs_move hm hrun with hold | hnew
    · have hret := h.runs t' p hold
      have hc := change_move hm p
      generalize s'.procs p = x at hc ⊢
      cases hc with
      | handOver hpc =>
        obtain rfl := hint hold (by rw [hpc]; rfl)
        simp [hpc, Pc.runs] at hold
      | wake _ hw =>
        obtain rfl := hint hold (holdsInt_of_wakes hw)
        exact absurd hold (not_runs_of_wakes hw)
      | create => rfl
      | resume => rfl
      | _ => exact hret
    · exact hnew
  · rcases offers_move hm hoff with hold | hnew
    · have hch := h.offers t' p hold
      have hc := change_move hm p
      generalize hx : s'.procs p = x at hc ⊢
      cases hc with
      | queue hpc =>
        obtain rfl := hb.lock _ _ _ (holdsLock_of_offers hold) (show _ = some p by rw [hpc]; rfl)
        simp [hpc, Pc.offers] at hold
      | receive _ hne => simp [hch] at hne
      | create => rfl
      | _ => exact hch
    · exact hnew
  · rcases queues_move h hm hq with hold | hnew
    · have hst := h.queues t' p hold
      have hc := change_move hm p
      generalize hx : s'.procs p = x at hc ⊢
      cases hc with
      | recvWait hpc =>
        obtain rfl := hb.lock _ _ _ (holdsLock_of_queues hold) (show _ = some p by rw [hpc]; rfl)
        simp [hpc, Pc.queues] at hold
      | run st _ hwait => rintro rfl; cases hwait
      | same | mark | queue | receive => exact hst
      | _ => nofun
    · exact hnew

theorem route_init : Route (State.init n) := by
  refine ⟨fun _ _ => rfl, fun _ _ => rfl, fun _ _ h => ?_, fun _ _ h => ?_, fun _ _ h => ?_⟩ <;>
    cases h

theorem reach_route {ok : State n → Action n → Prop} (h : Reach step ok (State.init n) s) :
    Route s :=
  h.invariant_of (fun _ => reach_base) route_init fun _ _ _ hb hr _ hs => hr.move hb (step_cases hs)

-- ---------------------------------------------------------------------------
-- Every message in its place
-- ---------------------------------------------------------------------------

/-- The messages that have reached the process `p`, in the order in which its
receives return them. -/
def State.arrived (s : State n) (p : Obj) : List Msg :=
  s.hist.received p ++ (s.procs p).ret.messages ++ (s.procs p).channel

structure Fifo (s : State n) : Prop where
  held : ∀ t p m, (s.pc t).carries = some (p, m) → s.hist.acquired p = s.arrived p ++ [m]
  free : ∀ p, (∀ t m, (s.pc t).carries ≠ some (p, m)) → s.hist.acquired p = s.arrived p
  fresh : ∀ p, s.next ≤ p → s.hist.acquired p = [] ∧ s.hist.received p = []

theorem holdsLock_of_carries {q : Pc} {m : Msg} (h : q.carries = some (p, m)) :
    q.holdsLock = some p := by
  cases q <;> first | (cases h; done) | (cases h; rfl)

theorem carries_start {q : Pc} (h : q.isStart) : q.carries = none := by
  cases q <;> first | rfl | cases h

@[simp] theorem carries_after (k : After) : k.pc.carries = none := by cases k <;> rfl

theorem mem_objs_of_carries {q : Pc} {m : Msg} (h : q.carries = some (p, m)) : p ∈ q.objs := by
  cases q <;> first | (cases h; done) | (cases h; exact List.mem_cons_self)

theorem Fifo.keep (h : Fifo s) (hacq : s'.hist.acquired = s.hist.acquired)
    (hrec : ∀ p, s.next ≤ p → s'.hist.received p = s.hist.received p)
    (harr : ∀ p, s'.arrived p = s.arrived p) (hnext : s'.next = s.next)
    (hcar : ∀ t, (s'.pc t).carries = (s.pc t).carries) : Fifo s' := by
  refine ⟨fun t p m hc => ?_, fun p hp => ?_, fun p hp => ?_⟩
  · rw [hacq, harr]
    exact h.held t p m (hcar t ▸ hc)
  · rw [hacq, harr]
    exact h.free p fun t m => hcar t ▸ hp t m
  · rw [hacq, hrec p (hnext ▸ hp)]
    exact h.fresh p (hnext ▸ hp)

theorem carries_update {q q₀ : Pc} (hpc : s.pc t = q₀) (hq : q.carries = q₀.carries) (t' : Fin n) :
    (Function.update s.pc t q t').carries = (s.pc t').carries := by
  rcases eq_or_ne t' t with rfl | ht
  · rw [Function.update_self, hpc, hq]
  · rw [Function.update_of_ne ht]

theorem arrived_update {x : Process} (hprocs : s'.procs = Function.update s.procs p x)
    (hrec : s'.hist.received = s.hist.received)
    (hret : x.ret.messages = (s.procs p).ret.messages) (hch : x.channel = (s.procs p).channel)
    (p' : Obj) : s'.arrived p' = s.arrived p' := by
  unfold State.arrived
  rw [hrec, hprocs]
  rcases eq_or_ne p' p with rfl | hp
  · rw [Function.update_self, hret, hch]
  · rw [Function.update_of_ne hp]

/-- A sender has put its message where the receives of `p` find it. -/
theorem Fifo.deliver {m : Msg} {q : Pc} (hb : Base s) (h : Fifo s)
    (hcar : (s.pc t).carries = some (p, m)) (hpc : s'.pc = Function.update s.pc t q)
    (hq : q.carries = none) (hacq : s'.hist.acquired = s.hist.acquired)
    (hrec : s'.hist.received = s.hist.received) (hnext : s'.next = s.next)
    (harr : ∀ p', s'.arrived p' = if p' = p then s.arrived p ++ [m] else s.arrived p') :
    Fifo s' := by
  have hone : ∀ t' m', (s.pc t').carries = some (p, m') → t' = t := fun t' m' hc =>
    hb.lock _ _ _ (holdsLock_of_carries hc) (holdsLock_of_carries hcar)
  refine ⟨fun t' p' m' hc => ?_, fun p' hp => ?_, fun p' hp => ?_⟩
  · rw [hpc] at hc
    rcases update_cases hc with ⟨-, hn⟩ | ⟨ht, hn⟩
    · simp [hq] at hn
    · have hp : p' ≠ p := by
        rintro rfl
        exact ht (hone t' m' hn)
      rw [hacq, harr, if_neg hp]
      exact h.held t' p' m' hn
  · rw [hacq, harr]
    split
    · next heq =>
      subst heq
      exact h.held t p' m hcar
    · next hne =>
      refine h.free p' fun t' m' hc => hp t' m' ?_
      rw [hpc]
      rcases eq_or_ne t' t with rfl | ht
      · rw [hcar] at hc
        cases hc
        exact absurd rfl hne
      · rwa [Function.update_of_ne ht]
  · rw [hacq, hrec]
    exact h.fresh p' (hnext ▸ hp)

theorem Fifo.acquire {m : Msg} {k : After} (hb : Base s) (h : Fifo s)
    (hpc : s.pc t = .sendLock p m k) (hfree : ∀ t, (s.pc t).holdsLock ≠ some p) :
    Fifo ((s.record (·.acquire p m)).goto t (.sendTest p m k)) := by
  have hnone : ∀ t m, (s.pc t).carries ≠ some (p, m) := fun t' m' hc =>
    hfree t' (holdsLock_of_carries hc)
  refine ⟨fun t' p' m' hc => ?_, fun p' hp => ?_, fun p' hp => ?_⟩
  · rcases update_cases hc with ⟨-, hn⟩ | ⟨-, hn⟩
    · cases hn
      simp only [State.goto, State.record, History.acquire, Function.update_self]
      rw [h.free _ hnone]
      rfl
    · have hp : p' ≠ p := by
        rintro rfl
        exact hnone t' m' hn
      simp only [State.goto, State.record, History.acquire, Function.update_of_ne hp]
      exact h.held t' p' m' hn
  · have hne : p' ≠ p := by
      rintro rfl
      exact hp t m (by simp [Pc.carries])
    simp only [State.goto, State.record, History.acquire, Function.update_of_ne hne]
    refine h.free p' fun t' m' hc => hp t' m' ?_
    have ht : t' ≠ t := by
      rintro rfl
      simp [hpc, Pc.carries] at hc
    simpa [ht] using hc
  · have hlt := hb.table.objs t p (by simp [hpc, Pc.objs])
    have hne : p' ≠ p := by
      rintro rfl
      exact absurd hlt (Nat.not_lt.mpr hp)
    simp only [State.goto, State.record, History.acquire, Function.update_of_ne hne]
    exact h.fresh p' hp

theorem Fifo.create {id pid nodeId parentId : Nat} (hb : Base s) (h : Fifo s)
    (hpc : s.pc t = .spawn id parentId) :
    Fifo ((s.createNode pid nodeId parentId).goto t (.spawnEntry s.next)) := by
  have hcar := carries_update (s := s) (q := .spawnEntry s.next) hpc rfl
  have harr : ∀ p, p ≠ s.next →
      ((s.createNode pid nodeId parentId).goto t (.spawnEntry s.next)).arrived p = s.arrived p := by
    intro p hp
    simp [State.arrived, hp]
  refine ⟨fun t' p m hc => ?_, fun p hp => ?_, fun p hp => h.fresh p (Nat.le_of_succ_le hp)⟩
  · replace hc := (hcar t').symm.trans hc
    have hlt := hb.table.objs t' p (mem_objs_of_carries hc)
    rw [harr p hlt.ne]
    exact h.held t' p m hc
  · rcases eq_or_ne p s.next with rfl | hne
    · obtain ⟨hacq, hrec⟩ := h.fresh _ le_rfl
      simp [State.arrived, hacq, hrec, Ret.messages]
    · rw [harr p hne]
      exact h.free p fun t' m hc => hp t' m ((hcar t').trans hc)

theorem Fifo.move (hb : Base s) (hr : Route s) (h : Fifo s) (hm : Move s t s') : Fifo s' := by
  cases hm
  case start hidle hq =>
    exact h.keep rfl (fun _ _ => rfl) (fun _ => rfl) rfl (carries_update hidle (carries_start hq))
  case sendLock hpc hfree => exact h.acquire hb hpc hfree
  case spawn hpc _ _ => exact h.create hb hpc
  case sendHand p m k hpc hst =>
    refine h.deliver hb (by rw [hpc]; rfl) rfl (carries_after k) rfl rfl rfl fun p' => ?_
    have hch := hr.wait p hst
    have hret := hr.ret p (by simp [hst, PState.waits])
    rcases eq_or_ne p' p with rfl | hp
    · simp [State.arrived, hch, hret, Ret.messages]
    · simp [State.arrived, hp]
  case sendPut p m k hpc =>
    refine h.deliver hb (by rw [hpc]; rfl) rfl (carries_after k) rfl rfl rfl fun p' => ?_
    rcases eq_or_ne p' p with rfl | hp
    · simp [State.arrived]
    · simp [State.arrived, hp]
  case timerBody hpc _ hst | answerBody hpc hst | respBody hpc hst =>
    exact h.keep rfl (fun _ _ => rfl) (arrived_update rfl rfl (by rw [hr.ret _ hst]; rfl) rfl) rfl
      (carries_update hpc rfl)
  case resume p hpc _ =>
    have hlt := hb.table.objs t p (by simp [hpc, Pc.objs])
    refine h.keep rfl (fun p' hp => ?_) (fun p' => ?_) rfl (carries_update hpc rfl)
    · simp [History.receive, (hlt.trans_le hp).ne']
    · rcases eq_or_ne p' p with rfl | hp
      · simp [State.arrived, History.receive, Ret.messages]
      · simp [State.arrived, History.receive, hp]
  case recvGet p m rest hpc hch =>
    have hlt := hb.table.objs t p (by simp [hpc, Pc.objs])
    have hret := hr.runs t p (by rw [hpc]; rfl)
    refine h.keep rfl (fun p' hp => ?_) (fun p' => ?_) rfl (carries_update hpc rfl)
    · simp [History.receive, (hlt.trans_le hp).ne']
    · rcases eq_or_ne p' p with rfl | hp
      · simp [State.arrived, History.receive, Ret.messages, hch, hret]
      · simp [State.arrived, History.receive, hp]
  all_goals
    have hpc := ‹s.pc t = _›
    first
    | exact h.keep rfl (fun _ _ => rfl) (fun _ => rfl) rfl (carries_update hpc rfl)
    | exact h.keep rfl (fun _ _ => rfl) (fun _ => rfl) rfl (carries_update hpc (carries_after _))
    | exact h.keep rfl (fun _ _ => rfl) (arrived_update rfl rfl rfl rfl) rfl
        (carries_update hpc rfl)

theorem fifo_init : Fifo (State.init n) := by
  refine ⟨fun _ _ _ h => ?_, fun _ _ => rfl, fun _ _ => ⟨rfl, rfl⟩⟩
  cases h

theorem reach_fifo {ok : State n → Action n → Prop} (h : Reach step ok (State.init n) s) :
    Fifo s :=
  h.invariant_of (J := fun s => Base s ∧ Route s) (fun _ hs => ⟨reach_base hs, reach_route hs⟩)
    fifo_init fun _ _ _ hb hf _ hs => hf.move hb.1 hb.2 (step_cases hs)

/-- What the receives of a process have returned is a prefix of what its
senders brought; the rest is on its stack, in its channel, or with the sender
that holds its lock. -/
theorem mailbox_fifo (h : Reach step Free (State.init n) s) (p : Obj) :
    s.hist.received p <+: s.hist.acquired p ∧
      ∃ carried, s.hist.acquired p =
          s.hist.received p ++ (s.procs p).ret.messages ++ (s.procs p).channel ++ carried ∧
        (carried = [] ∨ ∃ t m, (s.pc t).carries = some (p, m) ∧ carried = [m]) := by
  have hf := reach_fifo h
  obtain ⟨carried, hacq, hcar⟩ : ∃ carried, s.hist.acquired p = s.arrived p ++ carried ∧
      (carried = [] ∨ ∃ t m, (s.pc t).carries = some (p, m) ∧ carried = [m]) := by
    by_cases hp : ∃ t m, (s.pc t).carries = some (p, m)
    · obtain ⟨t, m, hc⟩ := hp
      exact ⟨[m], hf.held t p m hc, .inr ⟨t, m, hc, rfl⟩⟩
    · push Not at hp
      exact ⟨[], by simpa using hf.free p hp, .inl rfl⟩
  refine ⟨⟨(s.procs p).ret.messages ++ (s.procs p).channel ++ carried, ?_⟩, carried, hacq, hcar⟩
  rw [hacq, State.arrived]
  simp only [List.append_assoc]

-- ---------------------------------------------------------------------------
-- Schedules
-- ---------------------------------------------------------------------------

def go (t : Fin n) (k : Nat) : List (Action n) :=
  List.replicate k (.run t .go)

/-- Thread `t` spawns a process and puts it into the run queue. -/
def spawned (t : Fin n) (parentId : Pid) : List (Action n) :=
  .call t (.spawn 0 parentId) :: go t 2

/-- Thread `t` takes a process from the run queue into `Resume`. -/
def resumed (t : Fin n) : List (Action n) :=
  .call t .get :: go t 1

theorem reach_schedule (as : List (Action n)) (P : State n → Bool)
    (h : (Library.run step (State.init n) as).any P = true) :
    ∃ s, Reach step Free (State.init n) s ∧ P s = true :=
  reach_of_run as P h

theorem reach_guarded (ok : State n → Action n → Bool) (as : List (Action n)) (P : State n → Bool)
    (h : (Library.runIf step (fun s a => ok s a) (State.init n) as).any P = true) :
    ∃ s, Reach step (fun s a => ok s a) (State.init n) s ∧ P s = true :=
  reach_of_runIf as P h

/-- A message handed over, then one through the channel. -/
theorem mailbox_fifo_two : ∃ s : State 2, Reach step Free (State.init 2) s ∧
    s.hist.received 0 = [.app [1]] ∧ (s.procs 0).channel = [.app [2]] ∧
    s.hist.received 0 <+: s.hist.acquired 0 := by
  obtain ⟨s, hs, hp⟩ := reach_schedule
    (spawned 0 0 ++ resumed 0 ++ [Action.run 0 (.recv false)] ++ go 0 4 ++
      [Action.call 1 (.sendMsg 0 (.app [1]))] ++ go 1 5 ++ [Action.call 1 (.sendMsg 0 (.app [2]))] ++ go 1 4 ++
      resumed 0)
    (fun s : State 2 => s.hist.received 0 == [.app [1]] && (s.procs 0).channel == [.app [2]])
    (by decide +kernel)
  simp only [Bool.and_eq_true, beq_iff_eq] at hp
  exact ⟨s, hs, hp.1, hp.2, (mailbox_fifo hs 0).1⟩

end GalaLua.GLR
