import GalaLua.GLR.Lifetime

/-!
# References to processes

The run queue, the workers and the threads that read the process table hold
pointers to processes. They refer to living processes only, if processes die
once, nobody else has a process when the test of `Destory` passes, and nobody
wakes it before it is deleted.
-/

namespace GalaLua.GLR

open Library (Exclusive Reach Free)

variable {n : Nat} {s s' : State n} {t : Fin n} {p : Obj} {a : Action n}

-- ---------------------------------------------------------------------------
-- Living processes
-- ---------------------------------------------------------------------------

def State.live (s : State n) (p : Obj) : Prop :=
  s.nodeMap (s.procs p).id = some p

def After.node : After → Option Obj
  | .done => none
  | .delete _ _ node => node

/-- The process that a worker has from `Get` to the end of its iteration. -/
def Pc.node : Pc → Option Obj
  | .got p | .run p | .recvLock p _ | .recvTest p _ | .recvGet p | .int p | .intDone p _ | .leave p
  | .stop p | .test p _ | .put p => some p
  | .destroy _ node | .destroyTest _ _ node | .delete _ _ node => node
  | .send _ _ k | .sendLock _ _ k | .sendTest _ _ k | .sendTry _ _ k | .sendHand _ _ k
  | .sendPut _ _ k => k.node
  | _ => none

theorem node_after (k : After) : k.pc.node = k.node := by cases k <;> rfl

theorem node_start {q : Pc} (h : q.isStart) : q.node = none := by
  cases q with
  | send pid m k => cases k <;> first | rfl | cases h
  | destroy pid node => cases node <;> first | rfl | cases h
  | _ => first | rfl | cases h

theorem node_of_runs {q : Pc} (h : q.runs = some p) : q.node = some p := by
  cases q <;> first | exact h | cases h

theorem live_of_nodeMap (hb : Base s) {pid : Pid} (h : s.nodeMap pid = some p) : s.live p := by
  unfold State.live
  rw [(hb.table.node h).2.1, h]

/-- Only a deletion takes a process out of the table. -/
theorem live_move (hb : Base s) (hm : Move s t s') (h : s.live p) :
    s'.live p ∨ ∃ p' pid node, s.pc t = .delete p' pid node := by
  have hlt := (hb.table.node h).1
  have hid := id_move hm hlt
  cases hm
  case spawn hpc _ hc =>
    obtain ⟨hnone, -⟩ := choosePid_spec hb.table (hb.table.bound _ _ _ hpc) hc
    left
    unfold State.live
    rw [hid]
    simp only [State.goto, State.createNode]
    rw [Function.update_of_ne]
    · exact h
    · intro heq
      unfold State.live at h
      simp [heq, hnone] at h
  case delete hpc _ _ => exact .inr ⟨_, _, _, hpc⟩
  all_goals
    left
    unfold State.live
    rw [hid]
    exact h

/-- A worker gets a process from the run queue, and keeps it to the end of its
iteration. -/
theorem node_move (hm : Move s t s') {t' : Fin n} (h : (s'.pc t').node = some p) :
    (s.pc t').node = some p ∨ t' = t ∧ ∃ rest, s.scheQueue = p :: rest ∧ s'.scheQueue = rest := by
  cases hm
  case start hq =>
    rcases update_cases h with ⟨-, hn⟩ | ⟨-, hn⟩
    · simp [node_start hq] at hn
    · exact .inl hn
  case get rest hidle hq =>
    rcases update_cases h with ⟨ht, hn⟩ | ⟨-, hn⟩
    · cases hn
      exact .inr ⟨ht, rest, hq, rfl⟩
    · exact .inl hn
  all_goals
    have hpc := ‹s.pc t = _›
    rcases update_cases h with ⟨rfl, hn⟩ | ⟨-, hn⟩
    · first
      | cases hn; done
      | exact .inl (hpc ▸ hn)
      | exact .inl (hpc ▸ (node_after _).symm.trans hn)
    · exact .inl hn

theorem reads_move (hm : Move s t s') {t' : Fin n} (h : (s'.pc t').reads = some p) :
    (s.pc t').reads = some p ∨ (s.pc t').node = some p ∨ ∃ pid, s.nodeMap pid = some p := by
  cases hm
  case start hq =>
    rcases update_cases h with ⟨-, hn⟩ | ⟨-, hn⟩
    · simp [(start_holds hq).2.2] at hn
    · exact .inl hn
  case sendSome hmap | timerFind hmap _ | answerFind hmap _ | respFind hmap =>
    rcases update_cases h with ⟨-, hn⟩ | ⟨-, hn⟩
    · cases hn
      exact .inr (.inr ⟨_, hmap⟩)
    · exact .inl hn
  all_goals
    have hpc := ‹s.pc t = _›
    rcases update_cases h with ⟨rfl, hn⟩ | ⟨-, hn⟩
    · first
      | cases hn; done
      | exact .inl (hpc ▸ hn)
      | exact .inr (.inl (hpc ▸ hn))
      | (rw [reads_after] at hn; cases hn)
    · exact .inl hn

theorem spawnEntry_after {k : After} (h : k.pc = .spawnEntry p) : False := by
  cases k <;> cases h

theorem spawnEntry_move (hm : Move s t s') {t' : Fin n} (h : s'.pc t' = .spawnEntry p) :
    s.pc t' = .spawnEntry p ∨
      t' = t ∧ p = s.next ∧ s'.live p ∧ (s'.procs p).state = .CREATED ∧
        s'.scheQueue = s.scheQueue := by
  have hcases : ∀ q : Pc, Function.update s.pc t q t' = .spawnEntry p →
      t' = t ∧ q = .spawnEntry p ∨ s.pc t' = .spawnEntry p := by
    intro q hq
    rcases update_cases (f := id) hq with hn | ⟨-, hn⟩
    · exact .inl hn
    · exact .inr hn
  cases hm
  case start hq =>
    rcases hcases _ h with ⟨-, hn⟩ | hn
    · simp [hn, Pc.isStart] at hq
    · exact .inl hn
  case spawn =>
    rcases hcases _ h with ⟨ht, hn⟩ | hn
    · cases hn
      exact .inr ⟨ht, rfl, by simp [State.live], by simp, rfl⟩
    · exact .inl hn
  all_goals
    rcases hcases _ h with ⟨-, hn⟩ | hn
    · first
      | cases hn
      | exact (spawnEntry_after hn).elim
    · exact .inl hn

/-- The process that the next step of a thread wakes. -/
def State.wakes (s : State n) (t : Fin n) : Option Obj :=
  match s.pc t with
  | .sendHand p _ _ => if (s.procs p).state = .RECV_WAIT then some p else none
  | .timerBody p o =>
    if (s.procs p).tick = o.tick ∧ (s.procs p).state.waits then some p else none
  | .answerBody p _ _ | .respBody p _ _ _ => if (s.procs p).state.waits then some p else none
  | _ => none

theorem queue_move (hm : Move s t s') (h : p ∈ s'.scheQueue) :
    p ∈ s.scheQueue ∨ s.pc t = .put p ∨ s.pc t = .spawnEntry p ∨
      s.wakes t = some p ∧ (s.pc t).reads = some p ∧ (s.procs p).state.waits := by
  have hput : ∀ p', p ∈ s.scheQueue ++ [p'] → p ∈ s.scheQueue ∨ p' = p := by
    intro p' hp
    rcases List.mem_append.mp hp with hp | hp
    · exact .inl hp
    · exact .inr (List.mem_singleton.mp hp).symm
  cases hm
  case get hidle hq =>
    left
    rw [hq]
    exact List.mem_cons_of_mem _ h
  case put hpc =>
    rcases hput _ h with hold | rfl
    · exact .inl hold
    · exact .inr (.inl hpc)
  case spawnStart hpc =>
    rcases hput _ h with hold | rfl
    · exact .inl hold
    · exact .inr (.inr (.inl hpc))
  case sendHand hpc hst =>
    rcases hput _ h with hold | rfl
    · exact .inl hold
    · exact .inr (.inr (.inr ⟨by simp [State.wakes, hpc, hst], by rw [hpc]; rfl, by rw [hst]; rfl⟩))
  case timerBody hpc htick hst =>
    rcases hput _ h with hold | rfl
    · exact .inl hold
    · exact .inr (.inr (.inr ⟨by simp [State.wakes, hpc, htick, hst], by rw [hpc]; rfl, hst⟩))
  case answerBody hpc hst | respBody hpc hst =>
    rcases hput _ h with hold | rfl
    · exact .inl hold
    · exact .inr (.inr (.inr ⟨by simp [State.wakes, hpc, hst], by rw [hpc]; rfl, hst⟩))
  all_goals exact .inl h

/-- When the test of `Destory` passes, no other thread has the process and it is not
queued; and nobody wakes a doomed process. -/
def apart (s : State n) (a : Action n) : Bool :=
  (match s.pc a.thread with
    | .destroyTest p _ _ =>
      !(s.procs p).state.mortal ||
        decide (p ∉ s.scheQueue) && decide (∀ t, t ≠ a.thread → (s.pc t).node ≠ some p)
    | _ => true) &&
    match s.wakes a.thread with
    | some p => decide (∀ t, (s.pc t).dooms.all (·.1 != p))
    | none => true

structure Kept (s : State n) : Prop where
  queue : ∀ p ∈ s.scheQueue, s.live p
  node : ∀ t p, (s.pc t).node = some p → s.live p
  reads : ∀ t p, (s.pc t).reads = some p → s.live p
  entry : ∀ t p, s.pc t = .spawnEntry p → s.live p ∧ (s.procs p).state = .CREATED ∧
    p ∉ s.scheQueue ∧ (∀ t', (s.pc t').node ≠ some p) ∧ ∀ t', s.pc t' = .spawnEntry p → t' = t
  doom : ∀ t p pid, (s.pc t).dooms = some (p, pid) → p ∉ s.scheQueue ∧
    (∀ t', t' ≠ t → (s.pc t').node ≠ some p) ∧ ∀ t', s.pc t' ≠ .spawnEntry p

theorem kept_init : Kept (State.init n) := by
  refine ⟨fun _ h => ?_, fun _ _ h => ?_, fun _ _ h => ?_, fun _ _ h => ?_, fun _ _ _ h => ?_⟩ <;>
    cases h

theorem mem_objs_of_node {q : Pc} (h : q.node = some p) : p ∈ q.objs := by
  have hafter : ∀ k : After, k.node = some p → p ∈ k.objs := by
    intro k hk
    cases k with
    | done => cases hk
    | delete p' pid node => exact List.mem_cons_of_mem _ (by simp [show node = some p from hk])
  cases q with
  | send _ _ k => exact hafter k h
  | sendLock _ _ k | sendTest _ _ k | sendTry _ _ k | sendHand _ _ k | sendPut _ _ k =>
    exact List.mem_cons_of_mem _ (hafter k h)
  | destroy _ node => simp [Pc.objs, show node = some p from h]
  | destroyTest _ _ node | delete _ _ node =>
    exact List.mem_cons_of_mem _ (by simp [show node = some p from h])
  | _ => first | (cases h; exact List.mem_singleton_self p) | cases h

/-- Nobody but its spawner deals with a process before it is queued. -/
theorem Kept.entry_move (hb : Base s) (h : Kept s) (hm : Move s t s')
    (hlive : ∀ p, s.live p → s'.live p) {t' : Fin n} (hpc : s'.pc t' = .spawnEntry p) :
    s'.live p ∧ (s'.procs p).state = .CREATED ∧ p ∉ s'.scheQueue ∧
      (∀ t'', (s'.pc t'').node ≠ some p) ∧ ∀ t'', s'.pc t'' = .spawnEntry p → t'' = t' := by
  have hobjs : ∀ t'', s.next ∉ (s.pc t'').objs := fun t'' hmem =>
    absurd (hb.table.objs t'' _ hmem) (lt_irrefl _)
  rcases spawnEntry_move hm hpc with hold | ⟨rfl, rfl, hnew, hst, hq⟩
  · obtain ⟨h₁, h₂, h₃, h₄, h₅⟩ := h.entry t' p hold
    have hstate : (s'.procs p).state = .CREATED := by
      have hc := change_move hm p
      generalize s'.procs p = x at hc ⊢
      cases hc with
      | create => rfl
      | handOver _ hst => simp [h₂] at hst
      | wake _ _ hst => simp [h₂, PState.waits] at hst
      | resume hgot => exact absurd (by rw [hgot]; rfl) (h₄ t)
      | recvWait hr => exact absurd (by rw [hr]; rfl) (h₄ t)
      | suspend hr => exact absurd (by rw [hr]; rfl) (h₄ t)
      | yield hr => exact absurd (by rw [hr]; rfl) (h₄ t)
      | run _ hr => exact absurd (node_of_runs hr) (h₄ t)
      | _ => exact h₂
    refine ⟨hlive p h₁, hstate, fun hmem => ?_, fun t'' hnode => ?_, fun t'' hpc'' => ?_⟩
    · rcases queue_move hm hmem with hq | hput | hent | ⟨-, -, hw⟩
      · exact h₃ hq
      · exact h₄ t (by rw [hput]; rfl)
      · -- the spawner itself has just queued it
        obtain rfl := h₅ t hent
        cases hm <;> simp_all
      · simp [h₂, PState.waits] at hw
    · rcases node_move hm hnode with hn | ⟨-, rest, hq, -⟩
      · exact h₄ t'' hn
      · exact h₃ (by rw [hq]; exact List.mem_cons_self)
    · rcases spawnEntry_move hm hpc'' with hent | ⟨-, rfl, -⟩
      · exact h₅ t'' hent
      · exact absurd (by rw [hold]; exact List.mem_singleton_self _) (hobjs t')
  · refine ⟨hnew, hst, fun hmem => ?_, fun t'' hnode => ?_, fun t'' hpc'' => ?_⟩
    · rw [hq] at hmem
      exact absurd (hb.table.queue _ hmem) (lt_irrefl _)
    · rcases node_move hm hnode with hn | ⟨-, rest, hq, -⟩
      · exact hobjs t'' (mem_objs_of_node hn)
      · exact absurd (hb.table.queue _ (by rw [hq]; exact List.mem_cons_self)) (lt_irrefl _)
    · rcases spawnEntry_move hm hpc'' with hent | ⟨rfl, -⟩
      · exact absurd (by rw [hent]; exact List.mem_singleton_self _) (hobjs t'')
      · rfl

theorem Kept.doom_move (hb : Base s) (h : Kept s) (ha : apart s a) (hm : Move s a.thread s')
    {t' : Fin n} {pid : Pid} (hd : (s'.pc t').dooms = some (p, pid)) :
    p ∉ s'.scheQueue ∧ (∀ t'', t'' ≠ t' → (s'.pc t'').node ≠ some p) ∧
      ∀ t'', s'.pc t'' ≠ .spawnEntry p := by
  simp only [apart, Bool.and_eq_true] at ha
  obtain ⟨htest, hwake⟩ := ha
  rcases dooms_move hm hd with hold | ⟨rfl, node, hpc, hst⟩
  · obtain ⟨h₁, h₂, h₃⟩ := h.doom t' p pid hold
    refine ⟨fun hmem => ?_, fun t'' hne hnode => ?_, fun t'' hent => ?_⟩
    · rcases queue_move hm hmem with hq | hput | hent | ⟨hw, -⟩
      · exact h₁ hq
      · rcases eq_or_ne a.thread t' with rfl | hne
        · simp [hput, Pc.dooms] at hold
        · exact h₂ a.thread hne (by rw [hput]; rfl)
      · exact h₃ a.thread hent
      · simp only [hw, decide_eq_true_eq] at hwake
        have := hwake t'
        simp [hold] at this
    · rcases node_move hm hnode with hn | ⟨-, rest, hq, -⟩
      · exact h₂ t'' hne hn
      · exact h₁ (by rw [hq]; exact List.mem_cons_self)
    · rcases spawnEntry_move hm hent with hent | ⟨-, rfl, -⟩
      · exact h₃ t'' hent
      · exact absurd (hb.table.objs t' _ (mem_objs_of_dooms hold)) (lt_irrefl _)
  · simp only [hpc, hst, Bool.not_true, Bool.false_or, Bool.and_eq_true, decide_eq_true_eq] at htest
    refine ⟨fun hmem => ?_, fun t'' hne hnode => ?_, fun t'' hent => ?_⟩
    · rcases queue_move hm hmem with hq | hput | hent | ⟨hw, -⟩
      · exact htest.1 hq
      · simp [hpc] at hput
      · simp [hpc] at hent
      · simp [State.wakes, hpc] at hw
    · rcases node_move hm hnode with hn | ⟨rfl, -⟩
      · exact htest.2 t'' hne hn
      · exact hne rfl
    · rcases spawnEntry_move hm hent with hent | ⟨-, rfl, -⟩
      · rw [(h.entry t'' p hent).2.1] at hst
        cases hst
      · have := hb.table.objs a.thread s.next (by simp [hpc, Pc.objs])
        exact absurd this (lt_irrefl _)

theorem Kept.keep (hb : Base s) (h : Kept s) (ha : apart s a) (hm : Move s a.thread s')
    (hlive : ∀ p, s.live p → s'.live p) : Kept s' := by
  refine ⟨fun p hp => hlive p ?_, fun t' p hnode => hlive p ?_, fun t' p hread => hlive p ?_,
    fun t' p hpc => h.entry_move hb hm hlive hpc, fun t' p pid hd => h.doom_move hb ha hm hd⟩
  · rcases queue_move hm hp with hq | hput | hent | ⟨-, hr, -⟩
    · exact h.queue p hq
    · exact h.node a.thread p (by rw [hput]; rfl)
    · exact (h.entry a.thread p hent).1
    · exact h.reads a.thread p hr
  · rcases node_move hm hnode with hn | ⟨-, rest, hq, -⟩
    · exact h.node t' p hn
    · exact h.queue p (by rw [hq]; exact List.mem_cons_self)
  · rcases reads_move hm hread with hr | hn | ⟨pid, hmap⟩
    · exact h.reads t' p hr
    · exact h.node t' p hn
    · exact live_of_nodeMap hb hmap

/-- A deletion takes out the doomed process, which nobody else has. -/
theorem Kept.delete {pid : Pid} {node : Option Obj} (hd : Doomed s) (h : Kept s)
    (hpc : s.pc t = .delete p pid node) (hfree : ∀ t, (s.pc t).reads = none) :
    Kept ((s.remove p pid).goto t .idle) := by
  have hdoom : (s.pc t).dooms = some (p, pid) := by rw [hpc]; rfl
  obtain ⟨hmap, -⟩ := hd.table t p pid hdoom
  obtain ⟨hqueue, hnode, hentry⟩ := h.doom t p pid hdoom
  have hlive : ∀ p', p' ≠ p → s.live p' → ((s.remove p pid).goto t .idle).live p' := by
    intro p' hne hl
    unfold State.live at hl ⊢
    simp only [State.goto, State.remove]
    rw [Function.update_of_ne, hl]
    rintro heq
    rw [heq, hmap] at hl
    exact hne (Option.some.inj hl).symm
  have hold : ∀ {β : Type} (f : Pc → Option β) {t' x}, f .idle = none →
      f (Function.update s.pc t .idle t') = some x → t' ≠ t ∧ f (s.pc t') = some x := by
    intro β f t' x hf hx
    rcases update_cases hx with ⟨-, hn⟩ | hn
    · simp [hf] at hn
    · exact hn
  have hspawn : ∀ {t' p'}, Function.update s.pc t .idle t' = .spawnEntry p' →
      s.pc t' = .spawnEntry p' := by
    intro t' p' hp
    rcases update_cases (f := id) hp with ⟨-, hn⟩ | ⟨-, hn⟩
    · cases hn
    · exact hn
  refine ⟨fun p' hp => hlive p' ?_ (h.queue p' hp), fun t' p' hn => ?_, fun t' p' hr => ?_,
    fun t' p' hp => ?_, fun t' p' pid' hdm => ?_⟩
  · rintro rfl
    exact hqueue hp
  · obtain ⟨hne, hn'⟩ := hold Pc.node rfl hn
    refine hlive p' ?_ (h.node t' p' hn')
    rintro rfl
    exact hnode t' hne hn'
  · obtain ⟨-, hr⟩ := hold Pc.reads rfl hr
    simp [hfree t'] at hr
  · have hp' := hspawn hp
    obtain ⟨h₁, h₂, h₃, h₄, h₅⟩ := h.entry t' p' hp'
    refine ⟨hlive p' ?_ h₁, h₂, h₃, fun t'' hn => h₄ t'' (hold Pc.node rfl hn).2,
      fun t'' hp'' => h₅ t'' (hspawn hp'')⟩
    rintro rfl
    exact hentry t' hp'
  · obtain ⟨-, hdm⟩ := hold Pc.dooms rfl hdm
    obtain ⟨h₁, h₂, h₃⟩ := h.doom t' p' pid' hdm
    exact ⟨h₁, fun t'' hne hn => h₂ t'' hne (hold Pc.node rfl hn).2, fun t'' hp => h₃ t'' (hspawn hp)⟩

theorem Kept.move (hb : Base s) (hd : Doomed s) (h : Kept s) (ha : apart s a)
    (hm : Move s a.thread s') : Kept s' := by
  by_cases hdel : ∃ p pid node, s.pc a.thread = .delete p pid node
  · obtain ⟨p, pid, node, hpc⟩ := hdel
    cases hm
    case delete hpc' hfree _ => exact h.delete hd hpc' hfree
    all_goals simp_all
  · exact h.keep hb ha hm fun p hp => (live_move hb hm hp).resolve_right hdel

theorem reach_kept (h : Reach step (fun s a => unique s a && apart s a) (State.init n) s) :
    Kept s := by
  refine h.invariant_of (J := fun s => Base s ∧ Doomed s) (fun s hs => ⟨reach_base hs, ?_⟩) kept_init
    fun s a s' hb hk ha hs => hk.move hb.1 hb.2 (Bool.and_eq_true .. ▸ ha).2 (step_cases hs)
  exact reach_doomed (hs.mono fun s a ha => (Bool.and_eq_true .. ▸ ha).1)

/-- If besides no other thread has a process when the test of `Destory` passes for
it, and nobody wakes it before it is deleted, the run queue and the workers refer
to living processes only. -/
theorem queue_alive (h : Reach step (fun s a => unique s a && apart s a) (State.init n) s)
    (hp : p ∈ s.scheQueue ∨ ∃ t, (s.pc t).node = some p) : s.live p ∧ p ∉ s.hist.deleted := by
  have hk := reach_kept h
  have hd := reach_doomed (h.mono fun s a ha => (Bool.and_eq_true .. ▸ ha).1)
  have hlive : s.live p := by
    rcases hp with hq | ⟨t, ht⟩
    · exact hk.queue p hq
    · exact hk.node t p ht
  exact ⟨hlive, fun hdel => (hd.gone p hdel).2 _ hlive⟩

/-- A process that waits is killed while another one is queued. -/
theorem queue_alive_kill : ∃ s : State 2,
    Reach step (fun s a => unique s a && apart s a) (State.init 2) s ∧ s.hist.deleted = [0] ∧
    s.scheQueue = [1] ∧ s.live 1 := by
  obtain ⟨s, hs, hp⟩ := reach_guarded (fun s a => unique s a && apart s a)
    (spawned 0 5 ++ resumed 0 ++ [Action.run 0 (.recv false)] ++ go 0 4 ++ spawned 0 0 ++
      [Action.call 1 (.kill 0)] ++ go 1 4)
    (fun s : State 2 => s.hist.deleted == [0] && s.scheQueue == [1]) (by decide +kernel)
  simp only [Bool.and_eq_true, beq_iff_eq] at hp
  exact ⟨s, hs, hp.1, hp.2, (queue_alive hs (.inl (by simp [hp.2]))).1⟩

/-- `Destory` finds a process waiting; before it deletes it, a message wakes it. -/
theorem queue_dangling : ∃ s : State 3, Reach step Free (State.init 3) s ∧ 0 ∈ s.scheQueue ∧
    ¬s.live 0 ∧ 0 ∈ s.hist.deleted := by
  obtain ⟨s, hs, hp⟩ := reach_schedule
    (spawned 0 0 ++ resumed 0 ++ [Action.run 0 (.recv false)] ++ go 0 4 ++ [Action.call 1 (.kill 0)] ++ go 1 2 ++
      [Action.call 2 (.sendMsg 0 (.app []))] ++ go 2 5 ++ go 1 5)
    (fun s : State 3 => s.scheQueue == [0] && s.hist.deleted == [0] &&
      s.nodeMap (s.procs 0).id == none) (by decide +kernel)
  simp only [Bool.and_eq_true, beq_iff_eq] at hp
  obtain ⟨⟨hq, hdel⟩, hmap⟩ := hp
  exact ⟨s, hs, by simp [hq], by simp [State.live, hmap], by simp [hdel]⟩

end GalaLua.GLR
