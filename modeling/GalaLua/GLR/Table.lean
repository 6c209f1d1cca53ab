import GalaLua.GLR.Steps
import GalaLua.Library.Exclusive

/-!
# Locks and the process table

What holds in every run whatever the schedule: a lock has one holder, every
object that a thread, the run queue or the process table refers to has been
created, the table has a process under its own pid, and `CreateNode` makes a
process in an empty slot.
-/

namespace GalaLua.GLR

open Library (Exclusive Reach)

variable {n : Nat} {s s' : State n} {t : Fin n}

-- ---------------------------------------------------------------------------
-- Locks
-- ---------------------------------------------------------------------------

theorem holdsInt_after (k : After) : k.pc.holdsInt = none := by cases k <;> rfl

theorem holdsLock_after (k : After) : k.pc.holdsLock = none := by cases k <;> rfl

theorem reads_after (k : After) : k.pc.reads = none := by cases k <;> rfl

theorem start_holds {q : Pc} (h : q.isStart) :
    q.holdsInt = none ∧ q.holdsLock = none ∧ q.reads = none := by
  cases q <;> first | exact ⟨rfl, rfl, rfl⟩ | cases h

theorem exclusiveInt_move (h : Exclusive Pc.holdsInt s.pc) (hm : Move s t s') :
    Exclusive Pc.holdsInt s'.pc := by
  cases hm
  case start hq => exact h.keep ‹s.pc t = _› (.inl (start_holds hq).1)
  all_goals
    have hpc := ‹s.pc t = _›
    first
    | exact h.keep hpc (.inl rfl)
    | exact h.keep hpc (.inr rfl)
    | exact h.keep hpc (.inl (holdsInt_after _))
    | exact h.acquire ‹_› rfl

theorem exclusiveLock_move (h : Exclusive Pc.holdsLock s.pc) (hm : Move s t s') :
    Exclusive Pc.holdsLock s'.pc := by
  cases hm
  case start hq => exact h.keep ‹s.pc t = _› (.inl (start_holds hq).2.1)
  all_goals
    have hpc := ‹s.pc t = _›
    first
    | exact h.keep hpc (.inl rfl)
    | exact h.keep hpc (.inr rfl)
    | exact h.keep hpc (.inl (holdsLock_after _))
    | exact h.acquire ‹_› rfl

-- ---------------------------------------------------------------------------
-- References
-- ---------------------------------------------------------------------------

def After.objs : After → List Obj
  | .done => []
  | .delete p _ node => p :: node.toList

/-- The objects a position refers to. -/
def Pc.objs : Pc → List Obj
  | .send _ _ k => k.objs
  | .sendLock p _ k | .sendTest p _ k | .sendTry p _ k | .sendHand p _ k | .sendPut p _ k =>
    p :: k.objs
  | .timerInt p _ | .timerLock p _ | .timerBody p _ | .answerInt p _ _ | .answerLock p _ _
  | .answerBody p _ _ | .respInt p _ _ _ | .respBody p _ _ _ | .spawnEntry p | .got p | .run p
  | .recvLock p _ | .recvTest p _ | .recvGet p | .int p | .intDone p _ | .leave p | .stop p
  | .test p _ | .put p => [p]
  | .destroy _ node => node.toList
  | .destroyTest p _ node | .delete p _ node => p :: node.toList
  | .idle | .timer .. | .answer .. | .resp .. | .spawn .. => []

structure Table (s : State n) : Prop where
  node : ∀ {pid p}, s.nodeMap pid = some p → p < s.next ∧ (s.procs p).id = pid ∧ pid < MAX_PROCESS_ID
  objs : ∀ t, ∀ p ∈ (s.pc t).objs, p < s.next
  queue : ∀ p ∈ s.scheQueue, p < s.next
  unused : ∀ pid, s.nodeId ≤ pid → s.nodeMap pid = none ∨ MAX_PROCESS_ID ≤ pid
  reserved : s.nodeId = 0 ∨ RESERVED_PID < s.nodeId
  bound : ∀ t id parentId, s.pc t = .spawn id parentId → id < RESERVED_PID

theorem searchFree_spec {a b pid : Nat} (h : s.searchFree a b = some pid) :
    s.nodeMap pid = none ∧ pid < max a b := by
  have hmem := List.mem_of_find?_eq_some h
  have hnone := List.find?_some h
  rw [List.mem_range'_1] at hmem
  exact ⟨by simpa using hnone, by omega⟩

/-- `CreateNode` takes an empty slot, and `NodeId` stays ahead of the slots it
has given out. -/
theorem choosePid_spec {id pid nodeId : Nat} (h : Table s) (hid : id < RESERVED_PID)
    (hc : s.choosePid id = some (pid, nodeId)) :
    s.nodeMap pid = none ∧ pid < MAX_PROCESS_ID ∧
      (nodeId = s.nodeId ∧ pid < State.nextNodeId nodeId ∨ MAX_PROCESS_ID ≤ nodeId) := by
  unfold RESERVED_PID at hid
  have hres := h.reserved
  unfold RESERVED_PID at hres
  unfold State.choosePid at hc
  unfold State.nextNodeId RESERVED_PID
  split at hc
  · split at hc
    · cases hc
    · next hnone =>
      obtain ⟨rfl, rfl⟩ : id = pid ∧ s.nodeId = nodeId := by simpa using hc
      refine ⟨by simpa using hnone, by unfold MAX_PROCESS_ID; omega, .inl ⟨rfl, ?_⟩⟩
      split <;> omega
  split at hc
  · next hlt =>
    obtain ⟨rfl, rfl⟩ : s.nodeId = pid ∧ s.nodeId = nodeId := by simpa using hc
    refine ⟨(h.unused _ le_rfl).resolve_right (by omega), hlt, .inl ⟨rfl, ?_⟩⟩
    split <;> omega
  · next hge =>
    have hmod := Nat.mod_lt s.nodeId (show 0 < MAX_PROCESS_ID by decide)
    have hwrap : (if s.nodeId % MAX_PROCESS_ID = 0 then RESERVED_PID + 1
        else s.nodeId % MAX_PROCESS_ID) ≤ MAX_PROCESS_ID := by
      split
      · decide
      · omega
    have hid' : ∀ b : Prop, [Decidable b] →
        s.nodeId ≤ (if b then s.nodeId + (RESERVED_PID + 1) else s.nodeId) := by
      intro b _
      split <;> omega
    dsimp only at hc
    split at hc
    · next i hi =>
      obtain ⟨rfl, rfl⟩ := Prod.mk.inj (Option.some.inj hc)
      obtain ⟨hnone, hlt⟩ := searchFree_spec hi
      have := hid' (s.nodeId % MAX_PROCESS_ID = 0)
      exact ⟨hnone, by omega, .inr (by omega)⟩
    · obtain ⟨i, hi, heq⟩ := Option.map_eq_some_iff.mp hc
      obtain ⟨rfl, rfl⟩ := Prod.mk.inj heq
      obtain ⟨hnone, hlt⟩ := searchFree_spec hi
      have := hid' (s.nodeId % MAX_PROCESS_ID = 0)
      refine ⟨hnone, ?_, .inr (by omega)⟩
      have : RESERVED_PID + 1 < MAX_PROCESS_ID := by decide
      omega

@[simp] theorem objs_after (k : After) : k.pc.objs = k.objs := by
  cases k with
  | done => rfl
  | delete p pid node => rfl

theorem objs_start {q : Pc} (h : q.isStart) : q.objs = [] := by
  cases q with
  | send pid m k =>
    cases k with
    | done => rfl
    | delete => cases h
  | destroy pid node =>
    cases node with
    | none => rfl
    | some => cases h
  | _ => first | rfl | cases h

theorem mem_objs_of_holdsInt {q : Pc} {p : Obj} (h : q.holdsInt = some p) : p ∈ q.objs := by
  cases q <;> first | (cases h; done) | (cases h; exact List.mem_cons_self)

/-- The objects that a step refers to were referred to before, or looked up. -/
theorem objs_move (h : Table s) (hm : Move s t s') : ∀ t', ∀ p ∈ (s'.pc t').objs, p < s'.next := by
  have hold := h.objs t
  have hkeep : ∀ q : Pc, (∀ p ∈ q.objs, p < s.next) →
      ∀ t', ∀ p ∈ (Function.update s.pc t q t').objs, p < s.next := by
    intro q hq t' p hp
    rcases eq_or_ne t' t with rfl | ht
    · rw [Function.update_self] at hp
      exact hq p hp
    · rw [Function.update_of_ne ht] at hp
      exact h.objs t' p hp
  cases hm
  case start q hidle hq => exact hkeep q (by simp [objs_start hq])
  case spawn =>
    intro t' p hp
    rcases eq_or_ne t' t with rfl | ht
    · simp only [State.goto, Function.update_self, Pc.objs, List.mem_singleton] at hp
      simp [State.goto, State.createNode, hp]
    · simp only [State.goto, Function.update_of_ne ht] at hp
      exact Nat.lt_succ_of_lt (h.objs t' p hp)
  case get p rest hidle hq =>
    refine hkeep _ fun p' hp => ?_
    obtain rfl := List.mem_singleton.mp hp
    exact h.queue _ (by simp [hq])
  all_goals
    have hpc := ‹s.pc t = _›
    rw [hpc] at hold
    first
    | exact hkeep _ hold
    | exact hkeep _ (List.forall_mem_nil _)
    | exact hkeep _ (List.forall_mem_cons.mpr ⟨(h.node ‹_›).1, hold⟩)
    | exact hkeep _ ((objs_after _).symm ▸ hold)
    | exact hkeep _ ((objs_after _).symm ▸ (List.forall_mem_cons.mp hold).2)

theorem id_move (hm : Move s t s') {p : Obj} (hp : p < s.next) :
    (s'.procs p).id = (s.procs p).id := by
  cases hm
  case spawn => simp [State.goto, State.createNode, hp.ne]
  all_goals
    first
    | rfl
    | (simp only [State.goto, State.record, State.resume, State.handOver, State.wake,
        State.putTask, State.setState, State.modify, setTimeOut, serve, Function.update_apply]
       split <;> simp_all)

theorem tick_move (hm : Move s t s') {p : Obj} (hp : p < s.next) :
    (s.procs p).tick ≤ (s'.procs p).tick := by
  have hc := change_move hm p
  generalize s'.procs p = x at hc ⊢
  cases hc with
  | create _ _ heq => exact absurd heq hp.ne
  | resume => exact Nat.le_succ _
  | _ => exact le_rfl

theorem next_move (hm : Move s t s') : s.next ≤ s'.next := by
  cases hm
  case spawn => exact Nat.le_succ _
  all_goals exact le_rfl

theorem nodeMap_move (hm : Move s t s') {p : Obj} {pid : Pid} (h : s'.nodeMap pid = some p) :
    s.nodeMap pid = some p ∨ (s'.procs p).state = .CREATED := by
  cases hm
  case spawn =>
    simp only [State.goto, State.createNode, Function.update_apply] at h
    split at h
    · cases h
      exact .inr (by simp)
    · exact .inl h
  case delete =>
    simp only [State.goto, State.remove, Function.update_apply] at h
    split at h
    · cases h
    · exact .inl h
  all_goals exact .inl h

theorem table_spawn {id pid nodeId parentId : Nat} (h : Table s)
    (hpc : s.pc t = .spawn id parentId) (hc : s.choosePid id = some (pid, nodeId)) :
    Table ((s.createNode pid nodeId parentId).goto t (.spawnEntry s.next)) := by
  obtain ⟨hnone, hlt, hnext⟩ := choosePid_spec h (h.bound t id parentId hpc) hc
  refine ⟨fun {pid' p} hp => ?_, fun t' p hp => ?_, fun p hp => Nat.lt_succ_of_lt (h.queue p hp),
    fun pid' hpid => ?_, ?_, fun t' id' parentId' hpc' => ?_⟩
  · simp only [State.goto, State.createNode] at hp ⊢
    rcases eq_or_ne pid' pid with rfl | hne
    · obtain rfl : s.next = p := by simpa using hp
      simpa using hlt
    · rw [Function.update_of_ne hne] at hp
      obtain ⟨h₁, h₂, h₃⟩ := h.node hp
      exact ⟨Nat.lt_succ_of_lt h₁, by rw [Function.update_of_ne h₁.ne]; exact h₂, h₃⟩
  · rcases eq_or_ne t' t with rfl | ht
    · simp only [State.goto, Function.update_self, Pc.objs, List.mem_singleton] at hp
      simp [State.goto, State.createNode, hp]
    · simp only [State.goto, Function.update_of_ne ht] at hp
      exact Nat.lt_succ_of_lt (h.objs t' p hp)
  · have hup : nodeId < State.nextNodeId nodeId := by unfold State.nextNodeId; split <;> omega
    simp only [State.goto, State.createNode] at hpid ⊢
    rcases hnext with ⟨rfl, hnext⟩ | hnext
    · have hne : pid' ≠ pid := by omega
      rw [Function.update_of_ne hne]
      exact h.unused pid' (by omega)
    · exact .inr (by omega)
  · have hres := h.reserved
    have hmax : RESERVED_PID < MAX_PROCESS_ID := by decide
    right
    simp only [State.goto, State.createNode]
    unfold State.nextNodeId
    split <;> omega
  · rcases eq_or_ne t' t with rfl | ht
    · simp [State.goto] at hpc'
    · exact h.bound t' id' parentId' (by simpa [State.goto, State.createNode, ht] using hpc')

theorem table_remove {p pid : Nat} (h : Table s) : Table ((s.remove p pid).goto t .idle) := by
  refine ⟨fun {pid' p'} hp => ?_, fun t' p' hp => ?_, h.queue, fun pid' hpid => ?_, h.reserved,
    fun t' id parentId hpc => ?_⟩
  · simp only [State.goto, State.remove, Function.update_apply] at hp
    split at hp
    · cases hp
    · exact h.node hp
  · rcases eq_or_ne t' t with rfl | ht
    · simp [State.goto, Pc.objs] at hp
    · exact h.objs t' p' (by simpa [State.goto, State.remove, ht] using hp)
  · simp only [State.goto, State.remove, Function.update_apply]
    split
    · exact .inl rfl
    · exact h.unused pid' hpid
  · rcases eq_or_ne t' t with rfl | ht
    · simp [State.goto] at hpc
    · exact h.bound t' id parentId (by simpa [State.goto, State.remove, ht] using hpc)

theorem Table.keep (h : Table s) (hm : Move s t s') (hmap : s'.nodeMap = s.nodeMap)
    (hnext : s'.next = s.next) (hid : s'.nodeId = s.nodeId)
    (hqueue : ∀ p ∈ s'.scheQueue, p < s.next)
    (hbound : ∀ t' id parentId, s'.pc t' = .spawn id parentId → id < RESERVED_PID) : Table s' := by
  refine ⟨fun {pid p} hp => ?_, objs_move h hm, by rwa [hnext], by rw [hmap, hid]; exact h.unused,
    by rw [hid]; exact h.reserved, hbound⟩
  rw [hmap] at hp
  obtain ⟨h₁, h₂, h₃⟩ := h.node hp
  exact ⟨hnext ▸ h₁, (id_move hm h₁).trans h₂, h₃⟩

theorem bound_update {q : Pc} (h : Table s)
    (hq : ∀ id parentId, q = .spawn id parentId → id < RESERVED_PID) :
    ∀ t' id parentId, Function.update s.pc t q t' = .spawn id parentId → id < RESERVED_PID := by
  intro t' id parentId hpc
  rcases eq_or_ne t' t with rfl | ht
  · exact hq id parentId (by simpa using hpc)
  · exact h.bound t' id parentId (by simpa [ht] using hpc)

theorem after_ne_spawn {k : After} {id parentId : Nat} (h : k.pc = .spawn id parentId) :
    id < RESERVED_PID := by
  cases k <;> cases h

theorem Table.move (h : Table s) (hm : Move s t s') : Table s' := by
  have hold := h.objs t
  have hm' := hm
  cases hm
  case spawn hpc hfree hc => exact table_spawn h hpc hc
  case delete hpc hfree hint => exact table_remove h
  case start q hidle hq =>
    refine h.keep hm' rfl rfl rfl h.queue (bound_update (s := s) h fun id parentId heq => ?_)
    rw [heq] at hq
    simpa [Pc.isStart] using hq
  case get hidle hq =>
    exact h.keep hm' rfl rfl rfl (fun p hp => h.queue p (by rw [hq]; exact List.mem_cons_of_mem _ hp))
      (bound_update (s := s) h fun _ _ heq => by cases heq)
  all_goals
    rw [‹s.pc t = _›] at hold
    first
    | exact h.keep hm' rfl rfl rfl h.queue (bound_update (s := s) h fun _ _ heq => by cases heq)
    | exact h.keep hm' rfl rfl rfl h.queue (bound_update (s := s) h fun _ _ heq => after_ne_spawn heq)
    | exact h.keep hm' rfl rfl rfl
        (List.forall_mem_append.mpr ⟨h.queue, fun p hp => hold p (by simp_all [Pc.objs])⟩)
        (bound_update (s := s) h fun _ _ heq => by cases heq)
    | exact h.keep hm' rfl rfl rfl
        (List.forall_mem_append.mpr ⟨h.queue, fun p hp => hold p (by simp_all [Pc.objs])⟩)
        (bound_update (s := s) h fun _ _ heq => after_ne_spawn heq)

-- ---------------------------------------------------------------------------
-- Every run
-- ---------------------------------------------------------------------------

structure Base (s : State n) : Prop where
  int : Exclusive Pc.holdsInt s.pc
  lock : Exclusive Pc.holdsLock s.pc
  table : Table s

theorem base_init : Base (State.init n) := by
  refine ⟨fun _ _ _ h => ?_, fun _ _ _ h => ?_, ⟨fun h => ?_, fun _ _ h => ?_, fun _ h => ?_,
    fun _ _ => .inl rfl, .inl rfl, fun _ _ _ h => ?_⟩⟩ <;> cases h

theorem Base.move (h : Base s) (hm : Move s t s') : Base s' :=
  ⟨exclusiveInt_move h.int hm, exclusiveLock_move h.lock hm, h.table.move hm⟩

theorem reach_base {ok : State n → Action n → Prop} (h : Reach step ok (State.init n) s) :
    Base s :=
  h.invariant base_init fun _ _ _ hb _ hs => hb.move (step_cases hs)

end GalaLua.GLR
