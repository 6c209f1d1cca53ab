import GalaLua.GLR.TimeOuts
import Mathlib.Data.Finset.Card

/-!
# The end of a process

`Destory` tests the state of a process without a lock, sends the EXIT message to
its parent and only then takes the write lock and deletes. A thread between the
test and the deletion dooms the process. A process dies once as long as the
test never passes for a process that is doomed or gone.
-/

namespace GalaLua.GLR

open Library (Exclusive Reach Free)

variable {n : Nat} {s s' : State n} {t : Fin n} {p : Obj} {a : Action n}

-- ---------------------------------------------------------------------------
-- Doomed processes
-- ---------------------------------------------------------------------------

def After.dooms : After → Option (Obj × Pid)
  | .done => none
  | .delete p pid _ => some (p, pid)

/-- The process that a thread is going to delete, and the pid it was asked for. -/
def Pc.dooms : Pc → Option (Obj × Pid)
  | .send _ _ k | .sendLock _ _ k | .sendTest _ _ k | .sendTry _ _ k | .sendHand _ _ k
  | .sendPut _ _ k => k.dooms
  | .delete p pid _ => some (p, pid)
  | _ => none

theorem dooms_after (k : After) : k.pc.dooms = k.dooms := by cases k <;> rfl

theorem dooms_start {q : Pc} (h : q.isStart) : q.dooms = none := by
  cases q with
  | send pid m k => cases k <;> first | rfl | cases h
  | _ => first | rfl | cases h

theorem mem_objs_of_dooms {q : Pc} {pid : Pid} (h : q.dooms = some (p, pid)) : p ∈ q.objs := by
  have hafter : ∀ k : After, k.dooms = some (p, pid) → p ∈ k.objs := by
    intro k hk
    cases k with
    | done => cases hk
    | delete p' pid' node =>
      cases hk
      exact List.mem_cons_self
  cases q with
  | send _ _ k => exact hafter k h
  | sendLock _ _ k | sendTest _ _ k | sendTry _ _ k | sendHand _ _ k | sendPut _ _ k =>
    exact List.mem_cons_of_mem _ (hafter k h)
  | delete =>
    cases h
    exact List.mem_cons_self
  | _ => cases h

/-- A thread dooms a process when the test of `Destory` passes, and is done with
it when it has deleted it. -/
theorem dooms_move (hm : Move s t s') {t' : Fin n} {pid : Pid}
    (h : (s'.pc t').dooms = some (p, pid)) :
    (s.pc t').dooms = some (p, pid) ∨
      t' = t ∧ ∃ node, s.pc t = .destroyTest p pid node ∧ (s.procs p).state.mortal := by
  cases hm
  case start hq =>
    rcases update_cases h with ⟨-, hn⟩ | ⟨-, hn⟩
    · simp [dooms_start hq] at hn
    · exact .inl hn
  case destroyTest p' pid' node hpc hst =>
    rcases update_cases h with ⟨ht, hn⟩ | ⟨-, hn⟩
    · cases hn
      exact .inr ⟨ht, node, hpc, hst⟩
    · exact .inl hn
  all_goals
    have hpc := ‹s.pc t = _›
    rcases update_cases h with ⟨rfl, hn⟩ | ⟨-, hn⟩
    · first
      | cases hn
      | exact .inl (hpc ▸ hn)
      | exact .inl (hpc ▸ (dooms_after _).symm.trans hn)
    · exact .inl hn

/-- The test of `Destory` passes only for a process that is in the table under the
pid and that no thread dooms. -/
def unique (s : State n) (a : Action n) : Bool :=
  match s.pc a.thread with
  | .destroyTest p pid _ =>
    !(s.procs p).state.mortal ||
      s.nodeMap pid == some p && decide (∀ t, (s.pc t).dooms.all (·.1 != p))
  | _ => true

/-- The number of entries of `NodeMap` that are not `NULL`. -/
def State.entries (s : State n) : Nat :=
  ((Finset.range MAX_PROCESS_ID).filter fun pid => (s.nodeMap pid).isSome).card

structure Doomed (s : State n) : Prop where
  one : ∀ t t' p pid pid', (s.pc t).dooms = some (p, pid) → (s.pc t').dooms = some (p, pid') →
    t = t'
  table : ∀ t p pid, (s.pc t).dooms = some (p, pid) →
    s.nodeMap pid = some p ∧ p ∈ s.hist.exits ∧ p ∉ s.hist.deleted
  exits : s.hist.exits.Nodup
  deleted : s.hist.deleted.Nodup
  gone : ∀ p ∈ s.hist.deleted, p ∈ s.hist.exits ∧ ∀ pid, s.nodeMap pid ≠ some p
  told : ∀ p ∈ s.hist.exits, p < s.next ∧
    (p ∈ s.hist.deleted ∨ ∃ t pid, (s.pc t).dooms = some (p, pid))
  count : s.nodeCount = s.entries
  elegant : ∀ m ∈ s.hist.elegant, ∀ pid, m pid = none

theorem doomed_init : Doomed (State.init n) := by
  refine ⟨fun _ _ _ _ _ h => ?_, fun _ _ _ h => ?_, List.nodup_nil, List.nodup_nil,
    fun _ h => ?_, fun _ h => ?_, ?_, fun _ h => ?_⟩
  · cases h
  · cases h
  · cases h
  · cases h
  · simp [State.init, State.entries]
  · cases h

theorem Doomed.keep (h : Doomed s) (hd : ∀ t, (s'.pc t).dooms = (s.pc t).dooms)
    (hmap : s'.nodeMap = s.nodeMap) (hcount : s'.nodeCount = s.nodeCount)
    (hnext : s'.next = s.next) (hexits : s'.hist.exits = s.hist.exits)
    (hdel : s'.hist.deleted = s.hist.deleted) (hel : s'.hist.elegant = s.hist.elegant) :
    Doomed s' := by
  obtain ⟨h₁, h₂, h₃, h₄, h₅, h₆, h₇, h₈⟩ := h
  constructor <;> simp only [State.entries, hd, hmap, hcount, hnext, hexits, hdel, hel] <;>
    assumption

theorem dooms_update {q q₀ : Pc} (hpc : s.pc t = q₀) (hq : q.dooms = q₀.dooms) (t' : Fin n) :
    (Function.update s.pc t q t').dooms = (s.pc t').dooms := by
  rcases eq_or_ne t' t with rfl | ht
  · rw [Function.update_self, hpc, hq]
  · rw [Function.update_of_ne ht]

theorem nodeMap_of_entries (h : Table s) (hzero : s.entries = 0) (pid : Pid) :
    s.nodeMap pid = none := by
  cases hp : s.nodeMap pid with
  | none => rfl
  | some p =>
    have hmem : pid ∈ (Finset.range MAX_PROCESS_ID).filter fun pid => (s.nodeMap pid).isSome :=
      Finset.mem_filter.mpr ⟨Finset.mem_range.mpr (h.node hp).2.2, by simp [hp]⟩
    rw [Finset.card_eq_zero.mp hzero] at hmem
    exact absurd hmem (Finset.notMem_empty pid)

/-- Filling an empty slot, or emptying a full one, changes the number by one. -/
theorem entries_update (s s' : State n) {pid : Pid} {o : Option Obj}
    (hpid : pid < MAX_PROCESS_ID) (hmap : s'.nodeMap = Function.update s.nodeMap pid o) :
    s'.entries + (if (s.nodeMap pid).isSome then 1 else 0) =
      s.entries + if o.isSome then 1 else 0 := by
  have herase : ∀ m : Pid → Option Obj,
      ((Finset.range MAX_PROCESS_ID).filter fun i => (m i).isSome).card =
        (((Finset.range MAX_PROCESS_ID).erase pid).filter fun i => (m i).isSome).card +
          if (m pid).isSome then 1 else 0 := by
    intro m
    rw [← Finset.insert_erase (Finset.mem_range.mpr hpid), Finset.filter_insert]
    split
    · rw [Finset.card_insert_of_notMem (by simp), Finset.erase_insert (by simp)]
    · rw [Finset.erase_insert (by simp), Nat.add_zero]
  have hsame : ((Finset.range MAX_PROCESS_ID).erase pid).filter (fun i => (s'.nodeMap i).isSome) =
      ((Finset.range MAX_PROCESS_ID).erase pid).filter fun i => (s.nodeMap i).isSome := by
    refine Finset.filter_congr fun i hi => ?_
    rw [hmap, Function.update_of_ne (Finset.ne_of_mem_erase hi)]
  unfold State.entries
  rw [herase s'.nodeMap, herase s.nodeMap, hsame, hmap, Function.update_self]
  omega

theorem Doomed.spawn {id pid nodeId parentId : Nat} (hb : Base s) (h : Doomed s)
    (hpc : s.pc t = .spawn id parentId) (hc : s.choosePid id = some (pid, nodeId)) :
    Doomed ((s.createNode pid nodeId parentId).goto t (.spawnEntry s.next)) := by
  obtain ⟨hnone, hlt, -⟩ := choosePid_spec hb.table (hb.table.bound t id parentId hpc) hc
  have hd := dooms_update (s := s) (q := .spawnEntry s.next) hpc rfl
  have hold : ∀ {pid' p'}, s.nodeMap pid' = some p' →
      Function.update s.nodeMap pid (some s.next) pid' = some p' := by
    intro pid' p' hp
    rw [Function.update_of_ne, hp]
    rintro rfl
    simp [hnone] at hp
  refine ⟨fun t₁ t₂ p pid₁ pid₂ h₁ h₂ => ?_, fun t' p pid' hdoom => ?_, h.exits, h.deleted,
    fun p hp => ⟨(h.gone p hp).1, fun pid' hmap => ?_⟩, fun p hp => ?_, ?_, h.elegant⟩
  · exact h.one t₁ t₂ p pid₁ pid₂ ((hd t₁).symm.trans h₁) ((hd t₂).symm.trans h₂)
  · obtain ⟨hmap, hrest⟩ := h.table t' p pid' ((hd t').symm.trans hdoom)
    exact ⟨hold hmap, hrest⟩
  · simp only [State.goto, State.createNode, Function.update_apply] at hmap
    split at hmap
    · cases hmap
      exact absurd (h.told _ (h.gone _ hp).1).1 (lt_irrefl _)
    · exact (h.gone p hp).2 pid' hmap
  · obtain ⟨hp', hdel | ⟨t', pid', hdoom⟩⟩ := h.told p hp
    · exact ⟨Nat.lt_succ_of_lt hp', .inl hdel⟩
    · exact ⟨Nat.lt_succ_of_lt hp', .inr ⟨t', pid', (hd t').trans hdoom⟩⟩
  · have hentries := entries_update s
      ((s.createNode pid nodeId parentId).goto t (.spawnEntry s.next)) hlt rfl
    simp only [hnone, Option.isSome_none, Option.isSome_some, if_true] at hentries
    have hcount := h.count
    simp only [State.goto, State.createNode] at hentries ⊢
    simp at hentries
    omega

/-- The test passes for a process in the table that nobody dooms. -/
theorem Doomed.destroyTest {pid : Pid} {node : Option Obj} (hb : Base s) (h : Doomed s)
    (hpc : s.pc t = .destroyTest p pid node) (hmap : s.nodeMap pid = some p)
    (hnone : ∀ t pid, (s.pc t).dooms ≠ some (p, pid)) (q : Pc) (hq : q.dooms = some (p, pid)) :
    Doomed ((s.record fun h => { h with exits := p :: h.exits }).goto t q) := by
  have hdel : p ∉ s.hist.deleted := fun hp => (h.gone p hp).2 pid hmap
  have hexit : p ∉ s.hist.exits := by
    intro hp
    rcases (h.told p hp).2 with hp | ⟨t', pid', hdoom⟩
    · exact hdel hp
    · exact hnone t' pid' hdoom
  have hcases : ∀ {t' p' pid'}, (Function.update s.pc t q t').dooms = some (p', pid') →
      t' = t ∧ p' = p ∧ pid' = pid ∨ p' ≠ p ∧ (s.pc t').dooms = some (p', pid') := by
    intro t' p' pid' hd
    rcases update_cases hd with ⟨ht, hn⟩ | ⟨-, hn⟩
    · rw [hq] at hn
      cases hn
      exact .inl ⟨ht, rfl, rfl⟩
    · refine .inr ⟨?_, hn⟩
      rintro rfl
      exact hnone _ _ hn
  refine ⟨fun t₁ t₂ p' pid₁ pid₂ h₁ h₂ => ?_, fun t' p' pid' hd => ?_,
    List.nodup_cons.mpr ⟨hexit, h.exits⟩, h.deleted,
    fun p' hp => ⟨List.mem_cons_of_mem _ (h.gone p' hp).1, (h.gone p' hp).2⟩, fun p' hp => ?_,
    h.count, h.elegant⟩
  · rcases hcases h₁ with ⟨rfl, rfl, -⟩ | ⟨hne, h₁⟩ <;> rcases hcases h₂ with ⟨rfl, hp, -⟩ | ⟨hne', h₂⟩
    · rfl
    · exact absurd rfl hne'
    · exact absurd hp hne
    · exact h.one t₁ t₂ p' pid₁ pid₂ h₁ h₂
  · rcases hcases hd with ⟨-, rfl, rfl⟩ | ⟨-, hd⟩
    · exact ⟨hmap, List.mem_cons_self, hdel⟩
    · obtain ⟨h₁, h₂, h₃⟩ := h.table t' p' pid' hd
      exact ⟨h₁, List.mem_cons_of_mem _ h₂, h₃⟩
  · rcases List.mem_cons.mp hp with rfl | hp
    · exact ⟨(hb.table.node hmap).1, .inr ⟨t, pid, by simpa using hq⟩⟩
    · obtain ⟨hlt, hdel' | ⟨t', pid', hd⟩⟩ := h.told p' hp
      · exact ⟨hlt, .inl hdel'⟩
      · refine ⟨hlt, .inr ⟨t', pid', ?_⟩⟩
        have ht : t' ≠ t := by
          rintro rfl
          simp [hpc, Pc.dooms] at hd
        simpa [ht] using hd

theorem Doomed.delete {pid : Pid} {node : Option Obj} (hb : Base s) (h : Doomed s)
    (hpc : s.pc t = .delete p pid node) : Doomed ((s.remove p pid).goto t .idle) := by
  have hdoom : (s.pc t).dooms = some (p, pid) := by rw [hpc]; rfl
  obtain ⟨hmap, hexit, hdel⟩ := h.table t p pid hdoom
  obtain ⟨-, hid, hlt⟩ := hb.table.node hmap
  have hcases : ∀ {t' p' pid'}, (Function.update s.pc t .idle t').dooms = some (p', pid') →
      p' ≠ p ∧ (s.pc t').dooms = some (p', pid') := by
    intro t' p' pid' hd
    rcases update_cases hd with ⟨-, hn⟩ | ⟨ht, hn⟩
    · cases hn
    · refine ⟨?_, hn⟩
      rintro rfl
      exact ht (h.one t' t _ _ _ hn hdoom)
  have hentries := entries_update s ((s.remove p pid).goto t .idle) hlt rfl
  simp only [hmap, Option.isSome_none, Option.isSome_some, if_true] at hentries
  have hcount := h.count
  refine ⟨fun t₁ t₂ p' pid₁ pid₂ h₁ h₂ => h.one t₁ t₂ p' pid₁ pid₂ (hcases h₁).2 (hcases h₂).2,
    fun t' p' pid' hd => ?_, h.exits, List.nodup_cons.mpr ⟨hdel, h.deleted⟩,
    fun p' hp => ?_, fun p' hp => ?_, ?_, ?_⟩
  · obtain ⟨hne, hd⟩ := hcases hd
    obtain ⟨h₁, h₂, h₃⟩ := h.table t' p' pid' hd
    refine ⟨?_, h₂, fun hp => (List.mem_cons.mp hp).elim hne h₃⟩
    have : pid' ≠ pid := by
      rintro rfl
      exact hne (Option.some.inj (h₁.symm.trans hmap))
    simp only [State.goto, State.remove, Function.update_of_ne this, h₁]
  · have hsub : ∀ pid', Function.update s.nodeMap pid none pid' = some p' →
        pid' ≠ pid ∧ s.nodeMap pid' = some p' := by
      intro pid' hp'
      rw [Function.update_apply] at hp'
      split at hp'
      · cases hp'
      · exact ⟨‹_›, hp'⟩
    rcases List.mem_cons.mp hp with rfl | hp
    · refine ⟨hexit, fun pid' hp' => ?_⟩
      obtain ⟨hne, hp'⟩ := hsub pid' hp'
      exact hne ((hb.table.node hp').2.1.symm.trans hid)
    · exact ⟨(h.gone p' hp).1, fun pid' hp' => (h.gone p' hp).2 pid' (hsub pid' hp').2⟩
  · obtain ⟨hlt, hdel' | ⟨t', pid', hd⟩⟩ := h.told p' hp
    · exact ⟨hlt, .inl (List.mem_cons_of_mem _ hdel')⟩
    · rcases eq_or_ne t' t with rfl | ht
      · rw [hdoom] at hd
        cases hd
        exact ⟨hlt, .inl List.mem_cons_self⟩
      · exact ⟨hlt, .inr ⟨t', pid', by simpa [ht] using hd⟩⟩
  · simp only [State.goto, State.remove] at hentries ⊢
    simp at hentries
    omega
  · intro m hm pid'
    simp only [State.goto, State.remove] at hm
    split at hm
    · next hzero =>
      rcases List.mem_cons.mp hm with rfl | hm
      · have hnone : ((s.remove p pid).goto t .idle).entries = 0 := by
          simp at hentries ⊢
          omega
        exact nodeMap_of_entries (table_remove (t := t) hb.table) hnone pid'
      · exact h.elegant m hm pid'
    · exact h.elegant m hm pid'

theorem Doomed.move (hb : Base s) (h : Doomed s) (ha : unique s a) (hm : Move s a.thread s') :
    Doomed s' := by
  cases hm
  case start hidle hq =>
    exact h.keep (dooms_update hidle (dooms_start hq)) rfl rfl rfl rfl rfl rfl
  case spawn hpc _ hc => exact h.spawn hb hpc hc
  case delete hpc _ _ => exact h.delete hb hpc
  case destroyTest p pid node hpc hst =>
    simp only [unique, hpc, hst, Bool.not_true, Bool.false_or, Bool.and_eq_true, beq_iff_eq,
      decide_eq_true_eq] at ha
    refine h.destroyTest hb hpc ha.1 (fun t pid' hd => ?_) _ rfl
    have := ha.2 t
    simp [hd] at this
  all_goals
    have hpc := ‹s.pc a.thread = _›
    first
    | exact h.keep (dooms_update hpc rfl) rfl rfl rfl rfl rfl rfl
    | exact h.keep (dooms_update hpc (dooms_after _)) rfl rfl rfl rfl rfl rfl

theorem reach_doomed (h : Reach step (fun s a => unique s a) (State.init n) s) : Doomed s :=
  h.invariant_of (fun _ => reach_base) doomed_init fun _ _ _ hb hi ha hs =>
    hi.move hb ha (step_cases hs)

/-- If the test of `Destory` passes only for a process in the table that no other
thread is about to delete, every process is deleted at most once and its parent
told exactly once, `NodeCount` is the number of entries, and the runtime exits
when there are none. -/
theorem dies_once (h : Reach step (fun s a => unique s a) (State.init n) s) :
    (∀ p, s.hist.deleted.count p ≤ 1) ∧ (∀ p, s.hist.exits.count p ≤ 1) ∧
      (∀ p ∈ s.hist.deleted, s.hist.exits.count p = 1) ∧ s.nodeCount = s.entries ∧
      ∀ m ∈ s.hist.elegant, ∀ pid, m pid = none := by
  have hd := reach_doomed h
  refine ⟨List.nodup_iff_count_le_one.mp hd.deleted, List.nodup_iff_count_le_one.mp hd.exits,
    fun p hp => ?_, hd.count, hd.elegant⟩
  exact List.count_eq_one_of_mem hd.exits (hd.gone p hp).1

/-- A process is killed once. -/
theorem dies_once_kill : ∃ s : State 2,
    Reach step (fun s a => unique s a) (State.init 2) s ∧ s.hist.deleted = [0] ∧
    s.hist.exits.count 0 = 1 := by
  obtain ⟨s, hs, hp⟩ := reach_guarded unique
    (spawned 0 0 ++ resumed 0 ++ [Action.run 0 (.recv false)] ++ go 0 4 ++ [Action.call 1 (.kill 0)] ++ go 1 8)
    (fun s : State 2 => s.hist.deleted == [0]) (by decide +kernel)
  have heq : s.hist.deleted = [0] := by simpa using hp
  exact ⟨s, hs, heq, (dies_once hs).2.2.1 0 (by simp [heq])⟩

/-- Two threads kill a process that waits, and both find it waiting. -/
theorem dies_twice : ∃ s : State 3, Reach step Free (State.init 3) s ∧
    ¬s.hist.deleted.count 0 ≤ 1 ∧ ¬s.hist.exits.count 0 ≤ 1 ∧ s.nodeCount ≠ s.entries := by
  obtain ⟨s, hs, hp⟩ := reach_schedule
    (spawned 0 0 ++ resumed 0 ++ [Action.run 0 (.recv false)] ++ go 0 4 ++
      [Action.call 1 (.kill 0), Action.call 2 (.kill 0)] ++ go 1 2 ++ go 2 2 ++ go 1 6 ++ go 2 2)
    (fun s : State 3 => s.hist.deleted == [0, 0] && s.hist.exits == [0, 0] && s.nodeCount == -1)
    (by decide +kernel)
  simp only [Bool.and_eq_true, beq_iff_eq] at hp
  obtain ⟨⟨hdel, hexit⟩, hcount⟩ := hp
  refine ⟨s, hs, by simp [hdel], by simp [hexit], ?_⟩
  rw [hcount]
  omega

end GalaLua.GLR
