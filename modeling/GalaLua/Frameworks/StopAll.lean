import GalaLua.Frameworks.Supervisor
import Mathlib.Data.Nat.Find

/-!
# stop_all

`stop_all` goes through the entries by their ids, from the last one down. The end of
a Lua table with holes is any index with an entry below it and none in it, and the
entry of a service with a name of its own is a hole.
-/

namespace GalaLua.Frameworks.Supervisor

open Library Function

variable {s s' : State} {params : Params} {addr : Option Pid} {n : ℕ}

-- ---------------------------------------------------------------------------
-- The loop
-- ---------------------------------------------------------------------------

/-- A value that `#self._processes_indexed_by_id` may have. -/
def State.Border (s : State) (n : ℕ) : Prop :=
  (n ≠ 0 → s.processesIndexedById n ≠ none) ∧ s.processesIndexedById (n + 1) = none

/-- The loop of `stop_all` from the index `n` down; `stop_process` raises on a hole. -/
def State.stopAllFrom (s : State) : ℕ → Option State
  | 0 => some s
  | n + 1 =>
    match s.processesIndexedById (n + 1) with
    | none => none
    | some info => (s.stopProcess info.process none false).stopAllFrom n

/-- When `stop_all` has returned, the processes that were recorded are dead and none
is recorded any more. -/
def State.StopsAll (s : State) : Prop :=
  ∀ n s', s.Border n → s.stopAllFrom n = some s' →
    (∀ p info, s.processes p = some info → s'.alive info.child = false) ∧ ∀ p, s'.processes p = none

theorem stopAllFrom_eq (h : s.stopAllFrom n = some s') : s' = s := by
  induction n generalizing s with
  | zero => exact (Option.some.inj h).symm
  | succ n ih =>
    rw [State.stopAllFrom] at h
    cases hinfo : s.processesIndexedById (n + 1) with
    | none => simp [hinfo] at h
    | some info =>
      -- the entry has no field `process`
      simp only [hinfo, Info.process, State.stopProcess] at h
      exact ih h

theorem stopAllFrom_of_entries (h : ∀ i < n, s.processesIndexedById (i + 1) ≠ none) : s.stopAllFrom n = some s := by
  induction n with
  | zero => rfl
  | succ n ih =>
    obtain ⟨info, hinfo⟩ := Option.ne_none_iff_exists'.mp (h n (Nat.lt_succ_self n))
    simp only [State.stopAllFrom, hinfo, Info.process, State.stopProcess]
    exact ih fun i hi => h i (Nat.lt_succ_of_lt hi)

-- ---------------------------------------------------------------------------
-- The ids
-- ---------------------------------------------------------------------------

def State.Indexed (s : State) : Prop := ∀ i, s.id < i → s.processesIndexedById i = none

/-- Neither the ids nor the entries under them change. -/
def State.SameIndex (s s' : State) : Prop := s'.id = s.id ∧ s'.processesIndexedById = s.processesIndexedById

theorem State.Indexed.of_same (h : s.Indexed) (hs : s.SameIndex s') : s'.Indexed := by
  intro i hi
  rw [hs.2]
  exact h i (hs.1 ▸ hi)

theorem startProcess_same (h : s.startProcess params addr = some s') : s.SameIndex s' := by
  rw [State.startProcess.eq_def] at h
  split at h
  · split at h
    · cases h
      exact ⟨rfl, rfl⟩
    · cases h
  · split at h
    · cases h
      exact ⟨rfl, rfl⟩
    · cases h
  · cases h
    exact ⟨rfl, rfl⟩
  · cases h
    exact ⟨rfl, rfl⟩
  · cases h
    exact ⟨rfl, rfl⟩
  · cases h

theorem stopProcess_same (s : State) (process : Option Pid) (processType : Option ProcessType) (restart : Bool) :
    s.SameIndex (s.stopProcess process processType restart) := by
  rw [State.stopProcess.eq_def]
  split
  · exact ⟨rfl, rfl⟩
  · split
    · exact ⟨rfl, rfl⟩
    · exact ⟨rfl, rfl⟩

theorem stopDone_same {restart : Option Params} (h : s.stopDone restart addr = some s') : s.SameIndex s' := by
  cases restart with
  | none =>
    cases h
    exact ⟨rfl, rfl⟩
  | some params => exact startProcess_same h

theorem onExit_same {c : ℕ} (h : s.onExit c addr = some s') : s.SameIndex s' := by
  rw [State.onExit] at h
  cases hp : s.processes (s.pid c) with
  | none =>
    rw [hp] at h
    cases h
    exact ⟨rfl, rfl⟩
  | some info =>
    rw [hp] at h
    have hsame := startProcess_same h
    exact ⟨hsame.1, hsame.2⟩

theorem taken_same {c : ℕ} (h : s.taken c addr = some s') : s.SameIndex s' := by
  rw [State.taken] at h
  split at h
  · cases h
  · split at h
    · cases h
      exact ⟨rfl, rfl⟩
    · cases h
  · split at h
    · cases h
      exact ⟨rfl, rfl⟩
    · cases h
  · cases h
    exact ⟨rfl, rfl⟩
  · split at h
    · cases h
      exact ⟨rfl, rfl⟩
    · cases h
  · split at h
    · have hsame := stopDone_same h
      exact ⟨hsame.1, hsame.2⟩
    · cases h

theorem State.Indexed.started (h : s.Indexed) (child : ℕ) (tcpHandle : Option ℕ) :
    (s.started child tcpHandle).Indexed := by
  intro i hi
  rw [State.started] at hi ⊢
  dsimp only at hi ⊢
  split at hi
  · next hname =>
    rw [if_pos hname]
    exact h i (Nat.lt_of_succ_lt hi)
  · next hname =>
    rw [if_neg hname]
    exact (update_of_ne (Nat.ne_of_gt hi) _ _).trans (h i (Nat.lt_of_succ_lt hi))

theorem indexed_step {a : Act} (h : s.Indexed) (hs : step s a = some s') : s'.Indexed := by
  cases a with
  | startProcess params addr =>
    simp only [step] at hs
    split at hs
    · exact h.of_same (startProcess_same hs)
    · cases hs
  | stopProcess process processType =>
    simp only [step] at hs
    split at hs
    · cases hs
      exact h.of_same (stopProcess_same ..)
    · cases hs
  | stopAll =>
    simp only [step] at hs
    split at hs
    · cases hs
      rw [stopAll_eq]
      exact h.of_same ⟨rfl, rfl⟩
    · cases hs
  | restartProcess process processType =>
    simp only [step] at hs
    split at hs
    · cases hs
      exact h.of_same (stopProcess_same ..)
    · cases hs
  | onExit c addr =>
    simp only [step] at hs
    split at hs
    · exact h.of_same (onExit_same hs)
    · cases hs
  | replied tcpHandle =>
    simp only [step] at hs
    split at hs
    · cases hs
      exact h.of_same ⟨rfl, rfl⟩
    · cases hs
      exact h.of_same ⟨rfl, rfl⟩
    · cases hs
  | waited addr =>
    simp only [step] at hs
    split at hs
    · cases hs
      exact h.started _ _
    · exact h.of_same (stopDone_same hs)
    · cases hs
    · cases hs
      exact h.of_same ⟨rfl, rfl⟩
  | taken c addr =>
    simp only [step] at hs
    split at hs
    · exact h.of_same (taken_same hs)
    · cases hs
  | die c =>
    simp only [step] at hs
    split at hs
    · cases hs
      exact h.of_same ⟨rfl, rfl⟩
    · cases hs

theorem State.Indexed.exists_border (h : s.Indexed) :
    ∃ n, s.Border n ∧ ∀ i < n, s.processesIndexedById (i + 1) ≠ none := by
  classical
  have hex : ∃ n, s.processesIndexedById (n + 1) = none := ⟨s.id, h _ (Nat.lt_succ_self _)⟩
  refine ⟨Nat.find hex, ⟨fun hne => ?_, Nat.find_spec hex⟩, fun i hi => Nat.find_min hex hi⟩
  obtain ⟨m, hm⟩ := Nat.exists_eq_succ_of_ne_zero hne
  rw [hm]
  exact Nat.find_min hex (hm ▸ Nat.lt_succ_self m)

theorem indexed_of_reach (h : Reach step Free State.init s) : s.Indexed :=
  Reach.invariant (I := State.Indexed) (fun _ _ => rfl) (fun _ _ _ hi _ hs => indexed_step hi hs) h

theorem none_of_stopsAll (hreach : Reach step Free State.init s) (h : s.StopsAll) : ∀ p, s.processes p = none := by
  obtain ⟨n, hborder, hentries⟩ := (indexed_of_reach hreach).exists_border
  exact (h n s hborder (stopAllFrom_of_entries hentries)).2

/-- `stop_all` leaves every process that is recorded as it is, so it does what it is
for only where there is none. -/
theorem stopsAll_iff (hreach : Reach step Free State.init s) : s.StopsAll ↔ ∀ p, s.processes p = none := by
  constructor
  · exact none_of_stopsAll hreach
  · intro hnone n s' _ hloop
    rw [stopAllFrom_eq hloop]
    refine ⟨fun p info hp => ?_, hnone⟩
    rw [hnone p] at hp
    cases hp

/-- A service is started and stopped, and then there is nothing to stop. -/
theorem stopsAll_stopped : ∃ s, Reach step Free State.init s ∧ s.stopped 0 = true ∧ s.StopsAll := by
  obtain ⟨s, hreach, hs⟩ := @reach_of_runIf _ _ step Ok State.init _
    [.startProcess service (some 7), .waited none, .stopProcess (some 7) none, .die 0, .taken 0 none]
    (fun s => decide (s.stopped 0 = true ∧ ∀ c < s.count, s.processes (s.pid c) = none)) (by decide)
  obtain ⟨hstopped, hnone⟩ := of_decide_eq_true hs
  exact ⟨s, hreach.free, hstopped,
    (stopsAll_iff hreach.free).mpr ((inv_of_reach hreach).1.processes_eq_none hnone)⟩

/-- One service that was started goes on. -/
theorem service_goes_on : ∃ s, Reach step Free State.init s ∧ ¬ s.StopsAll := by
  obtain ⟨s, hreach, hs⟩ := @reach_of_run _ _ step State.init [.startProcess service (some 7), .waited none]
    (fun s => (s.processes 7).isSome) (by decide)
  refine ⟨s, hreach, fun h => ?_⟩
  rw [none_of_stopsAll hreach h 7] at hs
  cases hs

end GalaLua.Frameworks.Supervisor
