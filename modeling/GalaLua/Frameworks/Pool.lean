import GalaLua.Frameworks.Rpc
import Mathlib.Algebra.Order.Ring.Int
import Mathlib.Data.List.OfFn

/-!
# The process pool

`core.pool` is a queue of idle workers with a table of all workers that were put.
A worker is started at start-up, for a `get_process` that finds none, or by
`start_processes`; it is put when it is ready, and stopped by `stop_processes`.
A method that raises has no reply, and what it did to the pool stays.
-/

namespace GalaLua.Frameworks.Pool

open Library Function
open Rpc (Desc)

abbrev Gpid := ℕ

-- ---------------------------------------------------------------------------
-- Data
-- ---------------------------------------------------------------------------

inductive Status
  | used
  | idle
  deriving DecidableEq

/-- What is put: a table, of which only the field `gpid` is looked at. -/
abbrev Item := Option Gpid

/-- What happens to the workers. -/
inductive Event
  | created (gpid : Gpid)
  | put (gpid : Gpid)
  | handed (customer : Desc) (gpid : Gpid)
  | stopped (gpid : Gpid)
  deriving DecidableEq

structure Config where
  min : ℕ
  max : ℕ
  le : min ≤ max

structure State where
  count : Int
  dataq : List Item
  customerq : List Desc
  /-- the status of an entry; its address is what was put -/
  processes : Gpid → Option Status
  /-- not in the source: the workers that were created and not stopped -/
  live : List Gpid
  trace : List Event

/-- The pool after a request, and if the method raised. -/
structure Reply where
  pool : State
  raised : Bool

-- ---------------------------------------------------------------------------
-- Methods
-- ---------------------------------------------------------------------------

/-- `_create_process`, with the gpid that the supervisor answers with. -/
def State.createProcess (s : State) : Option Gpid → State
  | none => s
  | some gpid => { s with live := s.live ++ [gpid], trace := s.trace ++ [.created gpid] }

def State.empty : State := ⟨0, [], [], fun _ => none, [], []⟩

/-- `_init`, with the answers of the supervisor. -/
def Config.init (c : Config) (started : Fin c.min → Option Gpid) : State :=
  (List.ofFn started).foldl State.createProcess .empty

/-- `self._processes[p.gpid]` -/
def State.entry (s : State) (p : Item) : Option Status := p.bind s.processes

def State.getProcess (c : Config) (s : State) (desc : Desc) (started : Option Gpid) : Reply :=
  match s.dataq with
  | [] =>
    let s := { s with customerq := s.customerq ++ [desc] }
    if s.count < (c.max : Int) then ⟨s.createProcess started, false⟩
    -- `no_response` has no gpid, and the entry that is looked for is `nil`
    else ⟨s, true⟩
  | p :: dataq =>
    let s := { s with dataq := dataq }
    match p with
    | none => ⟨s, true⟩
    | some gpid =>
      match s.processes gpid with
      | none => ⟨s, true⟩
      | some _ =>
        ⟨{ s with
            processes := update s.processes gpid (some .used)
            trace := s.trace ++ [.handed desc gpid] }, false⟩

/-- `on_put`: the entry is made or found, and idle. -/
def State.onPut (s : State) : Item → State
  | none => s
  | some gpid =>
    { s with processes := update s.processes gpid (some .idle), trace := s.trace ++ [.put gpid] }

def State.hand (s : State) (customer : Desc) : Item → State
  | none => s
  | some gpid => { s with trace := s.trace ++ [.handed customer gpid] }

/-- `put`; `none` has no fields. -/
def State.put (s : State) : Option Item → Reply
  | none => ⟨s, true⟩
  | some p =>
    let s := s.onPut p
    match s.customerq with
    | [] => ⟨{ s with dataq := s.dataq ++ [p] }, false⟩
    | customer :: customerq => ⟨{ s with customerq := customerq }.hand customer p, false⟩

/-- One gpid of `stop_processes`; the number of workers stopped is counted. -/
def State.stopProcess (r : State × ℕ) (gpid : Gpid) : State × ℕ :=
  match r.1.processes gpid with
  | none => r
  | some _ =>
    ({ r.1 with
        processes := update r.1.processes gpid none
        live := r.1.live.erase gpid
        trace := r.1.trace ++ [.stopped gpid] }, r.2 + 1)

/-- `stop_processes` with a gpid or a table of them. -/
def State.stopProcesses (s : State) (gpids : List Gpid) : Reply :=
  let r := gpids.foldl stopProcess (s, 0)
  ⟨{ r.1 with count := r.1.count - r.2 }, false⟩

/-- The loop of `start_processes`. -/
def State.startLoop (s : State) (started : ℕ → Option Gpid) : ℕ → ℕ → Reply
  | _, 0 => ⟨s, false⟩
  | i, n + 1 =>
    match started i with
    | none => ⟨s, true⟩
    | some gpid => (s.createProcess (some gpid)).startLoop started (i + 1) n

def State.turns (c : Config) (s : State) (nums : Int) : ℕ :=
  ((if 0 < nums then min (s.count + nums) c.max else 0) - s.count).toNat

/-- `start_processes`; anything but a number is `none`. -/
def State.startProcesses (c : Config) (s : State) (nums : Option Int) (started : ℕ → Option Gpid) : Reply :=
  match nums with
  | none => ⟨s, false⟩
  | some nums => s.startLoop started 0 (s.turns c nums)

inductive Request
  | getProcess (desc : Desc) (started : Option Gpid)
  | put (params : Option Item)
  | startProcesses (nums : Option Int) (started : ℕ → Option Gpid)
  | stopProcesses (gpids : List Gpid)

def State.handle (c : Config) (s : State) : Request → Reply
  | .getProcess desc started => s.getProcess c desc started
  | .put params => s.put params
  | .startProcesses nums started => s.startProcesses c nums started
  | .stopProcesses gpids => s.stopProcesses gpids

def State.next (c : Config) (s : State) (r : Request) : State := (s.handle c r).pool

-- ---------------------------------------------------------------------------
-- Bounds
-- ---------------------------------------------------------------------------

/-- The workers created and not stopped are counted, and no more than the maximum. -/
def State.InBounds (c : Config) (s : State) : Prop := s.live.length = s.count ∧ s.count ≤ c.max

/-- At the limit, `get_process` does not raise. -/
def State.Waits (c : Config) (s : State) : Request → Prop
  | .getProcess desc started => (c.max : Int) ≤ s.count → (s.getProcess c desc started).raised = false
  | _ => True

/-- The bounds hold in every state of a run, and every request at the limit waits. -/
def Bounded (c : Config) (started : Fin c.min → Option Gpid) (requests : List Request) : Prop :=
  (c.init started).InBounds c ∧ ∀ t ∈ Library.turns (State.next c) (c.init started) requests,
    (State.next c t.1 t.2).InBounds c ∧ t.1.Waits c t.2

/-- The request creates no worker, stops none, and is not left without one at the limit. -/
def State.Spares (c : Config) (s : State) : Request → Prop
  | .getProcess _ started =>
    match s.dataq with
    | [] => s.count < c.max ∧ started = none
    | p :: _ => s.count < c.max ∨ s.entry p ≠ none
  | .put _ => True
  | .startProcesses nums started => ∀ n ∈ nums, s.turns c n = 0 ∨ started 0 = none
  | .stopProcesses gpids => ∀ gpid ∈ gpids, s.processes gpid = none

def State.Idle (s : State) : Prop := s.live = [] ∧ s.count = 0

variable {c : Config} {s : State}

theorem State.Idle.inBounds (h : s.Idle) : s.InBounds c := by
  simp [State.InBounds, h.1, h.2]

theorem inBounds_iff (hcount : s.count = 0) : s.InBounds c ↔ s.live = [] := by
  constructor
  · intro h
    have hlength := h.1
    rw [hcount] at hlength
    exact List.length_eq_zero_iff.mp (by exact_mod_cast hlength)
  · exact fun h => State.Idle.inBounds ⟨h, hcount⟩

@[simp] theorem createProcess_count (s : State) (started : Option Gpid) :
    (s.createProcess started).count = s.count := by
  cases started <;> rfl

theorem createProcess_live (s : State) (started : Option Gpid) :
    (s.createProcess started).live = s.live ++ started.toList := by
  cases started <;> simp [State.createProcess]

theorem foldl_createProcess (started : List (Option Gpid)) (s : State) :
    (started.foldl State.createProcess s).count = s.count ∧
      (started.foldl State.createProcess s).live = s.live ++ started.flatMap Option.toList := by
  induction started generalizing s with
  | nil => simp
  | cons g started ih =>
    obtain ⟨hcount, hlive⟩ := ih (s.createProcess g)
    simp [hcount, hlive, createProcess_live]

theorem init_inBounds_iff (started : Fin c.min → Option Gpid) :
    (c.init started).InBounds c ↔ ∀ i, started i = none := by
  obtain ⟨hcount, hlive⟩ := foldl_createProcess (List.ofFn started) .empty
  rw [Config.init, inBounds_iff (by rw [hcount]; rfl), hlive]
  simp only [State.empty, List.nil_append, List.flatMap_eq_nil_iff, Option.toList_eq_nil_iff, List.forall_mem_ofFn_iff]

theorem startLoop_count (s : State) (started : ℕ → Option Gpid) (i n : ℕ) :
    (s.startLoop started i n).pool.count = s.count := by
  induction n generalizing s i with
  | zero => rfl
  | succ n ih =>
    rw [State.startLoop]
    cases started i with
    | none => rfl
    | some gpid => exact (ih _ _).trans (createProcess_count _ _)

theorem startLoop_prefix (s : State) (started : ℕ → Option Gpid) (i n : ℕ) :
    s.live <+: (s.startLoop started i n).pool.live := by
  induction n generalizing s i with
  | zero => exact List.prefix_rfl
  | succ n ih =>
    rw [State.startLoop]
    cases started i with
    | none => exact List.prefix_rfl
    | some gpid =>
      have hcreated : s.live <+: (s.createProcess (some gpid)).live := ⟨[gpid], rfl⟩
      exact hcreated.trans (ih _ _)

theorem startLoop_live_nil (hlive : s.live = []) (started : ℕ → Option Gpid) (n : ℕ) :
    (s.startLoop started 0 n).pool.live = [] ↔ n = 0 ∨ started 0 = none := by
  cases n with
  | zero => simp [State.startLoop, hlive]
  | succ n =>
    rw [State.startLoop]
    cases hstarted : started 0 with
    | none => simp [hlive]
    | some gpid =>
      have hmore := startLoop_prefix (s.createProcess (some gpid)) started 1 n
      simp only [Nat.succ_ne_zero, reduceCtorEq, or_self, iff_false]
      intro hnil
      rw [hnil] at hmore
      simp [State.createProcess] at hmore

theorem foldl_stopProcess_of_none {gpids : List Gpid} (h : ∀ gpid ∈ gpids, s.processes gpid = none) (n : ℕ) :
    gpids.foldl State.stopProcess (s, n) = (s, n) := by
  induction gpids with
  | nil => rfl
  | cons gpid gpids ih =>
    obtain ⟨hgpid, hrest⟩ := List.forall_mem_cons.mp h
    rw [List.foldl_cons, State.stopProcess, hgpid]
    exact ih hrest

theorem foldl_stopProcess_le (gpids : List Gpid) (r : State × ℕ) : r.2 ≤ (gpids.foldl State.stopProcess r).2 := by
  induction gpids generalizing r with
  | nil => exact le_rfl
  | cons gpid gpids ih =>
    refine le_trans ?_ (ih _)
    rw [State.stopProcess]
    split
    · exact le_rfl
    · exact Nat.le_succ _

theorem foldl_stopProcess_pos {gpids : List Gpid} {gpid : Gpid} (hmem : gpid ∈ gpids) (h : s.processes gpid ≠ none) :
    0 < (gpids.foldl State.stopProcess (s, 0)).2 := by
  induction gpids with
  | nil => cases hmem
  | cons g gpids ih =>
    rw [List.foldl_cons, State.stopProcess]
    cases hg : s.processes g with
    | none =>
      refine ih ((List.mem_cons.mp hmem).resolve_left ?_)
      rintro rfl
      exact h hg
    | some _ => exact Nat.lt_of_lt_of_le Nat.zero_lt_one (foldl_stopProcess_le gpids (_, 1))

theorem foldl_stopProcess_count (gpids : List Gpid) (r : State × ℕ) :
    (gpids.foldl State.stopProcess r).1.count = r.1.count := by
  induction gpids generalizing r with
  | nil => rfl
  | cons gpid gpids ih =>
    refine (ih _).trans ?_
    rw [State.stopProcess]
    split <;> rfl

/-- A pool without workers keeps the bounds as long as it is spared. -/
theorem next_inBounds_iff (h : s.Idle) (r : Request) :
    ((s.next c r).InBounds c ∧ s.Waits c r) ↔ s.Spares c r := by
  obtain ⟨hlive, hcount⟩ := h
  have hmax : ((c.max : Int) ≤ s.count) ↔ ¬ s.count < c.max := not_lt.symm
  cases r with
  | getProcess desc started =>
    simp only [State.next, State.handle, State.Waits, State.Spares, State.getProcess, hmax]
    cases hq : s.dataq with
    | nil =>
      dsimp only
      by_cases hlt : s.count < c.max
      · simp only [hlt, if_true, not_true, false_imp_iff, and_true, true_and]
        rw [inBounds_iff (by simpa using hcount), createProcess_live]
        simp [hlive]
      · simp [hlt]
    | cons p dataq =>
      have hidle : ∀ processes trace,
          ({ s with dataq := dataq, processes := processes, trace := trace } : State).InBounds c :=
        fun _ _ => State.Idle.inBounds ⟨hlive, hcount⟩
      cases p with
      | none =>
        have hsame := hidle s.processes s.trace
        simp [State.entry, hsame]
      | some gpid =>
        cases hentry : s.processes gpid with
        | none =>
          have hsame := hidle s.processes s.trace
          simp [State.entry, hentry, hsame]
        | some status =>
          simp [State.entry, hentry, hidle]
  | put params =>
    have hidle : (s.put params).pool.Idle := by
      rw [State.put.eq_def]
      split
      · exact ⟨hlive, hcount⟩
      · next p =>
        cases p <;> dsimp only <;> split <;> exact ⟨hlive, hcount⟩
    simpa [State.next, State.handle, State.Waits, State.Spares] using hidle.inBounds
  | startProcesses nums started =>
    simp only [State.next, State.handle, State.Waits, State.Spares, State.startProcesses, and_true]
    cases nums with
    | none => simpa using State.Idle.inBounds ⟨hlive, hcount⟩
    | some n =>
      dsimp only
      rw [inBounds_iff (by rw [startLoop_count, hcount]), startLoop_live_nil hlive]
      simp
  | stopProcesses gpids =>
    simp only [State.next, State.handle, State.Waits, State.Spares, State.stopProcesses, and_true]
    constructor
    · intro hbounds gpid hmem
      by_contra hne
      have hpos := foldl_stopProcess_pos hmem hne
      have hlength := hbounds.1
      simp only [foldl_stopProcess_count, hcount] at hlength
      omega
    · intro hnone
      rw [foldl_stopProcess_of_none hnone]
      exact State.Idle.inBounds ⟨hlive, by simp [hcount]⟩

theorem next_idle (h : s.Idle) (r : Request) (hbounds : (s.next c r).InBounds c ∧ s.Waits c r) : (s.next c r).Idle := by
  have hcount : (s.next c r).count = 0 := by
    have hspares := (next_inBounds_iff h r).mp hbounds
    cases r with
    | getProcess desc started =>
      simp only [State.next, State.handle, State.getProcess]
      split
      · split <;> simp [h.2]
      · split
        · exact h.2
        · split <;> exact h.2
    | put params =>
      simp only [State.next, State.handle]
      rw [State.put.eq_def]
      split
      · exact h.2
      · next p =>
        cases p <;> dsimp only <;> split <;> exact h.2
    | startProcesses nums started =>
      simp only [State.next, State.handle, State.startProcesses]
      split
      · exact h.2
      · rw [startLoop_count, h.2]
    | stopProcesses gpids =>
      simp only [State.next, State.handle, State.stopProcesses, foldl_stopProcess_of_none hspares]
      simp [h.2]
  exact ⟨(inBounds_iff hcount).mp hbounds.1, hcount⟩

/-- The pool counts no worker that it creates, so the bounds hold if and only if it
never has one. -/
theorem bounded_iff (c : Config) (started : Fin c.min → Option Gpid) (requests : List Request) :
    Bounded c started requests ↔ (∀ i, started i = none) ∧
      ∀ t ∈ Library.turns (State.next c) (c.init started) requests, t.1.Spares c t.2 := by
  rw [Bounded, init_inBounds_iff]
  refine and_congr_right fun hnone => ?_
  have hidle : (c.init started).Idle := by
    obtain ⟨hcount, -⟩ := foldl_createProcess (List.ofFn started) .empty
    exact ⟨(inBounds_iff (hcount.trans rfl)).mp ((init_inBounds_iff started).mpr hnone), hcount.trans rfl⟩
  exact forall_turns_iff (I := State.Idle) (fun s r hs => next_inBounds_iff hs r) (fun s r hs hg => next_idle hs r hg)
    requests hidle

/-- The worker of the start-up is not counted; with a limit of 0 a `get_process` raises. -/
theorem worker_not_counted :
    ¬ Bounded ⟨1, 1, le_rfl⟩ (fun _ => some 7) [] ∧
      ∀ desc, ¬ Bounded ⟨0, 0, le_rfl⟩ (fun _ => none) [.getProcess desc none] := by
  constructor
  · intro h
    have hnone := (init_inBounds_iff _).mp h.1 0
    cases hnone
  · intro desc h
    have hwaits := (h.2 _ List.mem_cons_self).2 le_rfl
    cases hwaits

-- ---------------------------------------------------------------------------
-- What happened to a worker
-- ---------------------------------------------------------------------------

/-- The worker was stopped, and no other one was created under its gpid since. -/
def Stopped (trace : List Event) (gpid : Gpid) : Prop :=
  ∃ before after, trace = before ++ .stopped gpid :: after ∧ .created gpid ∉ after

/-- The worker was put, and given to no customer since. -/
def Waiting (trace : List Event) (gpid : Gpid) : Prop :=
  ∃ before after, trace = before ++ .put gpid :: after ∧ ∀ customer, .handed customer gpid ∉ after

/-- No worker is handed out that was stopped, and none a second time before it is put. -/
structure Honest (trace : List Event) : Prop where
  running : ∀ before customer gpid after, trace = before ++ .handed customer gpid :: after → ¬ Stopped before gpid
  once : ∀ before customer gpid between customer' after,
    trace = before ++ .handed customer gpid :: (between ++ .handed customer' gpid :: after) → .put gpid ∈ between

variable {trace : List Event} {e : Event} {gpid : Gpid}

theorem concat_eq {α : Type} {l before after : List α} {x y : α} (h : l ++ [x] = before ++ y :: after) :
    (after = [] ∧ l = before ∧ x = y) ∨ ∃ rest, after = rest ++ [x] ∧ l = before ++ y :: rest := by
  rcases List.eq_nil_or_concat after with rfl | ⟨rest, z, rfl⟩
  · obtain ⟨rfl, hx⟩ := List.append_inj' h rfl
    exact .inl ⟨rfl, rfl, List.singleton_inj.mp hx⟩
  · have hassoc : l ++ [x] = (before ++ y :: rest) ++ [z] := by simpa using h
    obtain ⟨rfl, hx⟩ := List.append_inj' hassoc rfl
    rw [List.singleton_inj.mp hx]
    exact .inr ⟨rest, by simp, rfl⟩

theorem stopped_concat :
    Stopped (trace ++ [e]) gpid ↔ e = .stopped gpid ∨ (e ≠ .created gpid ∧ Stopped trace gpid) := by
  constructor
  · rintro ⟨before, after, heq, hafter⟩
    rcases concat_eq heq with ⟨rfl, rfl, rfl⟩ | ⟨rest, rfl, rfl⟩
    · exact .inl rfl
    · rw [List.mem_append, List.mem_singleton, not_or] at hafter
      exact .inr ⟨Ne.symm hafter.2, before, rest, rfl, hafter.1⟩
  · rintro (rfl | ⟨hne, before, after, rfl, hafter⟩)
    · exact ⟨trace, [], rfl, List.not_mem_nil⟩
    · refine ⟨before, after ++ [e], by simp, ?_⟩
      rw [List.mem_append, List.mem_singleton, not_or]
      exact ⟨hafter, Ne.symm hne⟩

theorem waiting_concat :
    Waiting (trace ++ [e]) gpid ↔ e = .put gpid ∨ ((∀ customer, e ≠ .handed customer gpid) ∧ Waiting trace gpid) := by
  constructor
  · rintro ⟨before, after, heq, hafter⟩
    rcases concat_eq heq with ⟨rfl, rfl, rfl⟩ | ⟨rest, rfl, rfl⟩
    · exact .inl rfl
    · refine .inr ⟨fun customer he => hafter customer (by simp [he]), before, rest, rfl, fun customer hmem => ?_⟩
      exact hafter customer (List.mem_append_left _ hmem)
  · rintro (rfl | ⟨hne, before, after, rfl, hafter⟩)
    · exact ⟨trace, [], rfl, fun _ => List.not_mem_nil⟩
    · refine ⟨before, after ++ [e], by simp, fun customer hmem => ?_⟩
      rcases List.mem_append.mp hmem with hmem | hmem
      · exact hafter customer hmem
      · exact hne customer (List.mem_singleton.mp hmem).symm

theorem honest_nil : Honest [] :=
  ⟨by simp, by simp⟩

/-- A handout is honest when the worker waits and was not stopped. -/
theorem Honest.concat (h : Honest trace)
    (he : ∀ customer gpid, e = .handed customer gpid → ¬ Stopped trace gpid ∧ Waiting trace gpid) :
    Honest (trace ++ [e]) := by
  refine ⟨fun before customer gpid after heq => ?_, fun before customer gpid between customer' after heq => ?_⟩
  · rcases concat_eq heq with ⟨rfl, rfl, rfl⟩ | ⟨rest, rfl, rfl⟩
    · exact (he customer gpid rfl).1
    · exact h.running before customer gpid rest rfl
  · have hassoc : trace ++ [e] = (before ++ .handed customer gpid :: between) ++ .handed customer' gpid :: after := by
      simpa using heq
    rcases concat_eq hassoc with ⟨rfl, rfl, rfl⟩ | ⟨rest, rfl, rfl⟩
    · -- the put since which it waits comes after the first handout
      obtain ⟨left, right, hput, hright⟩ := (he customer' gpid rfl).2
      rcases List.append_eq_append_iff.mp hput with ⟨mid, rfl, hmid⟩ | ⟨mid, rfl, hmid⟩
      · cases mid with
        | nil => simp at hmid
        | cons x mid =>
          obtain ⟨rfl, rfl⟩ := List.cons.inj hmid
          exact List.mem_append_right _ List.mem_cons_self
      · cases mid with
        | nil => simp at hmid
        | cons x mid =>
          obtain ⟨-, rfl⟩ := List.cons.inj hmid
          exact absurd (List.mem_append_right _ List.mem_cons_self) (hright customer)
    · exact h.once before customer gpid between customer' rest (by simp)

-- ---------------------------------------------------------------------------
-- Handouts
-- ---------------------------------------------------------------------------

/-- A worker that is put was not stopped and does not wait in the queue already. -/
def State.Returns (s : State) : Request → Prop
  | .put (some (some gpid)) => ¬ Stopped s.trace gpid ∧ some gpid ∉ s.dataq
  | _ => True

/-- What holds between two requests. -/
structure State.Clean (s : State) : Prop where
  honest : Honest s.trace
  running : ∀ gpid, s.processes gpid ≠ none → ¬ Stopped s.trace gpid
  waiting : ∀ gpid, some gpid ∈ s.dataq → Waiting s.trace gpid
  distinct : ∀ gpid, s.dataq.count (some gpid) ≤ 1

theorem clean_empty : State.empty.Clean :=
  ⟨honest_nil, by simp [State.empty], by simp [State.empty], by simp [State.empty]⟩

theorem State.Clean.of_eq {t : State} (h : s.Clean) (htrace : t.trace = s.trace)
    (hprocesses : t.processes = s.processes) (hdataq : t.dataq = s.dataq) : t.Clean :=
  ⟨htrace ▸ h.honest, by rw [htrace, hprocesses]; exact h.running, by rw [htrace, hdataq]; exact h.waiting,
    by rw [hdataq]; exact h.distinct⟩

theorem State.Clean.createProcess (h : s.Clean) (started : Option Gpid) : (s.createProcess started).Clean := by
  cases started with
  | none => exact h
  | some g =>
    refine ⟨h.honest.concat (by simp), fun gpid hentry => ?_, fun gpid hmem => ?_, h.distinct⟩
    · intro hstopped
      rcases stopped_concat.mp hstopped with he | ⟨-, hbefore⟩
      · cases he
      · exact h.running gpid hentry hbefore
    · exact waiting_concat.mpr (.inr ⟨by simp, h.waiting gpid hmem⟩)

theorem State.Clean.tail {p : Item} {dataq : List Item} (h : s.Clean) (hq : s.dataq = p :: dataq) :
    ({ s with dataq := dataq } : State).Clean := by
  refine ⟨h.honest, h.running, fun gpid hmem => h.waiting gpid (hq ▸ List.mem_cons_of_mem _ hmem), fun gpid => ?_⟩
  exact (List.count_le_count_cons ..).trans (hq ▸ h.distinct gpid)

theorem State.Clean.getProcess (h : s.Clean) (desc : Desc) (started : Option Gpid) :
    (s.getProcess c desc started).pool.Clean := by
  rw [State.getProcess]
  cases hq : s.dataq with
  | nil =>
    have hqueued : ({ s with dataq := [], customerq := s.customerq ++ [desc] } : State).Clean :=
      h.of_eq rfl rfl hq.symm
    dsimp only
    split
    · exact hqueued.createProcess started
    · exact hqueued
  | cons p dataq =>
    have htail := h.tail hq
    cases p with
    | none => exact htail
    | some g =>
      cases hentry : s.processes g with
      | none => simpa only [hentry] using htail
      | some status =>
        simp only [hentry]
        have hwaiting := h.waiting g (hq ▸ List.mem_cons_self)
        have hrunning := h.running g (by simp [hentry])
        refine ⟨h.honest.concat fun customer gpid he => ?_, fun gpid hne hstopped => ?_, fun gpid hmem => ?_,
          htail.distinct⟩
        · obtain ⟨-, rfl⟩ := Event.handed.inj he
          exact ⟨hrunning, hwaiting⟩
        · rcases stopped_concat.mp hstopped with he | ⟨-, hbefore⟩
          · cases he
          · rcases eq_or_ne gpid g with rfl | hg
            · exact hrunning hbefore
            · exact h.running gpid (by simpa [update_of_ne hg] using hne) hbefore
        · -- the worker that was handed out is not in the queue any more
          refine waiting_concat.mpr (.inr ⟨?_, htail.waiting gpid hmem⟩)
          rintro customer he
          obtain ⟨-, rfl⟩ := Event.handed.inj he
          have hcount := h.distinct g
          rw [hq, List.count_cons_self] at hcount
          have hpos : 0 < dataq.count (some g) := List.count_pos_iff.mpr hmem
          omega

theorem State.Clean.onPut (h : s.Clean) (hstopped : ¬ Stopped s.trace gpid) : (s.onPut (some gpid)).Clean := by
  refine ⟨h.honest.concat (by simp), fun g hne hstop => ?_, fun g hmem => ?_, h.distinct⟩
  · rcases stopped_concat.mp hstop with he | ⟨-, hbefore⟩
    · cases he
    · rcases eq_or_ne g gpid with rfl | hg
      · exact hstopped hbefore
      · exact h.running g (by simpa [State.onPut, update_of_ne hg] using hne) hbefore
  · exact waiting_concat.mpr (.inr ⟨by simp, h.waiting g hmem⟩)

theorem State.Clean.put (h : s.Clean) (params : Option Item) (hok : s.Returns (.put params)) :
    (s.put params).pool.Clean := by
  cases params with
  | none => exact h
  | some p =>
    cases p with
    | none =>
      simp only [State.put, State.onPut, State.hand]
      split
      · refine ⟨h.honest, h.running, fun gpid hmem => h.waiting gpid ?_, fun gpid => ?_⟩
        · simpa using hmem
        · simpa [List.count_append] using h.distinct gpid
      · exact h.of_eq rfl rfl rfl
    | some g =>
      obtain ⟨hstopped, hnew⟩ := hok
      have hput := h.onPut hstopped
      have hwaiting : Waiting (s.onPut (some g)).trace g := waiting_concat.mpr (.inl rfl)
      have hrunning : ¬ Stopped (s.onPut (some g)).trace g := hput.running g (by simp [State.onPut])
      simp only [State.put]
      split
      · refine ⟨hput.honest, hput.running, fun gpid hmem => ?_, fun gpid => ?_⟩
        · rcases List.mem_append.mp hmem with hmem | hmem
          · exact hput.waiting gpid hmem
          · obtain rfl : gpid = g := by simpa using hmem
            exact hwaiting
        · rcases eq_or_ne gpid g with rfl | hg
          · have hzero : s.dataq.count (some gpid) = 0 := List.count_eq_zero.mpr hnew
            simp [State.onPut, List.count_append, hzero]
          · have hne : (some g : Item) ≠ some gpid := by simpa using hg.symm
            simpa [State.onPut, List.count_append, List.count_singleton, hne] using h.distinct gpid
      · next customer customerq hcustomers =>
        refine ⟨hput.honest.concat fun customer gpid he => ?_, fun gpid hne hstop => ?_, fun gpid hmem => ?_,
          hput.distinct⟩
        · obtain ⟨-, rfl⟩ := Event.handed.inj he
          exact ⟨hrunning, hwaiting⟩
        · rcases stopped_concat.mp hstop with he | ⟨-, hbefore⟩
          · cases he
          · exact hput.running gpid hne hbefore
        · refine waiting_concat.mpr (.inr ⟨?_, hput.waiting gpid hmem⟩)
          rintro customer he
          obtain ⟨-, rfl⟩ := Event.handed.inj he
          exact hnew hmem

theorem State.Clean.startLoop (h : s.Clean) (started : ℕ → Option Gpid) (i n : ℕ) :
    (s.startLoop started i n).pool.Clean := by
  induction n generalizing s i with
  | zero => exact h
  | succ n ih =>
    rw [State.startLoop]
    cases started i with
    | none => exact h
    | some gpid => exact ih (h.createProcess (some gpid)) (i + 1)

theorem State.Clean.stopProcess {r : State × ℕ} (h : r.1.Clean) (gpid : Gpid) : (State.stopProcess r gpid).1.Clean := by
  rw [State.stopProcess]
  split
  · exact h
  · refine ⟨h.honest.concat (by simp), fun g hne hstop => ?_, fun g hmem => ?_, h.distinct⟩
    · rcases eq_or_ne g gpid with rfl | hg
      · simp at hne
      · rcases stopped_concat.mp hstop with he | ⟨-, hbefore⟩
        · exact hg (Event.stopped.inj he).symm
        · exact h.running g (by simpa [update_of_ne hg] using hne) hbefore
    · exact waiting_concat.mpr (.inr ⟨by simp, h.waiting g hmem⟩)

theorem State.Clean.foldl_stopProcess (gpids : List Gpid) {r : State × ℕ} (h : r.1.Clean) :
    (gpids.foldl State.stopProcess r).1.Clean := by
  induction gpids generalizing r with
  | nil => exact h
  | cons gpid gpids ih => exact ih (h.stopProcess gpid)

theorem State.Clean.next (h : s.Clean) (r : Request) (hok : s.Returns r) : (s.next c r).Clean := by
  cases r with
  | getProcess desc started => exact h.getProcess desc started
  | put params => exact h.put params hok
  | startProcesses nums started =>
    cases nums with
    | none => exact h
    | some n => exact h.startLoop started 0 _
  | stopProcesses gpids => exact (State.Clean.foldl_stopProcess gpids h).of_eq rfl rfl rfl

theorem clean_init (c : Config) (started : Fin c.min → Option Gpid) : (c.init started).Clean := by
  have hloop : ∀ (l : List (Option Gpid)) (s : State), s.Clean → (l.foldl State.createProcess s).Clean := by
    intro l
    induction l with
    | nil => exact fun s h => h
    | cons g l ih => exact fun s h => ih _ (h.createProcess g)
  exact hloop _ _ clean_empty

/-- In a run in which no worker is put after it was stopped, or twice in a row, no
worker is handed out that was stopped, or to two customers. -/
theorem handouts_honest (c : Config) (started : Fin c.min → Option Gpid) (requests : List Request)
    (h : ∀ t ∈ Library.turns (State.next c) (c.init started) requests, t.1.Returns t.2) :
    Honest (requests.foldl (State.next c) (c.init started)).trace :=
  (foldl_invariant (I := State.Clean) (fun _ r hs hok => hs.next r hok) requests (clean_init c started) h).honest

def someCustomer : Desc := ⟨⟨"", 0, 40⟩, ⟨1, 0⟩⟩

def otherCustomer : Desc := ⟨⟨"", 0, 41⟩, ⟨2, 0⟩⟩

theorem not_stopped {trace : List Event} {gpid : Gpid} (h : .stopped gpid ∉ trace) : ¬ Stopped trace gpid := by
  rintro ⟨before, after, rfl, -⟩
  exact h (List.mem_append_right _ List.mem_cons_self)

/-- A worker is handed out, put back and stopped. Another customer is refused where the stopped
worker stands in the queue, and gets the next one when it asks again. -/
def stoppingRun : List Request :=
  [.put (some (some 7)), .getProcess someCustomer none, .put (some (some 7)), .stopProcesses [7], .put (some (some 8)),
    .getProcess otherCustomer none, .getProcess otherCustomer none]

def stoppingPool : State :=
  stoppingRun.foldl (State.next ⟨0, 1, Nat.zero_le 1⟩) (Config.init ⟨0, 1, Nat.zero_le 1⟩ fun _ => none)

theorem handouts_two_customers :
    stoppingPool.trace =
        [.put 7, .handed someCustomer 7, .put 7, .stopped 7, .put 8, .handed otherCustomer 8] ∧
      Honest stoppingPool.trace := by
  refine ⟨by decide, handouts_honest ⟨0, 1, Nat.zero_le 1⟩ (fun _ => none) stoppingRun ?_⟩
  simp only [stoppingRun, Library.turns, List.forall_mem_cons]
  exact ⟨⟨not_stopped (by decide), by decide⟩, trivial, ⟨not_stopped (by decide), by decide⟩, trivial,
    ⟨not_stopped (by decide), by decide⟩, trivial, trivial, List.forall_mem_nil _⟩

/-- A worker that puts itself back after it was stopped is handed out, and a worker that
is put twice goes to two customers. -/
theorem stopped_worker_handed :
    ¬ Honest ([Request.put (some (some 7)), .stopProcesses [7], .put (some (some 7)),
        .getProcess someCustomer none].foldl (State.next ⟨0, 1, Nat.zero_le 1⟩)
          (Config.init ⟨0, 1, Nat.zero_le 1⟩ fun _ => none)).trace ∧
      ¬ Honest ([Request.put (some (some 7)), .put (some (some 7)), .getProcess someCustomer none,
        .getProcess someCustomer none].foldl (State.next ⟨0, 1, Nat.zero_le 1⟩)
          (Config.init ⟨0, 1, Nat.zero_le 1⟩ fun _ => none)).trace := by
  constructor
  · intro h
    refine h.running [.put 7, .stopped 7, .put 7] someCustomer 7 [] rfl ⟨[.put 7], [.put 7], rfl, ?_⟩
    simp
  · intro h
    have hput := h.once [.put 7, .put 7] someCustomer 7 [] someCustomer [] rfl
    cases hput

end GalaLua.Frameworks.Pool
