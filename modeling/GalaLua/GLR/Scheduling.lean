import GalaLua.GLR.Mailbox
import Mathlib.Data.Fintype.Card

/-!
# Who may put a process into the run queue

An `Agenda` is what the scheduler knows of one process: how often it is queued,
what each thread is to it, whether it waits or has yielded, and its tick. One
turn to run is passed on between the queue, the workers and the completers as
long as a worker that has left `Resume` acts on the state it left behind.
`Processor::Run` does not see to that: it reads `State()` when `_IntLock` is
free again. `agenda_move` says that a step of the runtime is a step of the
agenda of each process, unless a worker finds the `YIELD` of a later `Resume`.
-/

namespace GalaLua.GLR

open Library (Reach Free)

-- ---------------------------------------------------------------------------
-- The turn of one process
-- ---------------------------------------------------------------------------

/-- What a thread is to a process: about to run or to queue it, inside `Resume`,
or past a `Resume` that ended with a tick, before it tests `State()`. -/
inductive Role
  | ready
  | running
  | testing (tick : Nat)
  deriving DecidableEq, Repr

inductive Mode
  | waiting
  | yielded
  | other
  deriving DecidableEq, Repr

structure Agenda (τ : Type*) where
  queued : Nat
  role : τ → Option Role
  mode : Mode
  tick : Nat

section

variable {τ : Type*} {a a' : Agenda τ} {t : τ}

def Agenda.Has (a : Agenda τ) (t : τ) : Prop :=
  a.role t = some .ready ∨ a.role t = some .running

structure Sole (a : Agenda τ) : Prop where
  queue : a.queued ≤ 1
  queued : 0 < a.queued → ∀ t, ¬a.Has t
  one : ∀ t t', a.Has t → a.Has t' → t = t'
  waiting : a.mode = .waiting → a.queued = 0 ∧ ∀ t, a.role t ≠ some .ready
  tested : ∀ t k, a.role t = some (.testing k) → k ≤ a.tick
  later : ∀ t t' k, a.role t = some .running → a.role t' = some (.testing k) → k < a.tick
  tests : ∀ t t' k, a.role t = some (.testing k) → a.role t' = some (.testing k) → t = t'
  yielded : ∀ t, a.role t = some (.testing a.tick) → a.mode = .yielded →
    a.queued = 0 ∧ ∀ t', ¬a.Has t'

namespace Sole

theorem queued_eq (h : Sole a) (ht : a.Has t) : a.queued = 0 := by
  by_contra hne
  exact h.queued (Nat.pos_of_ne_zero hne) t ht

/-- The worker has the turn: it is the only one, and not in the queue. -/
theorem set (h : Sole a) (ht : a.role t = some .running) (m : Mode) : Sole { a with mode := m } := by
  have hready : ∀ t', a.role t' ≠ some .ready := by
    intro t' ht'
    obtain rfl := h.one t' t (.inl ht') (.inr ht)
    cases ht.symm.trans ht'
  exact ⟨h.queue, h.queued, h.one, fun _ => ⟨h.queued_eq (.inr ht), hready⟩, h.tested, h.later, h.tests,
    fun t' ht' _ => absurd (h.later t t' _ ht ht') (lt_irrefl _)⟩

theorem enqueue (h : Sole a) (hzero : a.queued = 0) (hnone : ∀ t, ¬a.Has t) (hmode : a.mode ≠ .waiting)
    (hyield : ∀ t, a.role t = some (.testing a.tick) → a.mode ≠ .yielded) :
    Sole { a with queued := a.queued + 1 } :=
  ⟨by rw [hzero], fun _ => hnone, h.one, fun hm => absurd hm hmode, h.tested, h.later, h.tests,
    fun t' ht' hm => absurd hm (hyield t' ht')⟩

end Sole

variable [DecidableEq τ]

inductive Turn (a : Agenda τ) : Agenda τ → Prop
  | create (t : τ) : a.queued = 0 → (∀ t, a.role t = none) →
      Turn a { a with role := Function.update a.role t (some .ready), mode := .other, tick := 0 }
  | put (t : τ) : a.role t = some .ready →
      Turn a { a with queued := a.queued + 1, role := Function.update a.role t none }
  | get (t : τ) (q : Nat) : a.queued = q + 1 →
      Turn a { a with queued := q, role := Function.update a.role t (some .ready) }
  | resume (t : τ) : a.role t = some .ready →
      Turn a { a with
        role := Function.update a.role t (some .running), mode := .other, tick := a.tick + 1 }
  | set (t : τ) (m : Mode) : a.role t = some .running → Turn a { a with mode := m }
  | leave (t : τ) (m : Mode) : a.role t = some .running →
      Turn a { a with role := Function.update a.role t (some (.testing a.tick)), mode := m }
  | drop (t : τ) : Turn a { a with role := Function.update a.role t none }
  | stop (t : τ) : a.role t = some .running →
      Turn a { a with role := Function.update a.role t none, mode := .other }
  | wake : a.mode = .waiting → (∀ t, a.role t ≠ some .running) →
      Turn a { a with queued := a.queued + 1, mode := .other }
  | again (t : τ) : a.role t = some (.testing a.tick) → a.mode = .yielded →
      Turn a { a with role := Function.update a.role t (some .ready) }

theorem role_update {t' : τ} {v : Option Role} {r : Role}
    (h : Function.update a.role t v t' = some r) :
    (t' = t ∧ v = some r) ∨ (t' ≠ t ∧ a.role t' = some r) := by
  by_cases ht : t' = t
  · subst ht
    exact .inl ⟨rfl, (Function.update_self t' v a.role).symm.trans h⟩
  · exact .inr ⟨ht, (Function.update_of_ne ht v a.role).symm.trans h⟩

namespace Sole

theorem drop (h : Sole a) (t : τ) : Sole { a with role := Function.update a.role t none } := by
  have hrole : ∀ t' r, Function.update a.role t none t' = some r → a.role t' = some r := by
    intro t' r hr
    obtain ⟨-, hnone⟩ | ⟨-, hr⟩ := role_update hr
    · cases hnone
    · exact hr
  have hhas : ∀ t', Agenda.Has { a with role := Function.update a.role t none } t' → a.Has t' :=
    fun t' => Or.imp (hrole t' _) (hrole t' _)
  refine ⟨h.queue, fun hq t' ht' => h.queued hq t' (hhas t' ht'),
    fun t' t'' ht' ht'' => h.one t' t'' (hhas t' ht') (hhas t'' ht''), fun hm => ?_,
    fun t' k ht' => h.tested t' k (hrole t' _ ht'),
    fun t' t'' k ht' ht'' => h.later t' t'' k (hrole t' _ ht') (hrole t'' _ ht''),
    fun t' t'' k ht' ht'' => h.tests t' t'' k (hrole t' _ ht') (hrole t'' _ ht''), fun t' ht' hm => ?_⟩
  · obtain ⟨hzero, hready⟩ := h.waiting hm
    exact ⟨hzero, fun t' ht' => hready t' (hrole t' _ ht')⟩
  · obtain ⟨hzero, hnone⟩ := h.yielded t' (hrole t' _ ht') hm
    exact ⟨hzero, fun t'' ht'' => hnone t'' (hhas t'' ht'')⟩

theorem leave (h : Sole a) (ht : a.role t = some .running) :
    Sole { a with role := Function.update a.role t (some (.testing a.tick)) } := by
  have hnone : ∀ t', ¬Agenda.Has { a with role := Function.update a.role t (some (.testing a.tick)) } t' := by
    rintro t' (hr | hr) <;> obtain ⟨-, hr⟩ | ⟨hne, hr⟩ := role_update hr
    · cases hr
    · exact hne (h.one t' t (.inl hr) (.inr ht))
    · cases hr
    · exact hne (h.one t' t (.inr hr) (.inr ht))
  have hzero := h.queued_eq (.inr ht)
  refine ⟨h.queue, fun _ => hnone, fun t' _ ht' _ => absurd ht' (hnone t'),
    fun _ => ⟨hzero, fun t' ht' => hnone t' (.inl ht')⟩, fun t' k hk => ?_,
    fun t' _ _ ht' _ => absurd (.inr ht') (hnone t'), fun t' t'' k hk hk' => ?_,
    fun _ _ _ => ⟨hzero, hnone⟩⟩
  · obtain ⟨-, hk⟩ | ⟨-, hk⟩ := role_update hk
    · cases hk
      exact Nat.le_refl _
    · exact h.tested t' k hk
  · obtain ⟨heq, hnew⟩ | ⟨-, hold⟩ := role_update hk <;>
      obtain ⟨heq', hnew'⟩ | ⟨-, hold'⟩ := role_update hk'
    · exact heq.trans heq'.symm
    · cases hnew
      exact absurd (h.later t t'' _ ht hold') (lt_irrefl _)
    · cases hnew'
      exact absurd (h.later t t' _ ht hold) (lt_irrefl _)
    · exact h.tests t' t'' k hold hold'

/-- A thread gets the turn that no other one has. -/
theorem lend (h : Sole a) {q : Nat} (hq : q = 0) (hnone : ∀ t, ¬a.Has t) (hmode : a.mode ≠ .waiting)
    (hyield : ∀ t', t' ≠ t → a.role t' = some (.testing a.tick) → a.mode ≠ .yielded) :
    Sole { a with queued := q, role := Function.update a.role t (some .ready) } := by
  have honly : ∀ t', Agenda.Has
      { a with queued := q, role := Function.update a.role t (some .ready) } t' → t' = t := by
    rintro t' (hr | hr) <;> obtain ⟨heq, -⟩ | ⟨-, hr⟩ := role_update hr
    · exact heq
    · exact absurd (.inl hr) (hnone t')
    · exact heq
    · exact absurd (.inr hr) (hnone t')
  have htesting : ∀ t' k, Function.update a.role t (some .ready) t' = some (.testing k) →
      t' ≠ t ∧ a.role t' = some (.testing k) := by
    intro t' k hk
    obtain ⟨-, hk⟩ | hk := role_update hk
    · cases hk
    · exact hk
  refine ⟨hq ▸ Nat.zero_le 1, fun hpos => absurd hq hpos.ne', fun t' t'' ht' ht'' =>
      (honly t' ht').trans (honly t'' ht'').symm, fun hm => absurd hm hmode,
    fun t' k hk => h.tested t' k (htesting t' k hk).2, fun t' t'' k ht' hk => ?_,
    fun t' t'' k hk hk' => h.tests t' t'' k (htesting t' k hk).2 (htesting t'' k hk').2,
    fun t' hk hm => absurd hm (hyield t' (htesting t' _ hk).1 (htesting t' _ hk).2)⟩
  obtain ⟨-, ht'⟩ | ⟨-, ht'⟩ := role_update ht'
  · cases ht'
  · exact absurd (.inr ht') (hnone t')

theorem resume (h : Sole a) (ht : a.role t = some .ready) :
    Sole { a with role := Function.update a.role t (some .running), mode := .other, tick := a.tick + 1 } := by
  have hhas : ∀ t', Agenda.Has { a with role := Function.update a.role t (some .running) } t' → t' = t := by
    rintro t' (hr | hr) <;> obtain ⟨heq, -⟩ | ⟨-, hr⟩ := role_update hr
    · exact heq
    · exact h.one t' t (.inl hr) (.inl ht)
    · exact heq
    · exact h.one t' t (.inr hr) (.inl ht)
  have htesting : ∀ t' k, Function.update a.role t (some .running) t' = some (.testing k) →
      a.role t' = some (.testing k) := by
    intro t' k hk
    obtain ⟨-, hk⟩ | ⟨-, hk⟩ := role_update hk
    · cases hk
    · exact hk
  exact ⟨h.queue, fun hpos => absurd (h.queued_eq (.inl ht)) hpos.ne',
    fun t' t'' ht' ht'' => (hhas t' ht').trans (hhas t'' ht'').symm, nofun,
    fun t' k hk => Nat.le_succ_of_le (h.tested t' k (htesting t' k hk)),
    fun _ t'' k _ hk => Nat.lt_succ_of_le (h.tested t'' k (htesting t'' k hk)),
    fun t' t'' k hk hk' => h.tests t' t'' k (htesting t' k hk) (htesting t'' k hk'), fun _ _ => nofun⟩

theorem turn (h : Sole a) (hs : Turn a a') : Sole a' := by
  cases hs with
  | create t hzero hroles =>
    have hnone : ∀ t, ¬a.Has t := by
      rintro t (ht | ht) <;> cases (hroles t).symm.trans ht
    have hfresh : Sole { a with mode := .other, tick := 0 } :=
      ⟨h.queue, h.queued, h.one, nofun, fun t k hk => (nomatch (hroles t).symm.trans hk),
        fun t _ _ ht => (nomatch (hroles t).symm.trans ht), h.tests, fun _ _ => nofun⟩
    exact hfresh.lend hzero hnone nofun fun _ _ _ => nofun
  | put t ht =>
    have hzero := h.queued_eq (.inl ht)
    refine (h.drop t).enqueue hzero ?_ (fun hm => (h.waiting hm).2 t ht) fun t' ht' hm => ?_
    · rintro t' (hr | hr) <;> obtain ⟨-, hr⟩ | ⟨hne, hr⟩ := role_update hr
      · cases hr
      · exact hne (h.one t' t (.inl hr) (.inl ht))
      · cases hr
      · exact hne (h.one t' t (.inr hr) (.inl ht))
    · obtain ⟨-, ht'⟩ | ⟨-, ht'⟩ := role_update ht'
      · cases ht'
      · exact (h.yielded t' ht' hm).2 t (.inl ht)
  | get t q hq =>
    have hpos : 0 < a.queued := hq ▸ Nat.succ_pos q
    have hle := h.queue
    refine h.lend (by omega) (h.queued hpos) (fun hm => ?_) fun t' _ ht' hm => ?_
    · exact absurd (h.waiting hm).1 hpos.ne'
    · exact absurd (h.yielded t' ht' hm).1 hpos.ne'
  | resume t ht => exact h.resume ht
  | set t m ht => exact h.set ht m
  | leave t m ht => exact (h.set ht m).leave ht
  | drop t => exact h.drop t
  | stop t ht => exact (h.set ht .other).drop t
  | wake hmode hrun =>
    -- a completer holds `_IntLock`, so nobody has the turn of a process that waits
    obtain ⟨hzero, hready⟩ := h.waiting hmode
    have hother : Sole { a with mode := .other } :=
      ⟨h.queue, h.queued, h.one, nofun, h.tested, h.later, h.tests, fun _ _ => nofun⟩
    exact hother.enqueue hzero (fun t ht => ht.elim (hready t) (hrun t)) nofun fun _ _ => nofun
  | again t ht hmode =>
    obtain ⟨hzero, hnone⟩ := h.yielded t ht hmode
    refine h.lend hzero hnone (by rw [hmode]; nofun) fun t' hne ht' _ => ?_
    exact hne (h.tests t' t _ ht' ht)

end Sole

end

-- ---------------------------------------------------------------------------
-- The agenda of a process in the runtime
-- ---------------------------------------------------------------------------

variable {n : Nat} {s s' : State n} {t : Fin n} {p : Obj}

def PState.mode : PState → Mode
  | .RECV_WAIT | .INT_WAIT => .waiting
  | .YIELD => .yielded
  | _ => .other

/-- The process that a thread deals with as a worker, and how. -/
def Pc.turn : Pc → Option (Obj × Role)
  | .got p | .put p | .spawnEntry p => some (p, .ready)
  | .run p | .recvLock p _ | .recvTest p _ | .recvGet p | .int p | .intDone p _ | .leave p
  | .stop p => some (p, .running)
  | .test p k => some (p, .testing k)
  | _ => none

def Pc.role (q : Pc) (p : Obj) : Option Role :=
  q.turn.bind fun x => if x.1 = p then some x.2 else none

def State.agenda (s : State n) (p : Obj) : Agenda (Fin n) where
  queued := s.scheQueue.count p
  role t := (s.pc t).role p
  mode := (s.procs p).state.mode
  tick := (s.procs p).tick

/-- To every process, a step is a turn of its agenda or nothing. -/
def Follows (s s' : State n) : Prop :=
  ∀ p, s'.agenda p = s.agenda p ∨ Turn (s.agenda p) (s'.agenda p)

theorem role_of_turn {q : Pc} {r : Role} (h : q.turn = some (p, r)) : q.role p = some r := by
  simp [Pc.role, h]

theorem role_of_none {q : Pc} (h : q.turn = none) : q.role p = none := by
  simp [Pc.role, h]

theorem role_of_ne {q : Pc} {p' : Obj} {r : Role} (h : q.turn = some (p', r)) (hp : p' ≠ p) :
    q.role p = none := by
  simp [Pc.role, h, hp]

theorem turn_start {q : Pc} (h : q.isStart) : q.turn = none := by
  cases q <;> first | rfl | cases h

theorem turn_after (k : After) : k.pc.turn = none := by cases k <;> rfl

theorem mem_objs_of_role {q : Pc} {r : Role} (h : q.role p = some r) : p ∈ q.objs := by
  cases q <;> simp_all [Pc.role, Pc.turn, Pc.objs]

theorem agenda_eq {q : Pc} {r : Option Role} {c k : Nat} {m : Mode}
    (hpc : s'.pc = Function.update s.pc t q) (hrole : q.role p = r)
    (hqueue : s'.scheQueue.count p = c) (hmode : (s'.procs p).state.mode = m)
    (htick : (s'.procs p).tick = k) :
    s'.agenda p = ⟨c, Function.update (s.agenda p).role t r, m, k⟩ := by
  have hroles : (fun t' => (s'.pc t').role p) = Function.update (s.agenda p).role t r := by
    funext t'
    rw [hpc]
    rcases eq_or_ne t' t with rfl | ht
    · simp [hrole]
    · simp [ht, State.agenda]
  rw [State.agenda, hroles, hqueue, hmode, htick]

/-- A step that leaves the queue and the state of `p`, and what its thread is to
`p`. -/
theorem agenda_keep {q : Pc} (hpc : s'.pc = Function.update s.pc t q)
    (hrole : q.role p = (s.pc t).role p) (hqueue : s'.scheQueue.count p = s.scheQueue.count p)
    (hmode : (s'.procs p).state.mode = (s.procs p).state.mode)
    (htick : (s'.procs p).tick = (s.procs p).tick) : s'.agenda p = s.agenda p := by
  rw [agenda_eq hpc hrole hqueue hmode htick]
  exact congrArg (Agenda.mk _ · _ _) (Function.update_eq_self t _)

/-- A step that deals with the process `p'`. -/
theorem agenda_at {q : Pc} (p' : Obj) (hpc : s'.pc = Function.update s.pc t q)
    (hold : (s.pc t).turn.all (·.1 == p')) (hnew : q.turn.all (·.1 == p'))
    (hqueue : ∀ p, p' ≠ p → s'.scheQueue.count p = s.scheQueue.count p)
    (hprocs : ∀ p, p' ≠ p → s'.procs p = s.procs p)
    (hturn : Turn (s.agenda p') ⟨s'.scheQueue.count p',
      Function.update (s.agenda p').role t (q.role p'), (s'.procs p').state.mode,
      (s'.procs p').tick⟩) : Follows s s' := by
  intro p
  rcases eq_or_ne p' p with rfl | hne
  · exact .inr (agenda_eq hpc rfl rfl rfl rfl ▸ hturn)
  · have hnone : ∀ q : Pc, q.turn.all (·.1 == p') → q.role p = none := by
      intro q hq
      cases ht : q.turn with
      | none => exact role_of_none ht
      | some x =>
        rw [ht] at hq
        obtain rfl : x.1 = p' := by simpa using hq
        exact role_of_ne ht hne
    exact .inl (agenda_keep hpc (by rw [hnone _ hold, hnone _ hnew]) (hqueue p hne)
      (by rw [hprocs p hne]) (by rw [hprocs p hne]))

theorem running_of_role {q : Pc} (h : q.role p = some .running) : q.runs = some p := by
  cases q <;> simp_all [Pc.role, Pc.turn, Pc.runs]

section

variable {q : Pc} {p' : Obj} {x : Process}

theorem agenda_touch (hold : (s.pc t).turn = none) (hq : q.turn = none)
    (hpc : s'.pc = Function.update s.pc t q) (hprocs : s'.procs = Function.update s.procs p' x)
    (hqueue : s'.scheQueue = s.scheQueue) (hx : x.state = (s.procs p').state)
    (htick : x.tick = (s.procs p').tick) : Follows s s' := by
  intro p
  have hsame : (s'.procs p).state = (s.procs p).state ∧ (s'.procs p).tick = (s.procs p).tick := by
    rw [hprocs]
    rcases eq_or_ne p p' with rfl | hne
    · rw [Function.update_self]
      exact ⟨hx, htick⟩
    · rw [Function.update_of_ne hne]
      exact ⟨rfl, rfl⟩
  exact .inl (agenda_keep hpc (by rw [role_of_none hold, role_of_none hq]) (by rw [hqueue])
    (by rw [hsame.1]) hsame.2)

/-- A completer, holding `_IntLock`, wakes a process. -/
theorem agenda_wake (hb : Base s) (hint : (s.pc t).holdsInt = some p')
    (hst : (s.procs p').state.waits) (hturn : (s.pc t).turn = none) (hq : q.turn = none)
    (hpc : s'.pc = Function.update s.pc t q) (hprocs : s'.procs = Function.update s.procs p' x)
    (hqueue : s'.scheQueue = s.scheQueue ++ [p']) (hx : x.state.mode = .other)
    (htick : x.tick = (s.procs p').tick) :
    Follows s s' := by
  refine agenda_at p' hpc (by simp [hturn]) (by simp [hq])
    (fun p hne => by simp [hqueue, hne])
    (fun p hne => by rw [hprocs, Function.update_of_ne hne.symm]) ?_
  have hmode : (s.agenda p').mode = .waiting := by
    simp only [State.agenda]
    revert hst
    cases (s.procs p').state <;> simp [PState.waits, PState.mode]
  have hrun : ∀ t', (s.agenda p').role t' ≠ some .running := by
    intro t' hrole
    obtain rfl := hb.int _ _ _ (holdsInt_of_runs (running_of_role hrole)) hint
    simp [State.agenda, role_of_none hturn] at hrole
  have hrole : (s.agenda p').role t = none := role_of_none hturn
  rw [role_of_none hq, ← hrole, Function.update_eq_self, hprocs, Function.update_self, hx, htick,
    hqueue, List.count_append, List.count_singleton_self]
  exact .wake hmode hrun

theorem agenda_set (hold : (s.pc t).turn = some (p', .running))
    (hq : q.turn = some (p', .running)) (hpc : s'.pc = Function.update s.pc t q)
    (hprocs : s'.procs = Function.update s.procs p' x) (hqueue : s'.scheQueue = s.scheQueue)
    (htick : x.tick = (s.procs p').tick) :
    Follows s s' := by
  refine agenda_at p' hpc (by simp [hold]) (by simp [hq]) (fun p hne => by rw [hqueue])
    (fun p hne => by rw [hprocs, Function.update_of_ne hne.symm]) ?_
  have hrole : (s.agenda p').role t = some .running := role_of_turn hold
  rw [role_of_turn hq, ← hrole, Function.update_eq_self, hprocs, Function.update_self, htick,
    hqueue]
  exact .set t _ hrole

/-- A thread that is ready, or has made its test, queues the process or lets it
go. -/
theorem agenda_put (hold : (s.pc t).turn = some (p', .ready)) :
    Follows s ((s.putTask p').goto t .idle) := by
  refine agenda_at p' rfl (by simp [hold]) rfl (fun p hne => by simp [hne])
    (fun _ _ => rfl) ?_
  simp only [State.goto, State.putTask, List.count_append, List.count_singleton_self]
  exact .put t (role_of_turn hold)

theorem agenda_drop {r : Role} (hold : (s.pc t).turn = some (p', r)) :
    Follows s (s.goto t .idle) := by
  refine agenda_at p' rfl (by simp [hold]) rfl (fun _ _ => rfl) (fun _ _ => rfl) ?_
  exact .drop t

theorem agenda_leave {st : PState} (hpc : s.pc t = .leave p') :
    Follows s ((s.setState p' st).goto t (.test p' (s.procs p').tick)) := by
  refine agenda_at p' rfl (by simp [hpc, Pc.turn]) (by simp [Pc.turn]) (fun _ _ => rfl)
    (fun p hne => by simp [hne.symm]) ?_
  rw [role_of_turn rfl]
  simp only [State.goto, State.setState, State.modify, Function.update_self]
  exact .leave t _ (role_of_turn (by rw [hpc]; rfl))

theorem agenda_stop {st : PState} (hold : (s.pc t).turn = some (p', .running))
    (hst : st.mode = .other) (hq : q.turn = none) :
    Follows s ((s.setState p' st).goto t q) := by
  refine agenda_at p' rfl (by simp [hold]) (by simp [hq]) (fun _ _ => rfl)
    (fun p hne => by simp [hne.symm]) ?_
  rw [role_of_none hq]
  simp only [State.goto, State.setState, State.modify, Function.update_self, hst]
  exact .stop t (role_of_turn hold)

end

/-- The step is not that of a worker that finds the `YIELD` of a later `Resume`. -/
def fresh (s : State n) (a : Action n) : Bool :=
  match s.pc a.thread with
  | .test p k => (s.procs p).state != .YIELD || (s.procs p).tick == k
  | _ => true

theorem agenda_move (hb : Base s) (hm : Move s t s')
    (hf : ∀ p k, s.pc t = .test p k → (s.procs p).state = .YIELD → (s.procs p).tick = k) :
    Follows s s' := by
  cases hm
  case start hidle hq =>
    exact fun _ => .inl (agenda_keep rfl (by rw [role_of_none (turn_start hq), hidle]; rfl) rfl rfl rfl)
  case get p' rest hidle hq =>
    refine agenda_at p' rfl (by rw [hidle]; rfl) (by simp [Pc.turn])
      (fun p hne => by simp [hq, hne]) (fun _ _ => rfl) ?_
    rw [role_of_turn rfl]
    exact .get t _ (by simp [State.agenda, hq])
  case sendHand k hpc hst =>
    exact agenda_wake hb (by rw [hpc]; rfl) (by rw [hst]; rfl) (by rw [hpc]; rfl) (turn_after k)
      rfl rfl rfl (by rfl) (by rfl)
  case timerBody hpc _ hst | answerBody hpc hst | respBody hpc hst =>
    exact agenda_wake hb (by rw [hpc]; rfl) hst (by rw [hpc]; rfl) rfl rfl rfl rfl (by rfl)
      (by rfl)
  case sendPut k hpc =>
    exact agenda_touch (by rw [hpc]; rfl) (turn_after k) rfl rfl rfl (by rfl) (by rfl)
  case destroyMark hpc _ =>
    exact agenda_touch (by rw [hpc]; rfl) rfl rfl rfl rfl (by rfl) (by rfl)
  case spawn hpc _ _ =>
    refine agenda_at s.next rfl (by rw [hpc]; rfl) (by simp [Pc.turn]) (fun _ _ => rfl)
      (fun p hne => by simp [hne.symm]) ?_
    have hqueue : s.scheQueue.count s.next = 0 := by
      rw [List.count_eq_zero]
      exact fun hmem => absurd (hb.table.queue _ hmem) (lt_irrefl _)
    have hrole : ∀ t', (s.agenda s.next).role t' = none := by
      intro t'
      by_contra hne
      obtain ⟨r, hr⟩ := Option.ne_none_iff_exists'.mp hne
      exact absurd (hb.table.objs t' _ (mem_objs_of_role hr)) (lt_irrefl _)
    rw [role_of_turn rfl]
    simp only [State.goto, State.createNode, Function.update_self]
    exact .create t hqueue hrole
  case spawnFail hpc => exact agenda_drop (by rw [hpc]; rfl)
  case testOther hpc _ => exact agenda_drop (by rw [hpc]; rfl)
  case spawnStart hpc => exact agenda_put (by rw [hpc]; rfl)
  case put hpc => exact agenda_put (by rw [hpc]; rfl)
  case resume p' hpc hfree =>
    refine agenda_at p' rfl (by simp [hpc, Pc.turn]) (by simp [Pc.turn]) (fun _ _ => rfl)
      (fun p hne => by simp [hne.symm]) ?_
    rw [role_of_turn rfl]
    simp only [State.goto, State.resume, State.record, State.modify, Function.update_self]
    exact .resume t (role_of_turn (by rw [hpc]; rfl))
  case runInt hpc | recvWait hpc _ | recvGet hpc _ | int hpc =>
    exact agenda_set (by rw [hpc]; rfl) rfl rfl rfl rfl (by rfl)
  case leaveKilled hpc _ => exact agenda_stop (by rw [hpc]; rfl) rfl rfl
  case leaveYield hpc _ _ => exact agenda_leave hpc
  case leaveWait p' hpc _ _ =>
    have heq : s.setState p' (s.procs p').state = s := by simp
    have hleave : Follows s ((s.setState p' (s.procs p').state).goto t _) := agenda_leave hpc
    rwa [heq] at hleave
  case stop hpc hst =>
    exact agenda_stop (by rw [hpc]; rfl) (by rcases hst with rfl | rfl <;> rfl) rfl
  case testYield p' k hpc hst =>
    refine agenda_at p' rfl (by simp [hpc, Pc.turn]) (by simp [Pc.turn]) (fun _ _ => rfl)
      (fun _ _ => rfl) ?_
    rw [role_of_turn rfl]
    refine .again t (role_of_turn ?_) ?_
    · rw [hpc]
      simp [Pc.turn, State.agenda, hf p' k hpc hst]
    · simp [State.agenda, hst, PState.mode]
  all_goals
    have hpc := ‹s.pc t = _›
    first
    | exact fun _ => .inl (agenda_keep rfl (by rw [hpc]; rfl) rfl rfl rfl)
    | exact fun _ => .inl (agenda_keep rfl (by rw [hpc, role_of_none (turn_after _)]; rfl) rfl rfl rfl)

-- ---------------------------------------------------------------------------
-- Runs
-- ---------------------------------------------------------------------------

theorem sole_init (p : Obj) : Sole ((State.init n).agenda p) := by
  refine ⟨Nat.zero_le _, fun h => absurd h (lt_irrefl 0), fun _ _ h => ?_, fun h => ?_,
    fun _ _ h => ?_, fun _ _ _ h => ?_, fun _ _ _ h => ?_, fun _ h => ?_⟩
  · rcases h with h | h <;> cases h
  all_goals cases h

theorem Sole.move (hb : Base s) (h : ∀ p, Sole (s.agenda p)) {a : Action n} (ha : fresh s a)
    (hs : step s a = some s') (p : Obj) : Sole (s'.agenda p) := by
  have hf : ∀ p k, s.pc a.thread = .test p k → (s.procs p).state = .YIELD →
      (s.procs p).tick = k := by
    intro p k hpc hst
    simpa [fresh, hpc, hst] using ha
  rcases agenda_move hb (step_cases hs) hf p with heq | hturn
  · rw [heq]
    exact h p
  · exact (h p).turn hturn

theorem reach_sole (h : Reach step (fun s a => fresh s a) (State.init n) s) :
    ∀ p, Sole (s.agenda p) :=
  h.invariant_of (fun _ => reach_base) sole_init fun _ _ _ hb hi ha hs => Sole.move hb hi ha hs

/-- The process that a worker has got from the run queue and is resuming. -/
def Pc.resumes : Pc → Option Obj
  | .got p => some p
  | q => q.runs

/-- How often a process is in the run queue or inside `Resume` on a worker. -/
def State.occurrences (s : State n) (p : Obj) : Nat :=
  s.scheQueue.count p + (Finset.univ.filter fun t => (s.pc t).resumes = some p).card

theorem has_of_resumes (h : (s.pc t).resumes = some p) : (s.agenda p).Has t := by
  unfold Agenda.Has State.agenda
  cases hq : s.pc t <;> simp_all [Pc.resumes, Pc.runs, Pc.role, Pc.turn]

theorem Sole.occurrences_le (h : Sole (s.agenda p)) : s.occurrences p ≤ 1 := by
  have hcard : (Finset.univ.filter fun t => (s.pc t).resumes = some p).card ≤ 1 := by
    refine Finset.card_le_one.mpr fun t ht t' ht' => h.one t t' ?_ ?_
    · exact has_of_resumes (Finset.mem_filter.mp ht).2
    · exact has_of_resumes (Finset.mem_filter.mp ht').2
  unfold State.occurrences
  rcases Nat.eq_zero_or_pos (s.scheQueue.count p) with hzero | hpos
  · omega
  · -- a queued process is on no worker
    have hempty : (Finset.univ.filter fun t => (s.pc t).resumes = some p) = ∅ := by
      refine Finset.filter_eq_empty_iff.mpr fun t _ ht => ?_
      exact h.queued hpos t (has_of_resumes ht)
    have := h.queue
    simp only [State.agenda] at this
    rw [hempty]
    simpa using this

/-- In a run in which every worker acts on the state that its own `Resume` left,
a process is queued or resumed once at a time. -/
theorem single_scheduling (h : Reach step (fun s a => fresh s a) (State.init n) s) (p : Obj) :
    s.occurrences p ≤ 1 :=
  (reach_sole h p).occurrences_le

/-- A process that yields and is queued again by its worker. -/
theorem single_scheduling_yield : ∃ s : State 1,
    Reach step (fun s a => fresh s a) (State.init 1) s ∧ s.scheQueue = [0] ∧
    s.occurrences 0 ≤ 1 := by
  obtain ⟨s, hs, hp⟩ := reach_guarded fresh
    (spawned 0 0 ++ resumed 0 ++ [Action.run 0 .yield] ++ go 0 3)
    (fun s : State 1 => s.scheQueue == [0]) (by decide +kernel)
  exact ⟨s, hs, by simpa using hp, single_scheduling hs 0⟩

/-- Worker 0 leaves `Resume` with the process waiting in `Recieve`; a message
wakes it, worker 2 resumes it, and it yields. Both workers then read `YIELD`. -/
theorem double_scheduling : ∃ s : State 3, Reach step Free (State.init 3) s ∧
    ¬s.occurrences 0 ≤ 1 := by
  obtain ⟨s, hs, hp⟩ := reach_schedule
    (spawned 0 0 ++ resumed 0 ++ [Action.run 0 (.recv false)] ++ go 0 3 ++
      [Action.call 1 (.sendMsg 0 (.app []))] ++ go 1 5 ++ resumed 2 ++ [Action.run 2 .yield] ++ go 2 1 ++
      go 0 1 ++ go 2 1 ++ go 0 1 ++ go 2 1)
    (fun s : State 3 => s.scheQueue == [0, 0]) (by decide +kernel)
  refine ⟨s, hs, ?_⟩
  have hq : s.scheQueue = [0, 0] := by simpa using hp
  simp [State.occurrences, hq]
  omega

end GalaLua.GLR
