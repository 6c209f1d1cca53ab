import GalaLua.Runtime.Timer

/-!
# Clock

The delays of `Clock::SetTimer` and the time-outs with which `CTimer::Run` calls
`poll`. A timer that is overdue at Run's last reading of the clock makes the
time-out negative, which `poll` takes for no time-out, or `-1`, which Run takes
for no timer; the reading itself may be old, and the division drops a part of it
(`run_punctual`). The bytes of `_Pair` only end a `poll` early.
-/

namespace GalaLua.Controllers.Clock

open Library GalaLua.Runtime GalaLua.Runtime.CTimer

-- ---------------------------------------------------------------------------
-- Functions
-- ---------------------------------------------------------------------------

/-- The event of `Clock::SetTimer`, for a delay in milliseconds and the bytes of
the `ClockEvent`. -/
def delay (timeval : BitVec 32) (cev : List Byte) : TIMEREVENT :=
  let sec := timeval.toInt.tdiv 1000
  let msec := timeval.toInt.tmod 1000
  ⟨⟨sec, msec * 1000⟩, cev⟩

/-- `operator -`: milliseconds, as an `INT`. -/
def minus (e : TIMEREVENT) (rhs : TPType) : Int :=
  ((e.val.tvSec - rhs.tvSec) * 1000 + (e.val.tvUsec - rhs.tvUsec).tdiv 1000).bmod (2 ^ 32)

def gettimer (heap : List TIMEREVENT) (now : TPType) : Int :=
  match heap with
  | [] => -1
  | front :: _ => minus front now

/-- The time-out with which `Run` calls `poll`, unless it is 0. -/
def timeOut (tick : Nat) (heap : List TIMEREVENT) (now : TPType) : Int :=
  let timeval := gettimer heap now
  if timeval < tick ∧ timeval ≠ -1 then timeval else tick

-- ---------------------------------------------------------------------------
-- Runs
-- ---------------------------------------------------------------------------

/-- Where `Run` is in its loop. -/
inductive Place
  | poll
  | wake
  | pop
  deriving DecidableEq, Repr

/-- `now` is Run's variable and `clock` the last reading of anyone. -/
structure State where
  heap : List TIMEREVENT
  now : TPType
  timeStamp : TPType
  clock : TPType
  place : Place
  deriving DecidableEq, Repr

/-- The constructor, and `Run` up to its loop. -/
def State.init (created started : TPType) : State := ⟨[], started, created, started, .poll⟩

inductive Action
  | setTimer (timeval : BitVec 32) (cev : List Byte)
  | run
  deriving DecidableEq, Repr

/-- A step at a time of the clock. -/
def State.step (s : State) : TPType × Action → State
  | (clock, .setTimer timeval cev) =>
    { s with heap := CTimer.setTimer s.heap clock (delay timeval cev), clock := clock }
  | (clock, .run) =>
    match s.place with
    | .poll => { s with timeStamp := s.now, clock := clock, place := .wake }
    | .wake => { s with now := clock, clock := clock, place := .pop }
    | .pop => { s with heap := (checkAndPop s.heap s.now).2, clock := clock, place := .poll }

def Forward (s : State) (a : TPType × Action) : Prop := a.1.Normal ∧ s.clock.micros ≤ a.1.micros

instance (s : State) (a : TPType × Action) : Decidable (Forward s a) := inferInstanceAs (Decidable (_ ∧ _))

/-- A time-out that ends no later than the earliest deadline. -/
structure InTime (tick : Nat) (heap : List TIMEREVENT) (clock : TPType) (timeval : Int) : Prop where
  nonneg : 0 ≤ timeval
  atMost : timeval ≤ tick
  deadline : ∀ e ∈ heap, timeval * 1000 ≤ max 0 (e.val.micros - clock.micros)

/-- What is asked of a step: the time-out is in time at the clock when `poll` is
called, and a timer ends its delay after the clock. -/
def Contract (tick : Nat) (s : State) (a : TPType × Action) : Prop :=
  match a.2 with
  | .setTimer timeval cev =>
    ((delay timeval cev).plus a.1).val.micros = a.1.micros + 1000 * timeval.toInt
  | .run => s.place = .poll → InTime tick s.heap a.1 (timeOut tick s.heap s.now)

/-- Run's reading and the event at the front of the heap, when `poll` is called
at a time of the clock. -/
structure Fresh (tick : Nat) (s : State) (front : TIMEREVENT) (clock : TPType) : Prop where
  pending : ∀ e ∈ s.heap, s.now.micros ≤ e.val.micros
  range : front.val.micros - s.now.micros ≤ (2 ^ 31 - 1) * 1000
  drop : (∀ e ∈ s.heap, clock.micros + tick * 1000 ≤ e.val.micros) ∨
    clock.micros - s.now.micros ≤ (front.val.tvUsec - s.now.tvUsec).tmod 1000

instance (tick : Nat) (s : State) (front : TIMEREVENT) (clock : TPType) :
    Decidable (Fresh tick s front clock) :=
  decidable_of_iff ((∀ e ∈ s.heap, s.now.micros ≤ e.val.micros) ∧
    front.val.micros - s.now.micros ≤ (2 ^ 31 - 1) * 1000 ∧
    ((∀ e ∈ s.heap, clock.micros + tick * 1000 ≤ e.val.micros) ∨
      clock.micros - s.now.micros ≤ (front.val.tvUsec - s.now.tvUsec).tmod 1000))
    ⟨fun h => ⟨h.1, h.2.1, h.2.2⟩, fun h => ⟨h.pending, h.range, h.drop⟩⟩

/-- The deadline of a new timer does not overflow. Where Run calls `poll`, there is no
timer, the front is off by what the division drops, or none is overdue at Run's
reading, which is at most as old as what the division drops where a deadline is less
than a tick away. -/
def Punctual (tick : Nat) (s : State) (a : TPType × Action) : Prop :=
  match a.2 with
  | .setTimer timeval cev => (delay timeval cev).Fits a.1
  | .run =>
    s.place = .poll →
      match s.heap with
      | [] => True
      | front :: _ =>
        front.val.micros - s.now.micros = (front.val.tvUsec - s.now.tvUsec).tmod 1000 ∨
          Fresh tick s front a.1

instance (tick : Nat) (s : State) (a : TPType × Action) : Decidable (Punctual tick s a) := by
  unfold Punctual
  split
  · infer_instance
  · cases s.heap <;> infer_instance

/-- The front of the heap is at a distance from Run's reading that an `INT` has. -/
def InRange (s : State) : Prop :=
  ∀ e ∈ s.heap.head?, (e.val.micros - s.now.micros).natAbs ≤ (2 ^ 31 - 1) * 1000

-- ---------------------------------------------------------------------------
-- Deadlines
-- ---------------------------------------------------------------------------

variable {tick : Nat} {s : State} {clock now : TPType} {a : TPType × Action} {front e : TIMEREVENT}
  {timeval : BitVec 32} {cev : List Byte} {heap : List TIMEREVENT}

theorem micros_delay (timeval : BitVec 32) (cev : List Byte) :
    (delay timeval cev).val.micros = 1000 * timeval.toInt := by
  have hdiv := Int.mul_tdiv_add_tmod timeval.toInt 1000
  simp only [delay, TPType.micros]
  omega

theorem usec_delay (timeval : BitVec 32) (cev : List Byte) :
    -1000000 < (delay timeval cev).val.tvUsec ∧ (delay timeval cev).val.tvUsec < 1000000 := by
  have hlow := Int.lt_tmod_of_pos timeval.toInt (show (0 : Int) < 1000 by decide)
  have hhigh := Int.tmod_lt_of_pos timeval.toInt (show (0 : Int) < 1000 by decide)
  simp only [delay]
  omega

theorem micros_setTimer_iff (timeval : BitVec 32) (cev : List Byte) (h : clock.Normal) :
    ((delay timeval cev).plus clock).val.micros = clock.micros + 1000 * timeval.toInt ↔
      (delay timeval cev).Fits clock := by
  have husec := usec_delay timeval cev
  have hlong : IsLong (delay timeval cev).val.tvUsec := ⟨by omega, by omega⟩
  rw [← micros_delay timeval cev]
  exact micros_plus_iff hlong h

/-- Only a negative delay leaves the microseconds out of their range. -/
theorem normal_or_past (timeval : BitVec 32) (cev : List Byte) (h : clock.Normal)
    (hfits : (delay timeval cev).Fits clock) :
    ((delay timeval cev).plus clock).val.Normal ∨
      ((delay timeval cev).plus clock).val.micros + 1000 ≤ clock.micros := by
  by_cases hneg : 0 ≤ timeval.toInt
  · have hmod := Int.tmod_nonneg 1000 hneg
    exact .inl (normal_plus h (Int.mul_nonneg hmod (by decide)) hfits.1)
  · rw [(micros_setTimer_iff timeval cev h).mpr hfits]
    omega

structure Good (s : State) : Prop where
  ordered : Ordered s.heap
  events : ∀ e ∈ s.heap, e.val.Normal ∨ e.val.micros + 1000 ≤ s.clock.micros
  reading : s.now.micros ≤ s.clock.micros

theorem good_init (created started : TPType) : Good (State.init created started) :=
  ⟨nofun, nofun, Int.le_refl _⟩

theorem Good.later (h : Good s) (hclock : s.clock.micros ≤ clock.micros) (he : e ∈ s.heap) :
    e.val.Normal ∨ e.val.micros + 1000 ≤ clock.micros :=
  (h.events e he).imp_right fun hpast => hpast.trans hclock

theorem good_step (h : Good s) (ha : Forward s a) (hc : Contract tick s a) : Good (s.step a) := by
  obtain ⟨clock, action⟩ := a
  obtain ⟨hnormal, hclock⟩ := ha
  have hevents := fun e (he : e ∈ s.heap) => h.later hclock he
  have hreading := h.reading.trans hclock
  cases action with
  | setTimer timeval cev =>
    refine ⟨h.ordered.setTimer clock _, fun e he => ?_, hreading⟩
    have hperm : (CTimer.setTimer s.heap clock (delay timeval cev)).Perm
        (s.heap ++ [(delay timeval cev).plus clock]) := Heap.pushHeap_perm _
    rcases List.mem_append.mp (hperm.subset he) with hold | hnew
    · exact hevents e hold
    · rw [List.mem_singleton.mp hnew]
      exact normal_or_past timeval cev hnormal ((micros_setTimer_iff timeval cev hnormal).mp hc)
  | run =>
    unfold State.step
    dsimp only
    cases s.place with
    | poll => exact ⟨h.ordered, hevents, hreading⟩
    | wake => exact ⟨h.ordered, hevents, Int.le_refl _⟩
    | pop =>
      have hpop := popDue_popped s.now s.heap.length (Nat.le_refl _) h.ordered
      have hkept := fun e he => hevents e (hpop.perm.subset (List.mem_append_right _ he))
      exact ⟨hpop.ordered, hkept, hreading⟩

-- ---------------------------------------------------------------------------
-- Time-outs
-- ---------------------------------------------------------------------------

theorem millis_eq (e now : TPType) :
    1000 * ((e.tvSec - now.tvSec) * 1000 + (e.tvUsec - now.tvUsec).tdiv 1000) =
      e.micros - now.micros - (e.tvUsec - now.tvUsec).tmod 1000 := by
  have hdiv := Int.mul_tdiv_add_tmod (e.tvUsec - now.tvUsec) 1000
  unfold TPType.micros
  omega

theorem tmod_bounds (x : Int) : -1000 < x.tmod 1000 ∧ x.tmod 1000 < 1000 :=
  ⟨Int.lt_tmod_of_pos x (by decide), Int.tmod_lt_of_pos x (by decide)⟩

theorem minus_eq (e : TIMEREVENT) (now : TPType)
    (h : (e.val.micros - now.micros).natAbs ≤ (2 ^ 31 - 1) * 1000) :
    1000 * minus e now = e.val.micros - now.micros - (e.val.tvUsec - now.tvUsec).tmod 1000 := by
  have hmillis := millis_eq e.val now
  have hmod := tmod_bounds (e.val.tvUsec - now.tvUsec)
  have hsame : minus e now =
      (e.val.tvSec - now.tvSec) * 1000 + (e.val.tvUsec - now.tvUsec).tdiv 1000 := by
    unfold minus
    exact Int.bmod_eq_of_le (by omega) (by omega)
  omega

theorem minus_zero (h : e.val.micros - now.micros = (e.val.tvUsec - now.tvUsec).tmod 1000) :
    minus e now = 0 := by
  have hmillis := millis_eq e.val now
  have hzero : (e.val.tvSec - now.tvSec) * 1000 + (e.val.tvUsec - now.tvUsec).tdiv 1000 = 0 := by omega
  rw [minus, hzero]
  rfl

theorem timeOut_nil (tick : Nat) (now : TPType) : timeOut tick [] now = tick := by
  simp [timeOut, gettimer]

theorem timeOut_eq (h : 0 ≤ minus front now) :
    timeOut tick (front :: heap) now = min (minus front now) tick := by
  have hne : minus front now ≠ -1 := by omega
  simp only [timeOut, gettimer, hne, ne_eq, not_false_eq_true, and_true]
  split <;> omega

theorem inTime_of_punctual (h : Good s) (ha : Forward s a) (hrun : a.2 = .run) (hplace : s.place = .poll)
    (hp : Punctual tick s a) : InTime tick s.heap a.1 (timeOut tick s.heap s.now) := by
  unfold Punctual at hp
  simp only [hrun] at hp
  have hcond := hp hplace
  cases hheap : s.heap with
  | nil =>
    rw [timeOut_nil]
    exact ⟨Int.natCast_nonneg tick, Int.le_refl _, nofun⟩
  | cons front heap =>
    simp only [hheap] at hcond
    have hin : front ∈ s.heap := by
      rw [hheap]
      exact List.mem_cons_self
    rcases hcond with hzero | hfresh
    · have hminus := minus_zero hzero
      rw [timeOut_eq (Int.le_of_eq hminus.symm), hminus, Int.min_eq_left (Int.natCast_nonneg tick)]
      exact ⟨Int.le_refl 0, Int.natCast_nonneg tick, fun e _ => by omega⟩
    · have hpending := hfresh.pending front hin
      have hrange := hfresh.range
      have hmod := tmod_bounds (front.val.tvUsec - s.now.tvUsec)
      have hmillis := minus_eq front s.now (by omega)
      rw [timeOut_eq (by omega)]
      refine ⟨by omega, by omega, fun e he => ?_⟩
      rw [← hheap] at he
      rcases hfresh.drop with hfar | hnear
      · have := hfar e he
        omega
      · -- a negative delay since Run's reading would be overdue at it
        have hnormal : ∀ e ∈ s.heap, e.val.Normal := fun e he => by
          have hpending := hfresh.pending e he
          exact (h.later ha.2 he).resolve_right fun hpast => by omega
        have hfirst : front.val.micros ≤ e.val.micros := by
          rw [hheap, List.mem_cons] at he
          rcases he with rfl | he
          · exact Int.le_refl _
          · have hordered : Ordered (front :: heap) := hheap ▸ h.ordered
            exact micros_le_of_lt_false (hnormal e (by rw [hheap]; exact List.mem_cons_of_mem _ he))
              (hnormal front hin) (hordered.front he)
        omega

theorem timeOut_neg (h : minus front now < -1) :
    timeOut tick (front :: heap) now = minus front now := by
  have hne : minus front now ≠ -1 := by omega
  simp only [timeOut, gettimer, hne, ne_eq, not_false_eq_true, and_true]
  split <;> omega

theorem timeOut_sentinel (h : minus front now = -1) : timeOut tick (front :: heap) now = tick := by
  simp [timeOut, gettimer, h]

theorem punctual_of_inTime (h : Good s) (ha : Forward s a) (htick : 0 < tick) (hrange : InRange s)
    (hrun : a.2 = .run) (hin : s.place = .poll → InTime tick s.heap a.1 (timeOut tick s.heap s.now)) :
    Punctual tick s a := by
  unfold Punctual
  simp only [hrun]
  intro hplace
  replace hin := hin hplace
  cases hheap : s.heap with
  | nil => trivial
  | cons front heap =>
    have hlate := h.reading.trans ha.2
    have hdist := hrange front (by rw [hheap]; rfl)
    have hmillis := minus_eq _ _ hdist
    rw [hheap] at hin
    rcases Int.lt_trichotomy (minus front s.now) 0 with hneg | hzero | hpos
    · exfalso
      by_cases hone : minus front s.now = -1
      · have hfront := hin.deadline front List.mem_cons_self
        have hmod := tmod_bounds (front.val.tvUsec - s.now.tvUsec)
        rw [timeOut_sentinel hone] at hfront
        omega
      · have hnonneg := hin.nonneg
        rw [timeOut_neg (by omega)] at hnonneg
        omega
    · exact .inl (by omega)
    · have hdeadline := hin.deadline
      rw [timeOut_eq (Int.le_of_lt hpos)] at hdeadline
      have hfront := hdeadline front List.mem_cons_self
      refine .inr ⟨fun e he => ?_, by omega, ?_⟩
      · have := hdeadline e (hheap ▸ he)
        omega
      · rcases Int.le_total tick (minus front s.now) with hfar | hnear
        · refine .inl fun e he => ?_
          have := hdeadline e (hheap ▸ he)
          omega
        · exact .inr (by omega)

theorem punctual_of_contract (h : Good s) (ha : Forward s a) (htick : 0 < tick) (hrange : InRange s)
    (hc : Contract tick s a) : Punctual tick s a := by
  unfold Contract at hc
  cases haction : a.2 with
  | setTimer timeval cev =>
    rw [haction] at hc
    unfold Punctual
    rw [haction]
    exact (micros_setTimer_iff timeval cev ha.1).mp hc
  | run =>
    rw [haction] at hc
    exact punctual_of_inTime h ha htick hrange haction hc

theorem contract_of_punctual (h : Good s) (ha : Forward s a) (hp : Punctual tick s a) :
    Contract tick s a := by
  unfold Contract
  cases haction : a.2 with
  | setTimer timeval cev =>
    unfold Punctual at hp
    rw [haction] at hp
    exact (micros_setTimer_iff timeval cev ha.1).mpr hp
  | run => exact fun hplace => inTime_of_punctual h ha haction hplace hp

/-- In every run with a clock that does not go back, the time-outs are in time if
each turn is punctual, and only then as long as the distances to the
deadlines are in the range of an `INT`. -/
theorem run_punctual (tick : Nat) (created started : TPType) (as : List (TPType × Action))
    (hclock : ∀ t ∈ turns State.step (State.init created started) as, Forward t.1 t.2) :
    ((∀ t ∈ turns State.step (State.init created started) as, Punctual tick t.1 t.2) →
      ∀ t ∈ turns State.step (State.init created started) as, Contract tick t.1 t.2) ∧
    (0 < tick → (∀ t ∈ turns State.step (State.init created started) as, InRange t.1) →
      (∀ t ∈ turns State.step (State.init created started) as, Contract tick t.1 t.2) →
      ∀ t ∈ turns State.step (State.init created started) as, Punctual tick t.1 t.2) := by
  have hinit := good_init created started
  constructor
  · intro hp
    refine (forall_turns_iff_of (I := Good) (l := fun s a => Forward s a ∧ Punctual tick s a)
      (o := fun _ _ => True) (fun s a h hl => iff_true_intro (contract_of_punctual h hl.1 hl.2))
      (fun s a h hl _ => good_step h hl.1 (contract_of_punctual h hl.1 hl.2)) as hinit
      fun t ht => ⟨hclock t ht, hp t ht⟩).mpr fun _ _ => trivial
  · intro htick hrange
    refine (forall_turns_iff_of (I := Good) (l := fun s a => Forward s a ∧ InRange s)
      (fun s a h hl => ⟨fun hc => punctual_of_contract h hl.1 htick hl.2 hc,
        contract_of_punctual h hl.1⟩)
      (fun s a h hl hc => good_step h hl.1 hc) as hinit fun t ht => ⟨hclock t ht, hrange t ht⟩).mp

def punctualRun : List (TPType × Action) :=
  [(⟨100, 0⟩, .setTimer 50 []), (⟨100, 0⟩, .run), (⟨100, 50200⟩, .run), (⟨100, 50300⟩, .run),
    (⟨100, 60000⟩, .run)]

theorem timer_in_time :
    (punctualRun.foldl State.step (State.init ⟨99, 0⟩ ⟨100, 0⟩)).heap = [] ∧
      ∀ t ∈ turns State.step (State.init ⟨99, 0⟩ ⟨100, 0⟩) punctualRun, Contract 2000 t.1 t.2 :=
  ⟨by decide, (run_punctual 2000 ⟨99, 0⟩ ⟨100, 0⟩ punctualRun (by decide)).1 (by decide)⟩

/-- A delay of -5 milliseconds is handed to `poll`. -/
theorem negative_delay_waits : ¬ ∀ (tick : Nat) (created started : TPType) (as : List (TPType × Action)),
    (∀ t ∈ turns State.step (State.init created started) as, Forward t.1 t.2) →
      ∀ t ∈ turns State.step (State.init created started) as, Contract tick t.1 t.2 := by
  intro h
  have hcontract := h 2000 ⟨99, 0⟩ ⟨100, 0⟩ [(⟨100, 0⟩, .setTimer (-5) []), (⟨100, 0⟩, .run)] (by decide) _
    (List.mem_cons_of_mem _ (List.mem_singleton.mpr rfl))
  have hnonneg := (hcontract rfl).nonneg
  revert hnonneg
  decide

end GalaLua.Controllers.Clock
