import GalaLua.Library.Bytes
import GalaLua.Library.Heap
import GalaLua.Library.Transition
import Mathlib.Algebra.Order.Group.Multiset
import Mathlib.Data.Multiset.Filter
import Mathlib.Tactic.Abel

/-!
# Timers

The heap of a `CTimer`: the events of `SetTimer` with the clock added, ordered
by the reversed comparison, and `check_and_pop`, which takes from the front what
has timed out. The seconds and microseconds of a `timeval` are longs, and nothing
keeps the sum of a delay and the clock from overflowing
(`timers_popped_once_iff`).
-/

namespace GalaLua.Runtime

open Library Library.Heap

structure TPType where
  tvSec : Int
  tvUsec : Int
  deriving DecidableEq, Repr

def TPType.micros (t : TPType) : Int := t.tvSec * 1000000 + t.tvUsec

/-- As `gettimeofday` leaves it. -/
def TPType.Normal (t : TPType) : Prop := 0 ≤ t.tvUsec ∧ t.tvUsec < 1000000

instance (t : TPType) : Decidable t.Normal := inferInstanceAs (Decidable (_ ∧ _))

/-- What the two fields can hold. -/
def TPType.Long (t : TPType) : Prop := IsLong t.tvSec ∧ IsLong t.tvUsec

instance (t : TPType) : Decidable t.Long := inferInstanceAs (Decidable (_ ∧ _))

structure TIMEREVENT where
  val : TPType
  data : List Byte
  deriving DecidableEq, Repr

namespace TIMEREVENT

/-- `operator <` with a time: the later event is the smaller one. -/
def ltAt (e : TIMEREVENT) (rhs : TPType) : Bool :=
  e.val.tvSec > rhs.tvSec || (e.val.tvSec == rhs.tvSec && e.val.tvUsec > rhs.tvUsec)

/-- `operator <`. -/
def lt (e rhs : TIMEREVENT) : Bool := e.ltAt rhs.val

/-- `operator ==`: less than a millisecond apart in one second. -/
def eqAt (e : TIMEREVENT) (t : TPType) : Bool :=
  e.val.tvSec == t.tvSec && (e.val.tvUsec - t.tvUsec).natAbs < 1000

def isTimeOut (e : TIMEREVENT) (t : TPType) : Bool := e.eqAt t || !e.ltAt t

/-- `operator +`, with C's division and remainder. -/
def plus (e : TIMEREVENT) (t : TPType) : TIMEREVENT :=
  let sec := int64 (e.val.tvSec + t.tvSec)
  let usec := int64 (e.val.tvUsec + t.tvUsec)
  ⟨⟨int64 (sec + usec.tdiv 1000000), usec.tmod 1000000⟩, e.data⟩

/-- The sum does not overflow. -/
def Fits (e : TIMEREVENT) (t : TPType) : Prop :=
  IsLong (e.val.tvUsec + t.tvUsec) ∧
    IsLong (e.val.tvSec + t.tvSec + (e.val.tvUsec + t.tvUsec).tdiv 1000000)

instance (e : TIMEREVENT) (t : TPType) : Decidable (e.Fits t) := inferInstanceAs (Decidable (_ ∧ _))

end TIMEREVENT

namespace CTimer

def setTimer (heap : List TIMEREVENT) (now : TPType) (time : TIMEREVENT) : List TIMEREVENT :=
  pushHeap TIMEREVENT.lt (heap ++ [time.plus now])

/-- At most `fuel` turns of the loop of `check_and_pop`: what it returns, and
the heap. -/
def popDue (now : TPType) : Nat → List TIMEREVENT → List TIMEREVENT × List TIMEREVENT
  | 0, heap => ([], heap)
  | _ + 1, [] => ([], [])
  | fuel + 1, e :: heap =>
    if e.isTimeOut now then
      let r := popDue now fuel (popHeap TIMEREVENT.lt (e :: heap)).dropLast
      (e :: r.1, r.2)
    else ([], e :: heap)

def checkAndPop (heap : List TIMEREVENT) (now : TPType) : List TIMEREVENT × List TIMEREVENT :=
  popDue now heap.length heap

-- ---------------------------------------------------------------------------
-- Runs
-- ---------------------------------------------------------------------------

inductive Op
  | setTimer (now : TPType) (time : TIMEREVENT)
  | checkAndPop (now : TPType)
  deriving DecidableEq, Repr

/-- The delay of a timer is not negative, and the clock is as it is read. -/
def Op.Proper : Op → Prop
  | .setTimer now time => now.Normal ∧ time.val.Long ∧ 0 ≤ time.val.tvSec ∧ 0 ≤ time.val.tvUsec
  | .checkAndPop now => now.Normal

instance (op : Op) : Decidable op.Proper := by
  cases op <;> exact inferInstanceAs (Decidable (_ ∧ _))

/-- The deadline of a new timer fits into a `timeval`. -/
def Op.Fits : Op → Prop
  | .setTimer now time => time.Fits now
  | .checkAndPop _ => True

instance (op : Op) : Decidable op.Fits :=
  match op with
  | .setTimer now time => inferInstanceAs (Decidable (time.Fits now))
  | .checkAndPop _ => inferInstanceAs (Decidable True)

/-- The heap, with the events that were set and those that each call returned. -/
structure State where
  heap : List TIMEREVENT
  set : List TIMEREVENT
  returned : List (List TIMEREVENT)
  deriving DecidableEq, Repr

def State.init : State := ⟨[], [], []⟩

def State.step (s : State) : Op → State
  | .setTimer now time => ⟨CTimer.setTimer s.heap now time, s.set ++ [time.plus now], s.returned⟩
  | .checkAndPop now =>
    ⟨(CTimer.checkAndPop s.heap now).2, s.set, s.returned ++ [(CTimer.checkAndPop s.heap now).1]⟩

def State.pending (s : State) : Multiset TIMEREVENT := (s.set : Multiset TIMEREVENT) - s.returned.flatten

/-- The deadline is reached, or less than a millisecond ahead in this second. -/
def Due (now : TPType) (e : TIMEREVENT) : Prop :=
  e.val.micros ≤ now.micros ∨ e.val.tvSec = now.tvSec ∧ e.val.micros < now.micros + 1000

instance (now : TPType) (e : TIMEREVENT) : Decidable (Due now e) := inferInstanceAs (Decidable (_ ∨ _))

/-- A call of `check_and_pop` returns `vec` and leaves `heap`. -/
structure Returns (s : State) (now : TPType) (vec heap : List TIMEREVENT) : Prop where
  sorted : vec.Pairwise fun e e' => e.val.micros ≤ e'.val.micros
  timedOut : ∀ e ∈ s.pending, e.isTimeOut now = true ↔ Due now e
  due : (vec : Multiset TIMEREVENT) = s.pending.filter (Due now)
  others : (heap : Multiset TIMEREVENT) = s.pending.filter fun e => ¬Due now e

def Contract (s : State) : Op → Prop
  | .setTimer now time =>
    (time.plus now).val.micros = now.micros + time.val.micros ∧
      (s.step (.setTimer now time)).pending = time.plus now ::ₘ s.pending
  | .checkAndPop now =>
    Returns s now (checkAndPop s.heap now).1 (checkAndPop s.heap now).2 ∧
      (s.step (.checkAndPop now)).pending = (checkAndPop s.heap now).2

-- ---------------------------------------------------------------------------
-- The comparison
-- ---------------------------------------------------------------------------

variable {s : State} {e e' : TIMEREVENT} {t now : TPType} {op : Op} {heap : List TIMEREVENT}

theorem ltAt_iff : e.ltAt t = true ↔
    t.tvSec < e.val.tvSec ∨ e.val.tvSec = t.tvSec ∧ t.tvUsec < e.val.tvUsec := by
  simp [TIMEREVENT.ltAt]

theorem ltAt_eq_false_iff : e.ltAt t = false ↔
    ¬(t.tvSec < e.val.tvSec ∨ e.val.tvSec = t.tvSec ∧ t.tvUsec < e.val.tvUsec) := by
  rw [← ltAt_iff, Bool.not_eq_true]

theorem strictWeak_lt : StrictWeak TIMEREVENT.lt where
  asymm h := by
    unfold TIMEREVENT.lt at h ⊢
    rw [ltAt_iff] at h
    rw [ltAt_eq_false_iff]
    omega
  negTrans hab hbc := by
    unfold TIMEREVENT.lt at hab hbc ⊢
    rw [ltAt_eq_false_iff] at hab hbc ⊢
    omega

theorem isTimeOut_iff : e.isTimeOut now = true ↔
    e.val.tvSec = now.tvSec ∧ (e.val.tvUsec - now.tvUsec).natAbs < 1000 ∨
      ¬(now.tvSec < e.val.tvSec ∨ e.val.tvSec = now.tvSec ∧ now.tvUsec < e.val.tvUsec) := by
  simp only [TIMEREVENT.isTimeOut, TIMEREVENT.eqAt, Bool.or_eq_true, Bool.and_eq_true, beq_iff_eq,
    decide_eq_true_eq, Bool.not_eq_true', ltAt_eq_false_iff]

/-- The tolerance included, an event ahead of one that has timed out has timed
out. -/
theorem isTimeOut_of_lt_false (h : TIMEREVENT.lt e e' = false) (hout : e'.isTimeOut now = true) :
    e.isTimeOut now = true := by
  unfold TIMEREVENT.lt at h
  rw [ltAt_eq_false_iff] at h
  rw [isTimeOut_iff] at hout ⊢
  omega

theorem isTimeOut_iff_due (he : e.val.Normal) (hnow : now.Normal) :
    e.isTimeOut now = true ↔ Due now e := by
  obtain ⟨he0, he1⟩ := he
  obtain ⟨hn0, hn1⟩ := hnow
  rw [isTimeOut_iff, Due, TPType.micros, TPType.micros]
  omega

theorem micros_le_of_lt_false (he : e.val.Normal) (he' : e'.val.Normal)
    (h : TIMEREVENT.lt e' e = false) : e'.val.micros ≤ e.val.micros := by
  obtain ⟨he0, he1⟩ := he
  obtain ⟨he0', he1'⟩ := he'
  unfold TIMEREVENT.lt at h
  rw [ltAt_eq_false_iff] at h
  unfold TPType.micros
  omega

/-- The deadline is the clock and the delay exactly if nothing overflows, whatever the
carry. -/
theorem micros_plus_iff (he : IsLong e.val.tvUsec) (ht : t.Normal) :
    (e.plus t).val.micros = t.micros + e.val.micros ↔ e.Fits t := by
  obtain ⟨ht0, ht1⟩ := ht
  obtain ⟨he0, he1⟩ := he
  obtain ⟨k, husec, hlong⟩ := int64_eq (e.val.tvUsec + t.tvUsec)
  have hdiv := Int.mul_tdiv_add_tmod (int64 (e.val.tvUsec + t.tvUsec)) 1000000
  have hsec : (e.plus t).val.tvSec =
      int64 (e.val.tvSec + t.tvSec + (int64 (e.val.tvUsec + t.tvUsec)).tdiv 1000000) := Int.bmod_add_bmod
  have hmod : (e.plus t).val.tvUsec = (int64 (e.val.tvUsec + t.tvUsec)).tmod 1000000 := rfl
  obtain ⟨j, hwrap, hrange⟩ :=
    int64_eq (e.val.tvSec + t.tvSec + (int64 (e.val.tvUsec + t.tvUsec)).tdiv 1000000)
  -- what is lost is `2 ^ 64 * (1000000 * j + k)` microseconds, and `k` is 0 or 1
  have hlost : (e.plus t).val.micros = t.micros + e.val.micros ↔ 1000000 * j + k = 0 := by
    unfold TPType.micros
    rw [hsec, hmod, hwrap]
    omega
  rw [hlost]
  unfold IsLong at hlong
  constructor
  · intro hzero
    obtain rfl : k = 0 := by omega
    obtain rfl : j = 0 := by omega
    have hsame : int64 (e.val.tvUsec + t.tvUsec) = e.val.tvUsec + t.tvUsec := by omega
    rw [hsame] at hlong hwrap hrange
    rw [hwrap] at hrange
    unfold IsLong at hrange
    exact ⟨hlong, by omega, by omega⟩
  · rintro ⟨hu, hs⟩
    rw [int64_of_long hu] at husec hwrap
    rw [int64_of_long hs] at hwrap
    omega

theorem normal_plus (ht : t.Normal) (he : 0 ≤ e.val.tvUsec) (hu : IsLong (e.val.tvUsec + t.tvUsec)) :
    (e.plus t).val.Normal := by
  obtain ⟨ht0, -⟩ := ht
  have husec : (e.plus t).val.tvUsec = (e.val.tvUsec + t.tvUsec).tmod 1000000 := by
    simp only [TIMEREVENT.plus, int64_of_long hu]
  unfold TPType.Normal
  rw [husec]
  exact ⟨Int.tmod_nonneg _ (by omega), Int.tmod_lt_of_pos _ (by decide)⟩

-- ---------------------------------------------------------------------------
-- The loop of check_and_pop
-- ---------------------------------------------------------------------------

abbrev Ordered (heap : List TIMEREVENT) : Prop := IsHeap TIMEREVENT.lt heap heap.length

theorem Ordered.setTimer (h : Ordered heap) (now : TPType) (time : TIMEREVENT) :
    Ordered (setTimer heap now time) := by
  have hlen : (CTimer.setTimer heap now time).length = heap.length + 1 := by
    rw [CTimer.setTimer, (pushHeap_perm _).length_eq, List.length_append, List.length_singleton]
  unfold Ordered
  rw [hlen]
  exact h.push strictWeak_lt _

theorem Ordered.front (h : Ordered (e :: heap)) (he : e' ∈ heap) : TIMEREVENT.lt e e' = false := by
  obtain ⟨i, hi, rfl⟩ := List.getElem_of_mem he
  have hlt : i + 1 < (e :: heap).length := Nat.succ_lt_succ hi
  have hless := IsHeap.front strictWeak_lt h (Nat.le_refl _) (i + 1) hlt
  rwa [less_eq (Nat.succ_pos _) hlt, List.getElem_cons_zero, List.getElem_cons_succ] at hless

theorem Ordered.pop (h : Ordered (e :: heap)) :
    Ordered (popHeap TIMEREVENT.lt (e :: heap)).dropLast ∧
      ((popHeap TIMEREVENT.lt (e :: heap)).dropLast).Perm heap := by
  obtain ⟨hheap, hperm⟩ := IsHeap.pop strictWeak_lt h
  refine ⟨?_, hperm⟩
  unfold Ordered
  rwa [hperm.length_eq]

/-- What a heap is taken apart into. -/
structure Popped (now : TPType) (heap vec rest : List TIMEREVENT) : Prop where
  perm : (vec ++ rest).Perm heap
  sorted : vec.Pairwise fun e e' => TIMEREVENT.lt e e' = false
  out : ∀ e ∈ vec, e.isTimeOut now = true
  notYet : ∀ e ∈ rest, e.isTimeOut now = false
  ordered : Ordered rest

theorem popDue_popped (now : TPType) (fuel : Nat) (hfuel : heap.length ≤ fuel) (h : Ordered heap) :
    Popped now heap (popDue now fuel heap).1 (popDue now fuel heap).2 := by
  induction fuel generalizing heap with
  | zero =>
    obtain rfl := List.eq_nil_of_length_eq_zero (Nat.le_zero.mp hfuel)
    exact ⟨List.Perm.refl _, List.Pairwise.nil, nofun, nofun, h⟩
  | succ fuel ih =>
    cases heap with
    | nil => exact ⟨List.Perm.refl _, List.Pairwise.nil, nofun, nofun, h⟩
    | cons e heap =>
      unfold popDue
      split
      · next hout =>
        obtain ⟨hpop, hperm⟩ := h.pop
        have hlen : (popHeap TIMEREVENT.lt (e :: heap)).dropLast.length ≤ fuel := by
          rw [hperm.length_eq]
          exact Nat.le_of_succ_le_succ hfuel
        have hrec := ih hlen hpop
        have hall := hrec.perm.trans hperm
        refine ⟨hall.cons e, List.Pairwise.cons (fun e' he' => ?_) hrec.sorted,
          List.forall_mem_cons.mpr ⟨hout, hrec.out⟩, hrec.notYet, hrec.ordered⟩
        exact h.front (hall.subset (List.mem_append_left _ he'))
      · next hout =>
        have hfront : e.isTimeOut now = false := (Bool.not_eq_true _).mp hout
        refine ⟨List.Perm.refl _, List.Pairwise.nil, nofun, List.forall_mem_cons.mpr ⟨hfront, fun e' he' => ?_⟩,
          h⟩
        -- nothing behind a front that has not timed out has
        cases hlate : e'.isTimeOut now with
        | false => rfl
        | true => exact (isTimeOut_of_lt_false (h.front he') hlate).symm.trans hfront

-- ---------------------------------------------------------------------------
-- Steps and runs
-- ---------------------------------------------------------------------------

structure Good (s : State) : Prop where
  ordered : Ordered s.heap
  conserved : (s.heap : Multiset TIMEREVENT) + s.returned.flatten = s.set
  normal : ∀ e ∈ s.heap, e.val.Normal

theorem Good.pending (h : Good s) : s.pending = s.heap := by
  rw [State.pending, ← h.conserved, Multiset.add_sub_cancel_right]

theorem good_init : Good State.init := ⟨nofun, rfl, nofun⟩

theorem good_step (h : Good s) (hop : op.Proper) (hfits : op.Fits) : Good (s.step op) := by
  cases op with
  | setTimer now time =>
    have hperm : (setTimer s.heap now time).Perm (s.heap ++ [time.plus now]) := pushHeap_perm _
    refine ⟨h.ordered.setTimer now time, ?_, fun e he => ?_⟩
    · show ((setTimer s.heap now time : List TIMEREVENT) : Multiset TIMEREVENT) + s.returned.flatten =
        ↑(s.set ++ [time.plus now])
      rw [Multiset.coe_eq_coe.mpr hperm, ← Multiset.coe_add, ← Multiset.coe_add, ← h.conserved,
        add_right_comm]
    · rcases List.mem_append.mp (hperm.subset he) with hold | hnew
      · exact h.normal e hold
      · rw [List.mem_singleton.mp hnew]
        exact normal_plus hop.1 hop.2.2.2 hfits.1
  | checkAndPop now =>
    have hpop := popDue_popped now s.heap.length (Nat.le_refl _) h.ordered
    refine ⟨hpop.ordered, ?_, fun e he => h.normal e (hpop.perm.subset (List.mem_append_right _ he))⟩
    show ((checkAndPop s.heap now).2 : Multiset TIMEREVENT) +
      ↑(s.returned ++ [(checkAndPop s.heap now).1]).flatten = ↑s.set
    rw [List.flatten_append, List.flatten_singleton, ← Multiset.coe_add, ← h.conserved,
      ← Multiset.coe_eq_coe.mpr hpop.perm, ← Multiset.coe_add]
    unfold checkAndPop
    abel

theorem returns_checkAndPop (h : Good s) (hnow : now.Normal) :
    Returns s now (checkAndPop s.heap now).1 (checkAndPop s.heap now).2 := by
  have hpop := popDue_popped now s.heap.length (Nat.le_refl _) h.ordered
  have hall : s.pending = ↑(checkAndPop s.heap now).1 + ↑(checkAndPop s.heap now).2 := by
    rw [h.pending, Multiset.coe_add]
    exact (Multiset.coe_eq_coe.mpr hpop.perm).symm
  have hnormal : ∀ e ∈ (checkAndPop s.heap now).1 ++ (checkAndPop s.heap now).2, e.val.Normal :=
    fun e he => h.normal e (hpop.perm.subset he)
  have hout : ∀ e ∈ (checkAndPop s.heap now).1, Due now e := fun e he =>
    (isTimeOut_iff_due (hnormal e (List.mem_append_left _ he)) hnow).mp (hpop.out e he)
  have hnot : ∀ e ∈ (checkAndPop s.heap now).2, ¬Due now e := fun e he hdue => by
    have hlate := (isTimeOut_iff_due (hnormal e (List.mem_append_right _ he)) hnow).mpr hdue
    rw [hpop.notYet e he] at hlate
    cases hlate
  refine ⟨?_, fun e he => ?_, ?_, ?_⟩
  · refine hpop.sorted.imp_of_mem fun {e e'} he he' hlt => ?_
    exact micros_le_of_lt_false (hnormal e' (List.mem_append_left _ he'))
      (hnormal e (List.mem_append_left _ he)) hlt
  · rw [h.pending] at he
    exact isTimeOut_iff_due (h.normal e he) hnow
  · rw [hall, Multiset.filter_add, Multiset.filter_eq_self.mpr hout, Multiset.filter_eq_nil.mpr hnot,
      add_zero]
  · rw [hall, Multiset.filter_add, Multiset.filter_eq_nil.mpr fun e he => not_not_intro (hout e he),
      Multiset.filter_eq_self.mpr hnot, zero_add]

theorem contract_step (h : Good s) (hop : op.Proper) : Contract s op ↔ op.Fits := by
  cases op with
  | setTimer now time =>
    have hdeadline := micros_plus_iff hop.2.1.2 hop.1
    constructor
    · exact fun hc => hdeadline.mp hc.1
    · intro hfits
      refine ⟨hdeadline.mpr hfits, ?_⟩
      rw [(good_step h hop hfits).pending, h.pending]
      exact Multiset.coe_eq_coe.mpr ((pushHeap_perm _).trans (List.perm_append_singleton _ _))
  | checkAndPop now =>
    exact iff_of_true ⟨returns_checkAndPop h hop, (good_step h hop trivial).pending⟩ trivial

/-- Each call of `check_and_pop`, at whatever time, returns the pending events
that have timed out in the order of their deadlines and keeps the others, and
what was set is in the heap or was returned once, if and only if no deadline
overflows a `timeval`. -/
theorem timers_popped_once_iff (ops : List Op) (hops : ∀ op ∈ ops, op.Proper) :
    ((∀ t ∈ turns State.step State.init ops, Contract t.1 t.2) ∧
      ((ops.foldl State.step State.init).heap : Multiset TIMEREVENT) +
        (ops.foldl State.step State.init).returned.flatten = (ops.foldl State.step State.init).set) ↔
      ∀ op ∈ ops, op.Fits := by
  have hproper := (forall_turns_snd State.step State.init ops).mpr hops
  have hturns := forall_turns_iff_of (I := Good) (l := fun _ op => op.Proper) (o := fun _ op => op.Fits)
    (fun _ _ h hop => contract_step h hop)
    (fun _ _ h hop hc => good_step h hop ((contract_step h hop).mp hc)) ops good_init hproper
  rw [hturns, forall_turns_snd, and_iff_left_iff_imp]
  intro hfits
  refine (foldl_invariant (I := Good) (P := fun _ op => op.Proper ∧ op.Fits)
    (fun _ _ h hop => good_step h hop.1 hop.2) ops good_init fun t ht => ⟨hproper t ht, ?_⟩).conserved
  exact (forall_turns_snd State.step State.init ops).mpr hfits t ht

/-- The second timer is the first to time out, a fraction of a millisecond
early. -/
def earlyRun : List Op :=
  [.setTimer ⟨10, 999000⟩ ⟨⟨2, 0⟩, [1]⟩, .setTimer ⟨11, 100⟩ ⟨⟨0, 500000⟩, [2]⟩, .checkAndPop ⟨11, 499500⟩,
    .checkAndPop ⟨13, 0⟩]

theorem early_timer_popped :
    (∀ t ∈ turns State.step State.init earlyRun, Contract t.1 t.2) ∧
      ((earlyRun.foldl State.step State.init).heap : Multiset TIMEREVENT) +
        (earlyRun.foldl State.step State.init).returned.flatten =
          (earlyRun.foldl State.step State.init).set :=
  (timers_popped_once_iff earlyRun (by decide)).mpr (by decide)

/-- A timer that is set for the end of time is popped at once: its deadline is a
negative number of seconds. -/
def farRun : List Op := [.setTimer ⟨10, 0⟩ ⟨⟨2 ^ 63 - 1, 0⟩, [1]⟩, .checkAndPop ⟨10, 0⟩]

theorem far_timer_popped :
    (farRun.foldl State.step State.init).heap = [] ∧
      ¬∀ ops : List Op, (∀ op ∈ ops, op.Proper) →
        (∀ t ∈ turns State.step State.init ops, Contract t.1 t.2) ∧
          ((ops.foldl State.step State.init).heap : Multiset TIMEREVENT) +
            (ops.foldl State.step State.init).returned.flatten = (ops.foldl State.step State.init).set := by
  refine ⟨by decide, fun h => ?_⟩
  have hdeadline := ((h farRun (by decide)).1 _ List.mem_cons_self).1
  revert hdeadline
  decide

end CTimer

end GalaLua.Runtime
