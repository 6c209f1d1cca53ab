import GalaLua.AMQ.Delivery
import Mathlib.Data.Finset.Card

/-!
# Sleepers at the doors

A `CSQDoorQueue` has two conditions: consumers wait on the first one for a
message, producers on the second one for a free place. `Attended` says that
`_WAT` counts every blocked thread, and that while there is one, enough others
were woken for all that is ready. A wait whose time is up counts itself off
when it runs again, after a signal may have counted it off before.
-/

namespace GalaLua.AMQ

open Library (Reach Free)

/-- What the threads at a queue's door see of it. -/
structure Door where
  maxDepth : Nat
  threshold1 : CSQCond
  threshold2 : CSQCond
  count : Nat

def Media.door (m : Media) (q : Nat) : Door :=
  ⟨(m.suite q).queue.maxDepth, (m.suite q).queue.threshold1, (m.suite q).queue.threshold2,
    m.count (.queue q)⟩

/-- `GET_Wakeup`, and `PUT_Wakeup` behind its test. -/
def CSQCond.wakeup (k : CSQCond) (w : Nat) : CSQCond := if 0 < k.lurkers then k.notifyOne w else k

def Door.get (x : Door) (w : Nat) : Door :=
  { x with
    count := x.count - 1
    threshold2 := if 0 < x.maxDepth ∧ x.count - 1 < x.maxDepth then x.threshold2.wakeup w
      else x.threshold2 }

def Door.put (x : Door) (w : Nat) : Door :=
  { x with count := x.count + 1, threshold1 := x.threshold1.wakeup w }

inductive Side
  | consumer
  | producer
  deriving DecidableEq, Repr

namespace Side

def cond : Side → Door → CSQCond
  | .consumer, x => x.threshold1
  | .producer, x => x.threshold2

def setCond : Side → Door → CSQCond → Door
  | .consumer, x, k => { x with threshold1 := k }
  | .producer, x, k => { x with threshold2 := k }

def condId : Side → Nat → CondId
  | .consumer, q => .threshold1 q
  | .producer, q => .threshold2 q

/-- The messages, or the free places. -/
def ready : Side → Door → Nat
  | .consumer, x => x.count
  | .producer, x => x.maxDepth - x.count

/-- The thread waits at the door of `q`, and its time is not up. -/
def Waits (q : Nat) : Side → Pc → Prop
  | .consumer, .getQueueWait x e => x.q = q ∧ e = false
  | .producer, .putQueueWait x _ _ e => x.q = q ∧ e = false
  | _, _ => False

end Side

/-- Every blocked thread is counted, and while there is one, as many threads
as there are messages or free places were woken and have not run since. -/
structure Attended (s : State) (d : Side) (q : Nat) : Prop where
  counted : (d.cond (s.media.door q)).cnd.length ≤ (d.cond (s.media.door q)).wat.toNat
  signalled : (d.cond (s.media.door q)).cnd ≠ [] →
    ∃ ws : Finset Nat, (∀ t ∈ ws, d.Waits q (s.pc t) ∧ t ∉ (d.cond (s.media.door q)).cnd) ∧
      d.ready (s.media.door q) ≤ ws.card

-- ---------------------------------------------------------------------------
-- Sections at a door
-- ---------------------------------------------------------------------------

variable {c : Config} {m m' : Media} {q : Nat} {id : NodeList} {n : Int} {w : Nat}

theorem door_setList_of_pool (h : id.isPool) (l : CSQList) : (m.setList id l).door = m.door := by
  funext q
  cases id with
  | pooler => rfl
  | ppl q' =>
    simp only [Media.door, Media.count, Media.list, Media.setList, Media.setSuite,
      Function.update_apply]
    split <;> simp_all
  | queue q' => cases h

theorem door_setList_queue (l : CSQList) :
    (m.setList (.queue q) l).door = Function.update m.door q { m.door q with count := l.count } := by
  funext q'
  simp only [Media.door, Media.count, Media.list, Media.setList, Media.setSuite,
    Function.update_apply]
  split <;> simp_all

theorem door_setCond (d : Side) (k : CSQCond) :
    (m.setCond (d.condId q) k).door = Function.update m.door q (d.setCond (m.door q) k) := by
  funext q'
  cases d <;> simp only [Media.door, Media.count, Media.list, Media.setCond, Media.setSuite,
    Side.condId, Side.setCond, Function.update_apply] <;> split <;> simp_all

theorem door_setCond_event (k : CSQCond) : (m.setCond (.event q) k).door = m.door := by
  funext q'
  simp only [Media.door, Media.count, Media.list, Media.setCond, Media.setSuite,
    Function.update_apply]
  split <;> simp_all

theorem door_wakeup_event (w : Nat) : (m.wakeup (.event q) w).door = m.door := by
  unfold Media.wakeup
  split
  · exact door_setCond_event _
  · rfl

theorem cond_door (d : Side) (m : Media) (q : Nat) : d.cond (m.door q) = m.cond (d.condId q) := by
  cases d <;> rfl

theorem door_wakeup (d : Side) (w : Nat) :
    (m.wakeup (d.condId q) w).door =
      Function.update m.door q (d.setCond (m.door q) ((d.cond (m.door q)).wakeup w)) := by
  rw [cond_door, Media.wakeup, CSQCond.wakeup]
  split
  · exact door_setCond d _
  · rw [← cond_door]
    cases d <;> simp [Side.setCond, Side.cond]

theorem door_putTail :
    (m.putTail c (.queue q) n).door =
      Function.update m.door q { m.door q with count := (m.door q).count + 1 } :=
  door_setList_queue _

theorem door_doorPut : (m.doorPut c q n w).door = Function.update m.door q ((m.door q).put w) := by
  have h := door_wakeup (m := m.putTail c (.queue q) n) (q := q) .consumer w
  rw [door_putTail, Function.update_idem, Function.update_self] at h
  exact h

theorem door_getNode {a : Int} (h : m.getNode c (.queue q) = (some a, m')) :
    0 < (m.door q).count ∧
      m'.door = Function.update m.door q { m.door q with count := (m.door q).count - 1 } := by
  simp only [Media.getNode, CSQList.get, Prod.mk.injEq] at h
  obtain ⟨hget, rfl⟩ := h
  have hcount : (m.door q).count = (m.list (.queue q)).total := rfl
  split at hget
  · next hpos =>
    refine ⟨hpos, (door_setList_queue _).trans ?_⟩
    rw [hcount]
    split at hget
    · cases hget
    · simp [hpos, CSQList.count]
  · cases hget

theorem door_doorGet {a : Int} (h : m.doorGet c q w = (some a, m')) :
    0 < (m.door q).count ∧ m'.door = Function.update m.door q ((m.door q).get w) := by
  simp only [Media.doorGet] at h
  split at h
  · cases h
  · next a' m₁ hget =>
    obtain ⟨hpos, hdoor⟩ := door_getNode hget
    cases h
    refine ⟨hpos, ?_⟩
    have hq : m₁.door q = { m.door q with count := (m.door q).count - 1 } := by
      rw [hdoor, Function.update_self]
    have hdepth : (m₁.suite q).queue.maxDepth = (m.door q).maxDepth := congrArg Door.maxDepth hq
    have hcount : m₁.count (.queue q) = (m.door q).count - 1 := congrArg Door.count hq
    rw [hdepth, hcount]
    have hwake := door_wakeup (m := m₁) (q := q) .producer w
    rw [hq, hdoor, Function.update_idem] at hwake
    unfold Door.get
    split
    · exact hwake
    · exact hdoor

theorem door_getNode_of_pool (h : id.isPool) : (m.getNode c id).2.door = m.door :=
  door_setList_of_pool h _

theorem door_putHead_of_pool (h : id.isPool) : (m.putHead c id n).door = m.door :=
  door_setList_of_pool h _

theorem door_pplGet : (m.pplGet c q).2.door = m.door := by
  unfold Media.pplGet
  split
  · exact door_getNode_of_pool rfl
  · exact door_getNode_of_pool rfl

theorem door_pplPut : (m.pplPut c q n w).door = m.door := by
  refine (door_wakeup_event w).trans ?_
  split
  · exact door_putHead_of_pool (show NodeList.isPool (.ppl q) from rfl)
  · exact door_putHead_of_pool (show NodeList.isPool .pooler from rfl)

theorem door_allocate (size : Nat) : (m.allocate c size).2.door = m.door := by
  unfold Media.allocate
  split <;> rfl

-- ---------------------------------------------------------------------------
-- Waiters along the moves
-- ---------------------------------------------------------------------------

/-- `Attended`, with what it rests on: the blocked threads are different ones,
and all are at this door. -/
structure Watched (d : Side) (q : Nat) (x : Door) (pc : Nat → Pc) : Prop where
  nodup : (d.cond x).cnd.Nodup
  waits : ∀ t ∈ (d.cond x).cnd, d.Waits q (pc t)
  counted : (d.cond x).cnd.length ≤ (d.cond x).wat.toNat
  signalled : (d.cond x).cnd ≠ [] →
    ∃ ws : Finset Nat, (∀ t ∈ ws, d.Waits q (pc t) ∧ t ∉ (d.cond x).cnd) ∧ d.ready x ≤ ws.card

variable {d : Side} {x y : Door} {pc : Nat → Pc} {t : Nat} {p : Pc} {k : CSQCond}

theorem waits_update {t' : Nat} (hne : t' ≠ t) (h : d.Waits q (pc t')) :
    d.Waits q (Function.update pc t p t') := by rwa [Function.update_of_ne hne]

/-- The thread `t` moves on and the condition stays. A woken thread that moves
on took something, or there is nothing. -/
theorem Watched.keep (h : Watched d q x pc) (hcond : d.cond y = d.cond x) (ht : t ∉ (d.cond x).cnd)
    (hready : d.ready y = 0 ∨ d.ready y + 1 ≤ d.ready x ∨
      ¬ d.Waits q (pc t) ∧ d.ready y ≤ d.ready x) :
    Watched d q y (Function.update pc t p) := by
  refine ⟨hcond ▸ h.nodup, fun u hu => ?_, hcond ▸ h.counted, fun hne => ?_⟩
  · rw [hcond] at hu
    exact waits_update (fun he => ht (he ▸ hu)) (h.waits u hu)
  · rw [hcond] at hne ⊢
    obtain ⟨ws, hws, hle⟩ := h.signalled hne
    refine ⟨ws.erase t, fun u hu => ?_, ?_⟩
    · obtain ⟨hut, hu⟩ := Finset.mem_erase.mp hu
      exact ⟨waits_update hut (hws u hu).1, (hws u hu).2⟩
    · have hcard : ws.card - 1 ≤ (ws.erase t).card := Finset.pred_card_le_card_erase
      rcases hready with h0 | h1 | ⟨hnot, h2⟩
      · omega
      · omega
      · rw [Finset.erase_eq_of_notMem fun hmem => hnot (hws t hmem).1]
        omega

theorem Watched.sleep (h : Watched d q x pc) (hcond : d.cond y = (d.cond x).wait t)
    (ht : t ∉ (d.cond x).cnd) (hready : d.ready y = 0) (hp : d.Waits q p)
    (hroom : (d.cond x).wat.toNat < 2 ^ 32 - 1) : Watched d q y (Function.update pc t p) := by
  have hwat : ((d.cond x).wat + 1).toNat = (d.cond x).wat.toNat + 1 := by
    rw [BitVec.toNat_add]
    exact Nat.mod_eq_of_lt (by simp; omega)
  have hcount := h.counted
  rw [CSQCond.wait] at hcond
  refine ⟨?_, fun u hu => ?_, ?_, fun _ => ⟨∅, by simp, by simp [hready]⟩⟩
  · rw [hcond]
    refine List.nodup_append.mpr ⟨h.nodup, List.nodup_singleton t, fun u hu v hv => ?_⟩
    rintro rfl
    exact ht (List.mem_singleton.mp hv ▸ hu)
  · rw [hcond] at hu
    rcases List.mem_append.mp hu with hu | hu
    · exact waits_update (fun he => ht (he ▸ hu)) (h.waits u hu)
    · obtain rfl := List.mem_singleton.mp hu
      rwa [Function.update_self]
  · rw [hcond]
    simp only [List.length_append, List.length_singleton, hwat]
    omega

theorem toNat_countOff (k : CSQCond) : k.countOff.toNat = k.wat.toNat - 1 := by
  unfold CSQCond.countOff
  split
  · next hpos =>
    rw [BitVec.toNat_sub_of_le]
    · rfl
    · exact BitVec.le_def.mpr hpos
  · omega

/-- A waiter whose time was up counts itself off. -/
theorem Watched.expire (h : Watched d q x pc) (hcond : d.cond y = (d.cond x).expire)
    (hready : d.ready y = d.ready x) (ht : ¬ d.Waits q (pc t))
    (hroom : (d.cond x).cnd = [] ∨ (d.cond x).cnd.length < (d.cond x).wat.toNat) :
    Watched d q y (Function.update pc t p) := by
  have htc : t ∉ (d.cond x).cnd := fun hmem => ht (h.waits t hmem)
  have hkeep := h.keep (y := x) (p := p) rfl htc (.inr (.inr ⟨ht, le_rfl⟩))
  have hcnd : (d.cond y).cnd = (d.cond x).cnd := by rw [hcond]; rfl
  refine ⟨hcnd ▸ hkeep.nodup, hcnd ▸ hkeep.waits, ?_, ?_⟩
  · rw [hcond]
    simp only [CSQCond.expire, toNat_countOff]
    rcases hroom with hempty | hlt
    · simp [hempty]
    · omega
  · rw [hcnd, hready]
    exact hkeep.signalled

/-- The condition after a signal that one of its threads may get. -/
theorem wakeup_cases {k : CSQCond} (hnd : k.cnd.Nodup) (hcount : k.cnd.length ≤ k.wat.toNat)
    (w : Nat) :
    k.cnd = [] ∧ (k.wakeup w).cnd = [] ∨
      ∃ u ∈ k.cnd, (k.wakeup w).cnd = k.cnd.erase u ∧ (k.wakeup w).wat.toNat = k.wat.toNat - 1 := by
  by_cases hempty : k.cnd = []
  · refine .inl ⟨hempty, ?_⟩
    unfold CSQCond.wakeup
    split <;> simp [CSQCond.notifyOne, hempty]
  · have hpos : 0 < k.cnd.length := List.length_pos_iff.mpr hempty
    have hi : w % k.cnd.length < k.cnd.length := Nat.mod_lt _ hpos
    refine .inr ⟨k.cnd[w % k.cnd.length], List.getElem_mem hi, ?_⟩
    have hl : 0 < k.lurkers := by
      unfold CSQCond.lurkers
      omega
    rw [CSQCond.wakeup, if_pos hl]
    exact ⟨(hnd.erase_getElem _ hi).symm, toNat_countOff k⟩

/-- A thread that does not wait at the door signals, with one more ready. -/
theorem Watched.signal (h : Watched d q x pc) (hcond : d.cond y = (d.cond x).wakeup w)
    (hready : d.ready y ≤ d.ready x + 1) (ht : ¬ d.Waits q (pc t)) :
    Watched d q y (Function.update pc t p) := by
  have hcount := h.counted
  have hne {u : Nat} (hu : d.Waits q (pc u)) : u ≠ t := fun he => ht (he ▸ hu)
  rcases wakeup_cases h.nodup h.counted w with ⟨-, hempty⟩ | ⟨u, hu, herase, hwat⟩
  · rw [← hcond] at hempty
    exact ⟨by simp [hempty], by simp [hempty], by simp [hempty], fun hn => absurd hempty hn⟩
  · rw [← hcond] at herase hwat
    refine ⟨herase ▸ h.nodup.erase u, fun v hv => ?_, ?_, fun _ => ?_⟩
    · have hv := h.waits v (List.mem_of_mem_erase (herase ▸ hv))
      exact waits_update (hne hv) hv
    · rw [herase, hwat, List.length_erase_of_mem hu]
      omega
    · obtain ⟨ws, hws, hle⟩ := h.signalled (List.ne_nil_of_mem hu)
      refine ⟨insert u ws, fun v hv => ?_, ?_⟩
      · rw [herase]
        rcases Finset.mem_insert.mp hv with rfl | hv
        · exact ⟨waits_update (hne (h.waits v hu)) (h.waits v hu), h.nodup.not_mem_erase⟩
        · exact ⟨waits_update (hne (hws v hv).1) (hws v hv).1,
            fun hmem => (hws v hv).2 (List.mem_of_mem_erase hmem)⟩
      · rw [Finset.card_insert_of_notMem fun hmem => (hws u hmem).2 hu]
        omega

theorem Watched.wake (h : Watched d q x pc) (hcond : d.cond y = (d.cond x).leave t)
    (hready : d.ready y = d.ready x) (ht : t ∈ (d.cond x).cnd) :
    Watched d q y (Function.update pc t p) := by
  have hcount := h.counted
  have hcnd : (d.cond y).cnd = (d.cond x).cnd.erase t := by rw [hcond]; rfl
  have hwat : (d.cond y).wat = (d.cond x).wat := by rw [hcond]; rfl
  refine ⟨hcnd ▸ h.nodup.erase t, fun u hu => ?_, ?_, fun _ => ?_⟩
  · rw [hcnd] at hu
    have hut : u ≠ t := by
      rintro rfl
      exact h.nodup.not_mem_erase hu
    exact waits_update hut (h.waits u (List.mem_of_mem_erase hu))
  · rw [hcnd, hwat, List.length_erase_of_mem ht]
    omega
  · obtain ⟨ws, hws, hle⟩ := h.signalled (List.ne_nil_of_mem ht)
    refine ⟨ws, fun u hu => ?_, hready ▸ hle⟩
    obtain ⟨hw, hnot⟩ := hws u hu
    rw [hcnd]
    exact ⟨waits_update (fun he => hnot (he ▸ ht)) hw, fun hmem => hnot (List.mem_of_mem_erase hmem)⟩

-- ---------------------------------------------------------------------------
-- One step
-- ---------------------------------------------------------------------------

/-- The `_WAT` of a door where nothing is ready has room for a waiter. -/
def Door.HasRoom (x : Door) (d : Side) : Prop := d.ready x = 0 → (d.cond x).wat.toNat < 2 ^ 32 - 1

/-- `_WAT` counts more than the blocked threads, or there are none. -/
def Door.Spare (x : Door) (d : Side) : Prop :=
  (d.cond x).cnd = [] ∨ (d.cond x).cnd.length < (d.cond x).wat.toNat

instance (x : Door) (d : Side) : Decidable (x.HasRoom d) := inferInstanceAs (Decidable (_ → _))

instance (x : Door) (d : Side) : Decidable (x.Spare d) := inferInstanceAs (Decidable (_ ∨ _))

/-- What the section of a thread at `p` needs of the doors: a waiter whose time
was up runs only while `_WAT` has one to spare, and `_WAT` does not overflow. -/
def Pc.Heeded (m : Media) : Pc → Prop
  | .getQueue x => x.wait ≠ .nowait → (m.door x.q).HasRoom .consumer
  | .getQueueWait x false => (m.door x.q).HasRoom .consumer
  | .getQueueWait x true => (m.door x.q).Spare .consumer
  | .putQueue x _ _ => x.wait ≠ .nowait → (m.door x.q).HasRoom .producer
  | .putQueueWait x _ _ false => (m.door x.q).HasRoom .producer
  | .putQueueWait x _ _ true => (m.door x.q).Spare .producer
  | _ => True

def Heeded (s : State) : Action → Prop
  | .run t _ _ => (s.pc t).Heeded s.media
  | _ => True

instance (m : Media) (p : Pc) : Decidable (p.Heeded m) :=
  match p with
  | .getQueue _ | .putQueue .. => inferInstanceAs (Decidable (_ → _))
  | .getQueueWait _ false | .putQueueWait _ _ _ false =>
    inferInstanceAs (Decidable (Door.HasRoom _ _))
  | .getQueueWait _ true | .putQueueWait _ _ _ true => inferInstanceAs (Decidable (Door.Spare _ _))
  | .idle | .putNode _ | .putNodeWait .. | .putAlloc .. | .putWrite .. | .unwindNode .. | .unwindPage _
  | .getRead .. | .getFree .. | .getPut .. => .isTrue trivial

instance (s : State) (a : Action) : Decidable (Heeded s a) :=
  match a with
  | .run t _ _ => inferInstanceAs (Decidable ((s.pc t).Heeded s.media))
  | .call .. | .wake .. => .isTrue trivial

variable {s s' : State} {d' : Side} {q' : Nat} {a : Action}

theorem Side.Waits.unique (h : d.Waits q p) (h' : d'.Waits q' p) : d' = d ∧ q' = q := by
  cases d <;> cases d' <;> cases p <;> simp_all [Side.Waits]

theorem Side.Waits.cond (h : d.Waits q p) : p.cond = some (d.condId q) := by
  cases d <;> cases p <;> simp_all [Side.Waits, Pc.cond, Side.condId]

abbrev AllWatched (m : Media) (pc : Nat → Pc) : Prop := ∀ d q, Watched d q (m.door q) pc

theorem notMem_of_not_blocked (h : AllWatched s.media s.pc) (ht : s.blocked t = false) :
    t ∉ (d.cond (s.media.door q)).cnd := by
  intro hmem
  have hcond := ((h d q).waits t hmem).cond
  rw [State.blocked, hcond] at ht
  simp only [decide_eq_false_iff_not] at ht
  rw [cond_door] at hmem
  exact ht hmem

theorem AllWatched.quiet (h : AllWatched s.media s.pc) (hdoor : m'.door = s.media.door)
    (hnot : ∀ (d : Side) q, ¬ d.Waits q (s.pc t)) : AllWatched m' (Function.update s.pc t p) := by
  intro d q
  rw [hdoor]
  exact (h d q).keep rfl (fun hmem => hnot d q ((h d q).waits t hmem)) (.inr (.inr ⟨hnot d q, le_rfl⟩))

theorem AllWatched.at (h : AllWatched s.media s.pc) (hdoor : m'.door = Function.update s.media.door q y)
    (ht : ∀ q' ≠ q, ∀ d : Side, ¬ d.Waits q' (s.pc t))
    (hq : ∀ d, Watched d q y (Function.update s.pc t p)) :
    AllWatched m' (Function.update s.pc t p) := by
  intro d q'
  rw [hdoor]
  by_cases he : q' = q
  · subst he
    rw [Function.update_self]
    exact hq d
  · rw [Function.update_of_ne he]
    have hnot := ht q' he d
    exact (h d q').keep rfl (fun hmem => hnot ((h d q').waits t hmem)) (.inr (.inr ⟨hnot, le_rfl⟩))

theorem Watched.opposite {x : Door} (h : Watched d' q x pc) (hne : d' ≠ d) (k : CSQCond)
    (ht : ¬ d'.Waits q (pc t)) : Watched d' q (d.setCond x k) (Function.update pc t p) := by
  refine h.keep ?_ (fun hmem => ht (h.waits t hmem)) (.inr (.inr ⟨ht, ?_⟩))
  · cases d <;> cases d' <;> first | exact absurd rfl hne | rfl
  · cases d <;> cases d' <;> first | exact absurd rfl hne | exact le_rfl

theorem cond_setCond_side (d : Side) (x : Door) (k : CSQCond) : d.cond (d.setCond x k) = k := by
  cases d <;> rfl

theorem ready_setCond_side (d : Side) (x : Door) (k : CSQCond) :
    d.ready (d.setCond x k) = d.ready x := by
  cases d <;> rfl

theorem AllWatched.sleep (h : AllWatched s.media s.pc) (ht : s.blocked t = false)
    (hwhere : ∀ (d' : Side) q', d'.Waits q' (s.pc t) → d' = d ∧ q' = q)
    (hready : d.ready (s.media.door q) = 0) (hp : d.Waits q p)
    (hroom : (s.media.door q).HasRoom d) :
    AllWatched (s.sleep t (d.condId q) p).media (s.sleep t (d.condId q) p).pc := by
  refine h.at (door_setCond d _) (fun q' hne d' hw => hne (hwhere d' q' hw).2) fun d' => ?_
  by_cases hd : d' = d
  · subst hd
    refine (h d' q).sleep ?_ (notMem_of_not_blocked h ht) ?_ hp (hroom hready)
    · rw [cond_setCond_side, cond_door]
    · rw [ready_setCond_side, hready]
  · exact (h d' q).opposite hd _ fun hw => hd (hwhere d' q hw).1

theorem AllWatched.timeout (h : AllWatched s.media s.pc) (hnot : ∀ (d' : Side) q', ¬ d'.Waits q' (s.pc t))
    (hspare : (s.media.door q).Spare d) :
    AllWatched (s.timeout t (d.condId q) p).media (s.timeout t (d.condId q) p).pc := by
  refine h.at (door_setCond d _) (fun q' _ d' => hnot d' q') fun d' => ?_
  by_cases hd : d' = d
  · subst hd
    refine (h d' q).expire ?_ (ready_setCond_side ..) (hnot d' q) hspare
    rw [cond_setCond_side, cond_door]
  · exact (h d' q).opposite hd _ (hnot d' q)

/-- A consumer takes a message: a place gets free. -/
theorem AllWatched.get (h : AllWatched s.media s.pc) (ht : s.blocked t = false)
    (hwhere : ∀ (d' : Side) q', d'.Waits q' (s.pc t) → d' = .consumer ∧ q' = q)
    (hpos : 0 < (s.media.door q).count)
    (hdoor : m'.door = Function.update s.media.door q ((s.media.door q).get w)) :
    AllWatched m' (Function.update s.pc t p) := by
  refine h.at hdoor (fun q' hne d' hw => hne (hwhere d' q' hw).2) fun d' => ?_
  cases d' with
  | consumer =>
    refine (h .consumer q).keep rfl (notMem_of_not_blocked h ht) (.inr (.inl ?_))
    simp only [Side.ready, Door.get]
    omega
  | producer =>
    have hnot : ¬ Side.producer.Waits q (s.pc t) := fun hw => nomatch (hwhere _ _ hw).1
    by_cases hwake : 0 < (s.media.door q).maxDepth ∧
        (s.media.door q).count - 1 < (s.media.door q).maxDepth
    · refine (h .producer q).signal (w := w) ?_ ?_ hnot
      · simp only [Side.cond, Door.get, if_pos hwake]
      · simp only [Side.ready, Door.get]
        omega
    · refine (h .producer q).keep ?_ (notMem_of_not_blocked h ht) (.inl ?_)
      · simp only [Side.cond, Door.get, if_neg hwake]
      · simp only [Side.ready, Door.get]
        omega

/-- A producer puts a message: one more for the consumers. -/
theorem AllWatched.put (h : AllWatched s.media s.pc) (ht : s.blocked t = false)
    (hwhere : ∀ (d' : Side) q', d'.Waits q' (s.pc t) → d' = .producer ∧ q' = q)
    (hfull : s.media.full q = false)
    (hdoor : m'.door = Function.update s.media.door q ((s.media.door q).put w)) :
    AllWatched m' (Function.update s.pc t p) := by
  refine h.at hdoor (fun q' hne d' hw => hne (hwhere d' q' hw).2) fun d' => ?_
  cases d' with
  | consumer =>
    exact (h .consumer q).signal (w := w) rfl le_rfl fun hw => nomatch (hwhere _ _ hw).1
  | producer =>
    have hfree : (s.media.door q).maxDepth = 0 ∨
        (s.media.door q).count < (s.media.door q).maxDepth := by
      simp only [Media.full, Bool.and_eq_false_iff, decide_eq_false_iff_not] at hfull
      simp only [Media.door]
      omega
    refine (h .producer q).keep rfl (notMem_of_not_blocked h ht) ?_
    simp only [Side.ready, Door.put]
    omega

theorem call_watched (h : AllWatched s.media s.pc) (hidle : (s.pc t).isIdle) :
    AllWatched s.media (Function.update s.pc t p) := by
  refine h.quiet rfl fun d q hw => ?_
  cases d <;> cases hpc : s.pc t <;> simp_all [Side.Waits, Pc.isIdle]

theorem AllWatched.leave (h : AllWatched s.media s.pc)
    (hmem : t ∈ (d.cond (s.media.door q)).cnd) :
    AllWatched (s.media.setCond (d.condId q) ((s.media.cond (d.condId q)).leave t))
      (Function.update s.pc t p) := by
  have hw := (h d q).waits t hmem
  refine h.at (door_setCond d _) (fun q' hne d' hw' => hne (hw.unique hw').2) fun d' => ?_
  by_cases hd : d' = d
  · subst hd
    refine (h d' q).wake ?_ (ready_setCond_side ..) hmem
    rw [cond_setCond_side, cond_door]
  · exact (h d' q).opposite hd _ fun hw' => hd (hw.unique hw').1

theorem wake_watched {k : CondId} (h : AllWatched s.media s.pc) (hk : (s.pc t).cond = some k)
    (hb : s.blocked t) :
    AllWatched (s.media.setCond k ((s.media.cond k).leave t)) (Function.update s.pc t p) := by
  have hmem : t ∈ (s.media.cond k).cnd := by
    rw [State.blocked, hk] at hb
    exact of_decide_eq_true hb
  cases k with
  | event q =>
    refine h.quiet (door_setCond_event _) fun d q' hw => ?_
    rw [hw.cond] at hk
    cases d <;> cases hk
  | threshold1 q => exact h.leave (d := .consumer) hmem
  | threshold2 q => exact h.leave (d := .producer) hmem

theorem getSleep_watched {x : GetCall} {m : Media} (hi : Inv c s) (h : AllWatched s.media s.pc)
    (ht : s.blocked t = false)
    (hwhere : ∀ (d' : Side) q', d'.Waits q' (s.pc t) → d' = .consumer ∧ q' = x.q)
    (hqueue : (s.pc t).queue = some x.q) (hroom : (s.media.door x.q).HasRoom .consumer)
    (hget : s.media.doorGet c x.q w = (none, m)) :
    AllWatched (s.sleep t (.threshold1 x.q) (.getQueueWait x false)).media
      (s.sleep t (.threshold1 x.q) (.getQueueWait x false)).pc := by
  obtain ⟨v, pg, ho, -⟩ := hi
  have hx : x.q < c.queues := ho.queue t x.q hqueue
  have hready : Side.consumer.ready (s.media.door x.q) = 0 := by
    rcases doorGet_spec ho.lists hx ho.separate w with ⟨-, hv⟩ | ⟨a, xs, m', -, hget', -⟩
    · have hcount : s.media.count (.queue x.q) = (v (.queue x.q)).length := ho.lists.count_eq hx
      rw [hv] at hcount
      exact hcount
    · cases hget.symm.trans hget'
  exact h.sleep (d := .consumer) ht hwhere hready ⟨rfl, rfl⟩ hroom

theorem putSleep_watched {x : PutCall} {n' : Int} (h : AllWatched s.media s.pc)
    (ht : s.blocked t = false)
    (hwhere : ∀ (d' : Side) q', d'.Waits q' (s.pc t) → d' = .producer ∧ q' = x.q)
    (hroom : (s.media.door x.q).HasRoom .producer) (hfull : s.media.full x.q) :
    AllWatched (s.sleep t (.threshold2 x.q) (.putQueueWait x n n' false)).media
      (s.sleep t (.threshold2 x.q) (.putQueueWait x n n' false)).pc := by
  refine h.sleep (d := .producer) ht hwhere ?_ ⟨rfl, rfl⟩ hroom
  simp only [Media.full, Bool.and_eq_true, decide_eq_true_eq] at hfull
  simp only [Side.ready, Media.door]
  omega

theorem enqueue_watched {x : PutCall} (h : AllWatched s.media s.pc) (ht : s.blocked t = false)
    (hwhere : ∀ (d' : Side) q', d'.Waits q' (s.pc t) → d' = .producer ∧ q' = x.q)
    (hfull : s.media.full x.q = false) :
    AllWatched (s.enqueue c t x n w).media (s.enqueue c t x n w).pc :=
  h.put ht hwhere hfull door_doorPut

/-- A thread that waits at a door, its time not up. -/
def Pc.atDoor : Pc → Bool
  | .getQueueWait _ e | .putQueueWait _ _ _ e => !e
  | _ => false

theorem not_waits (hpc : s.pc t = p) (h : p.atDoor = false) (d : Side) (q : Nat) :
    ¬ d.Waits q (s.pc t) := by
  rw [hpc]
  cases d <;> cases p <;> simp_all [Side.Waits, Pc.atDoor]

theorem waits_only (hpc : s.pc t = p) (hp : d.Waits q p) (d' : Side) (q' : Nat)
    (hw : d'.Waits q' (s.pc t)) : d' = d ∧ q' = q := by
  rw [hpc] at hw
  exact hp.unique hw

theorem nextSection_watched {b : Bool} (hi : Inv c s) (h : AllWatched s.media s.pc)
    (ht : s.blocked t = false) (hh : (s.pc t).Heeded s.media)
    (hs : nextSection c s t w b (s.pc t) = some s') : AllWatched s'.media s'.pc := by
  cases hpc : s.pc t <;> rw [hpc] at hs hh
  case idle => cases hs
  case putNode x =>
    have hdoor := door_pplGet (c := c) (m := s.media) (q := x.q)
    simp only [nextSection] at hs
    split at hs
    · next n m hget =>
      rw [hget] at hdoor
      exact Option.some.inj hs ▸ h.quiet hdoor (not_waits hpc rfl)
    · split at hs
      · exact Option.some.inj hs ▸ h.quiet rfl (not_waits hpc rfl)
      · exact Option.some.inj hs ▸ h.quiet (door_setCond_event _) (not_waits hpc rfl)
  case putNodeWait x e =>
    have hdoor := door_getNode_of_pool (c := c) (m := s.media)
      (show NodeList.isPool (.ppl x.q) from rfl)
    simp only [nextSection] at hs
    split at hs
    · exact Option.some.inj hs ▸ h.quiet (door_setCond_event _) (not_waits hpc rfl)
    · split at hs
      · next n m hget =>
        rw [hget] at hdoor
        exact Option.some.inj hs ▸ h.quiet hdoor (not_waits hpc rfl)
      · exact Option.some.inj hs ▸ h.quiet (door_setCond_event _) (not_waits hpc rfl)
  case putAlloc x n =>
    have hdoor := door_allocate (c := c) (m := s.media) x.buffer.length
    simp only [nextSection] at hs
    split at hs
    all_goals
      next hget =>
      rw [hget] at hdoor
      exact Option.some.inj hs ▸ h.quiet hdoor (not_waits hpc rfl)
  case putWrite x n p =>
    simp only [nextSection] at hs
    split at hs
    all_goals exact Option.some.inj hs ▸ h.quiet rfl (not_waits hpc rfl)
  case putQueue x n p =>
    have hwhere (d' : Side) q' (hw : d'.Waits q' (s.pc t)) : d' = .producer ∧ q' = x.q :=
      absurd hw (not_waits hpc rfl d' q')
    simp only [nextSection] at hs
    split at hs
    · next hfull =>
      split at hs
      · exact Option.some.inj hs ▸ h.quiet rfl (not_waits hpc rfl)
      · next hwait => exact Option.some.inj hs ▸ putSleep_watched h ht hwhere (hh hwait) hfull
    · next hfull =>
      exact Option.some.inj hs ▸ enqueue_watched h ht hwhere (Bool.eq_false_iff.mpr hfull)
  case putQueueWait x n p e =>
    simp only [nextSection] at hs
    cases e with
    | true => exact Option.some.inj hs ▸ h.timeout (d := .producer) (not_waits hpc rfl) hh
    | false =>
      have hwhere := waits_only (d := .producer) (q := x.q) hpc ⟨rfl, rfl⟩
      simp only [Bool.false_eq_true, if_false] at hs
      split at hs
      · next hfull => exact Option.some.inj hs ▸ putSleep_watched h ht hwhere hh hfull
      · next hfull =>
        exact Option.some.inj hs ▸ enqueue_watched h ht hwhere (Bool.eq_false_iff.mpr hfull)
  case unwindNode q n p => exact Option.some.inj hs ▸ h.quiet door_pplPut (not_waits hpc rfl)
  case unwindPage p => exact Option.some.inj hs ▸ h.quiet rfl (not_waits hpc rfl)
  case getQueue x =>
    have hwhere (d' : Side) q' (hw : d'.Waits q' (s.pc t)) : d' = .consumer ∧ q' = x.q :=
      absurd hw (not_waits hpc rfl d' q')
    simp only [nextSection] at hs
    split at hs
    · next n m hget =>
      obtain ⟨hpos, hdoor⟩ := door_doorGet hget
      exact Option.some.inj hs ▸ h.get ht hwhere hpos hdoor
    · next m hget =>
      split at hs
      · exact Option.some.inj hs ▸ h.quiet rfl (not_waits hpc rfl)
      · next hwait =>
        exact Option.some.inj hs ▸ getSleep_watched hi h ht hwhere (by rw [hpc]; rfl) (hh hwait) hget
  case getQueueWait x e =>
    simp only [nextSection] at hs
    cases e with
    | true => exact Option.some.inj hs ▸ h.timeout (d := .consumer) (not_waits hpc rfl) hh
    | false =>
      have hwhere := waits_only (d := .consumer) (q := x.q) hpc ⟨rfl, rfl⟩
      simp only [Bool.false_eq_true, if_false] at hs
      split at hs
      · next n m hget =>
        obtain ⟨hpos, hdoor⟩ := door_doorGet hget
        exact Option.some.inj hs ▸ h.get ht hwhere hpos hdoor
      · next m hget =>
        exact Option.some.inj hs ▸ getSleep_watched hi h ht hwhere (by rw [hpc]; rfl) hh hget
  case getRead x n k =>
    simp only [nextSection] at hs
    split at hs
    all_goals exact Option.some.inj hs ▸ h.quiet rfl (not_waits hpc rfl)
  case getFree q n p => exact Option.some.inj hs ▸ h.quiet rfl (not_waits hpc rfl)
  case getPut q n => exact Option.some.inj hs ▸ h.quiet door_pplPut (not_waits hpc rfl)

theorem step_watched (hi : Inv c s) (h : AllWatched s.media s.pc) (hh : Heeded s a)
    (hs : step c s a = some s') : AllWatched s'.media s'.pc := by
  cases a with
  | call t z =>
    simp only [step] at hs
    split at hs
    · next hok => exact Option.some.inj hs ▸ call_watched h hok.1
    · cases hs
  | wake t expired =>
    simp only [step] at hs
    split at hs
    · next k p' hk hw =>
      split at hs
      · next hb => exact Option.some.inj hs ▸ wake_watched h hk hb
      · cases hs
    · cases hs
  | run t w buffer =>
    simp only [step] at hs
    split at hs
    · cases hs
    · next hb => exact nextSection_watched hi h (Bool.eq_false_iff.mpr hb) hh hs

-- ---------------------------------------------------------------------------
-- Runs
-- ---------------------------------------------------------------------------

theorem cond_relist (m : Media) (id : NodeList) (l : CSQList) (nodes : Int → CSQNode) :
    (m.relist id l nodes).cond = m.cond := by
  funext k
  rw [← m.cond_setList id l k]
  cases k <;> rfl

theorem cond_getNode (m : Media) (id : NodeList) : (m.getNode c id).2.cond = m.cond :=
  cond_relist ..

theorem cond_putHead (m : Media) (id : NodeList) (n : Int) : (m.putHead c id n).cond = m.cond :=
  cond_relist ..

theorem cond_putNodes (k : Nat) (m : Media) : (m.putNodes c k).cond = m.cond := by
  induction k with
  | zero => rfl
  | succ k ih =>
    simp only [Media.putNodes, List.range_succ, List.foldl_append, List.foldl_cons,
      List.foldl_nil] at ih ⊢
    rw [cond_putHead, ih]

theorem cond_pplInit {k : Nat} (hi : Media.pplInit c q k m = some m') : m'.cond = m.cond := by
  induction k generalizing m with
  | zero => exact Option.some.inj hi ▸ rfl
  | succ k ih =>
    have hcond := cond_getNode (c := c) m .pooler
    simp only [Media.pplInit] at hi
    split at hi
    · cases hi
    · next n m₁ hget =>
      rw [hget] at hcond
      rw [ih hi, cond_putHead, hcond]

/-- Nobody waits on a media that was set up, and no counter is above 0. -/
theorem cond_infor {m₀ : Media} (hi : Media.infor c m₀ = some m) (k : CondId) : m.cond k = .init := by
  have hfold {qs : List Nat} {m m' : Media}
      (h : qs.foldlM (fun m q => Media.pplInit c q c.catchCount m) m = some m') :
      m'.cond = m.cond := by
    induction qs generalizing m with
    | nil => exact Option.some.inj h ▸ rfl
    | cons q qs ih =>
      simp only [List.foldlM_cons, Option.bind_eq_bind] at h
      obtain ⟨m₁, h₁, h⟩ := Option.bind_eq_some_iff.mp h
      rw [ih h, cond_pplInit h₁]
  rw [hfold hi, Media.initPooler, cond_putNodes]
  cases k <;> rfl

theorem init_watched {m₀ : Media} (hi : Media.infor c m₀ = some m) :
    AllWatched (State.init m).media (State.init m).pc := by
  intro d q
  have hcond : d.cond (m.door q) = .init := (cond_door d m q).trans (cond_infor hi _)
  have hcnd : (d.cond (m.door q)).cnd = [] := by rw [hcond]; rfl
  refine ⟨?_, fun t ht => ?_, ?_, fun hne => absurd hcnd hne⟩
  · exact hcnd ▸ List.nodup_nil
  · rw [show (State.init m).media = m from rfl, hcnd] at ht
    cases ht
  · show (d.cond (m.door q)).cnd.length ≤ _
    rw [hcnd]
    exact Nat.zero_le _

theorem Watched.toAttended (h : Watched d q (s.media.door q) s.pc) : Attended s d q :=
  ⟨h.counted, h.signalled⟩

/-- In every state of a run whose sections are all heeded, both sides of every
door are attended. -/
theorem doors_attended {m₀ : Media} (hm : Media.infor c m₀ = some m)
    (hr : Reach (step c) Heeded (.init m) s) (d : Side) (q : Nat) : Attended s d q := by
  have hwatched : AllWatched s.media s.pc :=
    Reach.invariant_of (I := fun s => AllWatched s.media s.pc) (J := Inv c)
      (fun s hs => reach_inv hm hs.free) (init_watched hm)
      (fun _ _ _ hi h hh hs => step_watched hi h hh hs) hr
  exact (hwatched d q).toAttended

/-- The media of one queue with as many pages as the creators ask for. -/
def small : Config := { tiny with pages := 4 }

theorem reach_infor (c : Config) {o : State → Action → Prop} [∀ s a, Decidable (o s a)]
    (as : List Action) (P : State → Bool)
    (h : ((Media.infor c raw).bind fun m => Library.runIf (step c) o (.init m) as).any P = true) :
    ∃ m s, Media.infor c raw = some m ∧ Reach (step c) o (.init m) s ∧ P s = true := by
  cases hm : Media.infor c raw with
  | none => simp [hm] at h
  | some m =>
    rw [hm, Option.bind_some] at h
    obtain ⟨s, hs, hp⟩ := Library.reach_of_runIf as P h
    exact ⟨m, s, rfl, hs, hp⟩

/-- Two consumers wait, one message is put: one of them is blocked still, and
the other one was woken for the message. -/
theorem doors_attended_two_consumers : ∃ m s, Media.infor small raw = some m ∧
    ((s.media.door 0).count = 1 ∧ (s.media.door 0).threshold1.cnd = [1]) ∧
      Attended s .consumer 0 := by
  obtain ⟨m, s, hm, hr, hp⟩ := reach_infor (o := Heeded) small
    [.call 0 (.get 0 8), .run 0 0 true, .call 1 (.timedGet 0 8 5), .run 1 0 true,
      .call 2 (.put 0 [1]), .run 2 0 true, .run 2 0 true, .run 2 0 true, .run 2 0 true]
    (fun s => (s.media.door 0).count = 1 ∧ (s.media.door 0).threshold1.cnd = [1])
    (by decide +kernel)
  exact ⟨m, s, hm, of_decide_eq_true hp, doors_attended hm hr .consumer 0⟩

-- ---------------------------------------------------------------------------
-- A waiter that is counted off twice
-- ---------------------------------------------------------------------------

theorem idle_of_reach {n : Nat} (hr : Reach (step c) (fun _ a => a.thread < n) (.init m) s)
    (ht : n ≤ t) : s.pc t = .idle := by
  refine hr.invariant (I := fun s => s.pc t = .idle) rfl fun s a s' h ha hs => ?_
  rw [pc_of_ne_thread hs (by omega), h]

/-- The consumer 0 waits until its time is up, and the signal of a put, which
finds nobody blocked, counts it off. The message is taken by 2, and 3 waits
for the next one. Then 0 runs and counts itself off, for 3. -/
def overtaken : List Action :=
  [.call 0 (.timedGet 0 8 5), .run 0 0 true, .wake 0 true,
    .call 1 (.put 0 [1]), .run 1 0 true, .run 1 0 true, .run 1 0 true, .run 1 0 true,
    .call 2 (.get 0 8), .run 2 0 true, .call 3 (.get 0 8), .run 3 0 true, .run 0 0 true,
    .call 1 (.put 0 [2]), .run 1 0 true, .run 1 0 true, .run 1 0 true, .run 1 0 true]

/-- A message is in the queue and a consumer is blocked, the only thread that
waits for one. -/
theorem consumer_sleeps_on_message : ∃ m s, Media.infor small raw = some m ∧
    Reach (step small) Free (.init m) s ∧ (s.media.door 0).count = 1 ∧
      (s.media.door 0).threshold1.cnd = [3] ∧ ∀ t, Side.consumer.Waits 0 (s.pc t) → t = 3 := by
  obtain ⟨m, s, hm, hr, hp⟩ := reach_infor (o := fun _ a => a.thread < 4) small overtaken
    (fun s => (s.media.door 0).count = 1 ∧ (s.media.door 0).threshold1.cnd = [3] ∧
      ∀ t ∈ List.range 4, (s.pc t).atDoor → t = 3) (by decide +kernel)
  obtain ⟨hcount, hcnd, hothers⟩ := of_decide_eq_true hp
  refine ⟨m, s, hm, hr.free, hcount, hcnd, fun t hw => ?_⟩
  rcases Nat.lt_or_ge t 4 with hlt | hge
  · refine hothers t (List.mem_range.mpr hlt) (by_contra fun hd => ?_)
    exact not_waits rfl (Bool.eq_false_iff.mpr hd) _ _ hw
  · rw [idle_of_reach hr hge] at hw
    exact hw.elim

end GalaLua.AMQ
