import GalaLua.Library.Transition
import Mathlib.Algebra.Group.Nat.Defs
import Mathlib.Logic.Function.Basic
import Mathlib.Order.Nat
import Mathlib.Tactic.Common

/-!
# Process ids

`CreateNode` and the constructor of `Process`, which give ids in increasing
order until the table was passed once, and search for a free slot from then
on. `NodeId` is a counter of 32 bits that bound spawns move as well. A bound
spawn while `NodeId` is a multiple of the table's size takes it past the test
that steps over the reserved ids.
-/

namespace GalaLua.GLR.Pids

open Library

/-- `MAX_PROCESS_ID`, the size of `NodeMap`. -/
def maxProcessId : Nat := 10240

def reservedPid : Nat := 128

structure State where
  /-- `NodeId`, an `int32_t` that starts from 0. -/
  nodeId : Nat
  /-- whether `NodeMap[i] != NULL` -/
  nodeMap : Nat → Bool

def State.init : State := ⟨0, fun _ => false⟩

inductive Result
  | created (id : Nat)
  | failed
  /-- a read outside of `NodeMap`, or an overflow of `NodeId` -/
  | undefined
  | destroyed
  deriving DecidableEq, Repr

inductive Search
  | found (i : Nat)
  | notFound
  | outside
  deriving DecidableEq, Repr

/-- `for (; i != stop; ++i) if (NodeMap[i] == NULL) { id = i; break; }` -/
def search (nodeMap : Nat → Bool) (stop i : Nat) : Search :=
  if i = stop then .notFound
  else if h : maxProcessId ≤ i then .outside
  else if nodeMap i = false then .found i
  else search nodeMap stop (i + 1)
termination_by maxProcessId - i

/-- `NodeId += n` -/
def State.bump (s : State) (n : Nat) : Option State :=
  if s.nodeId + n < 2 ^ 31 then some { s with nodeId := s.nodeId + n } else none

def State.process (s : State) : Option State := do
  let s ← s.bump 1
  if s.nodeId = 1 then s.bump reservedPid else some s

/-- The end of `CreateNode`: `new Process(id)` and its slot. -/
def State.construct (s : State) (id : Nat) : Result × State :=
  let _id := if id = 0 then s.nodeId else id
  match s.process with
  | none => (.undefined, s)
  | some t => (.created _id, { t with nodeMap := Function.update t.nodeMap _id true })

/-- The two loops of `CreateNode`. -/
def State.searchId (s : State) (current : Nat) : Search :=
  match search s.nodeMap maxProcessId current with
  | .notFound => search s.nodeMap current (reservedPid + 1)
  | r => r

/-- `CreateNode` when `NodeId` is beyond the table. -/
def State.wrapped (s : State) : Result × State :=
  let current := s.nodeId % maxProcessId
  let start := if current = 0 then s.bump (reservedPid + 1) else some s
  let current := if current = 0 then current + (reservedPid + 1) else current
  match start with
  | none => (.undefined, s)
  | some s =>
    match s.searchId current with
    | .found i => s.construct i
    | .notFound => (.failed, s)
    | .outside => (.undefined, s)

def State.createNode (s : State) (id : Nat) : Result × State :=
  if id ≠ 0 ∧ s.nodeMap id then (.failed, s)
  else if id = 0 ∧ maxProcessId ≤ s.nodeId then s.wrapped
  else s.construct id

inductive Op
  | spawn
  | spawnEx (bindPid : Int)
  | destory (id : Nat)
  deriving DecidableEq, Repr

def State.perform (s : State) : Op → Result × State
  | .spawn => s.createNode 0
  | .spawnEx bindPid =>
    if bindPid < reservedPid ∧ 1 ≤ bindPid then s.createNode bindPid.toNat else (.failed, s)
  | .destory id => (.destroyed, { s with nodeMap := Function.update s.nodeMap id false })

def State.next (s : State) (op : Op) : State := (s.perform op).2

-- ---------------------------------------------------------------------------
-- What is asked of an operation
-- ---------------------------------------------------------------------------

def State.FreeSlot (s : State) : Prop :=
  ∃ i, reservedPid + 1 ≤ i ∧ i < maxProcessId ∧ s.nodeMap i = false

structure State.WellAllocated (s : State) (op : Op) : Prop where
  defined : (s.perform op).1 ≠ .undefined
  slot : ∀ id, (s.perform op).1 = .created id → id < maxProcessId ∧ s.nodeMap id = false
  reserved : ∀ id, (s.perform op).1 = .created id → 1 ≤ id → id ≤ reservedPid →
    op = .spawnEx id
  full : op = .spawn → (s.perform op).1 = .failed → ¬ s.FreeSlot

/-- The search would start at one of the reserved ids. -/
def State.Behind (s : State) : Prop :=
  maxProcessId ≤ s.nodeId ∧ 1 ≤ s.nodeId % maxProcessId ∧ s.nodeId % maxProcessId ≤ reservedPid

def State.Room (s : State) : Op → Prop
  | .spawn => s.nodeId < maxProcessId ∨ s.FreeSlot
  | .spawnEx bindPid => bindPid < reservedPid ∧ 1 ≤ bindPid ∧ s.nodeMap bindPid.toNat = false
  | .destory _ => False

/-- What an operation needs of the state it is made in. -/
def State.Clear (s : State) (op : Op) : Prop :=
  (op = .spawn → ¬ s.Behind) ∧ (s.Room op → s.nodeId < 2 ^ 31 - 1)

-- ---------------------------------------------------------------------------
-- The search
-- ---------------------------------------------------------------------------

variable {s t : State} {op : Op} {nodeMap : Nat → Bool} {stop i j current : Nat}

theorem search_found (h : search nodeMap stop i = .found j) :
    i ≤ j ∧ j < maxProcessId ∧ nodeMap j = false ∧ ∀ k, i ≤ k → k < j → nodeMap k := by
  fun_induction search nodeMap stop i with
  | case1 | case2 => cases h
  | case3 i _ hlt hfree =>
    cases h
    exact ⟨le_rfl, Nat.lt_of_not_le hlt, hfree, fun k hk hk' => absurd hk (Nat.not_le.mpr hk')⟩
  | case4 i _ _ hused ih =>
    obtain ⟨hij, hj, hfree, hbefore⟩ := ih h
    refine ⟨by omega, hj, hfree, fun k hk hk' => ?_⟩
    rcases hk.eq_or_lt with rfl | hk
    · simpa using hused
    · exact hbefore k hk hk'

theorem search_notFound (h : search nodeMap stop i = .notFound) :
    ∀ k, i ≤ k → k < stop → nodeMap k := by
  fun_induction search nodeMap stop i with
  | case1 => exact fun k hk hk' => absurd hk (Nat.not_le.mpr hk')
  | case2 | case3 => cases h
  | case4 i _ _ hused ih =>
    intro k hk hk'
    rcases hk.eq_or_lt with rfl | hk
    · simpa using hused
    · exact ih h k hk hk'

theorem search_inside (hi : i ≤ stop) (hstop : stop ≤ maxProcessId) :
    search nodeMap stop i ≠ .outside := by
  fun_induction search nodeMap stop i with
  | case1 | case3 => nofun
  | case2 => omega
  | case4 i _ _ _ ih => exact ih (by omega)

/-- From a start beyond the reserved ids both loops together see every slot
from 129 on, and nothing else. -/
theorem searchId_cases (hlow : reservedPid + 1 ≤ current) (hhigh : current < maxProcessId) :
    (∃ i, s.searchId current = .found i ∧ reservedPid + 1 ≤ i ∧ i < maxProcessId ∧
      s.nodeMap i = false) ∨
    s.searchId current = .notFound ∧ ¬ s.FreeSlot := by
  unfold State.searchId
  cases h : search s.nodeMap maxProcessId current with
  | found i =>
    obtain ⟨hi, hlt, hfree, -⟩ := search_found h
    exact .inl ⟨i, rfl, hlow.trans hi, hlt, hfree⟩
  | outside => exact absurd h (search_inside hhigh.le le_rfl)
  | notFound =>
    simp only
    cases h' : search s.nodeMap current (reservedPid + 1) with
    | found i =>
      obtain ⟨hi, hlt, hfree, -⟩ := search_found h'
      exact .inl ⟨i, rfl, hi, hlt, hfree⟩
    | outside => exact absurd h' (search_inside hlow hhigh.le)
    | notFound =>
      refine .inr ⟨rfl, ?_⟩
      rintro ⟨i, hlow, hhigh, hfree⟩
      rcases Nat.lt_or_ge i current with hi | hi
      · exact Bool.false_ne_true (hfree.symm.trans (search_notFound h' i hlow hi))
      · exact Bool.false_ne_true (hfree.symm.trans (search_notFound h i hi hhigh))

/-- From a start at a reserved id the first loop ends at one of them. -/
theorem searchId_reserved (hcur : current ≤ reservedPid) (h128 : s.nodeMap reservedPid = false) :
    ∃ i, s.searchId current = .found i ∧ current ≤ i ∧ i ≤ reservedPid := by
  unfold State.searchId
  cases h : search s.nodeMap maxProcessId current with
  | found i =>
    obtain ⟨hi, -, -, hbefore⟩ := search_found h
    refine ⟨i, rfl, hi, Nat.le_of_not_lt fun hlt => ?_⟩
    exact Bool.false_ne_true (h128.symm.trans (hbefore _ hcur hlt))
  | outside => exact absurd h (search_inside (hcur.trans (by decide)) le_rfl)
  | notFound =>
    exact absurd (search_notFound h _ hcur (by decide)) (by simp [h128])

-- ---------------------------------------------------------------------------
-- A new process
-- ---------------------------------------------------------------------------

def advanced (n : Nat) : Nat := if n = 0 then reservedPid + 1 else n + 1

theorem construct_eq (h : s.nodeId < 2 ^ 31 - 1) (id : Nat) :
    s.construct id = (.created (if id = 0 then s.nodeId else id),
      ⟨advanced s.nodeId,
        Function.update s.nodeMap (if id = 0 then s.nodeId else id) true⟩) := by
  have hb : s.nodeId + 1 < 2 ^ 31 := by omega
  unfold State.construct State.process State.bump advanced
  rw [if_pos hb]
  by_cases h0 : s.nodeId = 0
  · simp [h0, reservedPid]
  · simp [h0]

theorem construct_overflow (h : ¬ s.nodeId < 2 ^ 31 - 1) (id : Nat) :
    s.construct id = (.undefined, s) := by
  have hb : ¬ s.nodeId + 1 < 2 ^ 31 := by omega
  unfold State.construct State.process State.bump
  rw [if_neg hb]
  rfl

/-- What the counter is when the search starts: moved over the reserved ids
when it is a multiple of the size. -/
def stepped (n : Nat) : Nat := if n % maxProcessId = 0 then n + (reservedPid + 1) else n

theorem wrapped_eq (hb : s.nodeId < 2 ^ 31) :
    s.wrapped =
      match State.searchId ⟨stepped s.nodeId, s.nodeMap⟩ (stepped s.nodeId % maxProcessId) with
      | .found i => State.construct ⟨stepped s.nodeId, s.nodeMap⟩ i
      | .notFound => (.failed, ⟨stepped s.nodeId, s.nodeMap⟩)
      | .outside => (.undefined, ⟨stepped s.nodeId, s.nodeMap⟩) := by
  unfold State.wrapped stepped
  by_cases h0 : s.nodeId % maxProcessId = 0
  · -- 2 ^ 31 is no multiple of the size, so there is room for one more jump
    have hroom : s.nodeId + (reservedPid + 1) < 2 ^ 31 := by
      unfold maxProcessId reservedPid at *
      omega
    have hcur : (s.nodeId + (reservedPid + 1)) % maxProcessId = reservedPid + 1 := by
      unfold maxProcessId reservedPid at *
      omega
    simp only [h0, if_true, State.bump, if_pos hroom, hcur, Nat.zero_add]
  · simp only [if_neg h0]

theorem wrapped_cases (hb : s.nodeId < 2 ^ 31) (hn : ¬ s.Behind) (hm : maxProcessId ≤ s.nodeId) :
    (∃ i, s.wrapped = State.construct ⟨stepped s.nodeId, s.nodeMap⟩ i ∧ reservedPid + 1 ≤ i ∧
      i < maxProcessId ∧ s.nodeMap i = false) ∨
    s.wrapped = (.failed, ⟨stepped s.nodeId, s.nodeMap⟩) ∧ ¬ s.FreeSlot := by
  have hlow : reservedPid + 1 ≤ stepped s.nodeId % maxProcessId := by
    unfold State.Behind at hn
    unfold stepped maxProcessId reservedPid at *
    split <;> omega
  have hhigh : stepped s.nodeId % maxProcessId < maxProcessId := Nat.mod_lt _ (by decide)
  rw [wrapped_eq hb]
  rcases searchId_cases (s := ⟨stepped s.nodeId, s.nodeMap⟩) hlow hhigh with
    ⟨i, hs, hi⟩ | ⟨hs, hfull⟩
  · exact .inl ⟨i, by rw [hs], hi⟩
  · exact .inr ⟨by rw [hs], hfull⟩

theorem wrapped_behind (hb : s.nodeId < 2 ^ 31) (h : s.Behind)
    (h128 : s.nodeMap reservedPid = false) :
    ∃ i, s.wrapped = s.construct i ∧ 1 ≤ i ∧ i ≤ reservedPid := by
  obtain ⟨-, hlow, hhigh⟩ := h
  have hs : stepped s.nodeId = s.nodeId := if_neg (by omega)
  obtain ⟨i, hi, hle, hle'⟩ := searchId_reserved hhigh h128
  refine ⟨i, ?_, hlow.trans hle, hle'⟩
  rw [wrapped_eq hb, hs, hi]

-- ---------------------------------------------------------------------------
-- The invariant
-- ---------------------------------------------------------------------------

structure State.Inv (s : State) : Prop where
  counter : s.nodeId = 0 ∨ reservedPid + 1 ≤ s.nodeId
  bounded : s.nodeId < 2 ^ 31
  /-- in the first pass the slots from `NodeId` on were never used -/
  fresh : s.nodeId < maxProcessId → ∀ i, s.nodeId ≤ i → s.nodeMap i = false
  /-- 128 is neither bound nor searched -/
  top : s.nodeMap reservedPid = false

theorem init_inv : State.init.Inv where
  counter := .inl rfl
  bounded := by decide
  fresh _ _ _ := rfl
  top := rfl

/-- A new process in slot `i`, which is the next one of the first pass or is
not above it. -/
theorem Inv.created {n : Nat} (h : s.Inv) (hn : n < 2 ^ 31 - 1) (hle : s.nodeId ≤ n)
    (hi : i ≠ reservedPid) (hfirst : n < maxProcessId → i < advanced n)
    (hsame : n < maxProcessId → n = s.nodeId) :
    State.Inv ⟨advanced n, Function.update s.nodeMap i true⟩ := by
  have hadv : n < advanced n := by
    unfold advanced
    split <;> omega
  refine ⟨?_, ?_, fun hlt k hk => ?_, ?_⟩
  · have := h.counter
    simp only [advanced, reservedPid, maxProcessId] at *
    split <;> omega
  · simp only [advanced, reservedPid]
    split <;> omega
  · have hnm : n < maxProcessId := hadv.trans hlt
    have := hfirst hnm
    simp only at hk hlt ⊢
    rw [Function.update_of_ne (by omega)]
    exact h.fresh (hsame hnm ▸ hnm) k (by omega)
  · simpa [Function.update_of_ne hi.symm] using h.top

theorem stepped_lt (hb : s.nodeId < 2 ^ 31) (h : s.nodeId < 2 ^ 31 - 1) :
    stepped s.nodeId < 2 ^ 31 - 1 := by
  unfold stepped maxProcessId reservedPid
  split <;> omega

theorem le_stepped (n : Nat) : n ≤ stepped n := by
  unfold stepped
  split <;> omega

theorem createNode_first (h : s.nodeId < maxProcessId) : s.createNode 0 = s.construct 0 := by
  simp [State.createNode, Nat.not_le.mpr h]

theorem createNode_wrapped (h : maxProcessId ≤ s.nodeId) : s.createNode 0 = s.wrapped := by
  simp [State.createNode, h]

/-- The ways a spawn goes. -/
theorem spawn_cases (h : s.Inv) :
    (s.nodeId < maxProcessId ∧
      s.perform .spawn = (.created s.nodeId,
        ⟨advanced s.nodeId, Function.update s.nodeMap s.nodeId true⟩)) ∨
    (s.Behind ∧ ∃ i, s.perform .spawn = s.construct i ∧ 1 ≤ i ∧ i ≤ reservedPid) ∨
    (maxProcessId ≤ s.nodeId ∧ ¬ s.Behind ∧
      ∃ i, s.perform .spawn = State.construct ⟨stepped s.nodeId, s.nodeMap⟩ i ∧
        reservedPid + 1 ≤ i ∧ i < maxProcessId ∧ s.nodeMap i = false) ∨
    maxProcessId ≤ s.nodeId ∧ ¬ s.Behind ∧
      s.perform .spawn = (.failed, ⟨stepped s.nodeId, s.nodeMap⟩) ∧ ¬ s.FreeSlot := by
  rcases Nat.lt_or_ge s.nodeId maxProcessId with hlt | hge
  · refine .inl ⟨hlt, ?_⟩
    have hb : s.nodeId < 2 ^ 31 - 1 := hlt.trans (by decide)
    exact (createNode_first hlt).trans (construct_eq hb 0)
  · have hw : s.perform .spawn = s.wrapped := createNode_wrapped hge
    rw [hw]
    by_cases hbehind : s.Behind
    · exact .inr (.inl ⟨hbehind, wrapped_behind h.bounded hbehind h.top⟩)
    · rcases wrapped_cases h.bounded hbehind hge with hi | hfail
      · exact .inr (.inr (.inl ⟨hge, hbehind, hi⟩))
      · exact .inr (.inr (.inr ⟨hge, hbehind, hfail⟩))

theorem spawn_wellAllocated_iff (h : s.Inv) : s.WellAllocated .spawn ↔ s.Clear .spawn := by
  rcases spawn_cases h with ⟨hlt, hp⟩ | ⟨hbehind, i, hp, hlow, hhigh⟩ |
    ⟨hge, hbehind, i, hp, hlow, hhigh, hfree⟩ | ⟨hge, hbehind, hp, hfull⟩
  · refine iff_of_true ⟨by simp [hp], ?_, ?_, by simp [hp]⟩ ⟨fun _ hb => ?_, fun _ => ?_⟩
    · rw [hp]
      rintro id ⟨⟩
      exact ⟨hlt, h.fresh hlt _ le_rfl⟩
    · rw [hp]
      rintro id ⟨⟩ hone hle
      have := h.counter
      omega
    · exact absurd hb.1 (Nat.not_le.mpr hlt)
    · exact hlt.trans (by decide)
  · refine iff_of_false (fun hw => ?_) fun hc => hc.1 rfl hbehind
    by_cases hb : s.nodeId < 2 ^ 31 - 1
    · have hcreated : (s.perform .spawn).1 = .created i := by
        rw [hp, construct_eq hb, if_neg (by omega)]
      exact nomatch hw.reserved i hcreated hlow hhigh
    · exact hw.defined (by rw [hp, construct_overflow hb])
  · have hroom : s.Room .spawn := .inr ⟨i, hlow, hhigh, hfree⟩
    by_cases hb : s.nodeId < 2 ^ 31 - 1
    · have hcreated : (s.perform .spawn).1 = .created i := by
        rw [hp, construct_eq (stepped_lt h.bounded hb), if_neg (by omega)]
      refine iff_of_true ⟨by simp [hcreated], ?_, ?_, by simp [hcreated]⟩
        ⟨fun _ => hbehind, fun _ => hb⟩
      · rw [hcreated]
        rintro id ⟨⟩
        exact ⟨hhigh, hfree⟩
      · rw [hcreated]
        rintro id ⟨⟩ - hle
        omega
    · refine iff_of_false (fun hw => hw.defined ?_) fun hc => hb (hc.2 hroom)
      have hs : ¬ stepped s.nodeId < 2 ^ 31 - 1 := by
        have := le_stepped s.nodeId
        omega
      rw [hp, construct_overflow hs]
  · refine iff_of_true ⟨by simp [hp], by simp [hp], by simp [hp], fun _ _ => hfull⟩
      ⟨fun _ => hbehind, ?_⟩
    rintro (hlt | hslot)
    · exact absurd hge (Nat.not_le.mpr hlt)
    · exact absurd hslot hfull

theorem spawnEx_cases (s : State) (b : Int) :
    (s.Room (.spawnEx b) ∧ ∃ n : Nat, b = n ∧ 1 ≤ n ∧ n < reservedPid ∧ s.nodeMap n = false ∧
      s.perform (.spawnEx b) = s.construct n) ∨
    ¬ s.Room (.spawnEx b) ∧ s.perform (.spawnEx b) = (.failed, s) := by
  by_cases hr : b < reservedPid ∧ 1 ≤ b
  · obtain ⟨n, rfl⟩ := Int.eq_ofNat_of_zero_le (Int.le_trans (by decide) hr.2)
    have hn : n ≠ 0 := by omega
    simp only [State.perform, if_pos hr, Int.toNat_natCast, State.createNode, State.Room]
    by_cases hm : s.nodeMap n
    · exact .inr ⟨by simp [hm], by simp [hm, hn]⟩
    · exact .inl ⟨⟨hr.1, hr.2, by simpa using hm⟩, n, rfl, by omega, by omega, by simpa using hm,
        by simp [hm, hn]⟩
  · refine .inr ⟨fun hroom => hr ⟨hroom.1, hroom.2.1⟩, ?_⟩
    simp only [State.perform, if_neg hr]

theorem spawnEx_wellAllocated_iff (b : Int) :
    s.WellAllocated (.spawnEx b) ↔ s.Clear (.spawnEx b) := by
  rcases spawnEx_cases s b with ⟨hroom, n, rfl, hlow, hhigh, hfree, hp⟩ | ⟨hroom, hp⟩
  · by_cases hb : s.nodeId < 2 ^ 31 - 1
    · have hcreated : (s.perform (.spawnEx n)).1 = .created n := by
        rw [hp, construct_eq hb, if_neg (by omega)]
      refine iff_of_true ⟨by simp [hcreated], ?_, ?_, nofun⟩ ⟨nofun, fun _ => hb⟩
      · rw [hcreated]
        rintro id ⟨⟩
        exact ⟨hhigh.trans (by decide), hfree⟩
      · rw [hcreated]
        rintro id ⟨⟩ - -
        rfl
    · refine iff_of_false (fun hw => hw.defined ?_) fun hc => hb (hc.2 hroom)
      rw [hp, construct_overflow hb]
  · exact iff_of_true ⟨by simp [hp], by simp [hp], by simp [hp], nofun⟩
      ⟨nofun, fun hr => absurd hr hroom⟩

theorem wellAllocated_iff_clear (h : s.Inv) : s.WellAllocated op ↔ s.Clear op := by
  cases op with
  | spawn => exact spawn_wellAllocated_iff h
  | spawnEx b => exact spawnEx_wellAllocated_iff b
  | destory id => exact iff_of_true ⟨nofun, nofun, nofun, nofun⟩ ⟨nofun, nofun⟩

-- ---------------------------------------------------------------------------
-- Runs
-- ---------------------------------------------------------------------------

theorem Inv.spawn (h : s.Inv) (hc : s.Clear .spawn) : (s.next .spawn).Inv := by
  unfold State.next
  rcases spawn_cases h with ⟨hlt, hp⟩ | ⟨hbehind, -⟩ | ⟨hge, -, i, hp, hlow, hhigh, hfree⟩ |
    ⟨hge, -, hp, -⟩
  · rw [hp]
    have hne : s.nodeId ≠ reservedPid := by
      have := h.counter
      simp only [reservedPid] at *
      omega
    refine Inv.created h (hlt.trans (by decide)) le_rfl hne (fun _ => ?_) fun _ => rfl
    unfold advanced
    split <;> omega
  · exact absurd hbehind (hc.1 rfl)
  · have hb := hc.2 (.inr ⟨i, hlow, hhigh, hfree⟩)
    have hge' := hge.trans (le_stepped s.nodeId)
    rw [hp, construct_eq (stepped_lt h.bounded hb), if_neg (by omega)]
    exact Inv.created (s := s) (n := stepped s.nodeId) h (stepped_lt h.bounded hb) (le_stepped _) (by omega)
      (fun hlt => absurd hge' (Nat.not_le.mpr hlt)) fun hlt => absurd hge' (Nat.not_le.mpr hlt)
  · rw [hp]
    have hge' := hge.trans (le_stepped s.nodeId)
    refine ⟨.inr (le_trans (by decide) hge'), ?_, fun hlt => absurd hge' (Nat.not_le.mpr hlt), h.top⟩
    have := h.bounded
    unfold stepped maxProcessId reservedPid
    split <;> simp only <;> omega

theorem Inv.spawnEx (h : s.Inv) (b : Int) (hc : s.Clear (.spawnEx b)) :
    (s.next (.spawnEx b)).Inv := by
  unfold State.next
  rcases spawnEx_cases s b with ⟨hroom, n, rfl, hlow, hhigh, -, hp⟩ | ⟨-, hp⟩
  · rw [hp, construct_eq (hc.2 hroom), if_neg (by omega)]
    refine Inv.created h (hc.2 hroom) le_rfl (by omega) (fun _ => ?_) fun _ => rfl
    have := h.counter
    unfold advanced
    split <;> omega
  · rwa [hp]

theorem Inv.destory (h : s.Inv) (id : Nat) : (s.next (.destory id)).Inv where
  counter := h.counter
  bounded := h.bounded
  fresh hlt i hi := by
    have := h.fresh hlt i hi
    simp only [State.next, State.perform, Function.update_apply, this, ite_self]
  top := by
    have := h.top
    simp only [State.next, State.perform, Function.update_apply, this, ite_self]

theorem inv_next (h : s.Inv) (hc : s.Clear op) : (s.next op).Inv := by
  cases op with
  | spawn => exact Inv.spawn h hc
  | spawnEx b => exact Inv.spawnEx h b hc
  | destory id => exact Inv.destory h id

/-- Over any spawns, bound spawns and destructions: the ids are well allocated
throughout exactly when no search starts at a reserved id and the counter has
room for every process that finds a slot. -/
theorem pids_wellAllocated_iff (ops : List Op) :
    (∀ t ∈ turns State.next .init ops, t.1.WellAllocated t.2) ↔
      ∀ t ∈ turns State.next .init ops, t.1.Clear t.2 := by
  refine forall_turns_iff (I := State.Inv) (g := State.WellAllocated) (o := State.Clear) (fun _ _ => wellAllocated_iff_clear) ?_ ops init_inv
  intro s op h hw
  exact inv_next h ((wellAllocated_iff_clear h).mp hw)

-- ---------------------------------------------------------------------------
-- The end of the first pass
-- ---------------------------------------------------------------------------

theorem next_spawn_first (h : s.nodeId < maxProcessId) :
    s.next .spawn = ⟨advanced s.nodeId, Function.update s.nodeMap s.nodeId true⟩ := by
  have hp : s.perform .spawn = s.construct 0 := createNode_first h
  rw [State.next, hp, construct_eq (h.trans (by decide))]
  rfl

theorem foldl_spawn (n : Nat) (hn : reservedPid + 1 + n ≤ maxProcessId) :
    ((List.replicate (n + 1) Op.spawn).foldl State.next .init).nodeId = reservedPid + 1 + n ∧
      ∀ i, 1 ≤ i → i ≤ reservedPid →
        ((List.replicate (n + 1) Op.spawn).foldl State.next .init).nodeMap i = false := by
  induction n with
  | zero =>
    rw [List.replicate_one, List.foldl_cons, List.foldl_nil, next_spawn_first (by decide)]
    exact ⟨rfl, fun i hi _ => Function.update_of_ne (Nat.ne_of_gt hi) _ _⟩
  | succ n ih =>
    obtain ⟨hid, hfree⟩ := ih (by omega)
    rw [List.replicate_succ', List.foldl_append, List.foldl_cons, List.foldl_nil]
    generalize (List.replicate (n + 1) Op.spawn).foldl State.next .init = t at hid hfree
    have hlt : t.nodeId < maxProcessId := by
      rw [hid]
      unfold maxProcessId reservedPid at *
      omega
    rw [next_spawn_first hlt]
    refine ⟨?_, fun i hi hi' => ?_⟩
    · simp only [hid, advanced]
      rw [if_neg (by omega)]
      rfl
    · simp only
      rw [Function.update_of_ne (by omega), hfree i hi hi']

/-- A bound spawn at the size of the table, and then a spawn. -/
theorem spawn_after_bound (hid : s.nodeId = maxProcessId)
    (hfree : ∀ i, 1 ≤ i → i ≤ reservedPid → s.nodeMap i = false) :
    ((s.next (.spawnEx 5)).perform .spawn).1 = .created 1 := by
  have hbound : s.next (.spawnEx 5) = ⟨10241, Function.update s.nodeMap 5 true⟩ := by
    have hp : s.perform (.spawnEx 5) = s.construct 5 := by
      simp [State.perform, State.createNode, reservedPid, hfree 5 (by decide) (by decide)]
    rw [State.next, hp, construct_eq (hid ▸ by decide), hid]
    rfl
  generalize hm : Function.update s.nodeMap 5 true = nodeMap at hbound
  have hone : nodeMap 1 = false := by
    rw [← hm]
    exact hfree 1 (by decide) (by decide)
  have hsearch : search nodeMap maxProcessId 1 = .found 1 := by
    rw [search]
    simp [maxProcessId, hone]
  have hcur : State.searchId ⟨10241, nodeMap⟩ 1 = .found 1 := by
    simp only [State.searchId, hsearch]
  have hp : State.perform ⟨10241, nodeMap⟩ .spawn = State.wrapped ⟨10241, nodeMap⟩ :=
    createNode_wrapped (show maxProcessId ≤ 10241 by decide)
  have hstep : stepped 10241 = 10241 := by decide
  have hmod : 10241 % maxProcessId = 1 := by decide
  rw [hbound, hp, wrapped_eq (show 10241 < 2 ^ 31 by decide)]
  simp only [hstep, hmod, hcur]
  rw [construct_eq (show 10241 < 2 ^ 31 - 1 by decide)]
  rfl

/-- After 10112 spawns a bound spawn takes `NodeId` from 10240 to 10241, and
the next spawn gets the id 1. -/
theorem spawn_gets_reserved_pid :
    ¬ ∀ ops, ∀ t ∈ turns State.next .init ops, t.1.WellAllocated t.2 := by
  intro h
  obtain ⟨n, hn⟩ := Nat.exists_eq_add_of_le (show reservedPid + 1 ≤ maxProcessId by decide)
  obtain ⟨hid, hfree⟩ := foldl_spawn n hn.ge
  have hw := h _ _ (mem_turns_append State.next .init
    (List.replicate (n + 1) Op.spawn ++ [.spawnEx 5]) .spawn)
  rw [List.foldl_append] at hw
  exact nomatch hw.reserved 1 (spawn_after_bound (hid.trans hn.symm) hfree) le_rfl (by decide)

end GalaLua.GLR.Pids
