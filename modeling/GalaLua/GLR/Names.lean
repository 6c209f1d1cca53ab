import GalaLua.Library.Transition
import Mathlib.Data.List.Basic
import Mathlib.Logic.Function.Basic
import Mathlib.Tactic.Common

/-!
# The named process table

`NamedProcessTable` with the `__name__` of each process, which is all that a
process remembers of its registrations. A `Ledger` has the registrations that
were made and not taken back; the table agrees with it as long as no process
gives up a name through a `__name__` that is not its own any more.
-/

namespace GalaLua.GLR.Names

open Library

abbrev Name := String

abbrev Id := Nat

structure State where
  /-- `_Map` -/
  map : Name → Option Id
  /-- `NodeMap[id] != NULL` -/
  live : Id → Bool
  /-- the global `__name__` of the process' Lua state -/
  name : Id → Option Name

def State.init : State := ⟨fun _ => none, fun _ => false, fun _ => none⟩

inductive Error
  | serverExist
  | notRegistered
  | noProcess
  deriving DecidableEq, Repr

inductive Op
  | spawn (id : Id)
  | register (id : Id) (name : Name)
  | unRegister (id : Id)
  | destory (id : Id)
  deriving DecidableEq, Repr

def Op.id : Op → Id
  | .spawn id => id
  | .register id _ => id
  | .unRegister id => id
  | .destory id => id

def State.get (s : State) (name : Name) : Option Id := s.map name

def State.set (s : State) (name : Name) (id : Id) : Except Error State :=
  match s.map name with
  | some _ => .error .serverExist
  | none => .ok { s with map := Function.update s.map name (some id) }

def State.del (s : State) (name : Name) : State :=
  { s with map := Function.update s.map name none }

def State.register (s : State) (id : Id) (name : Name) : Except Error State := do
  let s ← s.set name id
  return { s with name := Function.update s.name id (some name) }

/-- `__name__` stays as it is. -/
def State.unRegistered (s : State) (id : Id) : Except Error State :=
  match s.name id with
  | none => .error .notRegistered
  | some name =>
    match s.map name with
    | none => .error .notRegistered
    | some _ => .ok (s.del name)

def State.clean (s : State) (id : Id) : State :=
  match s.name id with
  | none => s
  | some name => s.del name

/-- `Destory`: the Lua state goes with the process. -/
def State.destory (s : State) (id : Id) : State :=
  let s := s.clean id
  { s with live := Function.update s.live id false, name := Function.update s.name id none }

def State.spawn (s : State) (id : Id) : State :=
  { s with live := Function.update s.live id true }

/-- A process that is not there makes no call, and a slot that is taken is not
given to a new process. -/
def State.perform (s : State) : Op → Except Error State
  | .spawn id => if s.live id then .error .noProcess else .ok (s.spawn id)
  | .register id name => if s.live id then s.register id name else .error .noProcess
  | .unRegister id => if s.live id then s.unRegistered id else .error .noProcess
  | .destory id => if s.live id then .ok (s.destory id) else .error .noProcess

-- ---------------------------------------------------------------------------
-- Registrations
-- ---------------------------------------------------------------------------

abbrev Ledger := List (Name × Id)

/-- The registrations after an operation that succeeded in `s`: an unregister
is of the process' `__name__`. -/
def Ledger.enter (l : Ledger) (s : State) : Op → Ledger
  | .spawn _ => l
  | .register id name => (name, id) :: l
  | .unRegister id => l.filter fun e => !(e.2 == id && s.name id == some e.1)
  | .destory id => l.filter fun e => e.2 != id

structure System where
  state : State
  ledger : Ledger

def System.init : System := ⟨.init, []⟩

/-- An operation that raises an error leaves everything as it is. -/
def System.next (x : System) (op : Op) : System :=
  match x.state.perform op with
  | .ok s => ⟨s, x.ledger.enter x.state op⟩
  | .error _ => x

/-- A name is in the table, with a process, exactly when that process is live
and has registered it. -/
def System.Agrees (x : System) : Prop :=
  ∀ name id, x.state.get name = some id ↔ x.state.live id ∧ (name, id) ∈ x.ledger

/-- The table agrees with the registrations after the operation, which took
away no name of another process. -/
def System.Faithful (x : System) (op : Op) : Prop :=
  (x.next op).Agrees ∧
    ∀ name id, id ≠ op.id → x.state.live id → (name, id) ∈ x.ledger →
      (x.next op).state.get name = some id

/-- The `__name__` of the process is not in the table with another process. -/
def State.Owns (s : State) (id : Id) : Prop :=
  ∀ name owner, s.name id = some name → s.get name = some owner → owner = id

/-- The process has no name in the table but its `__name__`. -/
def State.Single (s : State) (id : Id) : Prop :=
  ∀ name, s.get name = some id → s.name id = some name

/-- What an operation needs of the state it is made in. -/
def System.Clear (x : System) : Op → Prop
  | .spawn _ => True
  | .register _ _ => True
  | .unRegister id => x.state.live id → x.state.Owns id
  | .destory id => x.state.live id → x.state.Owns id ∧ x.state.Single id

-- ---------------------------------------------------------------------------
-- What an operation does
-- ---------------------------------------------------------------------------

variable {x : System} {id owner : Id} {name : Name} {op : Op}

theorem next_spawn (h : x.state.live id = false) :
    x.next (.spawn id) = ⟨x.state.spawn id, x.ledger⟩ := by
  simp [System.next, State.perform, h, Ledger.enter]

theorem next_register (h : x.state.live id) (hn : x.state.map name = none) :
    x.next (.register id name) =
      ⟨{ x.state with
          map := Function.update x.state.map name (some id)
          name := Function.update x.state.name id (some name) }, (name, id) :: x.ledger⟩ := by
  simp [System.next, State.perform, h, State.register, State.set, hn, Ledger.enter, bind,
    Except.bind, pure, Except.pure]

theorem next_unRegister (h : x.state.live id) (hname : x.state.name id = some name)
    (hmap : x.state.map name = some owner) :
    x.next (.unRegister id) =
      ⟨x.state.del name, x.ledger.filter fun e => !(e.2 == id && some name == some e.1)⟩ := by
  simp [System.next, State.perform, h, State.unRegistered, hname, hmap, Ledger.enter]

theorem next_destory (h : x.state.live id) :
    x.next (.destory id) = ⟨x.state.destory id, x.ledger.filter fun e => e.2 != id⟩ := by
  simp [System.next, State.perform, h, Ledger.enter]

theorem next_error {e : Error} (h : x.state.perform op = .error e) : x.next op = x := by
  simp [System.next, h]

def State.Enabled (s : State) : Op → Prop
  | .spawn id => s.live id = false
  | .register id name => s.live id ∧ s.map name = none
  | .unRegister id => s.live id ∧ ∃ name owner, s.name id = some name ∧ s.map name = some owner
  | .destory id => s.live id

theorem next_eq_self (h : ¬ x.state.Enabled op) : x.next op = x := by
  unfold State.Enabled at h
  cases op with
  | spawn id => exact next_error (e := .noProcess) (by simp_all [State.perform])
  | register id name =>
    cases hl : x.state.live id with
    | false => exact next_error (e := .noProcess) (by simp [State.perform, hl])
    | true =>
      obtain ⟨owner, ho⟩ := Option.ne_none_iff_exists'.mp fun hn => h ⟨hl, hn⟩
      exact next_error (e := .serverExist)
        (by simp [State.perform, hl, State.register, State.set, ho, bind, Except.bind])
  | unRegister id =>
    cases hl : x.state.live id with
    | false => exact next_error (e := .noProcess) (by simp [State.perform, hl])
    | true =>
      refine next_error (e := .notRegistered) ?_
      simp only [State.perform, hl, if_true, State.unRegistered]
      cases hname : x.state.name id with
      | none => rfl
      | some name =>
        cases hmap : x.state.map name with
        | none => simp [hmap]
        | some owner => exact absurd ⟨hl, name, owner, hname, hmap⟩ h
  | destory id => exact next_error (e := .noProcess) (by simp_all [State.perform])

-- ---------------------------------------------------------------------------
-- Agreement
-- ---------------------------------------------------------------------------

def System.Lives (x : System) : Prop := ∀ e ∈ x.ledger, x.state.live e.2

theorem spawn_agrees (h : x.Agrees) (hl : x.Lives) : (x.next (.spawn id)).Agrees := by
  by_cases he : x.state.Enabled (.spawn id)
  · rw [next_spawn he]
    intro name p
    refine (h name p).trans (and_congr_left fun hm => ?_)
    have hp := hl _ hm
    have hne : p ≠ id := by
      rintro rfl
      exact Bool.false_ne_true (he.symm.trans hp)
    simp [State.spawn, Function.update_of_ne hne]
  · rwa [next_eq_self he]

theorem register_agrees (h : x.Agrees) : (x.next (.register id name)).Agrees := by
  by_cases he : x.state.Enabled (.register id name)
  · obtain ⟨hlive, hn⟩ := he
    rw [next_register hlive hn]
    intro n p
    have hnp := h n p
    simp only [State.get, List.mem_cons, Prod.mk.injEq] at hnp ⊢
    by_cases hname : n = name
    · subst hname
      rw [hn] at hnp
      rw [Function.update_self, Option.some.injEq]
      constructor
      · rintro rfl
        exact ⟨hlive, .inl ⟨rfl, rfl⟩⟩
      · rintro ⟨hp, ⟨-, rfl⟩ | hm⟩
        · rfl
        · exact absurd (hnp.mpr ⟨hp, hm⟩) nofun
    · rw [Function.update_of_ne hname, hnp]
      simp [hname]
  · rwa [next_eq_self he]

/-- The table loses the names in `o`, the ledger the registrations in
`g`: they still agree when these are the same. -/
theorem agrees_without_iff {s : State} {l : Ledger} {o : Name → Prop} {g : Name → Id → Prop}
    (h : x.Agrees) (hget : ∀ n p, s.get n = some p ↔ x.state.get n = some p ∧ ¬ o n)
    (hled : ∀ n p, s.live p ∧ (n, p) ∈ l ↔ (x.state.live p ∧ (n, p) ∈ x.ledger) ∧ ¬ g n p) :
    System.Agrees ⟨s, l⟩ ↔ ∀ n p, x.state.get n = some p → (o n ↔ g n p) := by
  refine forall₂_congr fun n p => ?_
  rw [hget, hled, ← h n p, and_congr_right_iff]
  exact imp_congr_right fun _ => not_iff_not

theorem del_get (s : State) (n : Name) (p : Id) :
    (s.del name).get n = some p ↔ s.get n = some p ∧ ¬ n = name := by
  by_cases hn : n = name
  · subst hn
    simp [State.get, State.del]
  · simp [State.get, State.del, hn]

theorem unRegister_agrees_iff (h : x.Agrees) :
    (x.next (.unRegister id)).Agrees ↔ (x.state.live id → x.state.Owns id) := by
  by_cases he : x.state.Enabled (.unRegister id)
  · obtain ⟨hlive, name, owner, hname, hmap⟩ := he
    rw [next_unRegister hlive hname hmap,
      agrees_without_iff (o := fun n => n = name) (g := fun n p => n = name ∧ p = id) h
        (del_get x.state)]
    · constructor
      · intro ha _ n p hn hp
        exact ((ha n p hp).mp (Option.some.inj (hn.symm.trans hname))).2
      · intro ho n p hp
        refine ⟨fun hn => ⟨hn, ho hlive n p (hn ▸ hname) hp⟩, And.left⟩
    · intro n p
      simp only [State.del, List.mem_filter]
      grind
  · rw [next_eq_self he]
    refine iff_of_true h fun hlive name owner hname hmap => ?_
    exact absurd ⟨hlive, name, owner, hname, hmap⟩ he

theorem destory_get (s : State) (n : Name) (p : Id) :
    (s.destory id).get n = some p ↔ s.get n = some p ∧ ¬ s.name id = some n := by
  unfold State.destory State.clean
  cases hname : s.name id with
  | none => simp [State.get]
  | some name =>
    refine (del_get s n p).trans (and_congr_right fun _ => not_congr ?_)
    rw [Option.some.injEq, eq_comm]

theorem destory_live (s : State) (p : Id) : (s.destory id).live p ↔ s.live p ∧ p ≠ id := by
  have hclean : (s.clean id).live = s.live := by
    unfold State.clean
    split <;> rfl
  by_cases hp : p = id
  · subst hp
    simp [State.destory]
  · simp [State.destory, hclean, hp]

theorem destory_agrees_iff (h : x.Agrees) :
    (x.next (.destory id)).Agrees ↔
      (x.state.live id → x.state.Owns id ∧ x.state.Single id) := by
  by_cases hlive : x.state.live id
  · rw [next_destory hlive,
      agrees_without_iff (o := fun n => x.state.name id = some n) (g := fun _ p => p = id) h
        (destory_get x.state)]
    · constructor
      · intro ha _
        exact ⟨fun n p hn hp => (ha n p hp).mp hn, fun n hp => (ha n id hp).mpr rfl⟩
      · rintro hc n p hp
        obtain ⟨ho, hs⟩ := hc hlive
        refine ⟨fun hn => ho n p hn hp, ?_⟩
        rintro rfl
        exact hs n hp
    · intro n p
      simp only [destory_live, List.mem_filter]
      grind
  · have hx : x.next (.destory id) = x := next_eq_self hlive
    rw [hx]
    exact iff_of_true h fun hl => absurd hl hlive

theorem agrees_next_iff (h : x.Agrees) (hl : x.Lives) : (x.next op).Agrees ↔ x.Clear op := by
  cases op with
  | spawn id => exact iff_of_true (spawn_agrees h hl) trivial
  | register id name => exact iff_of_true (register_agrees h) trivial
  | unRegister id => exact unRegister_agrees_iff h
  | destory id => exact destory_agrees_iff h

-- ---------------------------------------------------------------------------
-- Runs
-- ---------------------------------------------------------------------------

theorem init_agrees : System.init.Agrees := fun _ _ => ⟨nofun, nofun⟩

theorem lives_next (hl : x.Lives) : (x.next op).Lives := by
  by_cases he : x.state.Enabled op
  · cases op with
    | spawn id =>
      rw [next_spawn he]
      intro e hm
      by_cases hp : e.2 = id
      · simp [State.spawn, hp]
      · simpa [State.spawn, Function.update_of_ne hp] using hl e hm
    | register id name =>
      rw [next_register he.1 he.2]
      exact List.forall_mem_cons.mpr ⟨he.1, hl⟩
    | unRegister id =>
      obtain ⟨hlive, name, owner, hname, hmap⟩ := he
      rw [next_unRegister hlive hname hmap]
      exact fun e hm => hl e (List.mem_filter.mp hm).1
    | destory id =>
      rw [next_destory he]
      intro e hm
      obtain ⟨hm, hne⟩ := List.mem_filter.mp hm
      exact (destory_live x.state e.2).mpr ⟨hl e hm, by simpa using hne⟩
  · rwa [next_eq_self he]

theorem mem_ledger_next (hid : id ≠ op.id) (h : (name, id) ∈ x.ledger) :
    (name, id) ∈ (x.next op).ledger := by
  unfold System.next
  split
  · cases op with
    | spawn p => exact h
    | register p n => exact List.mem_cons_of_mem _ h
    | unRegister p => exact List.mem_filter.mpr ⟨h, by simp [show id ≠ p from hid]⟩
    | destory p => exact List.mem_filter.mpr ⟨h, by simp [show id ≠ p from hid]⟩
  · exact h

theorem faithful_iff_clear (h : x.Agrees ∧ x.Lives) : x.Faithful op ↔ x.Clear op := by
  rw [← agrees_next_iff h.1 h.2]
  refine ⟨And.left, fun ha => ⟨ha, fun name id hid _ hm => ?_⟩⟩
  have hm' := mem_ledger_next hid hm
  exact (ha name id).mpr ⟨lives_next h.2 _ hm', hm'⟩

/-- Over any operations of any processes: the table is faithful at each of
them exactly when each is made in a state that is clear for it. -/
theorem named_table_faithful_iff (ops : List Op) :
    (∀ t ∈ turns System.next .init ops, t.1.Faithful t.2) ↔
      ∀ t ∈ turns System.next .init ops, t.1.Clear t.2 := by
  refine forall_turns_iff (I := fun x => x.Agrees ∧ x.Lives) (fun _ _ => faithful_iff_clear) ?_ ops
    ⟨init_agrees, nofun⟩
  rintro x op ⟨-, hl⟩ hf
  exact ⟨hf.1, lives_next hl⟩

/-- The process 129 registers "a" and unregisters; 130 registers "a"; the death
of 129 takes it away. -/
theorem death_removes_name_of_another :
    ¬ ∀ ops, ∀ t ∈ turns System.next .init ops, t.1.Faithful t.2 := by
  intro h
  have hf := h [.spawn 129, .spawn 130, .register 129 "a", .unRegister 129, .register 130 "a",
    .destory 129] _ (List.getLast_mem (by simp [turns]))
  have ha := (hf.1 "a" 130).mpr (by decide)
  exact absurd ha (by decide)

end GalaLua.GLR.Names
