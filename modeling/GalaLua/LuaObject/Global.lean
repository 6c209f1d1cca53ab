import GalaLua.Library.Transition
import Mathlib.Algebra.Group.Nat.Defs
import Mathlib.Data.List.Count

/-!
# Objects shared by the processes

`global.global` puts the pointer of a userdata under a name and
`global.get_global` makes a userdata with that pointer in another process. A
count under the name says how many there are: `close` takes one off and closes
the object with the last one. Whose count it is, `close` reads from the
metatable, and a process has one metatable for all userdata of a type: it names
what was registered or got last. A process has the metatable of a type from the
library of the type, and without it `get_global` raises after it has counted
(`getGlobal_unloaded`).
-/

namespace GalaLua.LuaGlobal

open Library

-- ---------------------------------------------------------------------------
-- Names
-- ---------------------------------------------------------------------------

/-- `Count` has 32 bits. -/
structure UserData where
  content : Option Nat := none
  count : Nat := 1
  name : String := String.ofList (List.replicate 32 (Char.ofNat 0))
  deriving DecidableEq, Repr

/-- `_VarMap` -/
abbrev Globals := String → Option UserData

namespace Globals

def put (g : Globals) (id : String) (ud : UserData) : Globals :=
  fun k => if k = id then some ud else g k

def erase (g : Globals) (id : String) : Globals := fun k => if k = id then none else g k

/-- `_VarMap[id]` makes an entry where there is none. -/
def get (g : Globals) (id : String) : UserData × Globals :=
  match g id with
  | some ud => (ud, g)
  | none => ({}, g.put id {})

@[simp] theorem put_self (g : Globals) (id : String) (ud : UserData) : g.put id ud id = some ud := if_pos rfl

theorem put_of_ne (g : Globals) {id k : String} (h : k ≠ id) (ud : UserData) : g.put id ud k = g k := if_neg h

@[simp] theorem erase_self (g : Globals) (id : String) : g.erase id id = none := if_pos rfl

theorem erase_of_ne (g : Globals) {id k : String} (h : k ≠ id) : g.erase id k = g k := if_neg h

theorem get_eq {g : Globals} {id : String} {ud : UserData} (h : g id = some ud) : g.get id = (ud, g) := by
  simp only [get, h]

/-- An entry that was made has no content; the others are as they were. -/
theorem get_content (g : Globals) (id k : String) {ud : UserData} {c : Nat} (hc : ud.content = some c) :
    (g.get id).2 k = some ud ↔ g k = some ud := by
  cases hg : g id with
  | some u => rw [get_eq hg]
  | none =>
    have hget : (g.get id).2 = g.put id {} := by simp only [get, hg]
    rw [hget]
    by_cases hk : k = id
    · subst hk
      rw [put_self, hg]
      constructor
      · intro h
        cases h
        cases hc
      · intro h
        cases h
    · rw [put_of_ne g hk]

theorem get_fst_content {g : Globals} {id : String} {c : Nat} (h : (g.get id).1.content = some c) :
    ∃ ud, g id = some ud ∧ ud.content = some c ∧ (g.get id) = (ud, g) := by
  unfold get at h ⊢
  split at h
  · next ud hud => exact ⟨ud, hud, h, rfl⟩
  · cases h

end Globals

-- ---------------------------------------------------------------------------
-- Calls
-- ---------------------------------------------------------------------------

/-- The metatable of a type in a process: `__my_name`, the name that `Finalize` goes by, and whether
`__index` is `LuaGlobal::__Index`. -/
structure Metatable where
  myName : Option String
  myId : Option String := none
  counted : Bool := false
  deriving DecidableEq, Repr

/-- A userdata of a process. `gotAs` (the name it was registered or got by) and `shut` (its `close`
was called) are not in the code. -/
structure Handle where
  proc : Nat
  type : String
  content : Nat
  hasMetatable : Bool := true
  gotAs : Option String := none
  shut : Bool := false
  deriving DecidableEq, Repr

/-- `metas` are the metatables in the registry of each process, `closed` the objects that were really
closed. -/
structure State where
  vars : Globals := fun _ => none
  metas : Nat → String → Option Metatable := fun _ _ => none
  handles : List Handle := []
  made : Nat := 0
  closed : List Nat := []

def State.getmetatable (s : State) (h : Handle) : Option Metatable :=
  if h.hasMetatable then s.metas h.proc h.type else none

def State.modifyMeta (s : State) (p : Nat) (ty : String) (f : Metatable → Metatable) : State :=
  { s with metas := fun q t => if q = p ∧ t = ty then (s.metas p ty).map f else s.metas q t }

inductive Outcome
  | done
  | userdata
  /-- `nil` and a message -/
  | failed (msg : String)
  /-- an error of Lua -/
  | error (msg : String)
  deriving DecidableEq, Repr

/-- `require` of a type's library: it runs once and leaves the type's metatable. -/
def load (s : State) (p : Nat) (ty : String) (myName : Option String) : State :=
  match s.metas p ty with
  | none => { s with metas := fun q t => if q = p ∧ t = ty then some { myName := myName } else s.metas q t }
  | some _ => s

/-- The constructor in the type's library: a userdata with an object of its own. -/
def create (s : State) (p : Nat) (ty : String) : State × Outcome :=
  match s.metas p ty with
  | none => (s, .error "attempt to index a nil value")
  | some _ =>
    ({ s with
        handles := s.handles ++ [{ proc := p, type := ty, content := s.made }]
        made := s.made + 1 }, .userdata)

def modifyState (s : State) (p : Nat) (ty id : String) : State :=
  s.modifyMeta p ty fun m => { m with myId := some id, counted := true }

def registerGlobal (s : State) (id : String) (i : Nat) (h : Handle) : State × Outcome :=
  let (ud, vars) := s.vars.get id
  if ud.content.isSome then ({ s with vars := vars }, .failed (id ++ " global variable existed"))
  else
    match s.getmetatable h with
    | none => ({ s with vars := vars }, .error "userdata do not has metatable  RegisterGlobal 123")
    | some m =>
      match m.myName with
      | none => ({ s with vars := vars }, .error "bad argument #4 to 'global' (string expected, got nil)")
      | some type =>
        ({ modifyState s h.proc h.type id with
            vars := vars.put id { content := some h.content, name := type }
            handles := s.handles.set i { h with gotAs := some id } }, .done)

def getGlobal (s : State) (p : Nat) (id : String) : State × Outcome :=
  let (ud, vars) := s.vars.get id
  match ud.content with
  | none => ({ s with vars := vars }, .failed (id ++ " not found"))
  | some c =>
    let vars := vars.put id { ud with count := (ud.count + 1) % 2 ^ 32 }
    match s.metas p ud.name with
    -- `ModifyState` indexes what `luaL_getmetatable` gave; the count stays raised
    | none => ({ s with vars := vars }, .error "attempt to index a nil value")
    | some _ =>
      ({ modifyState s p ud.name id with
          vars := vars
          handles := s.handles ++ [{ proc := p, type := ud.name, content := c, gotAs := some id }] }, .userdata)

/-- The type's own `close` closes the object and takes the metatable off the userdata. -/
def closeObject (s : State) (i : Nat) (h : Handle) : State :=
  { s with handles := s.handles.set i { h with hasMetatable := false, shut := true }, closed := s.closed ++ [h.content] }

def finalize (s : State) (i : Nat) (h : Handle) (m : Metatable) : State × Outcome :=
  match m.myId with
  | none => (s, .error "bad argument #2 to 'close' (string expected, got nil)")
  | some id =>
    let (ud, vars) := s.vars.get id
    let count := (ud.count + (2 ^ 32 - 1)) % 2 ^ 32
    if count = 0 then
      let s := closeObject (s.modifyMeta h.proc h.type fun m => { m with counted := false }) i h
      ({ s with vars := vars.erase id }, .done)
    else
      ({ s with vars := vars.put id { ud with count := count }, handles := s.handles.set i { h with shut := true } },
        .done)

/-- `h:close()` -/
def close (s : State) (i : Nat) (h : Handle) : State × Outcome :=
  match s.getmetatable h with
  | none => (s, .error "attempt to index a userdata value")
  | some m => if m.counted then finalize s i h m else (closeObject s i h, .done)

inductive Action
  | load (p : Nat) (ty : String) (myName : Option String)
  | create (p : Nat) (ty : String)
  | register (id : String) (i : Nat)
  | get (p : Nat) (id : String)
  | close (i : Nat)
  deriving DecidableEq, Repr

/-- A call of a process; `GlobalMutex` makes each one step. Userdata are counted through. -/
def perform (s : State) : Action → State
  | .load p ty myName => load s p ty myName
  | .create p ty => (create s p ty).1
  | .register id i =>
    match s.handles[i]? with
    | some h => (registerGlobal s id i h).1
    | none => s
  | .get p id => (getGlobal s p id).1
  | .close i =>
    match s.handles[i]? with
    | some h => (close s i h).1
    | none => s

-- ---------------------------------------------------------------------------
-- Open userdata
-- ---------------------------------------------------------------------------

def Open (hs : List Handle) (i : Nat) (h : Handle) : Prop := hs[i]? = some h ∧ h.shut = false

def openAs (id : String) (h : Handle) : Bool := !h.shut && decide (h.gotAs = some id)

/-- The userdata that were registered or got as `id` and whose `close` was not called. -/
def openCount (hs : List Handle) (id : String) : Nat := hs.countP (openAs id)

section
variable {hs : List Handle} {i j : Nat} {h k : Handle} {id : String}

theorem Open.lt (ho : Open hs i h) : i < hs.length := (List.getElem?_eq_some_iff.mp ho.1).1

theorem Open.eq (ho : Open hs i h) (hk : Open hs i k) : h = k := Option.some.inj (ho.1.symm.trans hk.1)

theorem openAs_iff : openAs id h = true ↔ h.shut = false ∧ h.gotAs = some id := by
  simp only [openAs, Bool.and_eq_true, Bool.not_eq_true', decide_eq_true_eq]

theorem openCount_pos_iff : 0 < openCount hs id ↔ ∃ i h, Open hs i h ∧ h.gotAs = some id := by
  rw [openCount, List.countP_pos_iff]
  constructor
  · rintro ⟨h, hm, ha⟩
    obtain ⟨i, hi⟩ := List.getElem?_of_mem hm
    exact ⟨i, h, ⟨hi, (openAs_iff.mp ha).1⟩, (openAs_iff.mp ha).2⟩
  · rintro ⟨i, h, ho, hg⟩
    exact ⟨h, List.mem_of_getElem? ho.1, openAs_iff.mpr ⟨ho.2, hg⟩⟩

theorem open_append : Open (hs ++ [k]) i h ↔ Open hs i h ∨ i = hs.length ∧ h = k ∧ k.shut = false := by
  unfold Open
  rcases Nat.lt_trichotomy i hs.length with hlt | rfl | hgt
  · rw [List.getElem?_append_left hlt]
    exact ⟨.inl, fun ho => ho.elim (fun ho => ho) fun he => absurd he.1 (Nat.ne_of_lt hlt)⟩
  · rw [List.getElem?_concat_length, List.getElem?_eq_none (Nat.le_refl _)]
    constructor
    · rintro ⟨hk, hs⟩
      cases hk
      exact .inr ⟨rfl, rfl, hs⟩
    · rintro (⟨hk, -⟩ | ⟨-, rfl, hs⟩)
      · cases hk
      · exact ⟨rfl, hs⟩
  · rw [List.getElem?_eq_none (by rw [List.length_append, List.length_singleton]; omega),
      List.getElem?_eq_none (by omega)]
    constructor
    · rintro ⟨hk, -⟩
      cases hk
    · rintro (⟨hk, -⟩ | ⟨heq, -⟩)
      · cases hk
      · omega

theorem open_set_shut (hk : k.shut = true) : Open (hs.set j k) i h ↔ Open hs i h ∧ i ≠ j := by
  unfold Open
  by_cases hij : i = j
  · subst hij
    refine iff_of_false ?_ fun hc => hc.2 rfl
    rintro ⟨hget, hs⟩
    rw [List.getElem?_set_self'] at hget
    obtain ⟨_, -, rfl⟩ := Option.map_eq_some_iff.mp hget
    rw [Function.const_apply, hk] at hs
    cases hs
  · rw [List.getElem?_set_ne (Ne.symm hij)]
    exact ⟨fun ho => ⟨ho, hij⟩, And.left⟩

/-- Another userdata in its place. -/
theorem open_set (hj : j < hs.length) (hk : k.shut = false) :
    Open (hs.set j k) i h ↔ Open hs i h ∧ i ≠ j ∨ i = j ∧ h = k := by
  unfold Open
  by_cases hij : i = j
  · subst hij
    rw [List.getElem?_set_self hj]
    constructor
    · rintro ⟨heq, -⟩
      cases heq
      exact .inr ⟨rfl, rfl⟩
    · rintro (⟨-, hne⟩ | ⟨-, rfl⟩)
      · exact absurd rfl hne
      · exact ⟨rfl, hk⟩
  · rw [List.getElem?_set_ne (Ne.symm hij)]
    exact ⟨fun ho => .inl ⟨ho, hij⟩, fun ho => ho.elim And.left fun he => absurd he.1 hij⟩

theorem openCount_append (id : String) :
    openCount (hs ++ [k]) id = openCount hs id + if openAs id k then 1 else 0 := by
  rw [openCount, List.countP_append, List.countP_singleton, openCount]

theorem openCount_set (ho : Open hs j h) (k : Handle) (id : String) :
    openCount (hs.set j k) id + (if openAs id h then 1 else 0) =
      openCount hs id + if openAs id k then 1 else 0 := by
  obtain ⟨hlt, hget⟩ := List.getElem?_eq_some_iff.mp ho.1
  have hpos : openAs id h = true → 0 < openCount hs id := fun ha =>
    openCount_pos_iff.mpr ⟨j, h, ho, (openAs_iff.mp ha).2⟩
  have hset := List.countP_set (p := openAs id) (a := k) hlt
  rw [hget] at hset
  unfold openCount at hpos ⊢
  rw [hset]
  split
  · next ha =>
    have := hpos ha
    omega
  · omega

end

-- ---------------------------------------------------------------------------
-- What is shared
-- ---------------------------------------------------------------------------

/-- What holds of the names and the open userdata. -/
structure Inv (s : State) : Prop where
  metatable : ∀ i h, Open s.handles i h → h.hasMetatable = true
  made : ∀ i h, Open s.handles i h → h.content < s.made
  closedMade : ∀ c ∈ s.closed, c < s.made
  nodup : s.closed.Nodup
  held : ∀ c < s.made, c ∈ s.closed ↔ ∀ i h, Open s.handles i h → h.content ≠ c
  /-- An object in two userdata is under one name. -/
  apart : ∀ i h j k, Open s.handles i h → Open s.handles j k → h.content = k.content → i ≠ j →
    h.gotAs = k.gotAs ∧ h.gotAs ≠ none
  entry : ∀ i h id, Open s.handles i h → h.gotAs = some id →
    ∃ ud, s.vars id = some ud ∧ ud.content = some h.content
  count : ∀ id ud c, s.vars id = some ud → ud.content = some c →
    ud.count = openCount s.handles id ∧ 0 < ud.count ∧ ud.count < 2 ^ 32

theorem inv_init : Inv {} where
  metatable i h ho := absurd ho.lt (Nat.not_lt_zero _)
  made i h ho := absurd ho.lt (Nat.not_lt_zero _)
  closedMade c hc := absurd hc List.not_mem_nil
  nodup := List.nodup_nil
  held c hc := absurd hc (Nat.not_lt_zero _)
  apart i h j k ho := absurd ho.lt (Nat.not_lt_zero _)
  entry i h id ho := absurd ho.lt (Nat.not_lt_zero _)
  count id ud c hud := by cases hud

/-- Neither metatables nor entries without content matter. -/
theorem Inv.congr {s s' : State} (hI : Inv s) (hh : s'.handles = s.handles) (hm : s'.made = s.made)
    (hc : s'.closed = s.closed)
    (hv : ∀ k ud c, ud.content = some c → (s'.vars k = some ud ↔ s.vars k = some ud)) : Inv s' where
  metatable := hh ▸ hI.metatable
  made := by
    rw [hh, hm]
    exact hI.made
  closedMade := by
    rw [hc, hm]
    exact hI.closedMade
  nodup := hc ▸ hI.nodup
  held := by
    rw [hc, hm, hh]
    exact hI.held
  apart := hh ▸ hI.apart
  entry i h id ho hg := by
    obtain ⟨ud, hud, hcont⟩ := hI.entry i h id (hh ▸ ho) hg
    exact ⟨ud, (hv _ _ _ hcont).mpr hud, hcont⟩
  count id ud c hud hcont := by
    rw [hh]
    exact hI.count id ud c ((hv _ _ _ hcont).mp hud) hcont

section
variable {s : State} {i : Nat} {h : Handle} {id : String}

theorem Inv.not_closed (hI : Inv s) (ho : Open s.handles i h) : h.content ∉ s.closed := fun hc =>
  (hI.held _ (hI.made i h ho)).mp hc i h ho rfl

theorem Inv.holder (hI : Inv s) {ud : UserData} {c : Nat} (hud : s.vars id = some ud) (hc : ud.content = some c) :
    ∃ i h, Open s.handles i h ∧ h.gotAs = some id ∧ h.content = c := by
  obtain ⟨hcount, hpos, -⟩ := hI.count id ud c hud hc
  rw [hcount] at hpos
  obtain ⟨i, h, ho, hg⟩ := openCount_pos_iff.mp hpos
  obtain ⟨ud', hud', hc'⟩ := hI.entry i h id ho hg
  cases hud.symm.trans hud'
  exact ⟨i, h, ho, hg, Option.some.inj (hc'.symm.trans hc)⟩

theorem Inv.unused (hI : Inv s) (hc : (s.vars.get id).1.content = none) : openCount s.handles id = 0 := by
  refine Nat.eq_zero_of_not_pos fun hpos => ?_
  obtain ⟨i, h, ho, hg⟩ := openCount_pos_iff.mp hpos
  obtain ⟨ud, hud, hcont⟩ := hI.entry i h id ho hg
  rw [Globals.get_eq hud, hcont] at hc
  cases hc

theorem Inv.of_get (hI : Inv s) (id : String) : Inv { s with vars := (s.vars.get id).2 } :=
  hI.congr rfl rfl rfl fun _ _ _ hc => Globals.get_content _ _ _ hc

theorem load_inv (hI : Inv s) (p : Nat) (ty : String) (myName : Option String) : Inv (load s p ty myName) := by
  unfold load
  split
  · exact hI.congr rfl rfl rfl fun _ _ _ _ => Iff.rfl
  · exact hI

/-- A userdata with an object of its own. -/
theorem append_inv (hI : Inv s) (p : Nat) (ty : String) :
    Inv { s with
      handles := s.handles ++ [{ proc := p, type := ty, content := s.made }]
      made := s.made + 1 } where
  metatable i h ho := by
    rcases open_append.mp ho with ho | ⟨-, rfl, -⟩
    · exact hI.metatable i h ho
    · rfl
  made i h ho := by
    rcases open_append.mp ho with ho | ⟨-, rfl, -⟩
    · exact Nat.lt_succ_of_lt (hI.made i h ho)
    · exact Nat.lt_succ_self _
  closedMade c hc := Nat.lt_succ_of_lt (hI.closedMade c hc)
  nodup := hI.nodup
  held c hc := by
    rcases Nat.lt_succ_iff_lt_or_eq.mp hc with hlt | rfl
    · refine (hI.held c hlt).trans ⟨fun hall i h ho => ?_, fun hall i h ho => hall i h (open_append.mpr (.inl ho))⟩
      rcases open_append.mp ho with ho | ⟨-, rfl, -⟩
      · exact hall i h ho
      · exact (Nat.ne_of_lt hlt).symm
    · refine iff_of_false (fun hc => Nat.lt_irrefl _ (hI.closedMade _ hc)) fun hall => ?_
      exact hall _ _ (open_append.mpr (.inr ⟨rfl, rfl, rfl⟩)) rfl
  apart i h j k ho hk heq hne := by
    rcases open_append.mp ho with ho | ⟨rfl, rfl, -⟩
    · rcases open_append.mp hk with hk | ⟨rfl, rfl, -⟩
      · exact hI.apart i h j k ho hk heq hne
      · exact absurd heq (Nat.ne_of_lt (hI.made i h ho))
    · rcases open_append.mp hk with hk | ⟨rfl, rfl, -⟩
      · exact absurd heq.symm (Nat.ne_of_lt (hI.made j k hk))
      · exact absurd rfl hne
  entry i h id ho hg := by
    rcases open_append.mp ho with ho | ⟨-, rfl, -⟩
    · exact hI.entry i h id ho hg
    · cases hg
  count id ud c hud hc := by
    have hlast : openCount (s.handles ++ [{ proc := p, type := ty, content := s.made }]) id = _ := openCount_append id
    rw [if_neg (by rw [openAs_iff]; exact fun hk => by cases hk.2)] at hlast
    rw [hlast]
    exact hI.count id ud c hud hc

theorem create_inv (hI : Inv s) (p : Nat) (ty : String) : Inv (create s p ty).1 := by
  unfold create
  split
  · exact hI
  · exact append_inv hI p ty

/-- What `RegisterGlobal` does to a name: nothing, or it is put. -/
theorem registerGlobal_cases (s : State) (id : String) (i : Nat) (h : Handle) :
    (registerGlobal s id i h).1 = { s with vars := (s.vars.get id).2 } ∨
    (s.vars.get id).1.content = none ∧ ∃ type,
      (registerGlobal s id i h).1 =
        { modifyState s h.proc h.type id with
          vars := (s.vars.get id).2.put id { content := some h.content, name := type }
          handles := s.handles.set i { h with gotAs := some id } } := by
  unfold registerGlobal
  by_cases hsome : (s.vars.get id).1.content.isSome = true
  · exact .inl (by simp only [hsome, if_true])
  · simp only [if_neg hsome]
    cases s.getmetatable h with
    | none => exact .inl rfl
    | some m =>
      cases hname : m.myName with
      | none => exact .inl (by simp only [hname])
      | some type => exact .inr ⟨Option.not_isSome_iff_eq_none.mp hsome, type, by simp only [hname]⟩

/-- An open userdata that had no name gets one that is not in use. -/
theorem put_inv (hI : Inv s) (ho : Open s.handles i h) (hnone : h.gotAs = none)
    (hcont : (s.vars.get id).1.content = none) (type : String) :
    Inv { s with
      vars := (s.vars.get id).2.put id { content := some h.content, name := type }
      handles := s.handles.set i { h with gotAs := some id } } := by
  have hzero := hI.unused hcont
  -- the open userdata are those of before, one of them with a name
  have hopen : ∀ j k, Open (s.handles.set i { h with gotAs := some id }) j k ↔
      Open s.handles j k ∧ j ≠ i ∨ j = i ∧ k = { h with gotAs := some id } :=
    fun j k => open_set ho.lt ho.2
  have hold : ∀ j k, Open s.handles j k → ∃ k', Open (s.handles.set i { h with gotAs := some id }) j k' ∧
      k'.content = k.content := by
    intro j k hk
    by_cases hji : j = i
    · subst hji
      cases ho.eq hk
      exact ⟨_, (hopen _ _).mpr (.inr ⟨rfl, rfl⟩), rfl⟩
    · exact ⟨k, (hopen _ _).mpr (.inl ⟨hk, hji⟩), rfl⟩
  have hback : ∀ j k, Open (s.handles.set i { h with gotAs := some id }) j k → ∃ k', Open s.handles j k' ∧
      k'.content = k.content ∧ k'.hasMetatable = k.hasMetatable := by
    intro j k hk
    rcases (hopen j k).mp hk with ⟨hk, -⟩ | ⟨rfl, rfl⟩
    · exact ⟨k, hk, rfl, rfl⟩
    · exact ⟨h, ho, rfl, rfl⟩
  constructor
  · intro j k hk
    obtain ⟨k', hk', -, hm⟩ := hback j k hk
    exact hm ▸ hI.metatable j k' hk'
  · intro j k hk
    obtain ⟨k', hk', hc, -⟩ := hback j k hk
    exact hc ▸ hI.made j k' hk'
  · exact hI.closedMade
  · exact hI.nodup
  · intro c hc
    refine (hI.held c hc).trans ⟨fun hall j k hk => ?_, fun hall j k hk => ?_⟩
    · obtain ⟨k', hk', heq, -⟩ := hback j k hk
      exact heq ▸ hall j k' hk'
    · obtain ⟨k', hk', heq⟩ := hold j k hk
      exact heq ▸ hall j k' hk'
  · -- no other userdata has its object
    have halone : ∀ j k, Open s.handles j k → j ≠ i → k.content ≠ h.content := fun j k hk hji heq =>
      (hI.apart i h j k ho hk heq.symm hji.symm).2 hnone
    intro j k l m hk hm heq hne
    rcases (hopen j k).mp hk with ⟨hold₁, hji⟩ | ⟨rfl, rfl⟩
    · rcases (hopen l m).mp hm with ⟨hold₂, -⟩ | ⟨rfl, rfl⟩
      · exact hI.apart j k l m hold₁ hold₂ heq hne
      · exact absurd heq (halone j k hold₁ hji)
    · rcases (hopen l m).mp hm with ⟨hold₂, hli⟩ | ⟨rfl, rfl⟩
      · exact absurd heq.symm (halone l m hold₂ hli)
      · exact absurd rfl hne
  · intro j k id' hk hg
    rcases (hopen j k).mp hk with ⟨hold₁, -⟩ | ⟨rfl, rfl⟩
    · obtain ⟨ud, hud, hc⟩ := hI.entry j k id' hold₁ hg
      have hne : id' ≠ id := by
        rintro rfl
        have := openCount_pos_iff.mpr ⟨j, k, hold₁, hg⟩
        omega
      exact ⟨ud, (Globals.put_of_ne _ hne _).trans ((Globals.get_content _ _ _ hc).mpr hud), hc⟩
    · cases hg
      exact ⟨_, Globals.put_self _ _ _, rfl⟩
  · intro id' ud c hud hc
    have hset := openCount_set ho { h with gotAs := some id } id'
    have hwas : ¬openAs id' h = true := by
      rw [openAs_iff, hnone]
      exact fun hk => by cases hk.2
    rw [if_neg hwas, Nat.add_zero] at hset
    by_cases hne : id' = id
    · subst hne
      cases (Globals.put_self _ _ _).symm.trans hud
      have hmark : openAs id' { h with gotAs := some id' } = true := openAs_iff.mpr ⟨ho.2, rfl⟩
      rw [if_pos hmark, hzero] at hset
      exact ⟨hset.symm, Nat.one_pos, Nat.one_lt_two_pow (by decide)⟩
    · have hput : s.vars id' = some ud :=
        (Globals.get_content _ _ _ hc).mp ((Globals.put_of_ne _ hne _).symm.trans hud)
      have hother : ¬openAs id' { h with gotAs := some id } = true := by
        rw [openAs_iff]
        exact fun hk => hne (Option.some.inj hk.2).symm
      rw [if_neg hother, Nat.add_zero] at hset
      exact hset ▸ hI.count id' ud c hput hc

theorem register_inv (hI : Inv s) (ho : Open s.handles i h) (hnone : h.gotAs = none) (id : String) :
    Inv (registerGlobal s id i h).1 := by
  rcases registerGlobal_cases s id i h with heq | ⟨hcont, type, heq⟩
  · exact heq ▸ hI.of_get id
  · rw [heq]
    exact (put_inv hI ho hnone hcont type).congr rfl rfl rfl fun _ _ _ _ => Iff.rfl

theorem getGlobal_some {ud : UserData} {c : Nat} (hud : s.vars id = some ud) (hc : ud.content = some c) {p : Nat}
    (hl : (s.metas p ud.name).isSome = true) :
    (getGlobal s p id).1 =
      { modifyState s p ud.name id with
        vars := s.vars.put id { ud with count := (ud.count + 1) % 2 ^ 32 }
        handles := s.handles ++ [{ proc := p, type := ud.name, content := c, gotAs := some id }] } := by
  obtain ⟨m, hm⟩ := Option.isSome_iff_exists.mp hl
  simp only [getGlobal, Globals.get_eq hud, hc, hm]

/-- Whether a process can get what is under a name. -/
def State.gettable (s : State) (p : Nat) (id : String) : Prop :=
  ∀ ud, s.vars id = some ud → ud.content.isSome = true → (s.metas p ud.name).isSome = true

theorem get_inv (hI : Inv s) {p : Nat} (hlt : openCount s.handles id + 1 < 2 ^ 32) (hl : s.gettable p id) :
    Inv (getGlobal s p id).1 := by
  cases hcont : (s.vars.get id).1.content with
  | none =>
    simp only [getGlobal, hcont]
    exact hI.of_get id
  | some c =>
    obtain ⟨ud, hud, hc, -⟩ := Globals.get_fst_content hcont
    obtain ⟨i, h, ho, hg, rfl⟩ := hI.holder hud hc
    obtain ⟨hcount, hpos, -⟩ := hI.count id ud _ hud hc
    rw [getGlobal_some hud hc (hl ud hud (hc ▸ rfl))]
    refine Inv.congr (s := { s with
      vars := s.vars.put id { ud with count := (ud.count + 1) % 2 ^ 32 }
      handles := s.handles ++ [{ proc := p, type := ud.name, content := h.content, gotAs := some id }] })
      ?_ rfl rfl rfl fun _ _ _ _ => Iff.rfl
    constructor
    · intro j k hk
      rcases open_append.mp hk with hk | ⟨-, rfl, -⟩
      · exact hI.metatable j k hk
      · rfl
    · intro j k hk
      rcases open_append.mp hk with hk | ⟨-, rfl, -⟩
      · exact hI.made j k hk
      · exact hI.made i h ho
    · exact hI.closedMade
    · exact hI.nodup
    · intro c' hc'
      refine (hI.held c' hc').trans ⟨fun hall j k hk => ?_, fun hall j k hk => hall j k (open_append.mpr (.inl hk))⟩
      rcases open_append.mp hk with hk | ⟨-, rfl, -⟩
      · exact hall j k hk
      · exact hall i h ho
    · -- what has the object has it under this name
      have hname : ∀ j k, Open s.handles j k → k.content = h.content → k.gotAs = some id := by
        intro j k hk heq
        by_cases hji : j = i
        · subst hji
          cases ho.eq hk
          exact hg
        · exact (hI.apart j k i h hk ho heq hji).1.trans hg
      intro j k l m hk hm heq hne
      rcases open_append.mp hk with hk | ⟨rfl, rfl, -⟩
      · rcases open_append.mp hm with hm | ⟨rfl, rfl, -⟩
        · exact hI.apart j k l m hk hm heq hne
        · have := hname j k hk heq
          exact ⟨this, this ▸ Option.some_ne_none _⟩
      · rcases open_append.mp hm with hm | ⟨rfl, rfl, -⟩
        · exact ⟨(hname l m hm heq.symm).symm, Option.some_ne_none _⟩
        · exact absurd rfl hne
    · intro j k id' hk hgk
      rcases open_append.mp hk with hk | ⟨-, rfl, -⟩
      · obtain ⟨ud', hud', hc'⟩ := hI.entry j k id' hk hgk
        by_cases hne : id' = id
        · subst hne
          cases hud.symm.trans hud'
          exact ⟨_, Globals.put_self _ _ _, hc'⟩
        · exact ⟨ud', (Globals.put_of_ne _ hne _).trans hud', hc'⟩
      · cases hgk
        exact ⟨_, Globals.put_self _ _ _, hc⟩
    · intro id' ud' c' hud' hc'
      rw [openCount_append]
      by_cases hne : id' = id
      · subst hne
        cases (Globals.put_self _ _ _).symm.trans hud'
        rw [if_pos (openAs_iff.mpr ⟨rfl, rfl⟩)]
        simp only [hcount]
        omega
      · rw [if_neg (by rw [openAs_iff]; exact fun hk => hne (Option.some.inj hk.2).symm)]
        exact hI.count id' ud' c' ((Globals.put_of_ne _ hne _).symm.trans hud') hc'

/-- A process without the type's metatable gets no userdata, and one more than there are is counted: the
last `close` will not close the object. -/
theorem getGlobal_unloaded (hI : Inv s) {ud : UserData} {c : Nat} (hud : s.vars id = some ud)
    (hc : ud.content = some c) {p : Nat} (hl : s.metas p ud.name = none) (hlt : openCount s.handles id + 1 < 2 ^ 32) :
    (getGlobal s p id).2 = .error "attempt to index a nil value" ∧ (getGlobal s p id).1.handles = s.handles ∧
      ((getGlobal s p id).1.vars id).map (·.count) = some (openCount s.handles id + 1) := by
  have hget : getGlobal s p id = ({ s with vars := s.vars.put id { ud with count := (ud.count + 1) % 2 ^ 32 } },
      .error "attempt to index a nil value") := by
    simp only [getGlobal, Globals.get_eq hud, hc, hl]
  have hcount := (hI.count id ud c hud hc).1
  rw [hget]
  refine ⟨rfl, rfl, ?_⟩
  simp only [Globals.put_self, Option.map_some, hcount, Nat.mod_eq_of_lt hlt]

/-- One of several userdata under a name is shut. -/
theorem shut_inv (hI : Inv s) (ho : Open s.handles i h) (hg : h.gotAs = some id) {ud : UserData}
    (hud : s.vars id = some ud) (hmore : ud.count - 1 ≠ 0) :
    Inv { s with
      vars := s.vars.put id { ud with count := ud.count - 1 }
      handles := s.handles.set i { h with shut := true } } := by
  obtain ⟨ud', hud', hc⟩ := hI.entry i h id ho hg
  cases hud.symm.trans hud'
  obtain ⟨hcount, hpos, hlt⟩ := hI.count id ud _ hud hc
  have hopen : ∀ j k, Open (s.handles.set i { h with shut := true }) j k ↔ Open s.handles j k ∧ j ≠ i :=
    fun j k => open_set_shut rfl
  have hset := openCount_set ho { h with shut := true }
  have hgone : ∀ id', ¬openAs id' { h with shut := true } = true := fun id' hk => by
    cases (openAs_iff.mp hk).1
  have hone : openCount (s.handles.set i { h with shut := true }) id + 1 = openCount s.handles id := by
    have := hset id
    rwa [if_pos (openAs_iff.mpr ⟨ho.2, hg⟩), if_neg (hgone id)] at this
  constructor
  · exact fun j k hk => hI.metatable j k ((hopen j k).mp hk).1
  · exact fun j k hk => hI.made j k ((hopen j k).mp hk).1
  · exact hI.closedMade
  · exact hI.nodup
  · intro c hcm
    refine (hI.held c hcm).trans ⟨fun hall j k hk => hall j k ((hopen j k).mp hk).1, fun hall j k hk => ?_⟩
    by_cases hji : j = i
    · -- another one with the object is left
      subst hji
      cases ho.eq hk
      obtain ⟨l, m, hm, hgm⟩ := openCount_pos_iff.mp (Nat.pos_of_ne_zero (n := openCount _ id)
        (by omega : openCount (s.handles.set j { h with shut := true }) id ≠ 0))
      obtain ⟨ud', hud', hcm'⟩ := hI.entry l m id ((hopen l m).mp hm).1 hgm
      cases hud.symm.trans hud'
      exact Option.some.inj (hc.symm.trans hcm') ▸ hall l m hm
    · exact hall j k ((hopen j k).mpr ⟨hk, hji⟩)
  · exact fun j k l m hk hm => hI.apart j k l m ((hopen j k).mp hk).1 ((hopen l m).mp hm).1
  · intro j k id' hk hgk
    obtain ⟨u, hu, hcu⟩ := hI.entry j k id' ((hopen j k).mp hk).1 hgk
    by_cases hne : id' = id
    · subst hne
      have hsame : u = ud := Option.some.inj (hu.symm.trans hud)
      exact ⟨_, Globals.put_self _ _ _, hsame ▸ hcu⟩
    · exact ⟨u, (Globals.put_of_ne _ hne _).trans hu, hcu⟩
  · intro id' ud' c' hud' hc'
    by_cases hne : id' = id
    · subst hne
      cases (Globals.put_self _ _ _).symm.trans hud'
      simp only
      omega
    · have hsame := hset id'
      have hother : ¬openAs id' h = true := by
        rw [openAs_iff, hg]
        exact fun hk => hne (Option.some.inj hk.2).symm
      rw [if_neg hother, if_neg (hgone id'), Nat.add_zero, Nat.add_zero] at hsame
      exact hsame ▸ hI.count id' ud' c' ((Globals.put_of_ne _ hne _).symm.trans hud') hc'

/-- The only userdata with an object is closed, and its name goes. -/
theorem closeObject_inv (hI : Inv s) (ho : Open s.handles i h)
    (halone : ∀ j k, Open s.handles j k → j ≠ i → k.content ≠ h.content) {vars : Globals}
    (hv : ∀ k ud c, ud.content = some c → (vars k = some ud ↔ s.vars k = some ud ∧ h.gotAs ≠ some k)) :
    Inv { closeObject s i h with vars := vars } := by
  have hopen : ∀ j k, Open (closeObject s i h).handles j k ↔ Open s.handles j k ∧ j ≠ i :=
    fun j k => open_set_shut rfl
  have hnew := hI.not_closed ho
  constructor
  · exact fun j k hk => hI.metatable j k ((hopen j k).mp hk).1
  · exact fun j k hk => hI.made j k ((hopen j k).mp hk).1
  · intro c hc
    rcases List.mem_append.mp hc with hc | hc
    · exact hI.closedMade c hc
    · rw [List.mem_singleton.mp hc]
      exact hI.made i h ho
  · exact List.nodup_append.mpr ⟨hI.nodup, List.nodup_cons.mpr ⟨List.not_mem_nil, List.nodup_nil⟩, fun a ha b hb hab =>
      hnew ((List.mem_singleton.mp hb) ▸ hab ▸ ha)⟩
  · intro c hcm
    rw [show ({ closeObject s i h with vars := vars } : State).closed = s.closed ++ [h.content] from rfl,
      List.mem_append, List.mem_singleton]
    constructor
    · rintro (hc | rfl) j k hk
      · exact (hI.held c hcm).mp hc j k ((hopen j k).mp hk).1
      · exact halone j k ((hopen j k).mp hk).1 ((hopen j k).mp hk).2
    · intro hall
      by_cases hc : c = h.content
      · exact .inr hc
      · refine .inl ((hI.held c hcm).mpr fun j k hk => ?_)
        by_cases hji : j = i
        · subst hji
          cases ho.eq hk
          exact Ne.symm hc
        · exact hall j k ((hopen j k).mpr ⟨hk, hji⟩)
  · exact fun j k l m hk hm => hI.apart j k l m ((hopen j k).mp hk).1 ((hopen l m).mp hm).1
  · intro j k id' hk hgk
    obtain ⟨hk, hji⟩ := (hopen j k).mp hk
    obtain ⟨ud', hud', hc'⟩ := hI.entry j k id' hk hgk
    refine ⟨ud', (hv _ _ _ hc').mpr ⟨hud', fun hg => ?_⟩, hc'⟩
    obtain ⟨ud, hud, hc⟩ := hI.entry i h id' ho hg
    cases hud.symm.trans hud'
    exact halone j k hk hji (Option.some.inj (hc'.symm.trans hc))
  · intro id' ud' c' hud' hc'
    obtain ⟨hud, hne⟩ := (hv _ _ _ hc').mp hud'
    have hsame := openCount_set ho { h with hasMetatable := false, shut := true } id'
    have hother : ¬openAs id' h = true := by
      rw [openAs_iff]
      exact fun hk => hne hk.2
    have hgone : ¬openAs id' { h with hasMetatable := false, shut := true } = true := fun hk => by
      cases (openAs_iff.mp hk).1
    rw [if_neg hother, if_neg hgone, Nat.add_zero, Nat.add_zero] at hsame
    exact hsame ▸ hI.count id' ud' c' hud hc'

theorem minus_one {n : Nat} (hpos : 0 < n) (hlt : n < 2 ^ 32) : (n + (2 ^ 32 - 1)) % 2 ^ 32 = n - 1 := by omega

theorem finalize_last {ud : UserData} {m : Metatable} (hid : m.myId = some id) (hud : s.vars id = some ud)
    (hone : ud.count = 1) (i : Nat) :
    (finalize s i h m).1 =
      { closeObject (s.modifyMeta h.proc h.type fun m => { m with counted := false }) i h with
        vars := s.vars.erase id } := by
  simp only [finalize, hid, Globals.get_eq hud]
  rw [if_pos (by omega)]

theorem finalize_more {ud : UserData} {m : Metatable} (hid : m.myId = some id) (hud : s.vars id = some ud)
    (hpos : 0 < ud.count) (hlt : ud.count < 2 ^ 32) (hmore : ud.count - 1 ≠ 0) (i : Nat) :
    (finalize s i h m).1 =
      { s with
        vars := s.vars.put id { ud with count := ud.count - 1 }
        handles := s.handles.set i { h with shut := true } } := by
  simp only [finalize, hid, Globals.get_eq hud]
  rw [minus_one hpos hlt, if_neg hmore]

/-- The name of the userdata that `close` takes this one for. -/
def closesAs (s : State) (h : Handle) : Option String :=
  (s.getmetatable h).bind fun m => if m.counted then m.myId else none

theorem close_inv (hI : Inv s) (ho : Open s.handles i h) (hg : h.gotAs = closesAs s h) :
    Inv (close s i h).1 := by
  unfold close
  unfold closesAs at hg
  cases hm : s.getmetatable h with
  | none => exact hI
  | some m =>
  rw [hm, Option.bind_some] at hg
  by_cases hcounted : m.counted = true
  · simp only [if_pos hcounted] at hg ⊢
    cases hid : m.myId with
    | none =>
      simp only [finalize, hid]
      exact hI
    | some id =>
      rw [hid] at hg
      obtain ⟨ud, hud, hc⟩ := hI.entry i h id ho hg
      obtain ⟨hcount, hpos, hlt⟩ := hI.count id ud _ hud hc
      by_cases hone : ud.count = 1
      · rw [finalize_last hid hud hone]
        -- what else has the object would be under the name too
        have halone : ∀ j k, Open s.handles j k → j ≠ i → k.content ≠ h.content := by
          intro j k hk hji heq
          have hgk : k.gotAs = some id := (hI.apart j k i h hk ho heq hji).1.trans hg
          have hset := openCount_set ho { h with shut := true } id
          have hgone : ¬openAs id { h with shut := true } = true := fun hk => by cases (openAs_iff.mp hk).1
          have hleft := openCount_pos_iff.mpr
            ⟨j, k, (open_set_shut (k := { h with shut := true }) rfl).mpr ⟨hk, hji⟩, hgk⟩
          rw [if_pos (openAs_iff.mpr ⟨ho.2, hg⟩), if_neg hgone] at hset
          omega
        have hv : ∀ k u c, u.content = some c →
            (s.vars.erase id k = some u ↔ s.vars k = some u ∧ h.gotAs ≠ some k) := by
          intro k u c _
          rw [hg]
          by_cases hk : k = id
          · subst hk
            rw [Globals.erase_self]
            exact iff_of_false (fun h => by cases h) fun h => h.2 rfl
          · rw [Globals.erase_of_ne _ hk]
            exact ⟨fun hu => ⟨hu, fun he => hk (Option.some.inj he).symm⟩, And.left⟩
        exact (closeObject_inv hI ho halone hv).congr rfl rfl rfl fun _ _ _ _ => Iff.rfl
      · have hmore : ud.count - 1 ≠ 0 := by omega
        rw [finalize_more hid hud hpos hlt hmore]
        exact shut_inv hI ho hg hud hmore
  · simp only [if_neg hcounted] at hg ⊢
    refine closeObject_inv hI ho (fun j k hk hji heq => ?_) fun k u c _ => ?_
    · exact (hI.apart i h j k ho hk heq.symm hji.symm).2 hg
    · rw [hg]
      exact ⟨fun hu => ⟨hu, fun he => by cases he⟩, And.left⟩

end

-- ---------------------------------------------------------------------------
-- Runs
-- ---------------------------------------------------------------------------

/-- A userdata is registered before any name was given to it and got by processes with the library of
its type, it is closed once and when the metatable names it, and fewer than 2^32 share an object. -/
def Proper (s : State) : Action → Prop
  | .load _ _ _ => True
  | .create _ _ => True
  | .register _ i => ∃ h, Open s.handles i h ∧ h.gotAs = none
  | .get p id => openCount s.handles id + 1 < 2 ^ 32 ∧ s.gettable p id
  | .close i => ∃ h, Open s.handles i h ∧ h.gotAs = closesAs s h

theorem perform_inv {s : State} (hI : Inv s) (a : Action) (hok : Proper s a) : Inv (perform s a) := by
  cases a with
  | load p ty myName => exact load_inv hI p ty myName
  | create p ty => exact create_inv hI p ty
  | register id i =>
    obtain ⟨h, ho, hnone⟩ := hok
    simp only [perform, ho.1]
    exact register_inv hI ho hnone id
  | get p id => exact get_inv hI hok.1 hok.2
  | close i =>
    obtain ⟨h, ho, hg⟩ := hok
    simp only [perform, ho.1]
    exact close_inv hI ho hg

theorem inv_run (as : List Action) (hok : ∀ t ∈ turns perform {} as, Proper t.1 t.2) :
    Inv (as.foldl perform {}) :=
  foldl_invariant (I := Inv) (fun _ a hI hok => perform_inv hI a hok) as inv_init hok

/-- An object is closed once, and that exactly when no open userdata refers to it. -/
theorem closed_iff_unreferenced (as : List Action) (hok : ∀ t ∈ turns perform {} as, Proper t.1 t.2) :
    (∀ c < (as.foldl perform {}).made, c ∈ (as.foldl perform {}).closed ↔
      ∀ h ∈ (as.foldl perform {}).handles, h.shut = false → h.content ≠ c) ∧
    (as.foldl perform {}).closed.Nodup := by
  have hI := inv_run as hok
  refine ⟨fun c hc => (hI.held c hc).trans ⟨fun hall h hm hs => ?_, fun hall i h ho => ?_⟩, hI.nodup⟩
  · obtain ⟨i, hi⟩ := List.getElem?_of_mem hm
    exact hall i h ⟨hi, hs⟩
  · exact hall h (List.mem_of_getElem? ho.1) ho.2

/-- An environment for two processes, closed by both. -/
def twoUsers : List Action :=
  [.load 0 "ENV" (some "ENV"), .load 1 "ENV" (some "ENV"), .create 0 "ENV", .register "@db" 0, .get 1 "@db", .close 0,
    .close 1]

theorem twoUsers_proper : ∀ t ∈ turns perform {} twoUsers, Proper t.1 t.2 := by
  simp only [twoUsers, turns, List.forall_mem_cons]
  refine ⟨trivial, trivial, trivial, ⟨_, ⟨rfl, rfl⟩, rfl⟩, ⟨?_, fun ud hud _ => ?_⟩, ⟨_, ⟨rfl, rfl⟩, rfl⟩,
    ⟨_, ⟨rfl, rfl⟩, rfl⟩, fun t ht => ?_⟩
  · exact (by decide : 1 + 1 < 2 ^ 32)
  · cases hud
    rfl
  · cases ht

theorem twoUsers_closed :
    (∀ c < (twoUsers.foldl perform {}).made, c ∈ (twoUsers.foldl perform {}).closed ↔
      ∀ h ∈ (twoUsers.foldl perform {}).handles, h.shut = false → h.content ≠ c) ∧
    (twoUsers.foldl perform {}).closed.Nodup :=
  closed_iff_unreferenced twoUsers twoUsers_proper

/-- Where the metatable names another object that is in no other userdata, `close` closes this one and
leaves its name: the next process with the library that gets it has a closed object. -/
theorem get_dangling (as : List Action) (hok : ∀ t ∈ turns perform {} as, Proper t.1 t.2) {i : Nat} {h : Handle}
    {id other : String} (ho : Open (as.foldl perform {}).handles i h) (hg : h.gotAs = some id)
    (hm : closesAs (as.foldl perform {}) h = some other) (hne : other ≠ id)
    (hone : openCount (as.foldl perform {}).handles other = 1) {p : Nat} (hl : (as.foldl perform {}).gettable p id) :
    ∃ k, Open ((as ++ [Action.close i, .get p id]).foldl perform {}).handles (as.foldl perform {}).handles.length k ∧
      k.proc = p ∧ k.hasMetatable = true ∧ k.content = h.content ∧
      k.content ∈ ((as ++ [Action.close i, .get p id]).foldl perform {}).closed := by
  have hI := inv_run as hok
  rw [List.foldl_append, List.foldl_cons, List.foldl_cons, List.foldl_nil]
  generalize as.foldl perform {} = s at *
  obtain ⟨m, hmeta, hid⟩ := Option.bind_eq_some_iff.mp hm
  have hcounted : m.counted = true := by
    by_contra hc
    rw [if_neg hc] at hid
    cases hid
  rw [if_pos hcounted] at hid
  obtain ⟨j, k, hk, hgk⟩ := openCount_pos_iff.mp (by omega : 0 < openCount s.handles other)
  obtain ⟨ud', hud', hc'⟩ := hI.entry j k other hk hgk
  obtain ⟨ud, hud, hc⟩ := hI.entry i h id ho hg
  have hcount := (hI.count other ud' _ hud' hc').1
  have hclose : perform s (.close i) =
      { closeObject (s.modifyMeta h.proc h.type fun m => { m with counted := false }) i h with
        vars := s.vars.erase other } := by
    simp only [perform, ho.1, close, hmeta, hcounted, if_true]
    exact finalize_last hid hud' (hcount.trans hone) i
  have hstill : (perform s (.close i)).vars id = some ud := by
    rw [hclose]
    exact (Globals.erase_of_ne _ hne.symm).trans hud
  have hlen : (perform s (.close i)).handles.length = s.handles.length := by
    rw [hclose]
    exact List.length_set
  have hmetas : ((perform s (.close i)).metas p ud.name).isSome = true := by
    rw [hclose]
    simp only [closeObject, State.modifyMeta]
    split
    · next heq =>
      obtain ⟨rfl, hty⟩ := heq
      rw [Option.isSome_map, ← hty]
      exact hl ud hud (hc ▸ rfl)
    · exact hl ud hud (hc ▸ rfl)
  have hget : perform (perform s (.close i)) (.get p id) = _ := getGlobal_some hstill hc hmetas
  rw [hget, ← hlen]
  refine ⟨_, open_append.mpr (.inr ⟨rfl, rfl, rfl⟩), rfl, rfl, rfl, ?_⟩
  rw [hclose]
  exact List.mem_append_right _ (List.mem_singleton_self _)

/-- Two environments in one process, both under a name. -/
def twoEnvironments : List Action :=
  [.load 0 "ENV" (some "ENV"), .load 1 "ENV" (some "ENV"), .create 0 "ENV", .register "@a" 0, .create 0 "ENV",
    .register "@b" 1]

theorem twoEnvironments_proper : ∀ t ∈ turns perform {} twoEnvironments, Proper t.1 t.2 := by
  simp only [twoEnvironments, turns, List.forall_mem_cons]
  refine ⟨trivial, trivial, trivial, ⟨_, ⟨rfl, rfl⟩, rfl⟩, trivial, ⟨_, ⟨rfl, rfl⟩, rfl⟩, fun t ht => ?_⟩
  cases ht

/-- The first of them is closed, and another process gets it. -/
theorem second_environment_dangling :
    ∃ k, Open ((twoEnvironments ++ [Action.close 0, .get 1 "@a"]).foldl perform {}).handles 2 k ∧ k.proc = 1 ∧
      k.hasMetatable = true ∧ k.content = 0 ∧
      k.content ∈ ((twoEnvironments ++ [Action.close 0, .get 1 "@a"]).foldl perform {}).closed := by
  refine get_dangling twoEnvironments twoEnvironments_proper (i := 0) (h := ⟨0, "ENV", 0, true, some "@a", false⟩)
    ⟨rfl, rfl⟩ rfl (rfl : closesAs _ _ = some "@b") (by decide) rfl fun ud hud _ => ?_
  cases hud
  rfl

end GalaLua.LuaGlobal
