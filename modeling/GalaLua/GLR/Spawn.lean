import GalaLua.GLR.Arguments
import GalaLua.GLR.Runtime
import Mathlib.Algebra.GroupWithZero.Nat
import Mathlib.Algebra.Order.BigOperators.Group.List
import Mathlib.Algebra.Order.Group.Nat

/-!
# Spawning

`Process::Spawn` and `Process::SpawnEx` with `CreateNode`, `Entry` and the
arguments. The process is in the table before its entry is looked up; whatever
is thrown afterwards becomes NIL and a text for the caller, and the process
stays. A spawn without others between its steps is a run of the runtime model
(`launch_run`). What Lua does in the new process, and how it reads an argument, are
parameters.
-/

namespace GalaLua.GLR

open Library (run)

inductive LuaType
  | nil | boolean | lightuserdata | number | string | table | function | userdata | thread
  deriving DecidableEq, Repr

def LuaType.name : LuaType → String
  | .nil => "nil"
  | .boolean => "boolean"
  | .number => "number"
  | .string => "string"
  | .table => "table"
  | .function => "function"
  | .lightuserdata | .userdata => "userdata"
  | .thread => "thread"

def LuaType.isUserdata : LuaType → Bool
  | .lightuserdata | .userdata => true
  | _ => false

/-- What the calls of the Lua API give; `α` are the values in a new process. -/
structure Lua (α : Type) where
  /-- `lua_tolstring`, up to the first NUL -/
  tostring : LuaValue → Option String
  /-- `lua_tointeger`, as an `int` -/
  tointeger : LuaValue → Int
  /-- `__id__` of the caller; if it is not a number an error is raised -/
  id : Option Pid
  /-- what the constructor of `Process` throws, if it does -/
  initNode : Pid → Option String
  /-- `require` in a new process, or its error -/
  require : String → Except String α
  type : α → LuaType
  /-- `lua_getfield`; nothing if an error is raised -/
  getfield : α → String → Option α

/-- How the functions are left other than by `return`. -/
inductive Fault
  /-- a `CException` -/
  | exception (msg : String)
  /-- an error of Lua, an exception of another type, or a write behind `tmp` -/
  | escape
  deriving DecidableEq, Repr

-- ---------------------------------------------------------------------------
-- Process::Entry
-- ---------------------------------------------------------------------------

section

variable {α : Type} (lua : Lua α)

/-- `std::copy(begin, end, tmp); lua_getfield(_Stack, -1, tmp);` -/
def Lua.index (x : α) (name : List Char) : Except Fault α :=
  if name.length < 1024 then
    match lua.getfield x (String.ofList name) with
    | some y => .ok y
    | none => .error .escape
  else .error .escape

/-- The loop of `Entry` on the rest of the name, the top of the stack being
`x`: the two topmost values below an object that was pushed again, or the
topmost one, and `_NArg`. -/
def Lua.resolve (x : α) : List (List Char) → Except Fault (α × α × Nat)
  | [] => .ok (x, x, 0)
  | [last] =>
    match last.span (· ≠ ':') with
    | (object, _ :: method) => do
      let y ← lua.index x object
      let z ← lua.index y method
      .ok (y, z, 1)
    | (_, []) => do
      let y ← lua.index x last
      .ok (x, y, 0)
  | name :: rest => do
    let y ← lua.index x name
    resolve y rest

/-- `Process::Entry`: `_NArg` of the new process. -/
def Lua.entry (module entry : String) : Except Fault Nat :=
  match lua.require module with
  | .error msg => .error (.exception msg)
  | .ok x =>
    if lua.type x = .table ∨ (lua.type x).isUserdata then do
      let (below, top, nArg) ← lua.resolve x (entry.toList.splitOn '.')
      -- with `:` the object is on top again, and `top` under it
      let last := if nArg = 1 then below else top
      if lua.type last ≠ .function ∧ lua.type top ≠ .function ∧ nArg = 1 then
        .error (.exception (module ++ ": can't call entry '" ++ entry ++ "'(a " ++
          (lua.type last).name ++ " value)"))
      else .ok nArg
    else .error (.exception (module ++ ": not a valid lua module"))

-- ---------------------------------------------------------------------------
-- Process::Spawn, Process::SpawnEx
-- ---------------------------------------------------------------------------

variable {n : Nat}

/-- What the caller gets: TRUE and a pid, or NIL and a text. -/
inductive Outcome
  | returned (r : Except String Pid)
  | escaped
  deriving DecidableEq, Repr

/-- The arguments up to `CreateNode`; `method` may be NULL in `Spawn`. -/
structure Launch where
  id : Pid
  module : String
  method : Option String
  beginIndex : Nat

/-- `CreateNode`, the parent being set by its callers. -/
def State.create (s : State n) (id : Pid) (parentId : Pid) : Except String Pid × State n :=
  match s.choosePid id with
  | none => (.error (if id ≠ 0 then "Cannot Create Process" else "Cannot Spawn Process"), s)
  | some (pid, nodeId) =>
    match lua.initNode pid with
    | some msg => (.error msg, { s with nodeId := State.nextNodeId nodeId })
    | none => (.ok pid, s.createNode pid nodeId parentId)

/-- The common part of `Spawn` and `SpawnEx` once the process `p` is made. -/
def State.enter (s : State n) (p : Obj) (pid : Pid) (x : Launch) (args : List LuaValue) :
    Outcome × State n :=
  if lua.id = none then (.escaped, s)
  else
    match x.method with
    -- the `std::string` of NULL
    | none => (.escaped, s)
    | some method =>
      match lua.entry x.module method with
      | .error (.exception msg) => (.returned (.error msg), s)
      | .error .escape => (.escaped, s)
      | .ok nArg =>
        match (setArguments (args.map LuaValue.depth).sum ⟨args.reverse, []⟩ nArg x.beginIndex).1 with
        | .error msg => (.returned (.error msg), s)
        | .ok _ => (.returned (.ok pid), s.putTask p)

def State.launch (s : State n) (x : Launch) (args : List LuaValue) : Outcome × State n :=
  match s.create lua x.id (lua.id.getD 0) with
  | (.error msg, s) => (.returned (.error msg), s)
  | (.ok pid, s') => s'.enter lua s.next pid x args

def spawnPara (args : List LuaValue) : Except String Launch :=
  match lua.tostring (valueAt args.reverse 1) with
  | none => .error "Extract Para Error"
  -- `module` is tested again instead of `method`
  | some module => .ok ⟨0, module, lua.tostring (valueAt args.reverse 2), 3⟩

def spawnExPara (args : List LuaValue) : Except String Launch :=
  let bindPid := lua.tointeger (valueAt args.reverse 1)
  if bindPid < RESERVED_PID ∧ 1 ≤ bindPid then
    match lua.tostring (valueAt args.reverse 2) with
    | none => .error "Extract Para Error"
    | some module =>
      match lua.tostring (valueAt args.reverse 3) with
      | none => .error "Extract Para Error"
      | some method => .ok ⟨bindPid.toNat, module, some method, 4⟩
  else .error "Bind Gpid out of range"

def State.start (s : State n) (para : Except String Launch) (args : List LuaValue) :
    Outcome × State n :=
  match para with
  | .error msg => (.returned (.error msg), s)
  | .ok x => s.launch lua x args

def State.spawn (s : State n) (args : List LuaValue) : Outcome × State n :=
  s.start lua (spawnPara lua args) args

def State.spawnEx (s : State n) (args : List LuaValue) : Outcome × State n :=
  s.start lua (spawnExPara lua args) args

end

-- ---------------------------------------------------------------------------
-- What a failed spawn leaves
-- ---------------------------------------------------------------------------

variable {n : Nat} {α : Type} {lua : Lua α} {s : State n} {x : Launch} {args : List LuaValue}

/-- The table, its counter and the run queue are as they were. -/
structure Untouched (s s' : State n) : Prop where
  nodeMap : s'.nodeMap = s.nodeMap
  nodeCount : s'.nodeCount = s.nodeCount
  scheQueue : s'.scheQueue = s.scheQueue

theorem Untouched.refl (s : State n) : Untouched s s := ⟨rfl, rfl, rfl⟩

/-- A call that returned NIL and a text left no trace. -/
def Traceless (s : State n) (r : Outcome × State n) : Prop :=
  ∀ msg, r.1 = .returned (.error msg) → Untouched s r.2

/-- A process is made for the call. -/
def Launch.Made (x : Launch) (lua : Lua α) (s : State n) : Prop :=
  ∃ pid nodeId, s.choosePid x.id = some (pid, nodeId) ∧ lua.initNode pid = none

/-- Nothing is thrown between the making of the process and its start. -/
def Launch.Sound (x : Launch) (lua : Lua α) (args : List LuaValue) : Prop :=
  ∀ method, x.method = some method →
    (∀ msg, lua.entry x.module method ≠ .error (.exception msg)) ∧
    ∀ nArg, lua.entry x.module method = .ok nArg →
      ∀ v ∈ args.drop (x.beginIndex - 1), v.supported

theorem create_failed (h : ¬x.Made lua s) (parentId : Pid) :
    ∃ msg s', s.create lua x.id parentId = (.error msg, s') ∧ Untouched s s' := by
  unfold State.create
  cases hpid : s.choosePid x.id with
  | none => exact ⟨_, s, rfl, .refl s⟩
  | some r =>
    cases hinit : lua.initNode r.1 with
    | none => exact absurd ⟨r.1, r.2, hpid, hinit⟩ h
    | some msg =>
      exact ⟨msg, { s with nodeId := State.nextNodeId r.2 }, by simp only [hinit], rfl, rfl, rfl⟩

theorem create_made (h : x.Made lua s) (parentId : Pid) :
    ∃ pid nodeId, s.create lua x.id parentId = (.ok pid, s.createNode pid nodeId parentId) := by
  obtain ⟨pid, nodeId, hpid, hinit⟩ := h
  exact ⟨pid, nodeId, by simp only [State.create, hpid, hinit]⟩

theorem createNode_touched (pid nodeId parentId : Nat) :
    ¬Untouched s (s.createNode pid nodeId parentId) := by
  rintro ⟨-, hcount, -⟩
  simp only [State.createNode] at hcount
  omega

theorem depth_le_sum {k : Nat} : ∀ v ∈ args.drop k, v.depth ≤ (args.map LuaValue.depth).sum :=
  fun _ hv => List.le_sum_of_mem (List.mem_map_of_mem (List.mem_of_mem_drop hv))

/-- An error after `CreateNode` changes nothing that `CreateNode` did. -/
theorem enter_error {p : Obj} {pid : Pid} {msg : String}
    (h : (s.enter lua p pid x args).1 = .returned (.error msg)) :
    (s.enter lua p pid x args).2 = s := by
  unfold State.enter at h ⊢
  split
  · rfl
  · next hid =>
    rw [if_neg hid] at h
    split
    · rfl
    · next hmethod =>
      simp only [hmethod] at h
      split
      · rfl
      · rfl
      · next hentry =>
        simp only [hentry] at h
        split
        · rfl
        · next hargs =>
          simp only [hargs] at h
          cases h

theorem enter_error_iff {p : Obj} {pid : Pid} (hk : 0 < x.beginIndex) :
    (∃ msg, (s.enter lua p pid x args).1 = .returned (.error msg)) ↔
      lua.id.isSome ∧ ¬x.Sound lua args := by
  obtain ⟨k, hk⟩ : ∃ k, x.beginIndex = k + 1 := ⟨x.beginIndex - 1, by omega⟩
  have hk' : x.beginIndex - 1 = k := by omega
  unfold State.enter
  cases hid : lua.id with
  | none => simp
  | some parentId =>
  simp only [reduceCtorEq, if_false, Option.isSome_some, true_and]
  unfold Launch.Sound
  cases hmethod : x.method with
  | none => simp
  | some method =>
  simp only [Option.some.injEq, forall_eq']
  cases hentry : lua.entry x.module method with
  | error fault => cases fault <;> simp
  | ok nArg =>
    simp only [ne_eq, reduceCtorEq, not_false_eq_true, implies_true, true_and, Except.ok.injEq,
      forall_eq', hk, Nat.add_sub_cancel]
    by_cases hargs : ∀ v ∈ args.drop k, v.supported
    · rw [setArguments_ok nArg depth_le_sum hargs]
      exact iff_of_false nofun (not_not_intro hargs)
    · rw [setArguments_error nArg depth_le_sum hargs]
      exact iff_of_true ⟨_, rfl⟩ hargs

/-- An error that is returned leaves no trace if and only if it was thrown
before there was a process. -/
theorem launch_traceless_iff (hk : 0 < x.beginIndex) :
    Traceless s (s.launch lua x args) ↔ (x.Made lua s → lua.id.isSome → x.Sound lua args) := by
  unfold State.launch
  by_cases hmade : x.Made lua s
  · obtain ⟨pid, nodeId, hcreate⟩ := create_made hmade (lua.id.getD 0)
    have htouched := createNode_touched (s := s) pid nodeId (lua.id.getD 0)
    simp only [hcreate]
    set s' := s.createNode pid nodeId (lua.id.getD 0) with hs'
    have herror : (∃ msg, (s'.enter lua s.next pid x args).1 = .returned (.error msg)) ↔
        lua.id.isSome ∧ ¬x.Sound lua args := enter_error_iff hk
    constructor
    · intro h _ hid
      by_contra hno
      obtain ⟨msg, hmsg⟩ := herror.mpr ⟨hid, hno⟩
      have hsame := h msg hmsg
      rw [enter_error hmsg] at hsame
      exact htouched hsame
    · intro h msg hmsg
      obtain ⟨hid, hno⟩ := herror.mp ⟨msg, hmsg⟩
      exact absurd (h hmade hid) hno
  · obtain ⟨msg, s', hcreate, hsame⟩ := create_failed hmade (lua.id.getD 0)
    simp only [hcreate]
    exact iff_of_true (fun _ _ => hsame) fun h => absurd h hmade

theorem start_traceless_iff {para : Except String Launch} (hk : ∀ x, para = .ok x → 0 < x.beginIndex) :
    Traceless s (s.start lua para args) ↔
      ∀ x, para = .ok x → x.Made lua s → lua.id.isSome → x.Sound lua args := by
  cases para with
  | error msg => exact iff_of_true (fun _ _ => .refl s) nofun
  | ok x =>
    rw [State.start, launch_traceless_iff (hk x rfl)]
    constructor
    · rintro h x' hx'
      cases hx'
      exact h
    · exact fun h => h x rfl

theorem beginIndex_spawn (h : spawnPara lua args = .ok x) : x.beginIndex = 3 := by
  unfold spawnPara at h
  split at h
  · cases h
  · cases h
    rfl

theorem beginIndex_spawnEx (h : spawnExPara lua args = .ok x) : x.beginIndex = 4 := by
  unfold spawnExPara at h
  dsimp only at h
  split at h
  · split at h
    · cases h
    · split at h
      · cases h
      · cases h
        rfl
  · cases h

/-- `glr.spawn` and `glr.spawn_ex` that fail leave the table and the run queue
alone if and only if they fail before the process is made. -/
theorem spawn_traceless_iff (lua : Lua α) (s : State n) (args : List LuaValue) :
    (Traceless s (s.spawn lua args) ↔
      ∀ x, spawnPara lua args = .ok x → x.Made lua s → lua.id.isSome → x.Sound lua args) ∧
    (Traceless s (s.spawnEx lua args) ↔
      ∀ x, spawnExPara lua args = .ok x → x.Made lua s → lua.id.isSome → x.Sound lua args) :=
  ⟨start_traceless_iff fun x h => by rw [beginIndex_spawn h]; decide,
    start_traceless_iff fun x h => by rw [beginIndex_spawnEx h]; decide⟩

/-- A Lua that finds no module. -/
def Lua.bare : Lua Unit where
  tostring
    | .string _ => some "m"
    | _ => none
  tointeger
    | .number (.finite x) => x.num
    | _ => 0
  id := some 129
  initNode := fun _ => none
  require := fun module => .error ("module '" ++ module ++ "' not found")
  type := fun _ => .nil
  getfield := fun _ _ => none

/-- The module of a bound spawn is missing: the process stays at its pid. -/
theorem failed_spawn_stays :
    ¬∀ (α : Type) (lua : Lua α) (n : Nat) (s : State n) (args : List LuaValue),
      Traceless s (s.spawn lua args) ∧ Traceless s (s.spawnEx lua args) := by
  intro h
  have hkeep := (h Unit .bare 1 (.init 1) [.number (.finite 5), .string [], .string []]).2 _ rfl
  exact absurd hkeep.nodeCount (by decide)

-- ---------------------------------------------------------------------------
-- The steps of a spawn
-- ---------------------------------------------------------------------------

/-- The choice of `stepSpawn` at the entry of the process. -/
def Outcome.choice : Outcome → Choice
  | .returned (.ok _) => .go
  | _ => .fail

theorem enter_eq {p : Obj} {pid : Pid} :
    (s.enter lua p pid x args).2 =
      match (s.enter lua p pid x args).1.choice with
      | .go => s.putTask p
      | _ => s := by
  unfold State.enter
  split
  · rfl
  · split
    · rfl
    · split
      · rfl
      · rfl
      · split <;> rfl

/-- A spawn that nothing interleaves with is three steps of its thread. -/
theorem launch_run {t : Fin n} (hidle : s.pc t = .idle) (hfree : s.mapFree)
    (hid : x.id < RESERVED_PID) (hmade : x.Made lua s) :
    run step s [.call t (.spawn x.id (lua.id.getD 0)), .run t .go,
      .run t (s.launch lua x args).1.choice] = some (s.launch lua x args).2 := by
  obtain ⟨pid, nodeId, hpid, hinit⟩ := hmade
  have hfree' : (s.goto t (.spawn x.id (lua.id.getD 0))).mapFree := by
    have hread := of_decide_eq_true hfree
    refine decide_eq_true fun t' => ?_
    rcases eq_or_ne t' t with rfl | hne
    · simp only [State.goto, Function.update_self]
      rfl
    · simp only [State.goto, Function.update_of_ne hne]
      exact hread t'
  have hlaunch : s.launch lua x args =
      (s.createNode pid nodeId (lua.id.getD 0)).enter lua s.next pid x args := by
    simp only [State.launch, State.create, hpid, hinit]
  have hpc : Function.update s.pc t .idle = s.pc := by rw [← hidle, Function.update_eq_self]
  have hcall : step s (.call t (.spawn x.id (lua.id.getD 0))) =
      some (s.goto t (.spawn x.id (lua.id.getD 0))) := by
    simp only [step, hidle, Pc.isIdle, if_true, startCall, if_pos hid]
  have hcreate : step (s.goto t (.spawn x.id (lua.id.getD 0))) (.run t .go) =
      some ((s.createNode pid nodeId (lua.id.getD 0)).goto t (.spawnEntry s.next)) := by
    have hpid' : (s.goto t (.spawn x.id (lua.id.getD 0))).choosePid x.id = some (pid, nodeId) := hpid
    have hat : (s.goto t (.spawn x.id (lua.id.getD 0))).pc t = .spawn x.id (lua.id.getD 0) :=
      Function.update_self ..
    simp only [step, stepRun, hat, stepSpawn, if_pos hfree', hpid']
    simp only [State.goto, State.createNode, Function.update_idem]
  have hpc' : ((s.createNode pid nodeId (lua.id.getD 0)).goto t (.spawnEntry s.next)).pc t =
      .spawnEntry s.next := Function.update_self ..
  have hfail : step ((s.createNode pid nodeId (lua.id.getD 0)).goto t (.spawnEntry s.next)) (.run t .fail) =
      some (s.createNode pid nodeId (lua.id.getD 0)) := by
    simp only [step, stepRun, hpc']
    simp only [stepSpawn, State.goto, State.createNode, Function.update_idem, hpc]
  have hgo : step ((s.createNode pid nodeId (lua.id.getD 0)).goto t (.spawnEntry s.next)) (.run t .go) =
      some ((s.createNode pid nodeId (lua.id.getD 0)).putTask s.next) := by
    simp only [step, stepRun, hpc']
    simp only [stepSpawn, State.goto, State.createNode, State.putTask, Function.update_idem, hpc]
  rw [run, hcall, Option.bind_some, run, hcreate, Option.bind_some, run, hlaunch, enter_eq]
  cases ((s.createNode pid nodeId (lua.id.getD 0)).enter lua s.next pid x args).1 with
  | escaped => exact congrArg (Option.bind · _) hfail
  | returned r =>
    cases r with
    | error _ => exact congrArg (Option.bind · _) hfail
    | ok _ => exact congrArg (Option.bind · _) hgo

end GalaLua.GLR
