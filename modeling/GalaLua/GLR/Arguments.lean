import GalaLua.Library.LuaNumber
import Mathlib.Algebra.Group.Int.Defs
import Mathlib.Data.List.GetD
import Mathlib.Data.Rat.Defs

/-!
# The arguments of a spawned process

`MoveValue` and `MoveTable` copy values from the stack of the caller to the
stack of the new process. Both stacks are kept from the top; positive indices
count from the bottom, negative ones from the top. What is copied and what is
left out is described on the values themselves, by `copy` and `prune`.
-/

namespace GalaLua.GLR

open Library (LuaNumber)

-- ---------------------------------------------------------------------------
-- Values
-- ---------------------------------------------------------------------------

/-- A value; the entries of a table are in the order of `lua_next`. -/
inductive LuaValue
  | nil
  | boolean (b : Bool)
  | number (x : LuaNumber)
  | string (s : List UInt8)
  | table (entries : List (LuaValue × LuaValue))
  | function
  | userdata
  | lightuserdata
  | thread

abbrev Entries := List (LuaValue × LuaValue)

namespace LuaValue

/-- The types that `MoveValue` has a case for. -/
def supported : LuaValue → Bool
  | nil | boolean _ | number _ | string _ | table _ => true
  | function | userdata | lightuserdata | thread => false

/-- Two keys of one table are the same key; each table, function, userdata or
thread is its own key. -/
def sameKey : LuaValue → LuaValue → Bool
  | boolean b, boolean b' => b == b'
  | number x, number x' => x == x'
  | string s, string s' => s == s'
  | _, _ => false

end LuaValue

/-- `lua_settable` on a table without a metatable. -/
def setEntry (entries : Entries) (e : LuaValue × LuaValue) : Entries :=
  if entries.any (·.1.sameKey e.1) then
    entries.map fun e' => if e'.1.sameKey e.1 then (e'.1, e.2) else e'
  else entries ++ [e]

-- ---------------------------------------------------------------------------
-- The two stacks
-- ---------------------------------------------------------------------------

structure Stacks where
  src : List LuaValue
  dst : List LuaValue

def valueAt (stack : List LuaValue) (index : Int) : LuaValue :=
  if 0 < index then stack.reverse.getD (index.toNat - 1) .nil
  else if index < 0 then stack.getD ((-index).toNat - 1) .nil
  else .nil

namespace Stacks

def push (s : Stacks) (v : LuaValue) : Stacks := { s with dst := v :: s.dst }

/-- `lua_settop(dst, top)`, when the stack is not lower. -/
def settop (s : Stacks) (top : Nat) : Stacks := { s with dst := s.dst.drop (s.dst.length - top) }

/-- `lua_settable(dst, -3)` -/
def settable (s : Stacks) : Stacks :=
  match s.dst with
  | value :: key :: .table entries :: rest =>
    { s with dst := .table (setEntry entries (key, value)) :: rest }
  | _ => s

end Stacks

/-- What was thrown, if anything, and the stacks then. -/
abbrev Moved := Except String Unit × Stacks

/-- The loop of `MoveTable`, from the key that `lua_next` takes off the stack. -/
def moveEntries (moveValue : Int → Stacks → Moved) : Entries → Stacks → Stacks
  | [], s => { s with src := s.src.tail }
  | (key, value) :: rest, s =>
    let s := { s with src := value :: key :: s.src.tail }
    let top := s.dst.length
    let s := match moveValue (-2) s with
      | (.error _, s) => s.settop top
      | (.ok _, s) =>
        match moveValue (-1) s with
        | (.error _, s) => s.settop top
        | (.ok _, s) => s.settable
    moveEntries moveValue rest { s with src := s.src.tail }

def moveTable (moveValue : Int → Stacks → Moved) (index : Int) (s : Stacks) : Moved :=
  match valueAt s.src index with
  | .table _ =>
    let index := if index < 0 then s.src.length + index + 1 else index
    let s := { src := .nil :: s.src, dst := .table [] :: s.dst }
    match valueAt s.src index with
    | .table entries => (.ok (), moveEntries moveValue entries s)
    | _ => (.ok (), s)
  | _ => (.error "not a lua table", s)

/-- `MoveValue`; the fuel bounds the depth of the tables. -/
def moveValue : Nat → Int → Stacks → Moved
  | fuel, index, s =>
    match valueAt s.src index with
    | .string str => (.ok (), s.push (.string str))
    | .boolean b => (.ok (), s.push (.boolean b))
    | .number x => (.ok (), s.push (.number x.moved))
    | .nil => (.ok (), s.push .nil)
    | .table _ =>
      match fuel with
      | 0 => (.error "out of fuel", s)
      | fuel + 1 => moveTable (moveValue fuel) index s
    | _ => (.error "not supported argument", s)

/-- The loop of `SetArgumentsForSpawnedProcess`. -/
def moveArguments (fuel : Nat) : List Nat → Stacks → Moved
  | [], s => (.ok (), s)
  | i :: is, s =>
    match moveValue fuel i s with
    | (.error e, s) => (.error e, s)
    | (.ok _, s) => moveArguments fuel is s

/-- `SetArgumentsForSpawnedProcess`, with the `_NArg` of the new process. -/
def setArguments (fuel : Nat) (s : Stacks) (nArg beginIndex : Nat) : Except String Nat × Stacks :=
  let j := s.src.length + 1 - beginIndex
  match moveArguments fuel (List.range' beginIndex j) s with
  | (.error e, s) => (.error e, s)
  | (.ok _, s) => (.ok (nArg + j), s)

-- ---------------------------------------------------------------------------
-- What is copied
-- ---------------------------------------------------------------------------

namespace LuaValue

theorem induction {motive : LuaValue → Prop} (nil : motive .nil)
    (boolean : ∀ b, motive (.boolean b)) (number : ∀ x, motive (.number x))
    (string : ∀ s, motive (.string s))
    (table : ∀ es : Entries, (∀ e ∈ es, motive e.1 ∧ motive e.2) → motive (.table es))
    (other : ∀ v, v.supported = false → motive v) (v : LuaValue) : motive v := by
  refine LuaValue.rec (motive_1 := motive)
    (motive_2 := fun es => ∀ e ∈ es, motive e.1 ∧ motive e.2)
    (motive_3 := fun e => motive e.1 ∧ motive e.2) nil boolean number string table
    (other _ rfl) (other _ rfl) (other _ rfl) (other _ rfl) nofun ?_ ?_ v
  · exact fun e es he hes => List.forall_mem_cons.mpr ⟨he, hes⟩
  · exact fun key value hkey hvalue => ⟨hkey, hvalue⟩

mutual

/-- The depth of the tables. -/
def depth : LuaValue → Nat
  | table es => depthAll es + 1
  | _ => 0

def depthAll : Entries → Nat
  | [] => 0
  | (key, value) :: rest => max (max key.depth value.depth) (depthAll rest)

end

mutual

/-- What `MoveValue` pushes. -/
def copy : LuaValue → LuaValue
  | number x => number x.moved
  | table es => table ((copies es).foldl setEntry [])
  | v => v

def copies : Entries → Entries
  | [] => []
  | (key, value) :: rest =>
    if key.supported && value.supported then (key.copy, value.copy) :: copies rest
    else copies rest

end

mutual

/-- The value without the entries that have an unsupported key or value. -/
def prune : LuaValue → LuaValue
  | table es => table (pruneAll es)
  | v => v

def pruneAll : Entries → Entries
  | [] => []
  | (key, value) :: rest =>
    if key.supported && value.supported then (key.prune, value.prune) :: pruneAll rest
    else pruneAll rest

end

/-- The keys of every table are different, and neither NIL nor NAN; no value of
an entry is NIL. -/
inductive WellFormed : LuaValue → Prop
  | nil : WellFormed .nil
  | boolean {b} : WellFormed (.boolean b)
  | number {x} : WellFormed (.number x)
  | string {s} : WellFormed (.string s)
  | table {es : Entries} : es.Pairwise (fun e e' => e.1.sameKey e'.1 = false) →
      (∀ e ∈ es, e.1 ≠ .nil ∧ e.1 ≠ .number .nan ∧ e.2 ≠ .nil) →
      (∀ e ∈ es, WellFormed e.1) → (∀ e ∈ es, WellFormed e.2) → WellFormed (.table es)
  | other {v} : v.supported = false → WellFormed v

end LuaValue

/-- All numbers that are left after pruning are. -/
inductive LuaValue.Whole : LuaValue → Prop
  | nil : Whole .nil
  | boolean {b} : Whole (.boolean b)
  | number {x} : x.Whole → Whole (.number x)
  | string {s} : Whole (.string s)
  | table {es : Entries} :
      (∀ e ∈ es, e.1.supported → e.2.supported → Whole e.1) →
      (∀ e ∈ es, e.1.supported → e.2.supported → Whole e.2) → Whole (.table es)
  | other {v} : v.supported = false → Whole v

-- ---------------------------------------------------------------------------
-- Moving
-- ---------------------------------------------------------------------------

variable {s : Stacks} {v : LuaValue} {index : Int} {fuel : Nat}

def moveResult (v : LuaValue) (s : Stacks) : Moved :=
  if v.supported then (.ok (), s.push v.copy) else (.error "not supported argument", s)

theorem moveResult_of_supported (h : v.supported = true) :
    moveResult v s = (.ok (), s.push v.copy) := if_pos h

theorem moveResult_of_unsupported (h : v.supported = false) :
    moveResult v s = (.error "not supported argument", s) := if_neg (by rw [h]; decide)

/-- The index that `MoveTable` computes denotes the table after a push. -/
theorem valueAt_absolute {stack : List LuaValue} {x : LuaValue} (h : valueAt stack index ≠ .nil) :
    valueAt (x :: stack) (if index < 0 then stack.length + index + 1 else index) =
      valueAt stack index := by
  rcases Int.lt_trichotomy 0 index with hpos | rfl | hneg
  · rw [if_neg (by omega)]
    unfold valueAt at h ⊢
    simp only [if_pos hpos] at h ⊢
    have hlt : index.toNat - 1 < stack.reverse.length := by
      by_contra hge
      exact h (List.getD_eq_default _ _ (Nat.le_of_not_lt hge))
    rw [List.reverse_cons, List.getD_append _ _ _ _ hlt]
  · exact absurd rfl h
  · rw [if_pos hneg]
    unfold valueAt at h ⊢
    simp only [if_neg (show ¬0 < index by omega), if_pos hneg] at h ⊢
    have hlt : (-index).toNat - 1 < stack.length := by
      by_contra hge
      exact h (List.getD_eq_default _ _ (Nat.le_of_not_lt hge))
    have hlt' : (stack.length + index + 1).toNat - 1 < stack.reverse.length := by
      rw [List.length_reverse]
      omega
    rw [if_pos (by omega), List.reverse_cons, List.getD_append _ _ _ _ hlt',
      List.getD_eq_getElem _ _ hlt, List.getD_eq_getElem _ _ hlt', List.getElem_reverse]
    rw [List.length_reverse] at hlt'
    congr 1
    omega

theorem moveEntries_spec {move : Int → Stacks → Moved} {es acc : Entries} {key : LuaValue}
    {src dst : List LuaValue}
    (hmove : ∀ e ∈ es, ∀ index s, (valueAt s.src index = e.1 → move index s = moveResult e.1 s) ∧
      (valueAt s.src index = e.2 → move index s = moveResult e.2 s)) :
    moveEntries move es ⟨key :: src, .table acc :: dst⟩ =
      ⟨src, .table ((LuaValue.copies es).foldl setEntry acc) :: dst⟩ := by
  induction es generalizing acc key with
  | nil => rfl
  | cons e es ih =>
    obtain ⟨hhead, htail⟩ := List.forall_mem_cons.mp hmove
    obtain ⟨k, value⟩ := e
    have hkey : ∀ dst, move (-2) ⟨value :: k :: src, dst⟩ = moveResult k ⟨value :: k :: src, dst⟩ :=
      fun dst => (hhead _ _).1 rfl
    have hvalue : ∀ dst, move (-1) ⟨value :: k :: src, dst⟩ =
        moveResult value ⟨value :: k :: src, dst⟩ := fun dst => (hhead _ _).2 rfl
    simp only [moveEntries, List.tail_cons, hkey]
    cases hk : k.supported with
    | true =>
      simp only [moveResult_of_supported hk, Stacks.push, hvalue]
      cases hv : value.supported with
      | true =>
        simp only [moveResult_of_supported hv, Stacks.push, Stacks.settable, List.tail_cons]
        rw [ih htail]
        simp [LuaValue.copies, hk, hv]
      | false =>
        have hsettop : (k.copy :: .table acc :: dst).drop
            ((k.copy :: .table acc :: dst).length - (.table acc :: dst : List LuaValue).length) =
              .table acc :: dst := by simp
        simp only [moveResult_of_unsupported hv, Stacks.settop, hsettop, List.tail_cons]
        rw [ih htail]
        simp [LuaValue.copies, hk, hv]
    | false =>
      simp only [moveResult_of_unsupported hk, Stacks.settop, Nat.sub_self, List.drop_zero,
        List.tail_cons]
      rw [ih htail]
      simp [LuaValue.copies, hk]

theorem LuaValue.depth_le_depthAll {es : Entries} :
    ∀ e ∈ es, e.1.depth ≤ depthAll es ∧ e.2.depth ≤ depthAll es := by
  induction es with
  | nil => exact nofun
  | cons e es ih =>
    refine List.forall_mem_cons.mpr ⟨?_, fun e' he' => ?_⟩
    · rw [depthAll]
      omega
    · have := ih e' he'
      rw [depthAll]
      omega

/-- `MoveValue` on stacks of any height, for a value at any index. -/
theorem moveValue_spec (h : valueAt s.src index = v) (hf : v.depth ≤ fuel) :
    moveValue fuel index s = moveResult v s := by
  induction fuel generalizing v index s with
  | zero =>
    cases v with
    | table es => rw [LuaValue.depth] at hf; omega
    | _ => simp [moveValue, h, moveResult, LuaValue.supported, LuaValue.copy]
  | succ fuel ih =>
    cases v with
    | table es =>
      rw [LuaValue.depth] at hf
      have habs := valueAt_absolute (x := .nil) (h ▸ nofun : valueAt s.src index ≠ .nil)
      rw [h] at habs
      simp only [moveValue, h, moveTable, habs]
      rw [moveEntries_spec fun e he index s => ?_, moveResult_of_supported rfl, LuaValue.copy]
      · rfl
      · have := LuaValue.depth_le_depthAll e he
        exact ⟨fun h => ih h (by omega), fun h => ih h (by omega)⟩
    | _ => simp [moveValue, h, moveResult, LuaValue.supported, LuaValue.copy]

/-- All arguments are moved, or the first that is unsupported is thrown for. -/
theorem moveArguments_spec {is : List Nat} (hf : ∀ i ∈ is, (valueAt s.src i).depth ≤ fuel)
    (hv : ∀ i ∈ is, (valueAt s.src i).supported) :
    moveArguments fuel is s =
      (.ok (), { s with dst := (is.map fun i : Nat => (valueAt s.src i).copy).reverse ++ s.dst }) := by
  induction is generalizing s with
  | nil => rfl
  | cons i is ih =>
    obtain ⟨hfi, hf⟩ := List.forall_mem_cons.mp hf
    obtain ⟨hvi, hv⟩ := List.forall_mem_cons.mp hv
    have hpush := ih (s := s.push (valueAt s.src i).copy) hf hv
    simp only [moveArguments, moveValue_spec rfl hfi, moveResult_of_supported hvi, hpush]
    simp [Stacks.push]

theorem moveArguments_error {is : List Nat} (hf : ∀ i ∈ is, (valueAt s.src i).depth ≤ fuel)
    (hv : ∃ i ∈ is, (valueAt s.src i).supported = false) :
    ∃ s', moveArguments fuel is s = (.error "not supported argument", s') := by
  induction is generalizing s with
  | nil =>
    obtain ⟨i, hi, -⟩ := hv
    cases hi
  | cons i is ih =>
    obtain ⟨hfi, hf⟩ := List.forall_mem_cons.mp hf
    cases hvi : (valueAt s.src i).supported with
    | true =>
      obtain ⟨i', hi', hv'⟩ := hv
      have hrest : ∃ i ∈ is, (valueAt s.src i).supported = false := by
        refine ⟨i', (List.mem_cons.mp hi').resolve_left ?_, hv'⟩
        rintro rfl
        rw [hvi] at hv'
        cases hv'
      obtain ⟨s', hs'⟩ := ih (s := s.push (valueAt s.src i).copy) hf hrest
      exact ⟨s', by simp only [moveArguments, moveValue_spec rfl hfi, moveResult_of_supported hvi, hs']⟩
    | false =>
      exact ⟨s, by simp only [moveArguments, moveValue_spec rfl hfi, moveResult_of_unsupported hvi]⟩

theorem map_valueAt (args : List LuaValue) (k : Nat) :
    (List.range' (k + 1) (args.length - k)).map (fun i : Nat => valueAt args.reverse i) =
      args.drop k := by
  refine List.ext_getElem (by simp) fun i hi hi' => ?_
  have hpos : (0 : Int) < (k + 1 + 1 * i : Nat) := by omega
  have hlt : k + i < args.length := by
    rw [List.length_drop] at hi'
    omega
  simp only [List.getElem_map, List.getElem_range', valueAt, if_pos hpos, Int.toNat_natCast,
    List.reverse_reverse, show k + 1 + 1 * i - 1 = k + i by omega]
  rw [List.getD_eq_getElem _ _ hlt, List.getElem_drop]

theorem forall_valueAt {args : List LuaValue} {k : Nat} {p : LuaValue → Prop} :
    (∀ i ∈ List.range' (k + 1) (args.length - k), p (valueAt args.reverse i)) ↔
      ∀ v ∈ args.drop k, p v := by
  rw [← map_valueAt]
  simp only [List.forall_mem_map]

theorem setArguments_ok {args dst : List LuaValue} {k : Nat} (nArg : Nat)
    (hf : ∀ v ∈ args.drop k, v.depth ≤ fuel) (hv : ∀ v ∈ args.drop k, v.supported) :
    setArguments fuel ⟨args.reverse, dst⟩ nArg (k + 1) =
      (.ok (nArg + (args.drop k).length),
        ⟨args.reverse, ((args.drop k).map LuaValue.copy).reverse ++ dst⟩) := by
  have hcount : args.reverse.length + 1 - (k + 1) = args.length - k := by
    rw [List.length_reverse]
    omega
  have hcopy := congrArg (List.map LuaValue.copy) (map_valueAt args k)
  rw [List.map_map, Function.comp_def] at hcopy
  unfold setArguments
  dsimp only
  rw [hcount, moveArguments_spec (forall_valueAt.mpr hf) (forall_valueAt.mpr hv), List.length_drop]
  simp only [hcopy]

theorem setArguments_error {args dst : List LuaValue} {k : Nat} (nArg : Nat)
    (hf : ∀ v ∈ args.drop k, v.depth ≤ fuel) (hv : ¬∀ v ∈ args.drop k, v.supported) :
    (setArguments fuel ⟨args.reverse, dst⟩ nArg (k + 1)).1 = .error "not supported argument" := by
  have hcount : args.reverse.length + 1 - (k + 1) = args.length - k := by
    rw [List.length_reverse]
    omega
  rw [← forall_valueAt] at hv
  push Not at hv
  obtain ⟨s', hs'⟩ := moveArguments_error (s := ⟨args.reverse, dst⟩) (forall_valueAt.mpr hf)
    (by simpa only [Bool.not_eq_true] using hv)
  unfold setArguments
  dsimp only
  rw [hcount, hs']

-- ---------------------------------------------------------------------------
-- What is faithful
-- ---------------------------------------------------------------------------

section

variable {es acc xs : Entries} {e : LuaValue × LuaValue}

theorem setEntry_length_le (acc : Entries) (e : LuaValue × LuaValue) :
    (setEntry acc e).length ≤ acc.length + 1 := by
  unfold setEntry
  split <;> simp

theorem setEntry_eq_append (h : (setEntry acc e).length = acc.length + 1) :
    setEntry acc e = acc ++ [e] := by
  unfold setEntry at h ⊢
  split at h
  · simp at h
  · next hno => rw [if_neg hno]

theorem setEntry_fresh (h : ∀ e' ∈ acc, e'.1.sameKey e.1 = false) :
    setEntry acc e = acc ++ [e] := by
  refine if_neg ?_
  rw [List.any_eq_true]
  rintro ⟨e', he', hsame⟩
  rw [h e' he'] at hsame
  cases hsame

theorem foldl_setEntry_length_le (acc xs : Entries) :
    (xs.foldl setEntry acc).length ≤ acc.length + xs.length := by
  induction xs generalizing acc with
  | nil => exact le_rfl
  | cons e xs ih =>
    have := setEntry_length_le acc e
    have := ih (setEntry acc e)
    simp only [List.foldl_cons, List.length_cons]
    omega

theorem foldl_setEntry_full (h : (xs.foldl setEntry acc).length = acc.length + xs.length) :
    xs.foldl setEntry acc = acc ++ xs := by
  induction xs generalizing acc with
  | nil => simp
  | cons e xs ih =>
    simp only [List.foldl_cons, List.length_cons] at h ⊢
    have hle := setEntry_length_le acc e
    have hrest := foldl_setEntry_length_le (setEntry acc e) xs
    have happend := setEntry_eq_append (show (setEntry acc e).length = acc.length + 1 by omega)
    rw [ih (by rw [h]; omega), happend, List.append_assoc, List.singleton_append]

theorem foldl_setEntry_fresh
    (h : (acc ++ xs).Pairwise fun e e' => e.1.sameKey e'.1 = false) :
    xs.foldl setEntry acc = acc ++ xs := by
  induction xs generalizing acc with
  | nil => simp
  | cons e xs ih =>
    have hfresh : setEntry acc e = acc ++ [e] :=
      setEntry_fresh fun e' he' => (List.pairwise_append.mp h).2.2 e' he' e List.mem_cons_self
    rw [List.foldl_cons, hfresh, ih (by simpa using h), List.append_assoc, List.singleton_append]

end

namespace LuaValue

variable {es : Entries}

theorem copies_eq (es : Entries) :
    copies es = (es.filter fun e => e.1.supported && e.2.supported).map
      fun e => (e.1.copy, e.2.copy) := by
  induction es with
  | nil => rfl
  | cons e es ih =>
    obtain ⟨key, value⟩ := e
    rw [copies, List.filter_cons, ih]
    split <;> rfl

theorem pruneAll_eq (es : Entries) :
    pruneAll es = (es.filter fun e => e.1.supported && e.2.supported).map
      fun e => (e.1.prune, e.2.prune) := by
  induction es with
  | nil => rfl
  | cons e es ih =>
    obtain ⟨key, value⟩ := e
    rw [pruneAll, List.filter_cons, ih]
    split <;> rfl

theorem sameKey_prune (k k' : LuaValue) : k.prune.sameKey k'.prune = k.sameKey k' := by
  cases k <;> cases k' <;> rfl

theorem copies_eq_pruneAll_iff :
    copies es = pruneAll es ↔
      ∀ e ∈ es, e.1.supported → e.2.supported → e.1.copy = e.1.prune ∧ e.2.copy = e.2.prune := by
  rw [copies_eq, pruneAll_eq, List.map_inj_left]
  simp only [List.mem_filter, Bool.and_eq_true, Prod.mk.injEq, and_imp]

/-- A value arrives as it was, without the unsupported entries, if and only if
its numbers are `lua_Integer`s. -/
theorem copy_eq_prune_iff (hv : v.WellFormed) : v.copy = v.prune ↔ v.Whole := by
  induction v using LuaValue.induction with
  | nil => exact iff_of_true rfl .nil
  | boolean b => exact iff_of_true rfl .boolean
  | string str => exact iff_of_true rfl .string
  | other v hno => exact iff_of_true (by cases v <;> first | rfl | cases hno) (.other hno)
  | number x =>
    simp only [copy, prune, number.injEq, LuaNumber.moved_eq_iff]
    constructor
    · exact .number
    · intro hwhole
      cases hwhole with
      | number h => exact h
      | other hno => cases hno
  | table es ih =>
    cases hv with
    | other hno => cases hno
    | table hdistinct hkeys hwell₁ hwell₂ =>
    simp only [copy, prune, table.injEq]
    constructor
    · intro h
      have hlen : ((copies es).foldl setEntry []).length = ([] : Entries).length + (copies es).length := by
        rw [h, copies_eq, pruneAll_eq]
        simp
      rw [foldl_setEntry_full hlen, List.nil_append, copies_eq_pruneAll_iff] at h
      exact .table (fun e he h₁ h₂ => ((ih e he).1 (hwell₁ e he)).mp (h e he h₁ h₂).1)
        fun e he h₁ h₂ => ((ih e he).2 (hwell₂ e he)).mp (h e he h₁ h₂).2
    · intro hwhole
      cases hwhole with
      | other hno => cases hno
      | table hwhole₁ hwhole₂ =>
      have hcopies : copies es = pruneAll es := copies_eq_pruneAll_iff.mpr fun e he h₁ h₂ =>
        ⟨((ih e he).1 (hwell₁ e he)).mpr (hwhole₁ e he h₁ h₂),
          ((ih e he).2 (hwell₂ e he)).mpr (hwhole₂ e he h₁ h₂)⟩
      have hfresh : (pruneAll es).Pairwise fun e e' => e.1.sameKey e'.1 = false := by
        rw [pruneAll_eq, List.pairwise_map]
        refine (hdistinct.filter _).imp fun h => ?_
        rw [sameKey_prune]
        exact h
      rw [hcopies, foldl_setEntry_fresh (by rw [List.nil_append]; exact hfresh), List.nil_append]

end LuaValue

-- ---------------------------------------------------------------------------
-- The arguments
-- ---------------------------------------------------------------------------

/-- `SetArgumentsForSpawnedProcess` adds the values as they are on the caller's
stack, without the unsupported entries of tables, and counts them, if and only
if the numbers that are left are `lua_Integer`s. -/
theorem setArguments_faithful_iff (args below dst : List LuaValue) (nArg : Nat)
    (hv : ∀ v ∈ args, v.WellFormed ∧ v.supported) (hf : ∀ v ∈ args, v.depth ≤ fuel) :
    setArguments fuel ⟨args.reverse ++ below, dst⟩ nArg (below.length + 1) =
        (.ok (nArg + args.length),
          ⟨args.reverse ++ below, (args.map LuaValue.prune).reverse ++ dst⟩) ↔
      ∀ v ∈ args, v.Whole := by
  have hstack : args.reverse ++ below = (below.reverse ++ args).reverse := by simp
  have hdrop : (below.reverse ++ args).drop below.length = args :=
    List.drop_left' below.length_reverse
  rw [hstack, setArguments_ok nArg (by rwa [hdrop]) (by rw [hdrop]; exact fun v h => (hv v h).2), hdrop]
  simp only [Prod.mk.injEq, Stacks.mk.injEq, true_and, List.append_cancel_right_eq,
    List.reverse_inj, List.map_inj_left]
  exact forall₂_congr fun v hmem => LuaValue.copy_eq_prune_iff (hv v hmem).1

/-- A table with a function at one key, and a negative number. -/
def sampleArguments : List LuaValue :=
  [.table [(.boolean true, .function), (.string [], .boolean false)], .number (.finite (-3))]

theorem setArguments_sample :
    setArguments 1 ⟨sampleArguments.reverse ++ [.nil], []⟩ 0 2 =
      (.ok 2, ⟨sampleArguments.reverse ++ [.nil], [.number (.finite (-3)),
        .table [(.string [], .boolean false)]]⟩) := by
  refine (setArguments_faithful_iff sampleArguments [.nil] [] 0 ?_ ?_).mpr ?_
  · refine List.forall_mem_cons.mpr ⟨⟨.table ?_ ?_ ?_ ?_, rfl⟩, List.forall_mem_cons.mpr
      ⟨⟨.number, rfl⟩, nofun⟩⟩
    · exact .cons (by simp [LuaValue.sameKey]) (.cons nofun .nil)
    · simp
    · simpa using ⟨.boolean, .string⟩
    · simpa using ⟨.other rfl, .boolean⟩
  · simp [sampleArguments, LuaValue.depth, LuaValue.depthAll]
  · refine List.forall_mem_cons.mpr ⟨.table ?_ ?_, List.forall_mem_cons.mpr ⟨.number
      ⟨-3, by decide, by decide, rfl⟩, nofun⟩⟩
    · simpa [LuaValue.supported] using .string
    · simpa [LuaValue.supported] using .boolean

/-- `1.5` arrives as `1`. -/
theorem fraction_truncated :
    ¬∀ (fuel : Nat) (args below dst : List LuaValue) (nArg : Nat),
      (∀ v ∈ args, v.WellFormed ∧ v.supported) → (∀ v ∈ args, v.depth ≤ fuel) →
        setArguments fuel ⟨args.reverse ++ below, dst⟩ nArg (below.length + 1) =
          (.ok (nArg + args.length),
            ⟨args.reverse ++ below, (args.map LuaValue.prune).reverse ++ dst⟩) := by
  intro h
  have hcopy := h 0 [.number (.finite (3 / 2))] [] [] 0 (by simpa using ⟨.number, rfl⟩)
    (by simp [LuaValue.depth])
  have hok := @setArguments_ok 0 [.number (.finite (3 / 2))] [] 0 0 (by simp [LuaValue.depth])
    (by simp [LuaValue.supported])
  replace hcopy := hok.symm.trans hcopy
  simp only [Prod.mk.injEq, Stacks.mk.injEq, List.drop_zero, List.map_cons, List.map_nil,
    List.reverse_singleton, List.append_nil, List.cons.injEq, LuaValue.copy, LuaValue.prune, LuaValue.number.injEq] at hcopy
  exact absurd hcopy.2.2.1 (by decide +kernel)

end GalaLua.GLR
