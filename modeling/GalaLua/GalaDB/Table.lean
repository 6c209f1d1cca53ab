import GalaLua.GalaDB.Element

/-!
# Tables in the store

`add_table` writes a nested Lua table under a node and `to_table` reads one back.
The items of an array become children named by their positions, and children
come back in the byte order of their names: `"1"`, `"10"`, `"2"`.
-/

namespace GalaLua.GalaDB

open Library.Lua

-- ---------------------------------------------------------------------------
-- Lua tables
-- ---------------------------------------------------------------------------

/-- A string, an array without holes, or a dictionary, with its entries in the
order in which `pairs` gives them. -/
inductive Table where
  | leaf (s : Str)
  | array (items : List Table)
  | dict (entries : List (Str × Table))

namespace Table

theorem induct {P : Table → Prop} (leaf : ∀ s, P (.leaf s))
    (array : ∀ items, (∀ t ∈ items, P t) → P (.array items))
    (dict : ∀ entries, (∀ e ∈ entries, P e.2) → P (.dict entries)) (t : Table) : P t := by
  refine Table.rec (motive_1 := P) (motive_2 := fun ts => ∀ t ∈ ts, P t)
    (motive_3 := fun es => ∀ e ∈ es, P e.2) (motive_4 := fun e => P e.2) leaf array dict ?_ ?_ ?_ ?_ ?_ t
  · exact fun t ht => absurd ht List.not_mem_nil
  · exact fun t ts ht hts => List.forall_mem_cons.mpr ⟨ht, hts⟩
  · exact fun e he => absurd he List.not_mem_nil
  · exact fun e es he hes => List.forall_mem_cons.mpr ⟨he, hes⟩
  · exact fun k t ht => ht

/-- The items of an array with the names their nodes get. -/
def enumerate {α : Type} (n : Nat) : List α → List (Str × α)
  | [] => []
  | x :: xs => (tostring (n + 1), x) :: enumerate (n + 1) xs

def sortByName {α : Type} (es : List (Str × α)) : List (Str × α) :=
  es.insertionSort fun a b => a.1 ≤ b.1

mutual

/-- The table as a Lua table is compared: a dictionary has no order, and the empty
array is the empty dictionary. -/
def normal : Table → Table
  | .leaf s => .leaf s
  | .array [] => .dict []
  | .array items => .array (normalItems items)
  | .dict entries => .dict (sortByName (normalEntries entries))

def normalItems : List Table → List Table
  | [] => []
  | t :: ts => t.normal :: normalItems ts

def normalEntries : List (Str × Table) → List (Str × Table)
  | [] => []
  | (k, t) :: es => (k, t.normal) :: normalEntries es

end

mutual

/-- The table with every array, at every depth, in the byte order of the positions. -/
def arranged : Table → Table
  | .leaf s => .leaf s
  | .array [] => .dict []
  | .array items => .array ((sortByName (enumerate 0 (arrangedItems items))).map Prod.snd)
  | .dict entries => .dict (sortByName (arrangedEntries entries))

def arrangedItems : List Table → List Table
  | [] => []
  | t :: ts => t.arranged :: arrangedItems ts

def arrangedEntries : List (Str × Table) → List (Str × Table)
  | [] => []
  | (k, t) :: es => (k, t.arranged) :: arrangedEntries es

end

end Table

-- ---------------------------------------------------------------------------
-- `add_table`
-- ---------------------------------------------------------------------------

def attrKey : Str := ['@', 'a', 't', 't', 'r']

section Writing

variable (fits : Str → Bool)

mutual

def addAttribTable (key : Str) : Table → Store → Res Store
  | .leaf _, _ => .error "bad argument #1 to 'pairs' (table expected, got string)"
  | .array items, db => addAttribItems key 0 items db
  | .dict entries, db => addAttribEntries key entries db

def addAttribItems (key : Str) (n : Nat) : List Table → Store → Res Store
  | [], db => .ok db
  | .leaf s :: ts, db => (addAttrib fits key (tostring (n + 1)) s db).bind (addAttribItems key (n + 1) ts)
  | t :: ts, db => (addAttribTable key t db).bind (addAttribItems key (n + 1) ts)

def addAttribEntries (key : Str) : List (Str × Table) → Store → Res Store
  | [], db => .ok db
  | (k, .leaf s) :: es, db => (addAttrib fits key k s db).bind (addAttribEntries key es)
  | (_, t) :: es, db => (addAttribTable key t db).bind (addAttribEntries key es)

end

mutual

/-- `item:add_value` for a string, `item:add_table` for a table. -/
def addTable (key : Str) : Table → Store → Res Store
  | .leaf s, db => addValue fits key s db
  | .array [], db => .ok db
  | .array (t :: ts), db =>
    (setAttrib fits key vectorIndexKey ['1'] db).bind fun db =>
      (setAttrib fits key vectorItemTag ['i', 't', 'e', 'm'] db).bind fun db =>
        if isVector db key then addItems key (t :: ts) db
        else .error "Cannot Add List to NON-Vector Node"
  | .dict entries, db => addEntries key entries db

def addItems (key : Str) : List Table → Store → Res Store
  | [], db => .ok db
  | t :: ts, db =>
    (addVectorItem fits key db).bind fun (item, db) => (addTable item t db).bind (addItems key ts)

def addEntries (key : Str) : List (Str × Table) → Store → Res Store
  | [], db => .ok db
  | (k, t) :: es, db =>
    if k = attrKey then (addAttribTable fits key t db).bind (addEntries key es)
    else if isVector db key then .error "Cannot Add K-V to Vector Node"
    else
      (addNode fits key k db).bind fun db => (addTable (join key k) t db).bind (addEntries key es)

end

end Writing

-- ---------------------------------------------------------------------------
-- `to_table`
-- ---------------------------------------------------------------------------

/-- What is read below `depth` nodes. -/
def toTable (db : Store) (attrFlag : Bool) : Nat → Elem → Res Table
  | 0, _ => .error "stack overflow"
  | depth + 1, e =>
    if isVector db e.key then
      (getChild db e).bind fun children =>
        (children.mapM fun c => toTable db attrFlag depth c.2).map .array
    else
      match getValue db e.key with
      | [v] => .ok (.leaf v)
      | v :: vs => .ok (.array ((v :: vs).map .leaf))
      | [] =>
        (getChild db e).bind fun children =>
          (children.mapM fun c => (toTable db attrFlag depth c.2).map fun t => (c.1, t)).map fun result =>
            if attrFlag ∧ getAttrib db e.key ≠ [] then
              .dict (setKey result attrKey (.dict ((getAttrib db e.key).map fun a => (a.1, .leaf a.2))))
            else .dict result

end GalaLua.GalaDB
