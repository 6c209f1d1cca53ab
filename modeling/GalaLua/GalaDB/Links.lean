import GalaLua.GalaDB.Element

/-!
# Links and removal

A link leaves two records: `s:` under the node it is in and `r:` under its target.
`_remove` deletes a node with all below it and the links to it, and a link by its
two records. LMDB is a sorted multimap here: it takes every key and record.
-/

namespace GalaLua.GalaDB

open Library.Lua

-- ---------------------------------------------------------------------------
-- Calls that raise an error half way
-- ---------------------------------------------------------------------------

/-- The store after a call and the error it raised. -/
abbrev Out := Store × Option String

def Out.andThen (out : Out) (f : Store → Out) : Out :=
  match out.2 with
  | none => f out.1
  | some _ => out

def runAll {α : Type} (f : α → Store → Out) : List α → Store → Out
  | [], db => (db, none)
  | a :: as, db => (f a db).andThen (runAll f as)

theorem runAll_invariant {α : Type} {f : α → Store → Out} {P : Store → Prop} (hstep : ∀ a db, P db → P (f a db).1)
    (as : List α) {db : Store} (h : P db) : P (runAll f as db).1 := by
  induction as generalizing db with
  | nil => exact h
  | cons a as ih =>
    rw [runAll, Out.andThen]
    split
    · exact ih (hstep a db h)
    · exact hstep a db h

/-- A call that raises its errors before it writes. -/
def outOf (db : Store) : Res Store → Out
  | .ok db' => (db', none)
  | .error err => (db, some err)

-- ---------------------------------------------------------------------------
-- Removal
-- ---------------------------------------------------------------------------

def getParent (db : Store) (e : Elem) : Res Elem :=
  if e.isRoot then .error "This is Root "
  else
    match e.realKey with
    | some realKey =>
      if db.dups (xpathSplit realKey).1 ≠ [] then .ok (.node (xpathSplit realKey).1)
      else .ok ⟨(xpathSplit e.key).1, some (xpathSplit realKey).1, .ref, false⟩
    | none => .ok (.node (xpathSplit e.key).1)

def removeParentRefer (e : Elem) (db : Store) : Out :=
  match getParent db e with
  | .error err => (db, some err)
  | .ok parent =>
    match parent.eType with
    | .regular =>
      (db.del parent.key
        (match e.eType with
        | .ref => linkRecord (xpathSplit e.path).2 e.key
        | .regular => childRecord (xpathSplit e.key).2), none)
    | .ref => (db, some "symbolink readonly")

/-- `_remove`, with a stack of `depth` calls. -/
def remove : Nat → Elem → Store → Out
  | 0, _, db => (db, some "stack overflow")
  | depth + 1, e, db =>
    Out.andThen
      (match e.eType with
      | .regular =>
        match getChild db e with
        | .error err => (db, some err)
        | .ok children =>
          (runAll (fun c => remove depth c.2) children db).andThen fun db =>
            (runAll (remove depth) (getRefers db e) db).andThen fun db => (db.delAll e.key, none)
      | .ref => (db.del e.key (refRecord e.path), none))
      fun db => if e.isRoot then (db, none) else removeParentRefer e db

-- ---------------------------------------------------------------------------
-- The operations
-- ---------------------------------------------------------------------------

def anySize (_ : Str) : Bool := true

def addPair (key k v : Str) (db : Store) : Res Store :=
  (addNode anySize key k db).bind (addValue anySize (join key k) v)

def addVectorNode (key k : Str) (itag : Option Str) (db : Store) : Res Store :=
  (addNode anySize key k db).bind fun db =>
    (addAttrib anySize (join key k) vectorIndexKey ['1'] db).bind fun db =>
      match itag with
      | some tag => addAttrib anySize (join key k) vectorItemTag tag db
      | none => .ok db

/-- `_add_ref`, and `add_ref` with a name. -/
def addRef (key k target : Str) (db : Store) : Res Store :=
  (rawPut anySize target (refRecord (join key k)) db).bind (rawPut anySize key (linkRecord k target))

def removeOneValue (e : Elem) (v : Str) (db : Store) : Out :=
  match e.eType with
  | .regular => (db.del e.key (valueRecord v), none)
  | .ref => (db, some "Cannot Remove Value from ref element")

/-- `remove_value`: without a value it removes all of them. -/
def removeValue (e : Elem) (v : Option Str) (db : Store) : Out :=
  match v with
  | some v => removeOneValue e v db
  | none => runAll (removeOneValue e) (getValue db e.key) db

inductive Op where
  | addNode (e : Elem) (k : Str)
  | addPair (e : Elem) (k v : Str)
  | addVectorNode (e : Elem) (k : Str) (itag : Option Str)
  | addVectorItem (e : Elem)
  | addRef (e : Elem) (k : Str) (link : Elem)
  | addAttrib (e : Elem) (k v : Str)
  | addValue (e : Elem) (v : Str)
  | removeAttrib (e : Elem) (k : Str)
  | removeValue (e : Elem) (v : Option Str)
  | remove (e : Elem)

/-- The operation with room for `depth` nested calls. -/
def Op.run (depth : Nat) (db : Store) : Op → Out
  | .addNode e k => outOf db (GalaDB.addNode anySize e.key k db)
  | .addPair e k v => outOf db (GalaDB.addPair e.key k v db)
  | .addVectorNode e k itag => outOf db (GalaDB.addVectorNode e.key k itag db)
  | .addVectorItem e => outOf db ((GalaDB.addVectorItem anySize e.key db).map Prod.snd)
  | .addRef e k link => outOf db (GalaDB.addRef e.key k link.key db)
  | .addAttrib e k v => outOf db (GalaDB.addAttrib anySize e.key k v db)
  | .addValue e v => outOf db (GalaDB.addValue anySize e.key v db)
  | .removeAttrib e k => (GalaDB.removeAttrib e.key k db, none)
  | .removeValue e v => GalaDB.removeValue e v db
  | .remove e => GalaDB.remove depth e db

end GalaLua.GalaDB
