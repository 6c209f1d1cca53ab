import GalaLua.Library.LuaString
import GalaLua.Library.MultiMap
import Mathlib.Data.Char
import Mathlib.Data.List.DropRight
import Mathlib.Data.List.Lex

/-!
# GalaDB: the store and its elements

`mdb.lua` keeps trees of nodes in an LMDB database with sorted duplicates. A key
is the path of a node, and its values are the records of the node:

    a:key`value  an attribute          c:name         a child
    v:value      a value               s:name`target  a link to another node
    r:link       a link to this node

A Lua string is a list of characters, one for a byte. An element is a handle on
a node: an element that was found through a link has the key of the target and,
as its real key, the path it was found by. What a key or a record may be in LMDB
is the parameter `fits`. The caches `_is_vector` and `_is_leaf` of an element are
not modelled: both are looked up.
-/

namespace GalaLua.GalaDB

open Library (MultiMap)
open Library.Lua

-- ---------------------------------------------------------------------------
-- Strings
-- ---------------------------------------------------------------------------

def backquote : Char := '\x60'

/-- `%s%s%s` of a path, the separator and a name. -/
def join (path name : Str) : Str := fmt path ++ '/' :: fmt name

/-- The path in front of the last slash and the name behind it. -/
def xpathSplit (path : Str) : Str × Str :=
  ((path.rdropWhile (· ≠ '/')).dropLast, path.rtakeWhile (· ≠ '/'))

/-- `tonumber` of the serial of a vector, which `tostring` wrote. -/
def tonumber (s : Str) : Option Nat :=
  if s ≠ [] ∧ s.all Char.isDigit then some (Nat.ofDigitChars 10 s 0) else none

-- ---------------------------------------------------------------------------
-- The store
-- ---------------------------------------------------------------------------

abbrev Store := MultiMap Str Str

inductive EType where
  | regular
  | ref
deriving DecidableEq

structure Elem where
  key : Str
  realKey : Option Str
  eType : EType
  isRoot : Bool
deriving DecidableEq

def Elem.node (key : Str) : Elem := ⟨key, none, .regular, false⟩

/-- `real_key or key`. -/
def Elem.path (e : Elem) : Str := e.realKey.getD e.key

def vectorIndexKey : Str := "__VectorIndexGenerator".toList

def vectorItemTag : Str := "__VectorItemTag".toList

def attribRecord (k v : Str) : Str := 'a' :: ':' :: (fmt k ++ backquote :: fmt v)

def childRecord (name : Str) : Str := 'c' :: ':' :: fmt name

def valueRecord (v : Str) : Str := 'v' :: ':' :: fmt v

def linkRecord (name target : Str) : Str := 's' :: ':' :: (fmt name ++ backquote :: fmt target)

def refRecord (link : Str) : Str := 'r' :: ':' :: fmt link

/-- The key and the value of an attribute record. -/
def attribOf : Str → Option (Str × Str)
  | 'a' :: ':' :: ct => some (ct.takeWhile (· ≠ backquote), (ct.dropWhile (· ≠ backquote)).drop 1)
  | _ => none

section Reading

variable (db : Store)

def getAttrib (key : Str) : List (Str × Str) := setKeys [] ((db.dups key).filterMap attribOf)

def getValue (key : Str) : List Str :=
  (db.dups key).filterMap fun v =>
    match v with
    | 'v' :: ':' :: value => some value
    | _ => none

def getRefers (e : Elem) : List Elem :=
  (db.dups e.key).filterMap fun v =>
    match v with
    | 'r' :: ':' :: ct => some ⟨e.key, some ct, .ref, false⟩
    | _ => none

/-- The name and the element of a child record or a link record. -/
def childOf (e : Elem) : Str → Res (Option (Str × Elem))
  | 'c' :: ':' :: name =>
    .ok (some (name,
      match e.eType with
      | .ref => ⟨join e.key name, some (join e.path name), .ref, false⟩
      | .regular => ⟨join e.key name, none, .regular, false⟩))
  | 's' :: ':' :: link =>
    match split backquote link with
    | name :: key :: _ => .ok (some (name, ⟨key, some (join e.path name), .ref, false⟩))
    | _ => .error "a link without a target"
  | _ => .ok none

/-- The children in the order of their records; a name that comes again keeps its
place, with the later element. -/
def getChild (e : Elem) : Res (List (Str × Elem)) :=
  if db.dups e.key ≠ [] ∧ 1000 ≤ e.key.length then .error "Key is too long,there may be something wrong"
  else
    (db.dups e.key).foldlM (fun dict v =>
      (childOf e v).map fun child =>
        match child with
        | some (name, c) => setKey dict name c
        | none => dict) []

def isVector (key : Str) : Bool := ((getAttrib db key).lookup vectorIndexKey).isSome

end Reading

section Writing

variable (fits : Str → Bool)

/-- `_raw_put`, which does not mind a record that is there. -/
def rawPut (key v : Str) (db : Store) : Res Store :=
  if fits key && fits v then .ok (db.put key v)
  else .error "MDB_BAD_VALSIZE: Too big key/data, key is empty, or wrong DUPFIXED size"

def addAttrib (key k v : Str) (db : Store) : Res Store := rawPut fits key (attribRecord k v) db

def removeAttrib (key k : Str) (db : Store) : Store :=
  match (getAttrib db key).lookup k with
  | some v => db.del key (attribRecord k v)
  | none => db

def setAttrib (key k v : Str) (db : Store) : Res Store :=
  addAttrib fits key k v (removeAttrib key k db)

def addValue (key v : Str) (db : Store) : Res Store := rawPut fits key (valueRecord v) db

/-- The key of the new node is `join key k`. -/
def addNode (key k : Str) (db : Store) : Res Store := rawPut fits key (childRecord k) db

/-- The new item and the store. -/
def addVectorItem (key : Str) (db : Store) : Res (Str × Store) :=
  match (getAttrib db key).lookup vectorIndexKey with
  | none => .error "Element is not Vector Node"
  | some serial =>
    match tonumber serial with
    | none => .error "attempt to perform arithmetic on a nil value"
    | some n =>
      (setAttrib fits key vectorIndexKey (tostring (n + 1)) db).bind fun db =>
        (addNode fits key serial db).bind fun db => .ok (join key serial, db)

end Writing

end GalaLua.GalaDB
