import GalaLua.GalaDB.Attributes
import GalaLua.GalaDB.RoundTrip
import GalaLua.GalaDB.XPath
import GalaLua.Library.Transition

/-!
# Vectors

A vector node keeps the number of its next item in an attribute, apart from the items.
`pop_vector_item` lowers that number and removes the item that has it then; when this
item was removed before, the path to it leads nowhere, and the call raises an error.
So it does where `get_child` meets a key that it finds too long.
As long as the item is there, the number is above those of all items, each new item is
fresh, and a pop removes the last item alone.
-/

namespace GalaLua.GalaDB

open Library (turns)
open Library.Lua

-- ---------------------------------------------------------------------------
-- The operations
-- ---------------------------------------------------------------------------

section

variable (fits : Str → Bool)

/-- `add_vector_node`, when LMDB does not take all keys and records. -/
def addVectorNodeIn (key k : Str) (itag : Option Str) (db : Store) : Res Store :=
  (addNode fits key k db).bind fun db =>
    (addAttrib fits (join key k) vectorIndexKey ['1'] db).bind fun db =>
      match itag with
      | some tag => addAttrib fits (join key k) vectorItemTag tag db
      | none => .ok db

def addVectorItemAsVector (key : Str) (tag : Option Str) (db : Store) : Res (Str × Store) :=
  match (getAttrib db key).lookup vectorIndexKey with
  | none => .error "Element is not Vector Node"
  | some serial =>
    match tonumber serial with
    | none => .error "attempt to perform arithmetic on a nil value"
    | some n =>
      (setAttrib fits key vectorIndexKey (tostring (n + 1)) db).bind fun db =>
        (addVectorNodeIn fits key serial tag db).bind fun db => .ok (join key serial, db)

/-- `remove` with a path. -/
def removeAt (depth : Nat) (root e : Elem) (path : Str) (db : Store) : Out :=
  match xpathPlain db root depth e path with
  | .error err => (db, some err)
  | .ok none => (db, some "attempt to index a nil value")
  | .ok (some c) => remove depth c db

def popVectorItem (depth : Nat) (root e : Elem) (db : Store) : Out :=
  match (getAttrib db e.key).lookup vectorIndexKey with
  | none => (db, some "Element is not Vector Node")
  | some serial =>
    match tonumber serial with
    | none => (db, some "attempt to perform arithmetic on a nil value")
    | some n =>
      if n ≤ 1 then (db, some "empty list")
      else
        match setAttrib fits e.key vectorIndexKey (tostring (n - 1)) db with
        | .error err => (removeAttrib e.key vectorIndexKey db, some err)
        | .ok db => removeAt depth root e (tostring (n - 1)) db

end

/-- A vector node below a root, with the stack of the Lua program and what LMDB takes. -/
structure VectorNode where
  rootName : Str
  rel : Str
  depth : Nat
  fits : Str → Bool
  slash : '/' ∉ rootName
  rel_ne : rel ≠ []
  root_clean : Clean ('/' :: rootName)
  rel_clean : Clean rel
  depth_two : 2 ≤ depth

namespace VectorNode

variable (V : VectorNode)

def rootKey : Str := '/' :: V.rootName

def key : Str := V.rootKey ++ '/' :: V.rel

def root : Elem := ⟨V.rootKey, none, .regular, true⟩

def elem : Elem := .node V.key

/-- The key of an item. -/
def item (x : Nat) : Str := V.key ++ '/' :: tostring x

end VectorNode

-- ---------------------------------------------------------------------------
-- Runs
-- ---------------------------------------------------------------------------

/-- What is called on a vector and, so that an item is not always empty, on its items. -/
inductive VectorOp
  | addItem
  | addItemAsVector (tag : Option Str)
  | pop
  | remove (x : Nat)
  | addValue (x : Nat) (v : Str)
  | addAttrib (x : Nat) (k v : Str)

/-- The store, and the remaining items in the order they were added. -/
structure VectorRun where
  db : Store
  items : List Nat

def VectorRun.Legal (s : VectorRun) : VectorOp → Prop
  | .remove x => x ∈ s.items
  | .addValue x _ => x ∈ s.items
  | .addAttrib x _ _ => x ∈ s.items
  | _ => True

namespace VectorNode

variable (V : VectorNode)

/-- The number in the attribute. -/
def stored (db : Store) : Option Nat := ((getAttrib db V.key).lookup vectorIndexKey).bind tonumber

def added (s : VectorRun) (r : Res (Str × Store)) : VectorRun :=
  match r with
  | .ok (_, db) => ⟨db, s.items ++ (V.stored s.db).toList⟩
  | .error _ => s

/-- One call; one that adds and fails changes nothing here, no run is followed beyond it. -/
def next (s : VectorRun) : VectorOp → VectorRun
  | .addItem => V.added s (addVectorItem V.fits V.key s.db)
  | .addItemAsVector tag => V.added s (addVectorItemAsVector V.fits V.key tag s.db)
  | .pop =>
    let out := popVectorItem V.fits V.depth V.root V.elem s.db
    ⟨out.1, if out.2 = none then s.items.dropLast else s.items⟩
  | .remove x =>
    let out := removeAt V.depth V.root V.elem (tostring x) s.db
    ⟨out.1, if out.2 = none then s.items.erase x else s.items⟩
  | .addValue x v => ⟨(outOf s.db (addValue V.fits (join V.key (tostring x)) v s.db)).1, s.items⟩
  | .addAttrib x k v => ⟨(outOf s.db (addAttrib V.fits (join V.key (tostring x)) k v s.db)).1, s.items⟩

/-- The number in the attribute is above those of the items. -/
def Numbered (db : Store) : Prop :=
  ∃ n, V.stored db = some n ∧ ∀ x, childRecord (tostring x) ∈ db.dups V.key → x < n

/-- The item that the call returns was not there, nor anything below it, and is there now. -/
def Adds (s : VectorRun) (r : Res (Str × Store)) : Prop :=
  ∃ n db', V.stored s.db = some n ∧ r = .ok (join V.key (tostring n), db') ∧
    childRecord (tostring n) ∉ s.db.dups V.key ∧ (∀ k, Under (V.item n) k → s.db.dups k = []) ∧
    childRecord (tostring n) ∈ db'.dups V.key

/-- The item is gone with all below it, the number has changed, and nothing else has. -/
structure Popped (x : Nat) (db db' : Store) : Prop where
  gone : ∀ k, Under (V.item x) k → db'.dups k = []
  others : ∀ k, k ≠ V.key → ¬ Under (V.item x) k → db'.dups k = db.dups k
  node : ∀ r, ¬ AttribRec vectorIndexKey r → (r ∈ db'.dups V.key ↔ r ∈ db.dups V.key ∧ r ≠ childRecord (tostring x))

/-- What a call promises. -/
def Promise (s : VectorRun) : VectorOp → Prop
  | .addItem => V.Adds s (addVectorItem V.fits V.key s.db)
  | .addItemAsVector tag => V.Adds s (addVectorItemAsVector V.fits V.key tag s.db)
  | .pop => ∀ x, s.items.getLast? = some x →
    (popVectorItem V.fits V.depth V.root V.elem s.db).2 = none ∧
      V.Popped x s.db (popVectorItem V.fits V.depth V.root V.elem s.db).1
  | _ => True

/-- The call keeps its promise and leaves the items below the number. -/
def Keeps (s : VectorRun) (op : VectorOp) : Prop := V.Promise s op ∧ V.Numbered (V.next s op).db

/-- To remove an item, `get_child` reads the item if it has records, else the vector; the key must be
below 1000 bytes. -/
def Readable (db : Store) (x : Nat) : Prop :=
  if db.dups (V.item x) = [] then V.key.length < 1000 else (V.item x).length < 1000

instance (db : Store) (x : Nat) : Decidable (V.Readable db x) :=
  inferInstanceAs (Decidable (if db.dups (V.item x) = [] then V.key.length < 1000 else (V.item x).length < 1000))

/-- LMDB takes the records of the call, and the item that a pop is going to remove is
there and can be read, unless there are none. -/
def Sound (s : VectorRun) : VectorOp → Prop
  | .addItem => ∀ n, V.stored s.db = some n →
    Table.Takes V.fits V.key (nextIndex (n + 1)) ∧ Table.Takes V.fits V.key (childRecord (tostring n))
  | .addItemAsVector tag => ∀ n, V.stored s.db = some n →
    Table.Takes V.fits V.key (nextIndex (n + 1)) ∧ Table.Takes V.fits V.key (childRecord (tostring n)) ∧
      Table.Takes V.fits (V.item n) (nextIndex 1) ∧
      ∀ t ∈ tag, Table.Takes V.fits (V.item n) (attribRecord vectorItemTag t)
  | .pop => ∀ n, V.stored s.db = some n → 1 < n → Table.Takes V.fits V.key (nextIndex (n - 1)) ∧
    ((∃ x, childRecord (tostring x) ∈ s.db.dups V.key) →
      childRecord (tostring (n - 1)) ∈ s.db.dups V.key ∧ V.Readable s.db (n - 1))
  | _ => True

/-- The vector was just made, and nothing was below its key before. -/
def New (db : Store) : Prop :=
  ∃ db₀ parent name itag, Clean parent ∧ join parent name = V.key ∧ Fresh db₀ V.key ∧
    addVectorNodeIn V.fits parent name itag db₀ = .ok db

-- ---------------------------------------------------------------------------
-- The invariant
-- ---------------------------------------------------------------------------

/-- A record that says nothing about other nodes. -/
inductive Content : Str → Prop
  | attrib (s : Str) : Content ('a' :: ':' :: s)
  | value (s : Str) : Content ('v' :: ':' :: s)

theorem content_attribRecord (k v : Str) : Content (attribRecord k v) := .attrib _

/-- The records of the vector and of its items. -/
structure Shape (db : Store) (items : List Nat) (n : Nat) : Prop where
  index : nextIndex n ∈ db.dups V.key
  only : ∀ r ∈ db.dups V.key, AttribRec vectorIndexKey r → r = nextIndex n
  child : ∀ m, 'c' :: ':' :: m ∈ db.dups V.key ↔ ∃ x ∈ items, m = tostring x
  link : ∀ l, 's' :: ':' :: l ∉ db.dups V.key
  sorted : items.Pairwise (· < ·)
  pos : 1 ≤ n ∧ ∀ x ∈ items, 1 ≤ x
  content : ∀ x ∈ items, ∀ r ∈ db.dups (V.item x), Content r
  fresh : ∀ k, Under V.key k → k ≠ V.key → (∀ x ∈ items, k ≠ V.item x) → db.dups k = []

/-- The number is above those of the items. -/
structure Holds (db : Store) (items : List Nat) (n : Nat) : Prop extends Shape V db items n where
  below : ∀ x ∈ items, x < n

variable {V} {db db' : Store} {items : List Nat} {n x y : Nat} {r k m : Str}

theorem key_eq : V.key = join V.rootKey V.rel := (join_eq V.root_clean V.rel_clean).symm

theorem clean_key : Clean V.key := by
  rw [key_eq]
  exact clean_join ..

theorem item_eq (x : Nat) : join V.key (tostring x) = V.item x := join_eq clean_key (clean_tostring x)

theorem item_ne_key (x : Nat) : V.item x ≠ V.key := fun h => not_under_child (.inl h.symm)

theorem not_under_item (h : x ≠ y) : ¬ Under (V.item x) (V.item y) := fun hunder =>
  h (tostring_injective (hunder.eq_name (slash_notMem_tostring x) (slash_notMem_tostring y) (.inl rfl)))

theorem childRecord_tostring (x : Nat) : childRecord (tostring x) = 'c' :: ':' :: tostring x := by
  rw [childRecord, clean_tostring x]

theorem rawPut_of_takes {fits : Str → Bool} (h : Table.Takes fits k r) : rawPut fits k r db = .ok (db.put k r) := by
  rw [rawPut, h.1, h.2]
  rfl

theorem attribOf_nextIndex (n : Nat) : attribOf (nextIndex n) = some (vectorIndexKey, tostring n) :=
  attribOf_attribRecord (by decide) (by decide) (clean_tostring n)

theorem attribRec_nextIndex (n : Nat) : AttribRec vectorIndexKey (nextIndex n) := ⟨_, attribOf_nextIndex n⟩

theorem not_attribRec (h : attribOf r = none) : ¬ AttribRec k r := by
  rintro ⟨w, hw⟩
  rw [h] at hw
  cases hw

/-- The store behind the removal of an item. -/
def without (V : VectorNode) (db : Store) (x : Nat) : Store :=
  (db.delAll (V.item x)).del V.key (childRecord (tostring x))

namespace Shape

theorem lookup (h : V.Shape db items n) : (getAttrib db V.key).lookup vectorIndexKey = some (tostring n) := by
  refine lookup_getAttrib h.index (attribOf_nextIndex n) fun r hr v hv => ?_
  obtain rfl := h.only r hr ⟨v, hv⟩
  rw [attribOf_nextIndex] at hv
  cases hv
  rfl

theorem stored (h : V.Shape db items n) : V.stored db = some n := by
  rw [VectorNode.stored, h.lookup, Option.bind_some, tonumber_tostring]

theorem childRecord_mem (h : V.Shape db items n) : childRecord (tostring x) ∈ db.dups V.key ↔ x ∈ items := by
  rw [childRecord_tostring, h.child]
  constructor
  · rintro ⟨y, hy, heq⟩
    rwa [tostring_injective heq]
  · exact fun hx => ⟨x, hx, rfl⟩

theorem ne_nil (h : V.Shape db items n) : db.dups V.key ≠ [] := List.ne_nil_of_mem h.index

theorem nodup (h : V.Shape db items n) : items.Nodup := h.sorted.imp fun hlt => Nat.ne_of_lt hlt

theorem links (h : V.Shape db items n) : ∀ r ∈ db.dups V.key, ∀ s, r ≠ 's' :: ':' :: s := by
  rintro r hr s rfl
  exact h.link s hr

theorem fresh_item (h : V.Shape db items n) (hx : x ∉ items) (hk : Under (V.item x) k) : db.dups k = [] := by
  refine h.fresh k hk.of_child ?_ fun y hy heq => ?_
  · rintro rfl
    exact not_under_child hk
  · subst heq
    by_cases hxy : x = y
    · exact hx (hxy ▸ hy)
    · exact not_under_item hxy hk

theorem new (h : Fresh db V.key) : V.Shape (db.put V.key (nextIndex 1)) [] 1 := by
  have hrec {r : Str} (hr : r ∈ (db.put V.key (nextIndex 1)).dups V.key) : r = nextIndex 1 := by
    rcases Library.MultiMap.mem_put.mp hr with ⟨-, heq⟩ | hr
    · exact heq
    · rw [h V.key (.inl rfl)] at hr
      exact absurd hr List.not_mem_nil
  refine {
    index := Library.MultiMap.mem_put.mpr (.inl ⟨rfl, rfl⟩)
    only := fun r hr _ => hrec hr
    child := fun m => ⟨fun hr => ?_, fun ⟨x, hx, _⟩ => absurd hx List.not_mem_nil⟩
    link := fun l hl => ?_
    sorted := .nil
    pos := ⟨Nat.le_refl 1, nofun⟩
    content := nofun
    fresh := fun k hk hne _ => by rw [Library.MultiMap.dups_put_of_ne hne, h k hk] }
  · cases hrec hr
  · cases hrec hl

/-- The vector gets the tag of its items. -/
theorem putTag (h : V.Shape db items n) (tag : Str) :
    V.Shape (db.put V.key (attribRecord vectorItemTag tag)) items n := by
  have hother {k : Str} (hk : k ≠ V.key) : (db.put V.key (attribRecord vectorItemTag tag)).dups k = db.dups k :=
    Library.MultiMap.dups_put_of_ne hk
  have hold {s : Str} {ch : Char} (hch : ch ≠ 'a')
      (hr : ch :: s ∈ (db.put V.key (attribRecord vectorItemTag tag)).dups V.key) : ch :: s ∈ db.dups V.key := by
    refine (Library.MultiMap.mem_put.mp hr).resolve_left ?_
    rintro ⟨-, heq⟩
    exact hch (List.cons.inj heq).1
  refine {
    index := Library.MultiMap.mem_put.mpr (.inr h.index)
    only := fun r hr hrec => ?_
    child := fun m => (Iff.intro (hold (by decide)) fun hr => Library.MultiMap.mem_put.mpr (.inr hr)).trans (h.child m)
    link := fun l hl => h.link l (hold (by decide) hl)
    sorted := h.sorted
    pos := h.pos
    content := fun x hx r hr => h.content x hx r (by rwa [hother (item_ne_key x)] at hr)
    fresh := fun k hk hne hitems => by rw [hother hne, h.fresh k hk hne hitems] }
  rcases Library.MultiMap.mem_put.mp hr with ⟨-, rfl⟩ | hr
  · obtain ⟨w, hw⟩ := hrec
    rw [attribOf_cut (by decide)] at hw
    exact absurd (congrArg Prod.fst (Option.some.inj hw)) (show fmt vectorItemTag ≠ vectorIndexKey by decide)
  · exact h.only r hr hrec

-- ---------------------------------------------------------------------------
-- Adding
-- ---------------------------------------------------------------------------

/-- The store behind `set_attrib` of the number. -/
def reindexed (V : VectorNode) (db : Store) (n m : Nat) : Store :=
  (db.del V.key (nextIndex n)).put V.key (nextIndex m)

theorem dups_reindexed (m : Nat) (hk : k ≠ V.key) : (reindexed V db n m).dups k = db.dups k := by
  rw [reindexed, Library.MultiMap.dups_put_of_ne hk, Library.MultiMap.dups_del_of_ne hk]

theorem mem_reindexed (m : Nat) (hr : ¬ AttribRec vectorIndexKey r) :
    r ∈ (reindexed V db n m).dups V.key ↔ r ∈ db.dups V.key := by
  rw [reindexed, Library.MultiMap.mem_put, Library.MultiMap.mem_del, or_iff_right, and_iff_right]
  · rintro ⟨-, rfl⟩
    exact hr (attribRec_nextIndex n)
  · rintro ⟨-, rfl⟩
    exact hr (attribRec_nextIndex m)

theorem removeAttrib_eq (h : V.Shape db items n) :
    removeAttrib V.key vectorIndexKey db = db.del V.key (nextIndex n) := by
  rw [removeAttrib, h.lookup]
  rfl

theorem setAttrib_eq (h : V.Shape db items n) (m : Nat) : setAttrib V.fits V.key vectorIndexKey (tostring m) db =
    rawPut V.fits V.key (nextIndex m) (db.del V.key (nextIndex n)) := by
  rw [setAttrib, h.removeAttrib_eq]
  rfl

theorem reindex (h : V.Shape db items n) {m : Nat} (hm : 1 ≤ m) : V.Shape (reindexed V db n m) items m := by
  refine {
    index := Library.MultiMap.mem_put.mpr (.inl ⟨rfl, rfl⟩)
    only := fun r hr hrec => ?_
    child := fun m => by rw [mem_reindexed _ (not_attribRec rfl), h.child]
    link := fun l hl => h.link l ((mem_reindexed _ (not_attribRec rfl)).mp hl)
    sorted := h.sorted
    pos := ⟨hm, h.pos.2⟩
    content := fun x hx r hr => h.content x hx r (by rwa [dups_reindexed _ (item_ne_key x)] at hr)
    fresh := fun k hk hne hitems => by rw [dups_reindexed _ hne, h.fresh k hk hne hitems] }
  rcases Library.MultiMap.mem_put.mp hr with ⟨-, rfl⟩ | hr
  · rfl
  · obtain ⟨hdel, hr⟩ := Library.MultiMap.mem_del.mp hr
    exact absurd ⟨rfl, h.only r hr hrec⟩ hdel

/-- The item in front of the number becomes one. -/
theorem addChild (h : V.Shape db items (n + 1)) (hn : 1 ≤ n) (hbelow : ∀ x ∈ items, x < n) :
    V.Shape (db.put V.key (childRecord (tostring n))) (items ++ [n]) (n + 1) := by
  have hnew : n ∉ items := fun hmem => Nat.lt_irrefl n (hbelow n hmem)
  have hother {k : Str} (hk : k ≠ V.key) : (db.put V.key (childRecord (tostring n))).dups k = db.dups k :=
    Library.MultiMap.dups_put_of_ne hk
  have hnil : db.dups (V.item n) = [] := h.fresh_item hnew (.inl rfl)
  rw [childRecord_tostring] at hother ⊢
  refine {
    index := Library.MultiMap.mem_put.mpr (.inr h.index)
    only := fun r hr hrec => ?_
    child := fun m => ?_
    link := fun l hl => ?_
    sorted := ?_
    pos := ⟨h.pos.1, fun x hx => ?_⟩
    content := fun x hx r hr => ?_
    fresh := fun k hk hne hitems => ?_ }
  · rcases Library.MultiMap.mem_put.mp hr with ⟨-, rfl⟩ | hr
    · exact absurd hrec (not_attribRec rfl)
    · exact h.only r hr hrec
  · rw [Library.MultiMap.mem_put, h.child]
    simp only [true_and, List.cons.injEq, List.mem_append, List.mem_singleton]
    constructor
    · rintro (rfl | ⟨x, hx, rfl⟩)
      · exact ⟨n, .inr rfl, rfl⟩
      · exact ⟨x, .inl hx, rfl⟩
    · rintro ⟨x, hx | rfl, rfl⟩
      · exact .inr ⟨x, hx, rfl⟩
      · exact .inl rfl
  · rcases Library.MultiMap.mem_put.mp hl with ⟨-, heq⟩ | hl
    · cases heq
    · exact h.link l hl
  · rw [List.pairwise_append]
    refine ⟨h.sorted, List.pairwise_singleton _ _, fun x hx y hy => ?_⟩
    rw [List.mem_singleton.mp hy]
    exact hbelow x hx
  · rcases List.mem_append.mp hx with hx | hx
    · exact h.pos.2 x hx
    · rw [List.mem_singleton.mp hx]
      exact hn
  · rw [hother (item_ne_key x)] at hr
    rcases List.mem_append.mp hx with hx | hx
    · exact h.content x hx r hr
    · rw [List.mem_singleton.mp hx, hnil] at hr
      exact absurd hr List.not_mem_nil
  · rw [hother hne]
    exact h.fresh k hk hne fun x hx => hitems x (List.mem_append_left _ hx)

/-- An item gets a record of its own. -/
theorem putContent (h : V.Shape db items n) (hx : x ∈ items) (hr : Content r) :
    V.Shape (db.put (V.item x) r) items n := by
  have hother {k : Str} (hk : k ≠ V.item x) : (db.put (V.item x) r).dups k = db.dups k :=
    Library.MultiMap.dups_put_of_ne hk
  have hkey := hother (item_ne_key x).symm
  refine {
    index := by rw [hkey]; exact h.index
    only := by rw [hkey]; exact h.only
    child := by rw [hkey]; exact h.child
    link := by rw [hkey]; exact h.link
    sorted := h.sorted
    pos := h.pos
    content := fun y hy r' hr' => ?_
    fresh := fun k hk hne hitems => by rw [hother (hitems x hx), h.fresh k hk hne hitems] }
  rcases Library.MultiMap.mem_put.mp hr' with ⟨-, rfl⟩ | hr'
  · exact hr
  · exact h.content y hy r' hr'

theorem addVectorItem_eq (h : V.Shape db items n) : addVectorItem V.fits V.key db =
    (rawPut V.fits V.key (nextIndex (n + 1)) (db.del V.key (nextIndex n))).bind fun db =>
      (rawPut V.fits V.key (childRecord (tostring n)) db).bind fun db => .ok (join V.key (tostring n), db) := by
  rw [addVectorItem, h.lookup]
  simp only [tonumber_tostring, h.setAttrib_eq]
  rfl

theorem addVectorItemAsVector_eq (h : V.Shape db items n) (tag : Option Str) :
    addVectorItemAsVector V.fits V.key tag db =
      (rawPut V.fits V.key (nextIndex (n + 1)) (db.del V.key (nextIndex n))).bind fun db =>
        ((rawPut V.fits V.key (childRecord (tostring n)) db).bind fun db =>
          (rawPut V.fits (V.item n) (nextIndex 1) db).bind fun db =>
            match tag with
            | some t => rawPut V.fits (V.item n) (attribRecord vectorItemTag t) db
            | none => .ok db).bind fun db => .ok (join V.key (tostring n), db) := by
  rw [addVectorItemAsVector, h.lookup]
  simp only [tonumber_tostring, h.setAttrib_eq, addVectorNodeIn, item_eq]
  rfl

-- ---------------------------------------------------------------------------
-- Removing
-- ---------------------------------------------------------------------------

theorem getChild_long (h : V.Shape db items n) (hlong : 1000 ≤ V.key.length) :
    getChild db (.node V.key) = .error "Key is too long,there may be something wrong" := by
  rw [getChild_node h.links, if_pos ⟨h.ne_nil, hlong⟩]

/-- `get_child` of the vector. -/
theorem lookup_child (h : V.Shape db items n) (hshort : V.key.length < 1000) (x : Nat) :
    (getChild db (.node V.key)).map (List.lookup (tostring x)) =
      .ok (if x ∈ items then some (.node (V.item x)) else none) := by
  rw [getChild_node h.links, if_neg fun hlong => Nat.not_le.mpr hshort hlong.2]
  refine congrArg Except.ok ?_
  have hname (name : Str) : name ∈ (db.dups V.key).filterMap childName ↔ ∃ y ∈ items, name = tostring y := by
    rw [← h.child, List.mem_filterMap]
    constructor
    · rintro ⟨r, hr, hof⟩
      rwa [childName_eq_some.mp hof] at hr
    · exact fun hr => ⟨_, hr, childName_eq_some.mpr rfl⟩
  split
  · next hx =>
    rw [← mem_iff_lookup]
    · refine List.mem_map.mpr ⟨tostring x, (hname _).mpr ⟨x, hx, rfl⟩, ?_⟩
      rw [item_eq]
    · rw [List.map_map]
      exact (List.map_id _).symm ▸ nodup_childName db V.key
  · next hx =>
    rw [List.lookup_eq_none_iff]
    rintro p hp
    obtain ⟨name, hmem, rfl⟩ := List.mem_map.mp hp
    obtain ⟨y, hy, rfl⟩ := (hname name).mp hmem
    refine bne_iff_ne.mpr fun heq => hx ?_
    rwa [tostring_injective heq]

/-- An item with records of its own is found by its key, -/
theorem xpath_record (hne : db.dups (V.item x) ≠ []) :
    xpathPlain db V.root V.depth V.elem (tostring x) = .ok (some (.node (V.item x))) := by
  obtain ⟨depth, hdepth⟩ : ∃ depth, V.depth = depth + 1 := ⟨V.depth - 1, by have := V.depth_two; omega⟩
  have hpath : join V.elem.key (tostring x) = V.item x := item_eq x
  have hname : tostring x ≠ [] := Nat.toDigits_ne_nil
  rw [hdepth, xpathPlain, if_neg hname, hpath, if_pos hne]
  rfl

/-- and another one through the root. -/
theorem xpath_root (h : V.Shape db items n) (hnil : db.dups (V.item x) = []) :
    xpathPlain db V.root V.depth V.elem (tostring x) =
      (getChild db (.node V.key)).map (List.lookup (tostring x)) := by
  obtain ⟨depth, hdepth⟩ : ∃ depth, V.depth = depth + 2 := ⟨V.depth - 2, by have := V.depth_two; omega⟩
  have hpath : join V.elem.key (tostring x) = V.item x := item_eq x
  have hname : tostring x ≠ [] := Nat.toDigits_ne_nil
  have hrel : relative (V.item x) = some (V.rel ++ '/' :: tostring x) := by
    have hitem : V.item x = '/' :: (V.rootName ++ '/' :: (V.rel ++ '/' :: tostring x)) := by
      simp [item, key, rootKey]
    rw [hitem, relative_cons V.slash]
  obtain ⟨ch, s, hcons⟩ := List.exists_cons_of_ne_nil V.rel_ne
  have hsplit : xpathSplit (V.rel ++ '/' :: tostring x) = (V.rel, tostring x) :=
    xpathSplit_eq (slash_notMem_tostring x)
  have hroot : xpathPlain db V.root (depth + 1) V.root V.rel = .ok (some (.node V.key)) := by
    have hkey : join V.root.key V.rel = V.key := key_eq.symm
    rw [xpathPlain, if_neg V.rel_ne, hkey, if_pos h.ne_nil]
    rfl
  rw [hdepth, xpathPlain, if_neg hname, hpath, if_neg (not_not_intro hnil), hrel]
  rw [hcons] at hsplit hroot ⊢
  show (xpathPlain db V.root (depth + 1) V.root (xpathSplit (ch :: s ++ '/' :: tostring x)).1).bind _ = _
  rewrite [hsplit, hroot]
  rfl

theorem getChild_item (h : V.Shape db items n) (hx : x ∈ items) :
    getChild db (.node (V.item x)) =
      if db.dups (V.item x) ≠ [] ∧ 1000 ≤ (V.item x).length then
        .error "Key is too long,there may be something wrong"
      else .ok [] := by
  have hlinks : ∀ r ∈ db.dups (V.item x), ∀ s, r ≠ 's' :: ':' :: s := by
    rintro r hr s rfl
    cases h.content x hx _ hr
  have hnames : (db.dups (V.item x)).filterMap childName = [] := by
    refine List.filterMap_eq_nil_iff.mpr fun r hr => ?_
    cases h.content x hx r hr <;> rfl
  rw [getChild_node hlinks, hnames, List.map_nil]

theorem getRefers_item (h : V.Shape db items n) (hx : x ∈ items) : getRefers db (.node (V.item x)) = [] := by
  refine List.filterMap_eq_nil_iff.mpr fun r hr => ?_
  cases h.content x hx r hr <;> rfl

theorem remove_item (h : V.Shape db items n) (hx : x ∈ items)
    (hshort : ¬(db.dups (V.item x) ≠ [] ∧ 1000 ≤ (V.item x).length)) :
    remove V.depth (.node (V.item x)) db = (without V db x, none) := by
  obtain ⟨depth, hdepth⟩ : ∃ depth, V.depth = depth + 1 := ⟨V.depth - 1, by have := V.depth_two; omega⟩
  have hsplit : xpathSplit (V.item x) = (V.key, tostring x) := xpathSplit_eq (slash_notMem_tostring x)
  have hparent : getParent (db.delAll (V.item x)) (.node (V.item x)) = .ok (.node V.key) := by
    show Except.ok (Elem.node (xpathSplit (V.item x)).1) = _
    rw [hsplit]
  rw [hdepth, remove, h.getChild_item hx, if_neg hshort]
  show ((runAll (remove depth) (getRefers db (.node (V.item x))) db).andThen fun db =>
    (db.delAll (V.item x), none)).andThen (fun db => removeParentRefer (.node (V.item x)) db) = _
  rw [h.getRefers_item hx]
  show removeParentRefer (.node (V.item x)) (db.delAll (V.item x)) = _
  rw [removeParentRefer, hparent]
  show ((db.delAll (V.item x)).del V.key (childRecord (xpathSplit (V.item x)).2), none) = _
  rw [hsplit]
  rfl

theorem removeAt_eq (h : V.Shape db items n) (hx : x ∈ items) (hread : V.Readable db x) :
    removeAt V.depth V.root V.elem (tostring x) db = (without V db x, none) := by
  unfold Readable at hread
  by_cases hnil : db.dups (V.item x) = []
  · rw [if_pos hnil] at hread
    rw [removeAt, h.xpath_root hnil, h.lookup_child hread, if_pos hx]
    exact h.remove_item hx fun hlong => hlong.1 hnil
  · rw [if_neg hnil] at hread
    rw [removeAt, xpath_record hnil]
    exact h.remove_item hx fun hlong => Nat.not_le.mpr hread hlong.2

/-- An item that is not there, or cannot be read, is not removed. -/
theorem removeAt_refused (h : V.Shape db items n) (hno : ¬(x ∈ items ∧ V.Readable db x)) :
    ∃ err, removeAt V.depth V.root V.elem (tostring x) db = (db, some err) := by
  unfold Readable at hno
  by_cases hnil : db.dups (V.item x) = []
  · rw [if_pos hnil] at hno
    rw [removeAt, h.xpath_root hnil]
    rcases Nat.lt_or_ge V.key.length 1000 with hshort | hlong
    · rw [h.lookup_child hshort, if_neg fun hx => hno ⟨hx, hshort⟩]
      exact ⟨_, rfl⟩
    · rw [h.getChild_long hlong]
      exact ⟨_, rfl⟩
  · rw [if_neg hnil] at hno
    have hx : x ∈ items := Decidable.by_contra fun hx => hnil (h.fresh_item hx (.inl rfl))
    have hlong : 1000 ≤ (V.item x).length := Nat.le_of_not_lt fun hshort => hno ⟨hx, hshort⟩
    obtain ⟨depth, hdepth⟩ : ∃ depth, V.depth = depth + 1 := ⟨V.depth - 1, by have := V.depth_two; omega⟩
    rw [removeAt, xpath_record hnil, hdepth]
    simp only [remove]
    rw [h.getChild_item hx, if_pos ⟨hnil, hlong⟩]
    exact ⟨_, rfl⟩

theorem mem_without {z : Nat} : r ∈ (without V db z).dups k ↔
    k ≠ V.item z ∧ ¬ (k = V.key ∧ r = childRecord (tostring z)) ∧ r ∈ db.dups k := by
  rw [without, Library.MultiMap.mem_del, Library.MultiMap.mem_delAll]
  tauto

theorem removed (h : V.Shape db items n) (x : Nat) : V.Shape (without V db x) (items.erase x) n := by
  have hsub {k r : Str} (hr : r ∈ (without V db x).dups k) : r ∈ db.dups k := (mem_without.mp hr).2.2
  have hnil {k : Str} (hk : db.dups k = []) : (without V db x).dups k = [] :=
    List.eq_nil_iff_forall_not_mem.mpr fun r hr => absurd (hk ▸ hsub hr) List.not_mem_nil
  refine {
    index := ?_
    only := fun r hr hrec => h.only r (hsub hr) hrec
    child := fun m => ?_
    link := fun l hl => h.link l (hsub hl)
    sorted := h.sorted.sublist List.erase_sublist
    pos := ⟨h.pos.1, fun y hy => h.pos.2 y (List.mem_of_mem_erase hy)⟩
    content := fun y hy r hr => h.content y (List.mem_of_mem_erase hy) r (hsub hr)
    fresh := fun k hk hne hitems => ?_ }
  · refine mem_without.mpr ⟨(item_ne_key x).symm, ?_, h.index⟩
    rintro ⟨-, heq⟩
    rw [childRecord_tostring] at heq
    cases heq
  · rw [mem_without, h.child, childRecord_tostring]
    simp only [h.nodup.mem_erase_iff, ne_eq, (item_ne_key x).symm, not_false_eq_true, true_and, List.cons.injEq]
    constructor
    · rintro ⟨hne, y, hy, rfl⟩
      exact ⟨y, ⟨fun hxy => hne (by rw [hxy]), hy⟩, rfl⟩
    · rintro ⟨y, ⟨hne, hy⟩, rfl⟩
      exact ⟨fun heq => hne (tostring_injective heq), y, hy, rfl⟩
  · by_cases hx : k = V.item x
    · exact List.eq_nil_iff_forall_not_mem.mpr fun r hr => (mem_without.mp hr).1 hx
    · refine hnil (h.fresh k hk hne fun y hy heq => ?_)
      by_cases hxy : y = x
      · exact hx (hxy ▸ heq)
      · exact hitems y (h.nodup.mem_erase_iff.mpr ⟨hxy, hy⟩) heq

/-- With the item all below it is gone, and nothing else. -/
theorem popped (h : V.Shape db items n) (x : Nat) (hother : ∀ k, k ≠ V.key → db.dups k = db'.dups k)
    (hsame : ∀ r, ¬ AttribRec vectorIndexKey r → (r ∈ db.dups V.key ↔ r ∈ db'.dups V.key)) :
    V.Popped x db' (without V db x) := by
  have hgone : x ∉ items.erase x := fun hmem => (h.nodup.mem_erase_iff.mp hmem).1 rfl
  refine ⟨fun k hk => (h.removed x).fresh_item hgone hk, fun k hk hunder => ?_, fun r hr => ?_⟩
  · rw [← hother k hk]
    refine Library.MultiMap.eq_of_mem ((without V db x).sorted k) (db.sorted k) fun r => ?_
    rw [mem_without]
    have hne : k ≠ V.item x := fun heq => hunder (.inl heq)
    simp [hne, hk]
  · rw [mem_without, hsame r hr]
    simp [(item_ne_key x).symm, and_comm]

theorem readable_reindexed (m : Nat) : V.Readable (reindexed V db n m) x ↔ V.Readable db x := by
  rw [Readable, Readable, dups_reindexed m (item_ne_key x)]

end Shape

/-- The store behind `add_vector_item`. -/
def withItem (V : VectorNode) (db : Store) (n : Nat) : Store :=
  (Shape.reindexed V db n (n + 1)).put V.key (childRecord (tostring n))

namespace Holds

theorem numbered (h : V.Holds db items n) : V.Numbered db :=
  ⟨n, h.stored, fun _ hx => h.below _ (h.childRecord_mem.mp hx)⟩

theorem addItem (h : V.Holds db items n) : V.Holds (withItem V db n) (items ++ [n]) (n + 1) where
  toShape := (h.reindex (Nat.succ_pos n)).addChild h.pos.1 h.below
  below x hx := by
    rcases List.mem_append.mp hx with hx | hx
    · exact Nat.lt_succ_of_lt (h.below x hx)
    · rw [List.mem_singleton.mp hx]
      exact Nat.lt_succ_self n

theorem putContent (h : V.Holds db items n) (hx : x ∈ items) (hr : Content r) :
    V.Holds (db.put (V.item x) r) items n :=
  ⟨h.toShape.putContent hx hr, h.below⟩

theorem adds_of (h : V.Holds db items n) {r : Res (Str × Store)} {db' : Store}
    (hr : r = .ok (join V.key (tostring n), db')) (h' : V.Holds db' (items ++ [n]) (n + 1)) : V.Adds ⟨db, items⟩ r := by
  have hnew : n ∉ items := fun hmem => Nat.lt_irrefl n (h.below n hmem)
  refine ⟨n, db', h.stored, hr, ?_, fun k hk => h.fresh_item hnew hk, ?_⟩
  · rwa [h.childRecord_mem]
  · rw [h'.childRecord_mem]
    exact List.mem_append_right _ (List.mem_singleton.mpr rfl)

theorem addItem_ok (h : V.Holds db items n) (hs : V.Sound ⟨db, items⟩ .addItem) :
    ∃ db', addVectorItem V.fits V.key db = .ok (join V.key (tostring n), db') ∧
      V.Holds db' (items ++ [n]) (n + 1) := by
  obtain ⟨h₁, h₂⟩ := hs n h.stored
  refine ⟨withItem V db n, ?_, h.addItem⟩
  rw [h.addVectorItem_eq]
  simp only [Except.bind, rawPut_of_takes h₁, rawPut_of_takes h₂]
  rfl

theorem addItem_iff (h : V.Holds db items n) :
    V.Adds ⟨db, items⟩ (addVectorItem V.fits V.key db) ↔ V.Sound ⟨db, items⟩ .addItem := by
  constructor
  · rintro ⟨m, db', -, hr, -⟩
    simp only [Sound, h.stored, Option.some.injEq, forall_eq']
    rw [h.addVectorItem_eq] at hr
    obtain ⟨db₁, h₁, hr⟩ := bind_eq_ok hr
    obtain ⟨db₂, h₂, -⟩ := bind_eq_ok hr
    exact ⟨(rawPut_eq_ok h₁).1, (rawPut_eq_ok h₂).1⟩
  · intro hs
    obtain ⟨db', hr, h'⟩ := h.addItem_ok hs
    exact h.adds_of hr h'

theorem addItemAsVector_ok {tag : Option Str} (h : V.Holds db items n)
    (hs : V.Sound ⟨db, items⟩ (.addItemAsVector tag)) :
    ∃ db', addVectorItemAsVector V.fits V.key tag db = .ok (join V.key (tostring n), db') ∧
      V.Holds db' (items ++ [n]) (n + 1) := by
  obtain ⟨h₁, h₂, h₃, h₄⟩ := hs n h.stored
  have hmem : n ∈ items ++ [n] := List.mem_append_right _ (List.mem_singleton.mpr rfl)
  have hindex := h.addItem.putContent hmem (content_attribRecord vectorIndexKey (tostring 1))
  rw [h.addVectorItemAsVector_eq]
  cases tag with
  | none =>
    refine ⟨_, ?_, hindex⟩
    simp only [Except.bind, rawPut_of_takes h₁, rawPut_of_takes h₂, rawPut_of_takes h₃]
    rfl
  | some t =>
    refine ⟨_, ?_, hindex.putContent hmem (content_attribRecord vectorItemTag t)⟩
    simp only [Except.bind, rawPut_of_takes h₁, rawPut_of_takes h₂, rawPut_of_takes h₃, rawPut_of_takes (h₄ t rfl)]
    rfl

theorem addItemAsVector_iff (h : V.Holds db items n) (tag : Option Str) :
    V.Adds ⟨db, items⟩ (addVectorItemAsVector V.fits V.key tag db) ↔ V.Sound ⟨db, items⟩ (.addItemAsVector tag) := by
  constructor
  · rintro ⟨m, db', -, hr, -⟩
    simp only [Sound, h.stored, Option.some.injEq, forall_eq']
    rw [h.addVectorItemAsVector_eq] at hr
    obtain ⟨db₁, h₁, hr⟩ := bind_eq_ok hr
    obtain ⟨db₄, hr, -⟩ := bind_eq_ok hr
    obtain ⟨db₂, h₂, hr⟩ := bind_eq_ok hr
    obtain ⟨db₃, h₃, hr⟩ := bind_eq_ok hr
    refine ⟨(rawPut_eq_ok h₁).1, (rawPut_eq_ok h₂).1, (rawPut_eq_ok h₃).1, fun t ht => ?_⟩
    cases ht
    exact (rawPut_eq_ok hr).1
  · intro hs
    obtain ⟨db', hr, h'⟩ := h.addItemAsVector_ok hs
    exact h.adds_of hr h'

theorem removed (h : V.Holds db items n) (x : Nat) : V.Holds (without V db x) (items.erase x) n :=
  ⟨h.toShape.removed x, fun y hy => h.below y (List.mem_of_mem_erase hy)⟩

-- ---------------------------------------------------------------------------
-- Popping
-- ---------------------------------------------------------------------------

theorem popVectorItem_eq (h : V.Holds db items n) : popVectorItem V.fits V.depth V.root V.elem db =
    if n ≤ 1 then (db, some "empty list")
    else
      match rawPut V.fits V.key (nextIndex (n - 1)) (db.del V.key (nextIndex n)) with
      | .error err => (db.del V.key (nextIndex n), some err)
      | .ok db => removeAt V.depth V.root V.elem (tostring (n - 1)) db := by
  have hkey : V.elem.key = V.key := rfl
  rw [popVectorItem, hkey, h.lookup]
  simp only [tonumber_tostring, h.setAttrib_eq, h.removeAttrib_eq]

/-- The last item is the one in front of the number, if that is there. -/
theorem getLast_eq (h : V.Holds db items (n + 1)) (hn : n ∈ items) : items.getLast? = some n := by
  obtain ⟨init, last, rfl⟩ := (List.eq_nil_or_concat' items).resolve_left (List.ne_nil_of_mem hn)
  rw [List.getLast?_concat]
  rcases List.mem_append.mp hn with hinit | hlast
  · have hlt := (List.pairwise_append.mp h.sorted).2.2 n hinit last (List.mem_singleton.mpr rfl)
    have := h.below last (List.mem_append_right _ (List.mem_singleton.mpr rfl))
    omega
  · rw [List.mem_singleton.mp hlast]

theorem stored_del (h : V.Holds db items n) : V.stored (db.del V.key (nextIndex n)) = none := by
  have hnone : (getAttrib (db.del V.key (nextIndex n)) V.key).lookup vectorIndexKey = none := by
    refine lookup_none_iff.mpr fun r hr hrec => ?_
    obtain ⟨hdel, hr⟩ := Library.MultiMap.mem_del.mp hr
    exact hdel ⟨rfl, h.only r hr hrec⟩
  rw [VectorNode.stored, hnone]
  rfl

/-- What `pop_vector_item` does. -/
theorem pop_cases (h : V.Holds db items n) :
    (n ≤ 1 ∧ popVectorItem V.fits V.depth V.root V.elem db = (db, some "empty list")) ∨
    (1 < n ∧ ¬ Table.Takes V.fits V.key (nextIndex (n - 1)) ∧
      ∃ err, popVectorItem V.fits V.depth V.root V.elem db = (db.del V.key (nextIndex n), some err)) ∨
    (1 < n ∧ Table.Takes V.fits V.key (nextIndex (n - 1)) ∧ ¬(n - 1 ∈ items ∧ V.Readable db (n - 1)) ∧
      ∃ err, popVectorItem V.fits V.depth V.root V.elem db = (Shape.reindexed V db n (n - 1), some err)) ∨
    (1 < n ∧ Table.Takes V.fits V.key (nextIndex (n - 1)) ∧ (n - 1 ∈ items ∧ V.Readable db (n - 1)) ∧
      popVectorItem V.fits V.depth V.root V.elem db =
        (without V (Shape.reindexed V db n (n - 1)) (n - 1), none)) := by
  rw [h.popVectorItem_eq]
  split
  · next hle => exact .inl ⟨hle, rfl⟩
  · next hlt =>
    rw [Nat.not_le] at hlt
    have hput := rawPut_outcome V.fits V.key (nextIndex (n - 1)) (db.del V.key (nextIndex n))
    cases hr : rawPut V.fits V.key (nextIndex (n - 1)) (db.del V.key (nextIndex n)) with
    | error err =>
      rw [hr] at hput
      exact .inr (.inl ⟨hlt, hput, err, rfl⟩)
    | ok db₁ =>
      rw [hr] at hput
      obtain ⟨htakes, rfl⟩ := hput
      have hshape := h.reindex (m := n - 1) (Nat.le_sub_one_of_lt hlt)
      by_cases hx : n - 1 ∈ items ∧ V.Readable db (n - 1)
      · have hread := (Shape.readable_reindexed (n := n) (n - 1)).mpr hx.2
        exact .inr (.inr (.inr ⟨hlt, htakes, hx, hshape.removeAt_eq hx.1 hread⟩))
      · have hno : ¬(n - 1 ∈ items ∧ V.Readable (Shape.reindexed V db n (n - 1)) (n - 1)) := by
          rwa [Shape.readable_reindexed]
        exact .inr (.inr (.inl ⟨hlt, htakes, hx, hshape.removeAt_refused hno⟩))

/-- Without items there is no promise. -/
theorem pop_iff (h : V.Holds db items n) : V.Keeps ⟨db, items⟩ .pop ↔ V.Sound ⟨db, items⟩ .pop := by
  simp only [Keeps, Promise, Sound, next, h.stored, Option.some.injEq, forall_eq', h.childRecord_mem]
  rcases h.pop_cases with ⟨hle, hout⟩ | ⟨hlt, htakes, err, hout⟩ | ⟨hlt, htakes, hx, err, hout⟩ |
    ⟨hlt, htakes, hx, hout⟩
  · have hnil : items = [] := List.eq_nil_iff_forall_not_mem.mpr fun x hx => by
      have := h.pos.2 x hx
      have := h.below x hx
      omega
    rw [hout, hnil]
    exact iff_of_true ⟨nofun, h.numbered⟩ fun hlt => absurd hlt (Nat.not_lt.mpr hle)
  · rw [hout]
    refine iff_of_false ?_ fun hsound => htakes (hsound hlt).1
    rintro ⟨-, m, hstored, -⟩
    rw [h.stored_del] at hstored
    cases hstored
  · rw [hout]
    have hshape := h.reindex (m := n - 1) (Nat.le_sub_one_of_lt hlt)
    by_cases hitems : items = []
    · subst hitems
      refine iff_of_true ⟨nofun, n - 1, hshape.stored, fun x hx => ?_⟩ fun _ => ⟨htakes, fun ⟨x, hx⟩ => ?_⟩
      · exact absurd (hshape.childRecord_mem.mp hx) List.not_mem_nil
      · exact absurd hx List.not_mem_nil
    · refine iff_of_false ?_ fun hsound => ?_
      · rintro ⟨hpop, -⟩
        cases (hpop _ (List.getLast?_eq_some_getLast hitems)).1
      · exact hx ((hsound hlt).2 (List.exists_mem_of_ne_nil _ hitems))
  · rw [hout]
    obtain ⟨m, rfl⟩ : ∃ m, n = m + 1 := ⟨n - 1, by omega⟩
    rw [Nat.add_sub_cancel] at htakes hx ⊢
    have hshape := h.reindex (m := m) (Nat.le_of_lt_succ hlt)
    have hsound : 1 < m + 1 → _ := fun _ => And.intro htakes fun _ : ∃ x, x ∈ items => hx
    have hx := hx.1
    refine iff_of_true ⟨fun x hlast => ⟨rfl, ?_⟩, m, (hshape.removed m).stored, fun x hmem => ?_⟩ hsound
    · rw [h.getLast_eq hx, Option.some.injEq] at hlast
      subst hlast
      exact hshape.popped m (fun k hk => Shape.dups_reindexed m hk) fun r hr => Shape.mem_reindexed m hr
    · have hmem := (hshape.removed m).childRecord_mem.mp hmem
      have hne : x ≠ m := (h.nodup.mem_erase_iff.mp hmem).1
      have := h.below x (List.mem_of_mem_erase hmem)
      omega

-- ---------------------------------------------------------------------------
-- Steps and runs
-- ---------------------------------------------------------------------------

/-- The store that `r` leaves, when it puts one record of an item. -/
theorem putItem (h : V.Holds db items n) (hx : x ∈ items) (hr : Content r) :
    V.Holds (outOf db (rawPut V.fits (V.item x) r db)).1 items n := by
  have hput := rawPut_outcome V.fits (V.item x) r db
  cases hres : rawPut V.fits (V.item x) r db with
  | error err => exact h
  | ok db₁ =>
    rw [hres] at hput
    obtain ⟨htakes, rfl⟩ := hput
    exact h.putContent hx hr

theorem pop_next (h : V.Holds db items n) (hkeeps : V.Keeps ⟨db, items⟩ .pop) :
    ∃ m, V.Holds (V.next ⟨db, items⟩ .pop).db (V.next ⟨db, items⟩ .pop).items m := by
  obtain ⟨-, m, hstored, hbelow⟩ := hkeeps
  simp only [next] at hstored hbelow ⊢
  rcases h.pop_cases with ⟨-, hout⟩ | ⟨-, -, err, hout⟩ | ⟨hlt, -, -, err, hout⟩ | ⟨hlt, -, ⟨hx, -⟩, hout⟩
  · rw [hout]
    exact ⟨n, h⟩
  · rw [hout, h.stored_del] at hstored
    cases hstored
  · rw [hout] at hbelow hstored ⊢
    have hshape := h.reindex (m := n - 1) (Nat.le_sub_one_of_lt hlt)
    rw [hshape.stored, Option.some.injEq] at hstored
    exact ⟨n - 1, hshape, fun x hx => hstored ▸ hbelow x (hshape.childRecord_mem.mpr hx)⟩
  · rw [hout] at hbelow hstored ⊢
    obtain ⟨k, rfl⟩ : ∃ k, n = k + 1 := ⟨n - 1, by omega⟩
    have hshape := (h.reindex (m := k) (Nat.le_of_lt_succ hlt)).removed k
    rw [Nat.add_sub_cancel] at hx hstored hbelow ⊢
    rw [hshape.stored, Option.some.injEq] at hstored
    have hdrop : items.dropLast = items.erase k := by
      obtain ⟨init, rfl⟩ := List.getLast?_eq_some_iff.mp (h.getLast_eq hx)
      have hinit : k ∉ init := fun hmem =>
        Nat.lt_irrefl k ((List.pairwise_append.mp h.sorted).2.2 k hmem k (List.mem_singleton.mpr rfl))
      rw [List.dropLast_concat, List.erase_append_right _ hinit, List.erase_cons_head, List.append_nil]
    rw [if_pos rfl, hdrop]
    exact ⟨k, hshape, fun x hx => hstored ▸ hbelow x (hshape.childRecord_mem.mpr hx)⟩

theorem added_holds (h : V.Holds db items n) {r : Res (Str × Store)}
    (hr : ∃ db', r = .ok (join V.key (tostring n), db') ∧ V.Holds db' (items ++ [n]) (n + 1)) :
    V.Holds (V.added ⟨db, items⟩ r).db (V.added ⟨db, items⟩ r).items (n + 1) := by
  obtain ⟨db', rfl, h'⟩ := hr
  show V.Holds db' (items ++ (V.stored db).toList) (n + 1)
  rwa [h.stored]

theorem remove_next (h : V.Holds db items n) (hx : x ∈ items) :
    V.Holds (V.next ⟨db, items⟩ (.remove x)).db (V.next ⟨db, items⟩ (.remove x)).items n := by
  by_cases hread : V.Readable db x
  · simp only [next, h.removeAt_eq hx hread, if_pos]
    exact h.removed x
  · obtain ⟨err, hout⟩ := h.removeAt_refused fun hr => hread hr.2
    simp only [next, hout]
    exact h

/-- One call keeps its promise if and only if it is sound, and then the number stays above
the items. -/
theorem step (h : V.Holds db items n) {op : VectorOp} (hlegal : VectorRun.Legal ⟨db, items⟩ op) :
    (V.Keeps ⟨db, items⟩ op ↔ V.Sound ⟨db, items⟩ op) ∧
      (V.Keeps ⟨db, items⟩ op → ∃ m, V.Holds (V.next ⟨db, items⟩ op).db (V.next ⟨db, items⟩ op).items m) := by
  cases op with
  | addItem =>
    have hnext (hs : V.Sound ⟨db, items⟩ .addItem) := h.added_holds (h.addItem_ok hs)
    refine ⟨⟨fun hkeeps => h.addItem_iff.mp hkeeps.1, fun hs => ⟨h.addItem_iff.mpr hs, (hnext hs).numbered⟩⟩, ?_⟩
    exact fun hkeeps => ⟨n + 1, hnext (h.addItem_iff.mp hkeeps.1)⟩
  | addItemAsVector tag =>
    have hiff := h.addItemAsVector_iff tag
    have hnext (hs : V.Sound ⟨db, items⟩ (.addItemAsVector tag)) := h.added_holds (h.addItemAsVector_ok hs)
    refine ⟨⟨fun hkeeps => hiff.mp hkeeps.1, fun hs => ⟨hiff.mpr hs, (hnext hs).numbered⟩⟩, ?_⟩
    exact fun hkeeps => ⟨n + 1, hnext (hiff.mp hkeeps.1)⟩
  | pop => exact ⟨h.pop_iff, h.pop_next⟩
  | remove x =>
    have hnext := h.remove_next hlegal
    exact ⟨iff_of_true ⟨trivial, hnext.numbered⟩ trivial, fun _ => ⟨n, hnext⟩⟩
  | addValue x v =>
    have hnext := h.putItem hlegal (.value (fmt v))
    rw [← item_eq] at hnext
    exact ⟨iff_of_true ⟨trivial, hnext.numbered⟩ trivial, fun _ => ⟨n, hnext⟩⟩
  | addAttrib x k v =>
    have hnext := h.putItem hlegal (content_attribRecord k v)
    rw [← item_eq] at hnext
    exact ⟨iff_of_true ⟨trivial, hnext.numbered⟩ trivial, fun _ => ⟨n, hnext⟩⟩

end Holds

/-- Nothing is in a new vector. -/
theorem New.holds (h : V.New db) : V.Holds db [] 1 := by
  obtain ⟨db₀, parent, name, itag, hclean, hkey, hfresh, hadd⟩ := h
  rw [addVectorNodeIn, hkey] at hadd
  obtain ⟨db₁, h₁, hadd⟩ := bind_eq_ok hadd
  obtain ⟨-, rfl⟩ := rawPut_eq_ok h₁
  obtain ⟨db₂, h₂, hadd⟩ := bind_eq_ok hadd
  obtain ⟨-, rfl⟩ := rawPut_eq_ok h₂
  -- only attributes are under the key, and one of them is the number
  have hparent : ¬ Under V.key parent := by
    rw [← hkey, join, hclean]
    exact not_under_child
  have hfresh : Fresh (db₀.put parent (childRecord name)) V.key := fun k hk => by
    have hne : k ≠ parent := fun heq => hparent (heq ▸ hk)
    rw [Library.MultiMap.dups_put_of_ne hne, hfresh k hk]
  have hbase : V.Shape ((db₀.put parent (childRecord name)).put V.key (nextIndex 1)) [] 1 :=
    Shape.new hfresh
  cases itag with
  | none =>
    cases hadd
    exact ⟨hbase, fun e he => absurd he List.not_mem_nil⟩
  | some tag =>
    obtain ⟨-, rfl⟩ := rawPut_eq_ok hadd
    exact ⟨hbase.putTag tag, fun e he => absurd he List.not_mem_nil⟩

end VectorNode

end GalaLua.GalaDB
