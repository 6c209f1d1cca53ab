import GalaLua.GalaDB.Vectors

/-!
# Composing paths

`_xpath` tries the literal key of the path. If it has no records, `_xpath` starts
again at the element's root, from the names of the node's key, and what it finds there
is no longer found from the element. Looking up a path in two parts and looking up a
name with `get_child` agree with it in the stores that are `Direct`, and in no others
(`composable_iff`).
-/

namespace GalaLua.GalaDB

open Library.Lua

-- ---------------------------------------------------------------------------
-- Lookups
-- ---------------------------------------------------------------------------

/-- `get_child` with a name. -/
def getChildNamed (db : Store) (e : Elem) (name : Str) : Res (Option Elem) :=
  (getChild db e).map (List.lookup name)

/-- `get_child` for one name after the other, as long as there is an element. -/
def descend (db : Store) : Elem → List Str → Res (Option Elem)
  | e, [] => .ok (some e)
  | e, n :: ns =>
    (getChildNamed db e n).bind fun child =>
      match child with
      | some c => descend db c ns
      | none => .ok none

/-- `e:_xpath(path)`, with a stack that is deep enough. -/
def Finds (db : Store) (root e : Elem) (path : Str) (found : Option Elem) : Prop :=
  ∃ d, ∀ depth ≥ d, xpathPlain db root depth e path = .ok found

/-- `e:_xpath(a):_xpath(b)`, or nil where the first call gives nil. -/
inductive FindsTwice (db : Store) (root e : Elem) (a b : Str) : Option Elem → Prop
  | missing (ha : Finds db root e a none) : FindsTwice db root e a b none
  | next {p : Elem} {found : Option Elem} (ha : Finds db root e a (some p)) (hb : Finds db root p b found) :
      FindsTwice db root e a b found

/-- The elements that `get_child` and `_xpath` lead to from the root. -/
inductive Found (db : Store) (root : Elem) : Elem → Prop
  | root : Found db root root
  | child {e c : Elem} {n : Str} (h : Found db root e) (hc : getChildNamed db e n = .ok (some c)) : Found db root c
  | path {e c : Elem} {p : List Str} (h : Found db root e) (hp : ∀ n ∈ p, Proper n)
      (hc : Finds db root e (concat p) (some c)) : Found db root c

/-- The names that `get_root` is called with. -/
structure RootName (r : Str) : Prop where
  slash : '/' ∉ r
  quote : backquote ∉ r
  clean : Clean ('/' :: r)

/-- `_xpath` of a single name is `get_child`, and a path can be looked up in two parts. -/
structure Composable (db : Store) : Prop where
  single : ∀ {r e n}, RootName r → Found db (getRoot r) e → Proper n →
    ∃ found, Finds db (getRoot r) e n found ∧ getChildNamed db e n = .ok found
  parts : ∀ {r e a b}, RootName r → Found db (getRoot r) e → (∀ n ∈ a, Proper n) → (∀ n ∈ b, Proper n) → a ≠ [] →
    b ≠ [] → ∃ found, Finds db (getRoot r) e (concat a ++ '/' :: concat b) found ∧
      FindsTwice db (getRoot r) e (concat a) (concat b) found

-- ---------------------------------------------------------------------------
-- The condition
-- ---------------------------------------------------------------------------

/-- The node that a record of the name leads to. -/
def kidOf (key n : Str) : Str → Option Str
  | 'c' :: ':' :: name => if name = n then some (key ++ '/' :: n) else none
  | 's' :: ':' :: link =>
    if link.takeWhile (· ≠ backquote) = n then some ((link.dropWhile (· ≠ backquote)).drop 1) else none
  | _ => none

/-- The last record of a name counts. -/
def kid (db : Store) (key n : Str) : Option Str := ((db.dups key).filterMap (kidOf key n)).getLast?

def follow (db : Store) : Str → List Str → Option Str
  | key, [] => some key
  | key, n :: ns => (kid db key n).bind fun key => follow db key ns

def namesOf (key : Str) : List Str := (pieces '/' key).drop 2

/-- The keys are short, and no link has the name of a child with records. An element
that was found by other names than those of its node's key has no child without
records, and the names of the key lead to none either in the element's root. -/
structure Direct (db : Store) : Prop where
  short : ∀ {key}, db.dups key ≠ [] → key.length < 1000
  apart : ∀ {key n target}, backquote ∉ n → 's' :: ':' :: (n ++ backquote :: target) ∈ db.dups key →
    db.dups (key ++ '/' :: n) = []
  far : ∀ {r q key n}, RootName r → follow db ('/' :: r) q = some key → namesOf key ≠ q → Proper n →
    db.dups (key ++ '/' :: n) = [] →
      follow db ('/' :: r) (q ++ [n]) = none ∧ follow db ('/' :: r) (namesOf key ++ [n]) = none

def Title (v : Str) : Prop :=
  ∀ n, v = 'c' :: ':' :: n ∨ (backquote ∉ n ∧ ∃ target, v = 's' :: ':' :: (n ++ backquote :: target)) → n ≠ []

def Titled (db : Store) : Prop := ∀ key, ∀ v ∈ db.dups key, Title v

def Op.Named : Op → Prop
  | .addNode _ k | .addPair _ k _ | .addVectorNode _ k _ | .addRef _ k _ => fmt k ≠ []
  | _ => True

variable {db : Store} {r n m key target v : Str} {q a k : List Str} {e c root : Elem}

-- ---------------------------------------------------------------------------
-- Keys and names
-- ---------------------------------------------------------------------------

/-- The key that the names lead to when there are no links. -/
def place (r : Str) (q : List Str) : Str := '/' :: concat (r :: q)

theorem place_snoc (r : Str) (q : List Str) (n : Str) : place r (q ++ [n]) = place r q ++ '/' :: n := by
  rw [place, place, ← List.cons_append, concat_concat (List.cons_ne_nil _ _), List.cons_append]

theorem place_nil (r : Str) : place r [] = '/' :: r := by rw [place, concat_one]

theorem RootName.path (h : RootName r) : Path ('/' :: r) := .root ⟨r, h.slash, h.quote, rfl⟩ h.clean

theorem namesOf_place (hr : '/' ∉ r) (hq : ∀ n ∈ q, '/' ∉ n) : namesOf (place r q) = q := by
  rw [namesOf, place, pieces, if_pos rfl, pieces_concat (List.forall_mem_cons.mpr ⟨hr, hq⟩)]
  rfl

theorem namesOf_root (hr : '/' ∉ r) : namesOf ('/' :: r) = [] := by
  have hplace : namesOf (place r []) = [] := namesOf_place hr nofun
  rwa [place_nil] at hplace

theorem Path.exists_place (h : Path key) : ∃ r q, RootName r ∧ (∀ n ∈ q, Name n) ∧ key = place r q := by
  induction h with
  | root h hclean =>
    obtain ⟨r, hslash, hquote, rfl⟩ := h
    exact ⟨r, [], ⟨hslash, hquote, hclean⟩, fun _ hn => absurd hn List.not_mem_nil, (place_nil r).symm⟩
  | @child key n _ hn ih =>
    obtain ⟨r, q, hr, hq, rfl⟩ := ih
    exact ⟨r, q ++ [n], hr, List.forall_mem_append.mpr ⟨hq, List.forall_mem_singleton.mpr hn⟩, (place_snoc r q n).symm⟩

theorem Path.place (h : Path key) : ∃ r, RootName r ∧ (∀ n ∈ namesOf key, Name n) ∧ place r (namesOf key) = key := by
  obtain ⟨r, q, hr, hq, rfl⟩ := h.exists_place
  rw [namesOf_place hr.slash fun n hn => (hq n hn).slash]
  exact ⟨r, hr, hq, rfl⟩

theorem namesOf_child (h : Path key) (hn : Name n) : namesOf (key ++ '/' :: n) = namesOf key ++ [n] := by
  obtain ⟨r, q, hr, hq, rfl⟩ := h.exists_place
  have hall : ∀ m ∈ q ++ [n], Name m := List.forall_mem_append.mpr ⟨hq, List.forall_mem_singleton.mpr hn⟩
  rw [← place_snoc, namesOf_place hr.slash fun m hm => (hall m hm).slash,
    namesOf_place hr.slash fun m hm => (hq m hm).slash]

/-- A path of names that are not empty. -/
structure Way (key : Str) : Prop where
  path : Path key
  names : ∀ n ∈ namesOf key, n ≠ []

theorem Way.proper (h : Way key) : ∀ n ∈ namesOf key, Proper n := by
  obtain ⟨-, -, hall, -⟩ := h.path.place
  exact fun n hn => ⟨hall n hn, h.names n hn⟩

theorem RootName.way (h : RootName r) : Way ('/' :: r) where
  path := h.path
  names := by
    rw [namesOf_root h.slash]
    exact nofun

theorem Way.child (h : Way key) (hn : Proper n) : Way (key ++ '/' :: n) where
  path := .child h.path hn.toName
  names := by
    rw [namesOf_child h.path hn.toName]
    exact List.forall_mem_append.mpr ⟨h.names, List.forall_mem_singleton.mpr hn.ne⟩

theorem relative_place (hr : RootName r) (q : List Str) (ha : a ≠ []) :
    relative (place r q ++ '/' :: concat a) = some (concat (q ++ a)) := by
  cases q with
  | nil =>
    rw [place, concat_one, List.cons_append, relative_cons hr.slash, List.nil_append]
  | cons m q =>
    obtain ⟨n, a, rfl⟩ := List.exists_cons_of_ne_nil ha
    rw [place, concat_cons, List.cons_append, List.append_assoc, List.cons_append, relative_cons hr.slash,
      ← concat_append]

-- ---------------------------------------------------------------------------
-- The last record of a name
-- ---------------------------------------------------------------------------

theorem last_filterMap {α β : Type} [LinearOrder α] {f : α → Option β} {l : List α} {b : β}
    (h : l.Pairwise (· < ·)) (hlast : (l.filterMap f).getLast? = some b) :
    ∃ y ∈ l, f y = some b ∧ ∀ x ∈ l, f x ≠ none → x ≤ y := by
  induction l using List.reverseRecOn with
  | nil => cases hlast
  | append_singleton l z ih =>
    obtain ⟨hl, -, hz⟩ := List.pairwise_append.mp h
    cases hfz : f z with
    | none =>
      rw [List.filterMap_append, List.filterMap_cons_none hfz, List.filterMap_nil, List.append_nil] at hlast
      obtain ⟨y, hy, hfy, hmax⟩ := ih hl hlast
      refine ⟨y, List.mem_append_left _ hy, hfy, fun x hx hfx => ?_⟩
      rcases List.mem_append.mp hx with hx | hx
      · exact hmax x hx hfx
      · rw [List.mem_singleton.mp hx] at hfx
        exact absurd hfz hfx
    | some c =>
      rw [List.filterMap_append, List.filterMap_cons_some hfz, List.filterMap_nil, List.getLast?_concat] at hlast
      refine ⟨z, List.mem_append_right _ List.mem_cons_self, hfz.trans hlast, fun x hx _ => ?_⟩
      rcases List.mem_append.mp hx with hx | hx
      · exact (hz x hx z List.mem_cons_self).le
      · exact (List.mem_singleton.mp hx).le

theorem getLast?_eq_of_forall {α : Type} {l : List α} {b : α} (hmem : b ∈ l) (h : ∀ x ∈ l, x = b) :
    l.getLast? = some b := by
  cases hlast : l.getLast? with
  | none => exact absurd hmem (List.getLast?_eq_none_iff.mp hlast ▸ List.not_mem_nil)
  | some x => rw [h x (List.mem_of_getLast? hlast)]

def pick (f : Str → Res (Option (Str × Elem))) (n v : Str) : Option Elem :=
  match f v with
  | .ok (some child) => if child.1 = n then some child.2 else none
  | _ => none

theorem pick_ok {f : Str → Res (Option (Str × Elem))} (h : f v = .ok (some (m, c))) (n : Str) :
    pick f n v = if m = n then some c else none := by
  rw [pick, h]

theorem lookup_foldlM {f : Str → Res (Option (Str × Elem))} {l : List Str} {d cs : List (Str × Elem)}
    (h : l.foldlM (addChild f) d = .ok cs) (n : Str) :
    cs.lookup n = ((l.filterMap (pick f n)).getLast?).or (d.lookup n) := by
  induction l generalizing d with
  | nil =>
    cases h
    rfl
  | cons v l ih =>
    obtain ⟨child, hchild, h⟩ := foldlM_cons_ok h
    rw [ih h]
    cases child with
    | none =>
      have hpick : pick f n v = none := by rw [pick, hchild]
      rw [List.filterMap_cons_none hpick]
    | some child =>
      rw [lookup_setKey]
      by_cases hn : child.1 = n
      · have hpick : pick f n v = some child.2 := by rw [pick, hchild]; exact if_pos hn
        rw [List.filterMap_cons_some hpick, List.getLast?_cons, if_pos hn.symm]
        cases (l.filterMap (pick f n)).getLast? <;> rfl
      · have hpick : pick f n v = none := by rw [pick, hchild]; exact if_neg hn
        rw [List.filterMap_cons_none hpick, if_neg (Ne.symm hn)]

/-- What `get_child` finds under the name. -/
def lastNamed (db : Store) (e : Elem) (n : Str) : Option Elem :=
  ((db.dups e.key).filterMap (pick (childOf e) n)).getLast?

-- ---------------------------------------------------------------------------
-- Elements and the names they were found by
-- ---------------------------------------------------------------------------

/-- The element at the names: the node of that key, or a link to any node. -/
inductive Stands (r : Str) (q : List Str) : Elem → Prop
  | regular (hplace : Way (place r q)) (isRoot : Bool) : Stands r q ⟨place r q, none, .regular, isRoot⟩
  | ref {key : Str} (hkey : Way key) (hplace : Way (place r q)) : Stands r q ⟨key, some (place r q), .ref, false⟩

/-- The element that `_xpath` makes of a literal key. -/
def Elem.below (e : Elem) (path : Str) : Elem :=
  ⟨e.key ++ '/' :: path, e.realKey.map (· ++ '/' :: path), e.eType, false⟩

def Elem.link (e : Elem) (n target : Str) : Elem := ⟨target, some (e.path ++ '/' :: n), .ref, false⟩

namespace Stands

theorem way (h : Stands r q e) : Way e.key := by
  cases h with
  | regular hplace _ => exact hplace
  | ref hkey _ => exact hkey

theorem place (h : Stands r q e) : Way (GalaDB.place r q) := by
  cases h with
  | regular hplace _ => exact hplace
  | ref _ hplace => exact hplace

theorem path (h : Stands r q e) : e.path = GalaDB.place r q := by
  cases h <;> rfl

theorem of_root (hr : RootName r) : Stands r [] (getRoot r) := by
  have hway := hr.way
  rw [← place_nil] at hway
  rw [getRoot, ← place_nil]
  exact .regular hway true

theorem below (h : Stands r q e) (hn : Proper n) : Stands r (q ++ [n]) (e.below n) := by
  have hplace := h.place.child hn
  rw [← place_snoc] at hplace
  cases h with
  | regular _ _ =>
    rw [Elem.below, ← place_snoc]
    exact .regular hplace false
  | ref hkey _ =>
    rw [Elem.below, Option.map_some, ← place_snoc]
    exact .ref (hkey.child hn) hplace

theorem link (h : Stands r q e) (hn : Proper n) (htarget : Way target) : Stands r (q ++ [n]) (e.link n target) := by
  have hplace := h.place.child hn
  rw [← place_snoc] at hplace
  rw [Elem.link, h.path, ← place_snoc]
  exact .ref htarget hplace

theorem childOf_child (h : Stands r q e) (hn : Name n) :
    childOf e ('c' :: ':' :: n) = .ok (some (n, e.below n)) := by
  cases h with
  | regular hplace _ => exact GalaDB.childOf_child hplace.path hn
  | ref hkey hplace =>
    rw [childOf, join_eq hkey.path.clean hn.clean, Elem.path, Option.getD_some, join_eq hplace.path.clean hn.clean]
    rfl

theorem childOf_link (h : Stands r q e) (hn : Proper n) (htarget : Path target) :
    childOf e ('s' :: ':' :: (n ++ backquote :: target)) = .ok (some (n, e.link n target)) := by
  rw [childOf, split_two hn.ne hn.quote htarget.ne_nil htarget.quote, Elem.link, h.path,
    ← join_eq h.place.path.clean hn.clean]

/-- What `get_child` makes of one record. -/
structure Picks (r : Str) (q : List Str) (e : Elem) (n v : Str) : Prop where
  ok : ∃ child, childOf e v = .ok child
  key : (pick (childOf e) n v).map Elem.key = kidOf e.key n v
  stands : ∀ c ∈ pick (childOf e) n v, Proper n ∧ Stands r (q ++ [n]) c

theorem Picks.of_none (hchild : childOf e v = .ok none) (hkid : kidOf e.key n v = none) : Picks r q e n v where
  ok := ⟨none, hchild⟩
  key := by rw [pick, hchild, hkid, Option.map_none]
  stands := by
    rw [pick, hchild]
    exact nofun

theorem Picks.of_some (hchild : childOf e v = .ok (some (m, c))) (hm : Proper m) (hc : Stands r (q ++ [m]) c)
    (hkid : kidOf e.key n v = if m = n then some c.key else none) : Picks r q e n v where
  ok := ⟨_, hchild⟩
  key := by
    rw [pick_ok hchild, hkid]
    split <;> rfl
  stands := by
    rw [pick_ok hchild]
    split
    · next heq =>
      subst heq
      rintro _ ⟨⟩
      exact ⟨hm, hc⟩
    · exact nofun

end Stands

-- ---------------------------------------------------------------------------
-- One name
-- ---------------------------------------------------------------------------

/-- The store as the operations leave it. -/
structure Kept (db : Store) : Prop where
  inv : Inv db
  titled : Titled db

namespace Kept

theorem proper_child (h : Kept db) (hmem : 'c' :: ':' :: n ∈ db.dups key) : Proper n :=
  ⟨h.inv.name_of_child hmem, h.titled _ _ hmem n (.inl rfl)⟩

theorem proper_link (h : Kept db) (hn : backquote ∉ n) (hmem : 's' :: ':' :: (n ++ backquote :: target) ∈ db.dups key) :
    Proper n := by
  obtain ⟨n', target', hname, -, heq⟩ := h.inv.link_of_mem hmem
  obtain ⟨rfl, -⟩ := append_cons_inj hn hname.quote heq
  exact ⟨hname, h.titled _ _ hmem n (.inr ⟨hn, target, rfl⟩)⟩

theorem way_of_present (h : Kept db) (hpresent : Present db key) (hclean : Clean key) : Way key := by
  refine ⟨h.inv.path_of_present hpresent hclean, ?_⟩
  clear hclean
  induction hpresent with
  | root hroot =>
    obtain ⟨r, hslash, -, rfl⟩ := hroot
    rw [namesOf_root hslash]
    exact nofun
  | @child key n _ hchild ih =>
    have hn := h.proper_child hchild
    rw [namesOf_child (h.inv.path hchild) hn.toName]
    exact List.forall_mem_append.mpr ⟨ih, List.forall_mem_singleton.mpr hn.ne⟩

theorem way_of_link (h : Kept db) (hn : Name n) (hmem : 's' :: ':' :: (n ++ backquote :: target) ∈ db.dups key) :
    Way target := by
  have href := (h.inv.links hn.slash hn.quote).mp hmem
  exact h.way_of_present (h.inv.present href) (h.inv.path href).clean

theorem picks (h : Kept db) (he : Stands r q e) (hv : v ∈ db.dups e.key) (n : Str) : Stands.Picks r q e n v := by
  cases h.inv.record hv with
  | attrib s => exact .of_none rfl rfl
  | value s => exact .of_none rfl rfl
  | @child m hm =>
    refine .of_some (he.childOf_child hm) (h.proper_child hv) (he.below (h.proper_child hv)) ?_
    rw [kidOf]
    by_cases heq : m = n
    · rw [if_pos heq, if_pos heq, Elem.below, heq]
    · rw [if_neg heq, if_neg heq]
  | @link m target hm htarget =>
    have hproper := h.proper_link hm.quote hv
    refine .of_some (he.childOf_link hproper htarget) hproper (he.link hproper (h.way_of_link hm hv)) ?_
    have hall : ∀ ch ∈ m, decide (ch ≠ backquote) = true := fun ch hch =>
      decide_eq_true fun heq => hm.quote (heq ▸ hch)
    rw [kidOf, List.takeWhile_append_of_pos hall, List.dropWhile_append_of_pos hall]
    simp [Elem.link]
  | ref _ _ => exact .of_none rfl rfl

theorem named (h : Kept db) (he : Stands r q e) (hshort : db.dups e.key ≠ [] → e.key.length < 1000) (n : Str) :
    getChildNamed db e n = .ok (lastNamed db e n) := by
  have hlong : ¬ (db.dups e.key ≠ [] ∧ 1000 ≤ e.key.length) := fun hlong =>
    absurd (hshort hlong.1) (Nat.not_lt.mpr hlong.2)
  have hgood : ∀ v ∈ db.dups e.key, ∃ child, childOf e v = .ok child := fun v hv => (h.picks he hv n).ok
  have hstep (d : List (Str × Elem)) (v : Str) :
      (∃ d', addChild (childOf e) d v = .ok d') ↔ ∃ child, childOf e v = .ok child := by
    rw [addChild]
    cases childOf e v with
    | error err => exact iff_of_false (by rintro ⟨_, ⟨⟩⟩) (by rintro ⟨_, ⟨⟩⟩)
    | ok child => exact iff_of_true ⟨_, rfl⟩ ⟨_, rfl⟩
  obtain ⟨cs, hcs⟩ := (foldlM_ok_iff hstep (db.dups e.key) []).mpr hgood
  have hchild : getChild db e = .ok cs := by
    rw [getChild, if_neg hlong]
    exact hcs
  rw [getChildNamed, hchild, lastNamed]
  have hlookup := lookup_foldlM hcs n
  rw [List.lookup_nil, Option.or_none] at hlookup
  exact congrArg Except.ok hlookup

theorem kid_eq (h : Kept db) (he : Stands r q e) (n : Str) : kid db e.key n = (lastNamed db e n).map Elem.key := by
  rw [kid, lastNamed, ← List.getLast?_map, List.map_filterMap]
  exact congrArg List.getLast? (List.filterMap_congr fun v hv => ((h.picks he hv n).key).symm)

theorem lastNamed_stands (h : Kept db) (he : Stands r q e) (hc : lastNamed db e n = some c) :
    Proper n ∧ Stands r (q ++ [n]) c := by
  obtain ⟨v, hv, hpick⟩ := List.mem_filterMap.mp (List.mem_of_getLast? hc)
  exact (h.picks he hv n).stands c hpick

/-- A name for a child and no link. -/
theorem lastNamed_child (h : Kept db) (he : Stands r q e) (hchild : 'c' :: ':' :: n ∈ db.dups e.key)
    (hlink : ∀ target, 's' :: ':' :: (n ++ backquote :: target) ∉ db.dups e.key) :
    lastNamed db e n = some (e.below n) := by
  refine getLast?_eq_of_forall (List.mem_filterMap.mpr ⟨_, hchild, ?_⟩) fun c hmem => ?_
  · rw [pick_ok (he.childOf_child (h.inv.name_of_child hchild)), if_pos rfl]
  obtain ⟨v, hv, hc⟩ := List.mem_filterMap.mp hmem
  cases h.inv.record hv with
  | attrib s => cases hc
  | value s => cases hc
  | @child m hm =>
    rw [pick_ok (he.childOf_child hm)] at hc
    split at hc
    · next heq =>
      subst heq
      exact (Option.some.inj hc).symm
    · cases hc
  | @link m target hm htarget =>
    rw [pick_ok (he.childOf_link (h.proper_link hm.quote hv) htarget)] at hc
    by_cases heq : m = n
    · subst heq
      exact absurd hv (hlink target)
    · rw [if_neg heq] at hc
      cases hc
  | ref _ _ => cases hc

end Kept

-- ---------------------------------------------------------------------------
-- Many names
-- ---------------------------------------------------------------------------

theorem descend_append (db : Store) (e : Elem) (a b : List Str) :
    descend db e (a ++ b) = (descend db e a).bind fun found =>
      match found with
      | some c => descend db c b
      | none => .ok none := by
  induction a generalizing e with
  | nil => rfl
  | cons n a ih =>
    rw [List.cons_append, descend, descend]
    cases getChildNamed db e n with
    | error err => rfl
    | ok child =>
      cases child with
      | none => rfl
      | some c => exact ih c

theorem descend_one (db : Store) (e : Elem) (n : Str) : descend db e [n] = getChildNamed db e n := by
  rw [descend]
  cases getChildNamed db e n with
  | error err => rfl
  | ok child => cases child <;> rfl

theorem descend_snoc (db : Store) (e : Elem) (a : List Str) (n : Str) :
    descend db e (a ++ [n]) = (descend db e a).bind fun parent =>
      match parent with
      | some p => getChildNamed db p n
      | none => .ok none := by
  rw [descend_append]
  refine congrArg (Except.bind _) (funext fun found => ?_)
  cases found with
  | none => rfl
  | some c => exact descend_one db c n

theorem Found.descend {ns : List Str} (h : Found db root e) (hc : GalaDB.descend db e ns = .ok (some c)) :
    Found db root c := by
  induction ns generalizing e with
  | nil =>
    cases hc
    exact h
  | cons n ns ih =>
    obtain ⟨child, hchild, hc⟩ := bind_eq_ok hc
    cases child with
    | none => cases hc
    | some c' => exact ih (.child h hchild) hc

/-- A key with records is known under the key in front of its last name. -/
theorem Inv.child_of_records (h : Inv db) (hkey : Path key) (hn : '/' ∉ n) (hne : db.dups (key ++ '/' :: n) ≠ []) :
    'c' :: ':' :: n ∈ db.dups key := by
  obtain ⟨v, hv⟩ := List.exists_mem_of_ne_nil _ hne
  rcases h.children hv with ⟨m, hm, -, heq⟩ | ⟨parent, name, hname, heq, hchild⟩
  · obtain ⟨ch, s, rfl⟩ := List.exists_cons_of_ne_nil hkey.ne_nil
    rw [← (List.cons.inj heq).2] at hm
    exact absurd (List.mem_append_right _ List.mem_cons_self) hm
  · obtain ⟨rfl, rfl⟩ := path_inj hn hname heq
    exact hchild

theorem Inv.first_of_records (h : Inv db) (hkey : Path key) (ha : ∀ m ∈ n :: a, Name m)
    (hne : db.dups (key ++ '/' :: concat (n :: a)) ≠ []) : 'c' :: ':' :: n ∈ db.dups key := by
  induction a generalizing key n with
  | nil =>
    rw [concat_one] at hne
    exact h.child_of_records hkey (ha n List.mem_cons_self).slash hne
  | cons m a ih =>
    obtain ⟨hn, ha⟩ := List.forall_mem_cons.mp ha
    have hassoc : key ++ '/' :: concat (n :: m :: a) = (key ++ '/' :: n) ++ '/' :: concat (m :: a) := by
      rw [concat_cons, List.append_assoc, List.cons_append]
    rw [hassoc] at hne
    exact h.child_of_records hkey hn.slash (List.ne_nil_of_mem (ih (.child hkey hn) ha hne))

theorem Elem.below_below (e : Elem) (n path : Str) : (e.below n).below path = e.below (n ++ '/' :: path) := by
  simp [Elem.below, Option.map_map, Function.comp_def]

theorem concat_ne (ha : ∀ n ∈ a, Proper n) (hne : a ≠ []) : concat a ≠ [] := by
  obtain ⟨n, a, rfl⟩ := List.exists_cons_of_ne_nil hne
  exact List.append_ne_nil_of_left_ne_nil (ha n List.mem_cons_self).ne _

theorem clean_path (ha : ∀ n ∈ a, Proper n) : Clean (concat a) := clean_concat fun n hn => (ha n hn).clean

theorem xpathPlain_literal (he : Stands r q e) (ha : ∀ n ∈ a, Proper n) (hne : a ≠ [])
    (hrecords : db.dups (e.key ++ '/' :: concat a) ≠ []) (depth : Nat) :
    xpathPlain db root (depth + 1) e (concat a) = .ok (some (e.below (concat a))) := by
  rw [xpathPlain, if_neg (concat_ne ha hne), join_eq he.way.path.clean (clean_path ha), if_pos hrecords, Elem.below]
  cases he with
  | regular _ _ => rfl
  | ref _ hplace => rw [Option.map_some, Option.map_some, join_eq hplace.path.clean (clean_path ha)]

/-- The lengths of the keys are in bounds and no link hides a child that has records. -/
structure Orderly (db : Store) : Prop extends Kept db where
  short : ∀ {key}, db.dups key ≠ [] → key.length < 1000
  apart : ∀ {key n target}, backquote ∉ n → 's' :: ':' :: (n ++ backquote :: target) ∈ db.dups key →
    db.dups (key ++ '/' :: n) = []

namespace Orderly

theorem named (h : Orderly db) (he : Stands r q e) (n : Str) : getChildNamed db e n = .ok (lastNamed db e n) :=
  h.toKept.named he h.short n

theorem descend (h : Orderly db) (he : Stands r q e) (a : List Str) :
    ∃ found, GalaDB.descend db e a = .ok found ∧ found.map Elem.key = follow db e.key a ∧
      ∀ c ∈ found, Stands r (q ++ a) c ∧ ∀ n ∈ a, Proper n := by
  induction a generalizing q e with
  | nil =>
    refine ⟨some e, rfl, rfl, ?_⟩
    rintro _ ⟨⟩
    rw [List.append_nil]
    exact ⟨he, nofun⟩
  | cons n a ih =>
    rw [GalaDB.descend, h.named he, follow, h.kid_eq he]
    cases hlast : lastNamed db e n with
    | none => exact ⟨none, rfl, rfl, nofun⟩
    | some c =>
      obtain ⟨hn, hc⟩ := h.lastNamed_stands he hlast
      obtain ⟨found, hfound, hkey, hstands⟩ := ih hc
      refine ⟨found, hfound, hkey, fun c' hc' => ?_⟩
      obtain ⟨hc', ha⟩ := hstands c' hc'
      rw [List.append_assoc] at hc'
      exact ⟨hc', List.forall_mem_cons.mpr ⟨hn, ha⟩⟩

theorem stands (h : Orderly db) (he : Stands r q e) (hc : GalaDB.descend db e a = .ok (some c)) :
    Stands r (q ++ a) c ∧ ∀ n ∈ a, Proper n := by
  obtain ⟨found, hfound, -, hstands⟩ := h.descend he a
  obtain rfl := Except.ok.inj (hc.symm.trans hfound)
  exact hstands c rfl

theorem named_child (h : Orderly db) (he : Stands r q e) (hchild : 'c' :: ':' :: n ∈ db.dups e.key)
    (hne : db.dups (e.key ++ '/' :: n) ≠ []) : getChildNamed db e n = .ok (some (e.below n)) := by
  rw [h.named he, h.lastNamed_child he hchild fun target hlink => hne (h.apart (h.proper_child hchild).quote hlink)]

/-- The names of a literal key with records lead to it. -/
theorem descend_literal (h : Orderly db) (he : Stands r q e) (ha : ∀ m ∈ a, Proper m) (hne : a ≠ [])
    (hrecords : db.dups (e.key ++ '/' :: concat a) ≠ []) :
    GalaDB.descend db e a = .ok (some (e.below (concat a))) := by
  induction a generalizing q e with
  | nil => exact absurd rfl hne
  | cons n a ih =>
    have hchild := h.inv.first_of_records he.way.path (fun m hm => (ha m hm).toName) hrecords
    cases a with
    | nil =>
      rw [concat_one] at hrecords ⊢
      rw [descend_one, h.named_child he hchild hrecords]
    | cons m a =>
      obtain ⟨hn, ha⟩ := List.forall_mem_cons.mp ha
      have hassoc : e.key ++ '/' :: concat (n :: m :: a) = (e.below n).key ++ '/' :: concat (m :: a) := by
        rw [concat_cons, Elem.below, List.append_assoc, List.cons_append]
      rw [hassoc] at hrecords
      have hnext := h.inv.first_of_records (he.below hn).way.path (fun m hm => (ha m hm).toName) hrecords
      rw [GalaDB.descend, h.named_child he hchild (List.ne_nil_of_mem hnext), concat_cons, ← Elem.below_below]
      exact ih (he.below hn) ha (List.cons_ne_nil _ _) hrecords

/-- From the root `_xpath` finds what the names lead to. -/
theorem xpath_root (h : Orderly db) (hr : RootName r) (hk : ∀ m ∈ k, Proper m) {depth : Nat}
    (hdepth : k.length < depth) :
    xpathPlain db (getRoot r) depth (getRoot r) (concat k) = GalaDB.descend db (getRoot r) k := by
  induction k using List.reverseRecOn generalizing depth with
  | nil =>
    obtain ⟨d, rfl⟩ : ∃ d, depth = d + 1 := ⟨depth - 1, by omega⟩
    rfl
  | append_singleton k m ih =>
    rw [List.length_append, List.length_singleton] at hdepth
    obtain ⟨d, rfl⟩ : ∃ d, depth = d + 1 := ⟨depth - 1, by omega⟩
    have hne : k ++ [m] ≠ [] := List.append_ne_nil_of_right_ne_nil _ (List.cons_ne_nil _ _)
    by_cases hrecords : db.dups ((getRoot r).key ++ '/' :: concat (k ++ [m])) = []
    · obtain ⟨hk', hm⟩ := List.forall_mem_append.mp hk
      rw [xpathPlain_absent hr.clean (clean_path hk) (concat_ne hk hne) hrecords (relative_cons hr.slash _)
        (hm m List.mem_cons_self), ih hk' (by omega), descend_snoc]
      rfl
    · rw [xpathPlain_literal (.of_root hr) hk hne hrecords, h.descend_literal (.of_root hr) hk hne hrecords]

/-- Without records `_xpath` finds what the names of the node's key and those of the
path lead to from the root. -/
theorem xpath_absent (h : Orderly db) (hr : RootName r) (he : Stands r q e) (ha : ∀ m ∈ a, Proper m) (hne : a ≠ [])
    (habsent : db.dups (e.key ++ '/' :: concat a) = []) {depth : Nat}
    (hdepth : (namesOf e.key).length + a.length < depth) :
    xpathPlain db (getRoot r) depth e (concat a) = GalaDB.descend db (getRoot r) (namesOf e.key ++ a) := by
  obtain ⟨d, rfl⟩ : ∃ d, depth = d + 1 := ⟨depth - 1, by omega⟩
  obtain ⟨a, m, rfl⟩ := (List.eq_nil_or_concat' a).resolve_left hne
  obtain ⟨ha', hm⟩ := List.forall_mem_append.mp ha
  obtain ⟨r₂, hr₂, -, hplace⟩ := he.way.path.place
  have hrelative : relative (e.key ++ '/' :: concat (a ++ [m])) = some (concat ((namesOf e.key ++ a) ++ [m])) := by
    conv_lhs => rw [← hplace]
    rw [relative_place hr₂ _ hne, List.append_assoc]
  rw [List.length_append, List.length_singleton] at hdepth
  rw [xpathPlain_absent he.way.path.clean (clean_path ha) (concat_ne ha hne) habsent hrelative (hm m List.mem_cons_self),
    h.xpath_root hr (List.forall_mem_append.mpr ⟨he.way.proper, ha'⟩) (by rw [List.length_append]; omega),
    ← List.append_assoc, descend_snoc]
  rfl

theorem descend_none (h : Orderly db) (hr : RootName r) (hnone : follow db ('/' :: r) k = none) :
    GalaDB.descend db (getRoot r) k = .ok none := by
  obtain ⟨found, hfound, hkey, -⟩ := h.descend (.of_root hr) k
  rw [hfound, Option.map_eq_none_iff.mp (hkey.trans hnone)]

theorem follow_some (h : Orderly db) (hr : RootName r) (hlive : GalaDB.descend db (getRoot r) q = .ok (some e)) :
    follow db ('/' :: r) q = some e.key := by
  obtain ⟨found, hfound, hkey, -⟩ := h.descend (.of_root hr) q
  obtain rfl := Except.ok.inj (hlive.symm.trans hfound)
  exact hkey.symm

end Orderly

-- ---------------------------------------------------------------------------
-- Stores that are direct
-- ---------------------------------------------------------------------------

theorem Direct.orderly (h : Direct db) (hkept : Kept db) : Orderly db := ⟨hkept, h.short, h.apart⟩

/-- An element that was found by other names than those of its key: the first name
that leads to no records leads nowhere. -/
theorem Direct.nowhere (h : Direct db) (hkept : Kept db) (hr : RootName r) (he : Stands r q e)
    (hlive : descend db (getRoot r) q = .ok (some e)) (hother : namesOf e.key ≠ q) (ha : ∀ m ∈ a, Proper m)
    (hne : a ≠ []) (habsent : db.dups (e.key ++ '/' :: concat a) = []) :
    descend db (getRoot r) (q ++ a) = .ok none ∧ descend db (getRoot r) (namesOf e.key ++ a) = .ok none := by
  have horderly := h.orderly hkept
  induction a generalizing q e with
  | nil => exact absurd rfl hne
  | cons n a ih =>
    obtain ⟨hn, ha⟩ := List.forall_mem_cons.mp ha
    rw [List.append_cons q, List.append_cons (namesOf e.key)]
    by_cases hrecords : db.dups (e.key ++ '/' :: n) = []
    · obtain ⟨hq, hk⟩ := h.far hr (horderly.follow_some hr hlive) hother hn hrecords
      rw [descend_append, horderly.descend_none hr hq, descend_append db _ (namesOf e.key ++ [n]),
        horderly.descend_none hr hk]
      exact ⟨rfl, rfl⟩
    · have hchild := hkept.inv.child_of_records he.way.path hn.slash hrecords
      have hlive' : descend db (getRoot r) (q ++ [n]) = .ok (some (e.below n)) := by
        rw [descend_snoc, hlive]
        exact horderly.named_child he hchild hrecords
      have hnames : namesOf (e.below n).key = namesOf e.key ++ [n] := namesOf_child he.way.path hn.toName
      rw [← hnames]
      cases a with
      | nil =>
        rw [concat_one] at habsent
        exact absurd habsent hrecords
      | cons m a =>
        refine ih (he.below hn) hlive' ?_ ha (List.cons_ne_nil _ _) ?_
        · rw [hnames]
          exact fun heq => hother (List.append_cancel_right heq)
        · rw [concat_cons] at habsent
          rwa [Elem.below, List.append_assoc, List.cons_append]

/-- `_xpath` is `get_child` for one name after the other. -/
theorem Direct.xpath (h : Direct db) (hkept : Kept db) (hr : RootName r) (he : Stands r q e)
    (hlive : descend db (getRoot r) q = .ok (some e)) (ha : ∀ m ∈ a, Proper m) {depth : Nat}
    (hdepth : (namesOf e.key).length + a.length < depth) :
    xpathPlain db (getRoot r) depth e (concat a) = descend db e a := by
  have horderly := h.orderly hkept
  obtain ⟨d, rfl⟩ : ∃ d, depth = d + 1 := ⟨depth - 1, by omega⟩
  by_cases hne : a = []
  · subst hne
    rfl
  by_cases hrecords : db.dups (e.key ++ '/' :: concat a) = []
  · rw [horderly.xpath_absent hr he ha hne hrecords hdepth]
    have hdescend : descend db (getRoot r) (q ++ a) = descend db e a := by rw [descend_append, hlive]; rfl
    by_cases hother : namesOf e.key = q
    · rw [hother, hdescend]
    · obtain ⟨hq, hk⟩ := h.nowhere hkept hr he hlive hother ha hne hrecords
      rw [hk, ← hdescend, hq]
  · rw [xpathPlain_literal he ha hne hrecords, horderly.descend_literal he ha hne hrecords]

theorem Direct.finds (h : Direct db) (hkept : Kept db) (hr : RootName r) (he : Stands r q e)
    (hlive : descend db (getRoot r) q = .ok (some e)) (ha : ∀ m ∈ a, Proper m) :
    ∃ found, descend db e a = .ok found ∧ Finds db (getRoot r) e (concat a) found := by
  obtain ⟨found, hfound, -⟩ := (h.orderly hkept).descend he a
  exact ⟨found, hfound, (namesOf e.key).length + a.length + 1, fun depth hdepth => by
    rw [h.xpath hkept hr he hlive ha hdepth, hfound]⟩

theorem Finds.unique {path : Str} {found found' : Option Elem} (h : Finds db root e path found)
    (h' : Finds db root e path found') : found = found' := by
  obtain ⟨d, hd⟩ := h
  obtain ⟨d', hd'⟩ := h'
  exact Except.ok.inj ((hd (max d d') (le_max_left _ _)).symm.trans (hd' (max d d') (le_max_right _ _)))

/-- Every element that is found is found by names. -/
theorem Direct.live (h : Direct db) (hkept : Kept db) (hr : RootName r) (hfound : Found db (getRoot r) e) :
    ∃ q, descend db (getRoot r) q = .ok (some e) ∧ Stands r q e := by
  induction hfound with
  | root => exact ⟨[], rfl, .of_root hr⟩
  | @child e c n _ hc ih =>
    obtain ⟨q, hlive, he⟩ := ih
    refine ⟨q ++ [n], ?_, ?_⟩
    · rw [descend_snoc, hlive]
      exact hc
    · rw [(h.orderly hkept).named he] at hc
      exact (hkept.lastNamed_stands he (Except.ok.inj hc)).2
  | @path e c p _ hp hc ih =>
    obtain ⟨q, hlive, he⟩ := ih
    obtain ⟨found, hdescend, hfinds⟩ := h.finds hkept hr he hlive hp
    obtain rfl := hc.unique hfinds
    refine ⟨q ++ p, ?_, ?_⟩
    · rw [descend_append, hlive]
      exact hdescend
    · exact ((h.orderly hkept).stands he hdescend).1

theorem Direct.composable (h : Direct db) (hkept : Kept db) : Composable db where
  single {r e n} hr hfound hn := by
    obtain ⟨q, hlive, he⟩ := h.live hkept hr hfound
    obtain ⟨found, hdescend, hfinds⟩ := h.finds hkept hr he hlive (List.forall_mem_singleton.mpr hn)
    rw [concat_one] at hfinds
    rw [descend_one] at hdescend
    exact ⟨found, hfinds, hdescend⟩
  parts {r e a b} hr hfound ha hb hane hbne := by
    obtain ⟨q, hlive, he⟩ := h.live hkept hr hfound
    obtain ⟨n, a, rfl⟩ := List.exists_cons_of_ne_nil hane
    obtain ⟨m, b, rfl⟩ := List.exists_cons_of_ne_nil hbne
    obtain ⟨found, hdescend, hfinds⟩ := h.finds hkept hr he hlive (List.forall_mem_append.mpr ⟨ha, hb⟩)
    obtain ⟨middle, hfirst, hfindsA⟩ := h.finds hkept hr he hlive ha
    rw [concat_append] at hfinds
    refine ⟨found, hfinds, ?_⟩
    rw [descend_append, hfirst] at hdescend
    cases middle with
    | none =>
      cases hdescend
      exact .missing hfindsA
    | some p =>
      have hliveP : descend db (getRoot r) (q ++ n :: a) = .ok (some p) := by
        rw [descend_append, hlive]
        exact hfirst
      have hp := ((h.orderly hkept).stands he hfirst).1
      obtain ⟨last, hlast, hfindsB⟩ := h.finds hkept hr hp hliveP hb
      obtain rfl := Except.ok.inj (hlast.symm.trans hdescend)
      exact .next hfindsA hfindsB

-- ---------------------------------------------------------------------------
-- Stores whose paths compose
-- ---------------------------------------------------------------------------

theorem proper_n : Proper ['n'] := ⟨⟨by decide, by decide, by decide⟩, by decide⟩

theorem short_of_named {found : Option Elem} (h : getChildNamed db e n = .ok found) (hne : db.dups e.key ≠ []) :
    e.key.length < 1000 := by
  by_contra hlong
  rw [getChildNamed, getChild, if_pos ⟨hne, Nat.not_lt.mp hlong⟩] at h
  cases h

/-- A link comes behind a child of the same name. -/
theorem Kept.lastNamed_link (h : Kept db) (he : Stands r q e) (hn : backquote ∉ n)
    (hlink : 's' :: ':' :: (n ++ backquote :: target) ∈ db.dups e.key) (hc : lastNamed db e n = some c) :
    c.eType = .ref := by
  have htarget : Path target := (h.way_of_link (h.proper_link hn hlink).toName hlink).path
  have hpick : pick (childOf e) n ('s' :: ':' :: (n ++ backquote :: target)) ≠ none := by
    rw [pick_ok (he.childOf_link (h.proper_link hn hlink) htarget), if_pos rfl]
    exact Option.some_ne_none _
  obtain ⟨v, hv, hlast, hmax⟩ := last_filterMap (db.sorted e.key) hc
  have hle := hmax _ hlink hpick
  cases h.inv.record hv with
  | attrib s => cases hlast
  | value s => cases hlast
  | @child m hm =>
    have hlt : ('c' :: ':' :: m : Str) < 's' :: ':' :: (n ++ backquote :: target) := List.Lex.rel (by decide)
    exact absurd hle hlt.not_ge
  | @link m target' hm htarget' =>
    rw [pick_ok (he.childOf_link (h.proper_link hm.quote hv) htarget')] at hlast
    split at hlast
    · cases hlast
      rfl
    · cases hlast
  | ref _ _ => cases hlast

theorem Composable.apart_of_found (h : Composable db) (hkept : Kept db) (hr : RootName r)
    (hfound : Found db (getRoot r) e) (he : Stands r q e) (htype : e.eType = .regular) (hn : backquote ∉ n)
    (hlink : 's' :: ':' :: (n ++ backquote :: target) ∈ db.dups e.key) : db.dups (e.key ++ '/' :: n) = [] := by
  by_contra hrecords
  have hproper := hkept.proper_link hn hlink
  obtain ⟨found, ⟨d, hfinds⟩, hnamed⟩ := h.single hr hfound hproper
  have hliteral : xpathPlain db (getRoot r) (d + 1) e (concat [n]) = .ok (some (e.below (concat [n]))) :=
    xpathPlain_literal he (List.forall_mem_singleton.mpr hproper) (List.cons_ne_nil _ _) (by rwa [concat_one]) d
  rw [concat_one, hfinds (d + 1) (Nat.le_succ d)] at hliteral
  obtain rfl := Except.ok.inj hliteral
  rw [hkept.named he (short_of_named hnamed)] at hnamed
  have hreference := hkept.lastNamed_link he hn hlink (Except.ok.inj hnamed)
  rw [Elem.below, htype] at hreference
  cases hreference

/-- A node with records is found by the names of its key. -/
theorem Composable.found_of_records (h : Composable db) (hkept : Kept db) (hne : db.dups key ≠ []) :
    ∃ r e, RootName r ∧ Found db (getRoot r) e ∧ Stands r (namesOf key) e ∧ e.key = key ∧ e.eType = .regular := by
  induction hlen : key.length using Nat.strong_induction_on generalizing key with
  | _ len ih =>
    subst hlen
    obtain ⟨v, hv⟩ := List.exists_mem_of_ne_nil _ hne
    rcases hkept.inv.children hv with ⟨r, hslash, hquote, rfl⟩ | ⟨parent, n, hslash, rfl, hchild⟩
    · have hr : RootName r := ⟨hslash, hquote, (hkept.inv.path hv).clean⟩
      rw [namesOf_root hslash]
      exact ⟨r, getRoot r, hr, .root, .of_root hr, rfl, rfl⟩
    · have hproper := hkept.proper_child hchild
      have hpath := hkept.inv.path hchild
      have hlt : parent.length < (parent ++ '/' :: n).length := by
        rw [List.length_append, List.length_cons]
        omega
      obtain ⟨r, e, hr, hfound, he, rfl, htype⟩ := ih _ hlt (List.ne_nil_of_mem hchild) rfl
      obtain ⟨found, -, hnamed⟩ := h.single hr hfound hproper
      have hnolink : ∀ target, 's' :: ':' :: (n ++ backquote :: target) ∉ db.dups e.key := fun target hlink =>
        hne (h.apart_of_found hkept hr hfound he htype hproper.quote hlink)
      have hbelow : found = some (e.below n) := by
        rw [hkept.named he (short_of_named hnamed), hkept.lastNamed_child he hchild hnolink] at hnamed
        exact (Except.ok.inj hnamed).symm
      rw [namesOf_child hpath hproper.toName]
      exact ⟨r, e.below n, hr, .child hfound (hbelow ▸ hnamed), he.below hproper, rfl, htype⟩

theorem Composable.orderly (h : Composable db) (hkept : Kept db) : Orderly db where
  toKept := hkept
  short hne := by
    obtain ⟨r, e, hr, hfound, -, rfl, -⟩ := h.found_of_records hkept hne
    obtain ⟨found, -, hnamed⟩ := h.single hr hfound proper_n
    exact short_of_named hnamed hne
  apart hn hlink := by
    obtain ⟨r, e, hr, hfound, he, rfl, htype⟩ := h.found_of_records hkept (List.ne_nil_of_mem hlink)
    exact h.apart_of_found hkept hr hfound he htype hn hlink

theorem Composable.direct (h : Composable db) (hkept : Kept db) : Direct db where
  short := (h.orderly hkept).short
  apart := (h.orderly hkept).apart
  far {r q key n} hr hfollow hother hn habsent := by
    have horderly := h.orderly hkept
    obtain ⟨live, hlive, hkey, hstands⟩ := horderly.descend (.of_root hr) q
    obtain ⟨e, rfl, rfl⟩ := Option.map_eq_some_iff.mp (hkey.trans hfollow)
    obtain ⟨he, -⟩ := hstands e rfl
    obtain ⟨found, ⟨d, hfinds⟩, hnamed⟩ := h.single hr (.descend .root hlive) hn
    -- `get_child` goes on from the names `q`, and `_xpath` from those of the key.
    obtain ⟨near, hnear, hnearKey, hnearStands⟩ := horderly.descend (.of_root hr) (q ++ [n])
    obtain ⟨far, hfar, hfarKey, hfarStands⟩ := horderly.descend (.of_root hr) (namesOf e.key ++ [n])
    obtain rfl : near = found := by
      rw [descend_snoc, hlive] at hnear
      exact Except.ok.inj (hnear.symm.trans hnamed)
    obtain rfl : far = near := by
      have habsent' : db.dups (e.key ++ '/' :: concat [n]) = [] := by rwa [concat_one]
      have hxpath := horderly.xpath_absent hr he (List.forall_mem_singleton.mpr hn) (List.cons_ne_nil _ _) habsent'
        (Nat.lt_succ_of_le (Nat.le_add_right _ d))
      rw [concat_one, hfinds _ (Nat.le_succ_of_le (Nat.le_add_left d _))] at hxpath
      exact Except.ok.inj (hfar.symm.trans hxpath.symm)
    cases far with
    | none => exact ⟨hnearKey.symm, hfarKey.symm⟩
    | some c =>
      -- The path of an element says by which names it was found.
      have hplace : place r (q ++ [n]) = place r (namesOf e.key ++ [n]) :=
        (hnearStands c rfl).1.path.symm.trans (hfarStands c rfl).1.path
      have hnames := congrArg namesOf hplace
      rw [namesOf_place hr.slash fun m hm => ((hnearStands c rfl).2 m hm).slash,
        namesOf_place hr.slash fun m hm => ((hfarStands c rfl).2 m hm).slash] at hnames
      exact absurd (List.append_cancel_right hnames).symm hother

-- ---------------------------------------------------------------------------
-- Runs
-- ---------------------------------------------------------------------------

theorem Title.child (hn : n ≠ []) : Title ('c' :: ':' :: n) := by
  rintro m (heq | ⟨-, target, heq⟩)
  · cases heq
    exact hn
  · cases heq

theorem Title.link (hquote : backquote ∉ n) (hn : n ≠ []) (target : Str) :
    Title ('s' :: ':' :: (n ++ backquote :: target)) := by
  rintro m (heq | ⟨hm, target', heq⟩)
  · cases heq
  · simp only [List.cons.injEq, true_and] at heq
    obtain ⟨rfl, -⟩ := append_cons_inj hquote hm heq
    exact hn

theorem Title.other {ch : Char} (hchild : ch ≠ 'c') (hlink : ch ≠ 's') (v : Str) : Title (ch :: v) := by
  rintro m (heq | ⟨-, target, heq⟩)
  · exact absurd (List.cons.inj heq).1 hchild
  · exact absurd (List.cons.inj heq).1 hlink

theorem Titled.put (h : Titled db) (hv : Title v) (key : Str) : Titled (db.put key v) := by
  intro k v' hmem
  rcases Library.MultiMap.mem_put.mp hmem with ⟨-, rfl⟩ | hmem
  · exact hv
  · exact h k v' hmem

theorem Titled.shrink {db' : Store} (h : Titled db) (hshrinks : Shrinks db db') : Titled db' :=
  fun k v hmem => h k v (hshrinks k v hmem)

theorem Titled.removeAttrib (h : Titled db) (key k : Str) : Titled (GalaDB.removeAttrib key k db) := by
  rw [GalaDB.removeAttrib]
  split
  · exact h.shrink (.del _ _ _)
  · exact h

theorem Titled.setAttrib (h : Titled db) (key k v : Str) :
    ∃ db', GalaDB.setAttrib anySize key k v db = .ok db' ∧ Titled db' :=
  ⟨_, rfl, (h.removeAttrib key k).put (.other (by decide) (by decide) _) key⟩

theorem Titled.removeOneValue (h : Titled db) (e : Elem) (v : Str) : Titled (GalaDB.removeOneValue e v db).1 := by
  rw [GalaDB.removeOneValue]
  split
  · exact h.shrink (.del _ _ _)
  · exact h

theorem Titled.removeValue (h : Titled db) (e : Elem) (v : Option Str) : Titled (GalaDB.removeValue e v db).1 := by
  cases v with
  | some v => exact h.removeOneValue e v
  | none => exact runAll_invariant (P := Titled) (fun v _ h => h.removeOneValue e v) (getValue db e.key) h

theorem Titled.addVectorItem (h : Titled db) (key : Str) :
    Titled (outOf db ((GalaDB.addVectorItem anySize key db).map Prod.snd)).1 := by
  rw [GalaDB.addVectorItem]
  split
  · exact h
  split
  · exact h
  · next serial _ _ m hm =>
    obtain ⟨db', hset, htitled⟩ := h.setAttrib key vectorIndexKey (tostring (m + 1))
    have hclean : Clean serial := clean_of_all (tonumber_digits hm) (by decide)
    have hne : serial ≠ [] := by
      rw [tonumber] at hm
      split at hm
      · next hs => exact hs.1
      · cases hm
    rw [hset]
    refine htitled.put (.child ?_) key
    rwa [hclean]

theorem Op.run_titled (depth : Nat) (h : Kept db) {op : Op} (hlegal : op.Legal db) (hsafe : op.Safe db)
    (hnamed : op.Named) : Titled (op.run depth db).1 := by
  have hadd {key k : Str} (hk : fmt k ≠ []) : Titled (db.put key (childRecord k)) := h.titled.put (.child hk) key
  cases op with
  | addNode e k => exact hadd hnamed
  | addPair e k v => exact (hadd hnamed).put (.other (by decide) (by decide) _) _
  | addVectorNode e k itag =>
    have hindex {key : Str} : Titled ((db.put e.key (childRecord k)).put key (attribRecord vectorIndexKey ['1'])) :=
      (hadd hnamed).put (.other (by decide) (by decide) _) key
    cases itag with
    | none => exact hindex
    | some tag => exact hindex.put (.other (by decide) (by decide) _) _
  | addVectorItem e => exact h.titled.addVectorItem e.key
  | addRef e k link =>
    obtain ⟨-, -, hslash, hquote⟩ := hlegal
    exact (h.titled.put (.other (by decide) (by decide) _) _).put
      (.link (Name.of_fmt hslash hquote).quote hnamed _) _
  | addAttrib e k v => exact h.titled.put (.other (by decide) (by decide) _) _
  | addValue e v => exact h.titled.put (.other (by decide) (by decide) _) _
  | removeAttrib e k => exact h.titled.removeAttrib e.key k
  | removeValue e v => exact h.titled.removeValue e v
  | remove e => exact h.titled.shrink (remove_removes depth h.inv (hlegal.valid h.inv hsafe.1) hsafe.2).shrinks

theorem Reached.kept {depth : Nat} (h : Reached depth (fun db op => op.Safe db ∧ op.Named) db) : Kept db := by
  induction h with
  | empty => exact ⟨.empty, fun _ _ hmem => absurd hmem List.not_mem_nil⟩
  | step _ op hlegal hsafe ih =>
    exact ⟨op.run_inv depth ih.inv hlegal hsafe.1, op.run_titled depth ih hlegal hsafe.1 hsafe.2⟩

-- ---------------------------------------------------------------------------
-- `pop_vector_item`
-- ---------------------------------------------------------------------------

variable {depth : Nat}

theorem Present.mono {db' : Store} (h : Present db key) (hchild : ∀ k n, 'c' :: ':' :: n ∈ db.dups k → 'c' :: ':' :: n ∈ db'.dups k) :
    Present db' key := by
  induction h with
  | root h => exact .root h
  | child _ hmem ih => exact .child ih (hchild _ _ hmem)

theorem Existing.mono {db' : Store} (h : Existing db e)
    (hchild : ∀ k n, 'c' :: ':' :: n ∈ db.dups k → 'c' :: ':' :: n ∈ db'.dups k) : Existing db' e := by
  cases h with
  | regular h isRoot => exact .regular (h.mono hchild) isRoot
  | ref h path n hslash hquote => exact .ref (h.mono hchild) path n hslash hquote

theorem Existing.removeAttrib (h : Existing db e) (key k : Str) : Existing (GalaDB.removeAttrib key k db) e := by
  refine h.mono fun k' n hmem => ?_
  rw [GalaDB.removeAttrib]
  split
  · exact (mem_delPlain (.inl rfl) (.inl rfl) key _).mpr hmem
  · exact hmem

/-- What `get_child` gives is there. -/
theorem Kept.existing_child (h : Kept db) (he : Existing db e) {cs : List (Str × Elem)} (hcs : getChild db e = .ok cs)
    (hc : cs.lookup n = some c) : Existing db c ∧ Clean c.key := by
  have hmem : ∃ b ∈ cs, b.2 = c := by
    clear hcs
    induction cs with
    | nil => cases hc
    | cons b cs ih =>
      rw [List.lookup_cons] at hc
      split at hc
      · exact ⟨b, List.mem_cons_self, Option.some.inj hc⟩
      · obtain ⟨b', hb', heq⟩ := ih hc
        exact ⟨b', List.mem_cons_of_mem _ hb', heq⟩
  obtain ⟨⟨m, c⟩, hb, rfl⟩ := hmem
  obtain ⟨v, hv, hchild⟩ := (of_mem_foldlM (getChild_foldlM hcs) hb).resolve_left List.not_mem_nil
  have hkey := h.inv.path hv
  cases h.inv.record hv with
  | attrib s => cases hchild
  | value s => cases hchild
  | ref _ _ => cases hchild
  | @child m hm =>
    have hpresent : Present db (join e.key m) := by
      rw [join_eq hkey.clean hm.clean]
      exact .child he.present hv
    cases he with
    | regular _ isRoot =>
      cases hchild
      exact ⟨.regular hpresent false, clean_join ..⟩
    | ref _ path n hslash hquote =>
      cases hchild
      exact ⟨.ref hpresent _ _ hm.slash hm.quote, clean_join ..⟩
  | @link m target hm htarget =>
    have hproper := h.proper_link hm.quote hv
    rw [childOf, split_two hproper.ne hm.quote htarget.ne_nil htarget.quote] at hchild
    cases hchild
    have href := (h.inv.links hm.slash hm.quote).mp hv
    exact ⟨.ref (h.inv.present href) _ _ hm.slash hm.quote, htarget.clean⟩

/-- So is what `_xpath` gives: it goes on from the root, or finds the key below the element. -/
theorem Kept.existing_xpath (h : Kept db) (hr : RootName r) (he : Existing db e) (hclean : Clean e.key) {path : Str}
    (hpath : e.realKey = none ∨ '/' ∉ path ∧ backquote ∉ path)
    (hc : xpathPlain db (getRoot r) depth e path = .ok (some c)) : Existing db c ∧ Clean c.key := by
  induction depth generalizing e path c with
  | zero => cases hc
  | succ depth ih =>
    rw [xpathPlain] at hc
    split at hc
    · obtain rfl := Option.some.inj (Except.ok.inj hc)
      exact ⟨he, hclean⟩
    split at hc
    · next hne =>
      obtain rfl := Option.some.inj (Except.ok.inj hc)
      obtain ⟨v, hv⟩ := List.exists_mem_of_ne_nil _ hne
      refine ⟨?_, clean_join ..⟩
      cases he with
      | regular _ isRoot => exact .regular (h.inv.present hv) false
      | ref _ _ _ _ _ =>
        obtain ⟨hslash, hquote⟩ := hpath.resolve_left (Option.some_ne_none _)
        exact .ref (h.inv.present hv) _ _ hslash hquote
    split at hc
    · cases hc
    · cases hc
    obtain ⟨found, hfound, hc⟩ := bind_eq_ok hc
    cases found with
    | none => cases hc
    | some p =>
      obtain ⟨cs, hcs, hlookup⟩ := map_eq_ok hc
      have hroot : Existing db (getRoot r) := .regular (.root ⟨r, hr.slash, hr.quote, rfl⟩) true
      exact h.existing_child (ih hroot hr.clean (.inl rfl) hfound).1 hcs hlookup

/-- What `pop_vector_item` finds, and the store that it finds it in. -/
def Pops (depth : Nat) (root e : Elem) (db db' : Store) (c : Elem) : Prop :=
  ∃ n : Nat, ((getAttrib db e.key).lookup vectorIndexKey).bind tonumber = some n ∧
    setAttrib anySize e.key vectorIndexKey (tostring (n - 1)) db = .ok db' ∧
    xpathPlain db' root depth e (tostring (n - 1)) = .ok (some c)

/-- `pop_vector_item` sets an attribute and removes an element: its stores are among those of
the runs. -/
theorem Reached.popVectorItem (h : Reached depth (fun db op => op.Safe db ∧ op.Named) db) (hr : RootName r)
    (he : Existing db e) (hclean : Clean e.key) (hapart : ∀ db' c, Pops depth (getRoot r) e db db' c →
      c.eType = .regular → ∀ k, Under c.key k → Apart db' k) :
    Reached depth (fun db op => op.Safe db ∧ op.Named) (GalaDB.popVectorItem anySize depth (getRoot r) e db).1 := by
  rw [GalaDB.popVectorItem]
  split
  · exact h
  next serial hserial =>
  split
  · exact h
  next n hn =>
  split
  · exact h
  obtain ⟨db', hset⟩ : ∃ db', setAttrib anySize e.key vectorIndexKey (tostring (n - 1)) db = .ok db' := ⟨_, rfl⟩
  have hdb : db' = (GalaDB.removeAttrib e.key vectorIndexKey db).put e.key
      (attribRecord vectorIndexKey (tostring (n - 1))) := (Except.ok.inj hset).symm
  have hreached : Reached depth (fun db op => op.Safe db ∧ op.Named) db' := by
    rw [hdb]
    exact (h.step (.removeAttrib e vectorIndexKey) he ⟨trivial, trivial⟩).step
      (.addAttrib e vectorIndexKey (tostring (n - 1))) ⟨he.removeAttrib e.key vectorIndexKey, fun _ => ⟨n - 1, rfl⟩⟩
      ⟨hclean, trivial⟩
  have hthere : Existing db' e := by
    rw [hdb]
    exact (he.removeAttrib e.key vectorIndexKey).mono fun k m hmem => Library.MultiMap.mem_put.mpr (.inr hmem)
  simp only [hset, removeAt]
  cases hfound : xpathPlain db' (getRoot r) depth e (tostring (n - 1)) with
  | error err => exact hreached
  | ok found =>
    cases found with
    | none => exact hreached
    | some c =>
      have hpath : '/' ∉ tostring (n - 1) ∧ backquote ∉ tostring (n - 1) :=
        ⟨slash_notMem_tostring _, fun hmem => absurd (tonumber_digits (tonumber_tostring (n - 1)) _ hmem) (by decide)⟩
      obtain ⟨hc, hcclean⟩ := hreached.kept.existing_xpath hr hthere hclean (.inr hpath) hfound
      have hpops : Pops depth (getRoot r) e db db' c := ⟨n, by rw [hserial]; exact hn, hset, hfound⟩
      exact hreached.step (.remove c) hc ⟨⟨hcclean, hapart db' c hpops⟩, trivial⟩

-- ---------------------------------------------------------------------------
-- Composition
-- ---------------------------------------------------------------------------

/-- In every run in which what is added has a name, no key is cut at a NUL and the names
are apart under all that is removed, the paths compose in exactly the stores that are
direct. -/
theorem composable_iff (depth : Nat) (db : Store) (h : Reached depth (fun db op => op.Safe db ∧ op.Named) db) :
    Composable db ↔ Direct db :=
  ⟨fun hcomposable => hcomposable.direct h.kept, fun hdirect => hdirect.composable h.kept⟩

/-- `/r/t` has a value, and `/r/x` is a link to it. -/
def linked : Store :=
  (Op.run 3 (Op.run 3 .empty (.addPair rootR ['t'] ['v'])).1 (.addRef rootR ['x'] (.node ['/', 'r', '/', 't']))).1

theorem existing_root (db : Store) : Existing db rootR := .regular (.root isRoot_r) true

theorem linked_reached : Reached 3 (fun db op => op.Safe db ∧ op.Named) linked := by
  refine .step (.step .empty _ ?_ ?_) _ ?_ ?_
  · exact ⟨existing_root _, by decide, by decide⟩
  · exact ⟨show Clean _ by decide, show fmt _ ≠ [] by decide⟩
  · exact ⟨existing_root _, .regular (present_under_r (by decide)) false, by decide, by decide⟩
  · exact ⟨⟨show Clean _ by decide, show Clean _ by decide⟩, show fmt _ ≠ [] by decide⟩

theorem mem_linked : v ∈ linked.dups key ↔
    (key = ['/', 'r'] ∧ (v = linkRecord ['x'] ['/', 'r', '/', 't'] ∨ v = childRecord ['t'])) ∨
      (key = ['/', 'r', '/', 't'] ∧ (v = refRecord ['/', 'r', '/', 'x'] ∨ v = valueRecord ['v'])) := by
  have hlinked : linked = (((Library.MultiMap.empty.put ['/', 'r'] (childRecord ['t'])).put ['/', 'r', '/', 't']
      (valueRecord ['v'])).put ['/', 'r', '/', 't'] (refRecord ['/', 'r', '/', 'x'])).put ['/', 'r']
      (linkRecord ['x'] ['/', 'r', '/', 't']) := rfl
  rw [hlinked]
  simp only [Library.MultiMap.mem_put, Library.MultiMap.dups_empty, List.not_mem_nil, or_false]
  tauto

/-- Both names lead to `/r/t`. -/
theorem kid_linked {k : Str} (h : kid linked key n = some k) :
    key = ['/', 'r'] ∧ (n = ['t'] ∨ n = ['x']) ∧ k = ['/', 'r', '/', 't'] := by
  obtain ⟨v, hv, hk⟩ := List.mem_filterMap.mp (List.mem_of_getLast? h)
  rcases mem_linked.mp hv with ⟨rfl, rfl | rfl⟩ | ⟨rfl, rfl | rfl⟩
  · have hname : (if ['x'] = n then some ['/', 'r', '/', 't'] else none) = some k := hk
    split at hname
    · next heq => exact ⟨rfl, .inr heq.symm, (Option.some.inj hname).symm⟩
    · cases hname
  · have hname : (if ['t'] = n then some (['/', 'r'] ++ '/' :: n) else none) = some k := hk
    split at hname
    · next heq =>
      subst heq
      exact ⟨rfl, .inl rfl, (Option.some.inj hname).symm⟩
    · cases hname
  · cases hk
  · cases hk

theorem direct_linked : Direct linked where
  short {key} hne := by
    obtain ⟨v, hv⟩ := List.exists_mem_of_ne_nil _ hne
    rcases mem_linked.mp hv with ⟨rfl, -⟩ | ⟨rfl, -⟩ <;> decide
  apart {key n target} hn hlink := by
    rcases mem_linked.mp hlink with ⟨rfl, heq | heq⟩ | ⟨rfl, heq | heq⟩
    · have hrecord : n ++ backquote :: target = ['x'] ++ backquote :: ['/', 'r', '/', 't'] :=
        (List.cons.inj (List.cons.inj heq).2).2
      obtain ⟨rfl, -⟩ := append_cons_inj hn (by decide) hrecord
      decide
    · cases heq
    · cases heq
    · cases heq
  far {r q key n} hr hfollow hother hn _ := by
    have hleaf : kid linked ['/', 'r', '/', 't'] n = none := by
      by_contra hkid
      obtain ⟨k, hk⟩ := Option.ne_none_iff_exists'.mp hkid
      exact absurd (kid_linked hk).1 (by decide)
    cases q with
    | nil =>
      cases hfollow
      exact absurd (namesOf_root hr.slash) hother
    | cons m q =>
      obtain ⟨k, hk, hrest⟩ := Option.bind_eq_some_iff.mp hfollow
      obtain ⟨-, -, rfl⟩ := kid_linked hk
      cases q with
      | nil =>
        cases hrest
        have htwo (m : Str) : follow linked ('/' :: r) [m, n] = none := by
          rw [follow]
          cases hm : kid linked ('/' :: r) m with
          | none => rfl
          | some k =>
            obtain ⟨-, -, rfl⟩ := kid_linked hm
            rw [Option.bind_some, follow, hleaf, Option.bind_none]
        exact ⟨htwo m, htwo ['t']⟩
      | cons m' q =>
        obtain ⟨k', hk', -⟩ := Option.bind_eq_some_iff.mp hrest
        exact absurd (kid_linked hk').1 (by decide)

theorem linked_composable : Composable linked := (composable_iff 3 linked linked_reached).mpr direct_linked

/-- `/r/t` has a child without records, and `/r/x` is a link to it. -/
def emptied : Store :=
  (Op.run 3 (Op.run 3 (Op.run 3 .empty (.addNode rootR ['t'])).1 (.addNode (.node ['/', 'r', '/', 't']) ['c'])).1
    (.addRef rootR ['x'] (.node ['/', 'r', '/', 't']))).1

/-- From `/r/x` the child `c` is a link for `get_child` and a node for `_xpath`. -/
theorem emptied_not_composable :
    ¬ ∀ depth db, Reached depth (fun db op => op.Safe db ∧ op.Named) db → Composable db := by
  intro h
  have hreached : Reached 3 (fun db op => op.Safe db ∧ op.Named) emptied := by
    refine .step (.step (.step .empty _ ?_ ?_) _ ?_ ?_) _ ?_ ?_
    · exact ⟨existing_root _, by decide, by decide⟩
    · exact ⟨show Clean _ by decide, show fmt _ ≠ [] by decide⟩
    · exact ⟨.regular (present_under_r (by decide)) false, by decide, by decide⟩
    · exact ⟨show Clean _ by decide, show fmt _ ≠ [] by decide⟩
    · exact ⟨existing_root _, .regular (present_under_r (by decide)) false, by decide, by decide⟩
    · exact ⟨⟨show Clean _ by decide, show Clean _ by decide⟩, show fmt _ ≠ [] by decide⟩
  have hroot : RootName ['r'] := ⟨by decide, by decide, by decide⟩
  have hname : Proper ['c'] := ⟨⟨by decide, by decide, by decide⟩, by decide⟩
  have hfollow : follow emptied ['/', 'r'] [['x']] = some ['/', 'r', '/', 't'] := by decide
  obtain ⟨hnone, -⟩ := ((h 3 emptied hreached).direct hreached.kept).far hroot hfollow (by decide) hname (by decide)
  revert hnone
  decide

end GalaLua.GalaDB
