import GalaLua.GalaDB.Links
import GalaLua.GalaDB.Adding

/-!
# Referential integrity

The two records of a link come and go together, and a key with records is known to
its parent. `_remove` sees the children of a node by their names, so it keeps this as
long as no node that it removes has a name for two things (`Apart`): every operation
then keeps `Inv` (`Op.run_inv`), whether or not it raises an error half way.
-/

namespace GalaLua.GalaDB

open Library.Lua

-- ---------------------------------------------------------------------------
-- Keys and records
-- ---------------------------------------------------------------------------

/-- What a node or a link may be called. -/
structure Name (n : Str) : Prop where
  clean : Clean n
  slash : '/' ∉ n
  quote : backquote ∉ n

/-- `get_root` of a name. -/
def IsRoot (key : Str) : Prop := ∃ n, '/' ∉ n ∧ backquote ∉ n ∧ key = '/' :: n

/-- The nodes that are there: the roots, and the children of such a node. -/
inductive Present (db : Store) : Str → Prop
  | root {key : Str} (h : IsRoot key) : Present db key
  | child {key n : Str} (h : Present db key) (hchild : 'c' :: ':' :: n ∈ db.dups key) : Present db (key ++ '/' :: n)

inductive Path : Str → Prop
  | root {key : Str} (h : IsRoot key) (hclean : Clean key) : Path key
  | child {key n : Str} (h : Path key) (hn : Name n) : Path (key ++ '/' :: n)

/-- The records there are. -/
inductive Rec : Str → Prop
  | attrib (s : Str) : Rec ('a' :: ':' :: s)
  | value (s : Str) : Rec ('v' :: ':' :: s)
  | child {n : Str} (hn : Name n) : Rec ('c' :: ':' :: n)
  | link {n target : Str} (hn : Name n) (htarget : Path target) : Rec ('s' :: ':' :: (n ++ backquote :: target))
  | ref {key n : Str} (hkey : Path key) (hn : Name n) : Rec ('r' :: ':' :: (key ++ '/' :: n))

variable {db db' : Store} {key name target k n r s : Str} {e : Elem}

theorem Path.clean (h : Path key) : Clean key := by
  induction h with
  | root _ hclean => exact hclean
  | child _ hn ih =>
    rw [← join_eq ih hn.clean]
    exact clean_join ..

theorem Path.quote (h : Path key) : backquote ∉ key := by
  induction h with
  | root h _ =>
    obtain ⟨n, -, hquote, rfl⟩ := h
    rw [List.mem_cons, not_or]
    exact ⟨by decide, hquote⟩
  | child _ hn ih =>
    rw [List.mem_append, List.mem_cons, not_or, not_or]
    exact ⟨ih, by decide, hn.quote⟩

theorem Path.ne_nil (h : Path key) : key ≠ [] := by
  cases h with
  | root h _ =>
    obtain ⟨n, -, -, rfl⟩ := h
    exact List.cons_ne_nil _ _
  | child _ _ => exact List.append_ne_nil_of_right_ne_nil _ (List.cons_ne_nil _ _)

theorem append_cons_inj {ch : Char} {a b a' b' : Str} (ha : ch ∉ a) (ha' : ch ∉ a')
    (h : a ++ ch :: b = a' ++ ch :: b') : a = a' ∧ b = b' := by
  induction a generalizing a' with
  | nil =>
    cases a' with
    | nil => exact ⟨rfl, (List.cons.inj h).2⟩
    | cons x a' => exact absurd ((List.cons.inj h).1 ▸ List.mem_cons_self) ha'
  | cons x a ih =>
    cases a' with
    | nil => exact absurd ((List.cons.inj h).1 ▸ List.mem_cons_self) ha
    | cons x' a' =>
      obtain ⟨rfl, hrest⟩ := List.cons.inj h
      obtain ⟨rfl, rfl⟩ := ih (fun hm => ha (List.mem_cons_of_mem _ hm))
        (fun hm => ha' (List.mem_cons_of_mem _ hm)) hrest
      exact ⟨rfl, rfl⟩

theorem path_inj {a b a' b' : Str} (hb : '/' ∉ b) (hb' : '/' ∉ b') (h : a ++ '/' :: b = a' ++ '/' :: b') :
    a = a' ∧ b = b' := by
  have hreverse := congrArg List.reverse h
  simp only [List.reverse_append, List.reverse_cons, List.append_assoc, List.singleton_append] at hreverse
  obtain ⟨hname, hpath⟩ := append_cons_inj (by rwa [List.mem_reverse]) (by rwa [List.mem_reverse]) hreverse
  exact ⟨List.reverse_injective hpath, List.reverse_injective hname⟩

theorem linkRecord_eq (hn : Clean n) (htarget : Clean target) :
    linkRecord n target = 's' :: ':' :: (n ++ backquote :: target) := by
  rw [linkRecord, hn, htarget]

-- ---------------------------------------------------------------------------
-- The invariant
-- ---------------------------------------------------------------------------

/-- A root, or known to its parent. -/
def Placed (db : Store) (key : Str) : Prop :=
  IsRoot key ∨ ∃ parent name, '/' ∉ name ∧ key = parent ++ '/' :: name ∧ 'c' :: ':' :: name ∈ db.dups parent

structure Inv (db : Store) : Prop where
  path : ∀ {key r}, r ∈ db.dups key → Path key
  record : ∀ {key r}, r ∈ db.dups key → Rec r
  links : ∀ {key name target}, '/' ∉ name → backquote ∉ name →
    ('s' :: ':' :: (name ++ backquote :: target) ∈ db.dups key ↔
      'r' :: ':' :: (key ++ '/' :: name) ∈ db.dups target)
  children : ∀ {key r}, r ∈ db.dups key → Placed db key

theorem Inv.empty : Inv .empty where
  path h := absurd h List.not_mem_nil
  record h := absurd h List.not_mem_nil
  links _ _ := iff_of_false List.not_mem_nil List.not_mem_nil
  children h := absurd h List.not_mem_nil

theorem Inv.present (h : Inv db) (hr : r ∈ db.dups key) : Present db key := by
  induction hlen : key.length using Nat.strong_induction_on generalizing key r with
  | _ len ih =>
    subst hlen
    rcases h.children hr with hroot | ⟨parent, name, -, rfl, hc⟩
    · exact .root hroot
    · refine .child (ih _ ?_ hc rfl) hc
      rw [List.length_append, List.length_cons]
      omega

theorem Inv.name_of_child (h : Inv db) (hmem : 'c' :: ':' :: n ∈ db.dups key) : Name n := by
  generalize hr : 'c' :: ':' :: n = r at hmem
  cases h.record hmem with
  | attrib s => cases hr
  | value s => cases hr
  | child hname =>
    cases hr
    exact hname
  | link _ _ => cases hr
  | ref _ _ => cases hr

theorem Inv.link_of_mem (h : Inv db) (hmem : 's' :: ':' :: s ∈ db.dups key) :
    ∃ n target, Name n ∧ Path target ∧ s = n ++ backquote :: target := by
  generalize hr : 's' :: ':' :: s = r at hmem
  cases h.record hmem with
  | attrib s => cases hr
  | value s => cases hr
  | child _ => cases hr
  | link hn htarget =>
    cases hr
    exact ⟨_, _, hn, htarget, rfl⟩
  | ref _ _ => cases hr

theorem Inv.ref_of_mem (h : Inv db) (hmem : 'r' :: ':' :: s ∈ db.dups key) :
    ∃ parent n, Path parent ∧ Name n ∧ s = parent ++ '/' :: n := by
  generalize hr : 'r' :: ':' :: s = r at hmem
  cases h.record hmem with
  | attrib s => cases hr
  | value s => cases hr
  | child _ => cases hr
  | link _ _ => cases hr
  | ref hkey hn =>
    cases hr
    exact ⟨_, _, hkey, hn, rfl⟩

-- ---------------------------------------------------------------------------
-- Deleting
-- ---------------------------------------------------------------------------

def Shrinks (db db' : Store) : Prop := ∀ k r, r ∈ db'.dups k → r ∈ db.dups k

theorem Shrinks.refl (db : Store) : Shrinks db db := fun _ _ => id

theorem Shrinks.trans {db₁ db₂ db₃ : Store} (h : Shrinks db₁ db₂) (h' : Shrinks db₂ db₃) : Shrinks db₁ db₃ :=
  fun k r hr => h k r (h' k r hr)

theorem Shrinks.del (db : Store) (key r : Str) : Shrinks db (db.del key r) :=
  fun _ _ h => (Library.MultiMap.mem_del.mp h).2

theorem Shrinks.delAll (db : Store) (key : Str) : Shrinks db (db.delAll key) :=
  fun _ _ h => (Library.MultiMap.mem_delAll.mp h).2

theorem del_of_notMem (h : r ∉ db.dups key) : db.del key r = db := by
  refine Library.MultiMap.ext_mem fun k r' => ?_
  rw [Library.MultiMap.mem_del, and_iff_right_iff_imp]
  rintro hr' ⟨rfl, rfl⟩
  exact h hr'

/-- Both records of a link go. -/
theorem Inv.unlink (h : Inv db) (hslash : '/' ∉ n) (hquote : backquote ∉ n) :
    Inv ((db.del target ('r' :: ':' :: (key ++ '/' :: n))).del key ('s' :: ':' :: (n ++ backquote :: target))) where
  path hr := h.path (Shrinks.del _ _ _ _ _ (Shrinks.del _ _ _ _ _ hr))
  record hr := h.record (Shrinks.del _ _ _ _ _ (Shrinks.del _ _ _ _ _ hr))
  links {key' n' target'} hslash' hquote' := by
    have hlink := @Inv.links _ h key' n' target' hslash' hquote'
    simp only [Library.MultiMap.mem_del, List.cons.injEq, true_and, Char.reduceEq, false_and, and_false,
      not_false_eq_true, hlink]
    refine and_congr_left fun _ => not_congr ?_
    constructor
    · rintro ⟨rfl, heq⟩
      obtain ⟨rfl, rfl⟩ := append_cons_inj hquote' hquote heq
      exact ⟨rfl, rfl⟩
    · rintro ⟨rfl, heq⟩
      obtain ⟨rfl, rfl⟩ := path_inj hslash' hslash heq
      exact ⟨rfl, rfl⟩
  children hr := by
    refine (h.children (Shrinks.del _ _ _ _ _ (Shrinks.del _ _ _ _ _ hr))).imp_right ?_
    rintro ⟨parent, name, hname, rfl, hchild⟩
    refine ⟨parent, name, hname, rfl, ?_⟩
    simp only [Library.MultiMap.mem_del, List.cons.injEq, Char.reduceEq, false_and, and_false, not_false_eq_true,
      true_and, hchild]

/-- A node that has neither children nor links loses its other records. -/
theorem Inv.delAll (h : Inv db) (hchild : ∀ n, 'c' :: ':' :: n ∉ db.dups key) (hlink : ∀ s, 's' :: ':' :: s ∉ db.dups key)
    (href : ∀ s, 'r' :: ':' :: s ∉ db.dups key) : Inv (db.delAll key) where
  path hr := h.path (Shrinks.delAll _ _ _ _ hr)
  record hr := h.record (Shrinks.delAll _ _ _ _ hr)
  links {key' n' target'} hslash' hquote' := by
    have hiff := @Inv.links _ h key' n' target' hslash' hquote'
    rw [Library.MultiMap.mem_delAll, Library.MultiMap.mem_delAll]
    constructor
    · rintro ⟨-, hs⟩
      have hr := hiff.mp hs
      refine ⟨?_, hr⟩
      rintro rfl
      exact href _ hr
    · rintro ⟨-, hr⟩
      have hs := hiff.mpr hr
      refine ⟨?_, hs⟩
      rintro rfl
      exact hlink _ hs
  children hr := by
    refine (h.children (Shrinks.delAll _ _ _ _ hr)).imp_right ?_
    rintro ⟨parent, name, hname, rfl, hc⟩
    refine ⟨parent, name, hname, rfl, Library.MultiMap.mem_delAll.mpr ⟨?_, hc⟩⟩
    rintro rfl
    exact hchild name hc

/-- The parent forgets a node without records. -/
theorem Inv.delChild (h : Inv db) (hslash : '/' ∉ n) (hnil : ∀ r, r ∉ db.dups (key ++ '/' :: n)) :
    Inv (db.del key ('c' :: ':' :: n)) where
  path hr := h.path (Shrinks.del _ _ _ _ _ hr)
  record hr := h.record (Shrinks.del _ _ _ _ _ hr)
  links hslash' hquote' := by
    simp only [Library.MultiMap.mem_del, List.cons.injEq, Char.reduceEq, false_and, and_false, not_false_eq_true,
      true_and]
    exact h.links hslash' hquote'
  children hr := by
    have hr' := Shrinks.del _ _ _ _ _ hr
    refine (h.children hr').imp_right ?_
    rintro ⟨parent, name, hname, rfl, hc⟩
    refine ⟨parent, name, hname, rfl, Library.MultiMap.mem_del.mpr ⟨?_, hc⟩⟩
    rintro ⟨rfl, heq⟩
    simp only [List.cons.injEq, true_and] at heq
    subst heq
    exact hnil _ hr'

-- ---------------------------------------------------------------------------
-- Elements and their children
-- ---------------------------------------------------------------------------

/-- A node or a root, or a link with its target. -/
inductive Valid : Elem → Prop
  | regular {key : Str} (hkey : Path key) (isRoot : Bool) : Valid ⟨key, none, .regular, isRoot⟩
  | ref {key n target : Str} (htarget : Path target) (hkey : Clean key) (hn : Name n) :
      Valid ⟨target, some (key ++ '/' :: n), .ref, false⟩

/-- No name stands for two things under the node, and every link has a name. -/
structure Apart (db : Store) (key : Str) : Prop where
  named : ∀ {n target}, backquote ∉ n → 's' :: ':' :: (n ++ backquote :: target) ∈ db.dups key → n ≠ []
  child : ∀ {n target}, backquote ∉ n → 's' :: ':' :: (n ++ backquote :: target) ∈ db.dups key →
    'c' :: ':' :: n ∉ db.dups key
  link : ∀ {n target target'}, backquote ∉ n → 's' :: ':' :: (n ++ backquote :: target) ∈ db.dups key →
    's' :: ':' :: (n ++ backquote :: target') ∈ db.dups key → target = target'

theorem Apart.shrink (h : Apart db key) (hshrinks : Shrinks db db') : Apart db' key where
  named hn hr := h.named hn (hshrinks _ _ hr)
  child hn hr hc := h.child hn (hshrinks _ _ hr) (hshrinks _ _ hc)
  link hn hr hr' := h.link hn (hshrinks _ _ hr) (hshrinks _ _ hr')

section

variable {isRoot : Bool} {c : Str × Elem}

theorem childOf_child (hkey : Path key) (hn : Name n) :
    childOf ⟨key, none, .regular, isRoot⟩ ('c' :: ':' :: n) = .ok (some (n, .node (key ++ '/' :: n))) := by
  rw [← join_eq hkey.clean hn.clean]
  rfl

theorem childOf_link (hkey : Path key) (hn : Name n) (hne : n ≠ []) (htarget : Path target) :
    childOf ⟨key, none, .regular, isRoot⟩ ('s' :: ':' :: (n ++ backquote :: target)) =
      .ok (some (n, ⟨target, some (key ++ '/' :: n), .ref, false⟩)) := by
  rw [childOf, split_two hne hn.quote htarget.ne_nil htarget.quote, ← join_eq hkey.clean hn.clean]
  rfl

theorem childOf_valid (hkey : Path key) (hr : Rec r) (hapart : Apart db key) (hmem : r ∈ db.dups key)
    (h : childOf ⟨key, none, .regular, isRoot⟩ r = .ok (some c)) :
    Valid c.2 ∧ (c.2.eType = .regular → c.2.key = key ++ '/' :: c.1) := by
  cases hr with
  | attrib s => cases h
  | value s => cases h
  | child hn =>
    rw [childOf_child hkey hn] at h
    cases h
    exact ⟨.regular (.child hkey hn) false, fun _ => rfl⟩
  | link hn htarget =>
    rw [childOf_link hkey hn (hapart.named hn.quote hmem) htarget] at h
    cases h
    exact ⟨.ref htarget hkey.clean hn, nofun⟩
  | ref _ _ => cases h

/-- One step of `get_child`. -/
def addChild (f : Str → Res (Option (Str × Elem))) (dict : List (Str × Elem)) (v : Str) : Res (List (Str × Elem)) :=
  (f v).map fun child =>
    match child with
    | some (name, c) => setKey dict name c
    | none => dict

variable {f : Str → Res (Option (Str × Elem))} {l : List Str} {d cs : List (Str × Elem)}

theorem foldlM_cons_ok (h : (r :: l).foldlM (addChild f) d = .ok cs) :
    ∃ child, f r = .ok child ∧
      l.foldlM (addChild f) (match child with | some (name, c) => setKey d name c | none => d) = .ok cs := by
  rw [List.foldlM_cons] at h
  obtain ⟨d', hd', h⟩ := bind_eq_ok h
  obtain ⟨child, hchild, rfl⟩ := map_eq_ok hd'
  exact ⟨child, hchild, h⟩

theorem of_mem_foldlM (h : l.foldlM (addChild f) d = .ok cs) (hc : c ∈ cs) :
    c ∈ d ∨ ∃ r ∈ l, f r = .ok (some c) := by
  induction l generalizing d with
  | nil =>
    cases h
    exact .inl hc
  | cons r l ih =>
    obtain ⟨child, hchild, h⟩ := foldlM_cons_ok h
    rcases ih h with hd | ⟨r', hr', hf⟩
    · cases child with
      | none => exact .inl hd
      | some c' =>
        rcases mem_setKey hd with rfl | hd
        · exact .inr ⟨r, List.mem_cons_self, hchild⟩
        · exact .inl hd
    · exact .inr ⟨r', List.mem_cons_of_mem _ hr', hf⟩

/-- An element whose name no other record gives is found. -/
theorem mem_foldlM (h : l.foldlM (addChild f) d = .ok cs) (hc : c ∈ d ∨ ∃ r ∈ l, f r = .ok (some c))
    (huniq : ∀ r ∈ l, ∀ c', f r = .ok (some c') → c'.1 = c.1 → c' = c) : c ∈ cs := by
  induction l generalizing d with
  | nil =>
    cases h
    rcases hc with hc | ⟨r, hr, -⟩
    · exact hc
    · exact absurd hr List.not_mem_nil
  | cons r l ih =>
    obtain ⟨child, hchild, h⟩ := foldlM_cons_ok h
    obtain ⟨hr, huniq⟩ := List.forall_mem_cons.mp huniq
    refine ih h ?_ huniq
    rcases hc with hc | ⟨r', hr', hf⟩
    · left
      cases child with
      | none => exact hc
      | some c' =>
        by_cases hname : c'.1 = c.1
        · obtain rfl := hr c' hchild hname
          exact mem_setKey_self ..
        · exact mem_setKey_of_ne hc (Ne.symm hname)
    · rcases List.mem_cons.mp hr' with rfl | hr'
      · left
        rw [hf] at hchild
        cases hchild
        exact mem_setKey_self ..
      · exact .inr ⟨r', hr', hf⟩

theorem getChild_foldlM (h : getChild db e = .ok cs) :
    (db.dups e.key).foldlM (addChild (childOf e)) [] = .ok cs := by
  rw [getChild] at h
  split at h
  · cases h
  · exact h

/-- The children of a node whose names are apart: one for each child record and each
link record. -/
theorem Inv.getChild (h : Inv db) (hkey : Path key) (hapart : Apart db key)
    (hcs : GalaDB.getChild db ⟨key, none, .regular, isRoot⟩ = .ok cs) :
    (∀ c ∈ cs, Valid c.2 ∧ (c.2.eType = .regular → c.2.key = key ++ '/' :: c.1)) ∧
      (∀ n, 'c' :: ':' :: n ∈ db.dups key → (n, .node (key ++ '/' :: n)) ∈ cs) ∧
      ∀ n target, Name n → Path target → 's' :: ':' :: (n ++ backquote :: target) ∈ db.dups key →
        (n, ⟨target, some (key ++ '/' :: n), .ref, false⟩) ∈ cs := by
  have hfold := getChild_foldlM hcs
  refine ⟨fun c hc => ?_, fun n hn => ?_, fun n target hn htarget hmem => ?_⟩
  · obtain ⟨r, hr, hf⟩ := (of_mem_foldlM hfold hc).resolve_left List.not_mem_nil
    exact childOf_valid hkey (h.record hr) hapart hr hf
  · have hname := h.name_of_child hn
    refine mem_foldlM hfold (.inr ⟨_, hn, childOf_child hkey hname⟩) fun r hr c' hf heq => ?_
    cases h.record hr with
    | attrib s => cases hf
    | value s => cases hf
    | child hname' =>
      rw [childOf_child hkey hname'] at hf
      cases hf
      obtain rfl : _ = n := heq
      rfl
    | link hname' htarget' =>
      rw [childOf_link hkey hname' (hapart.named hname'.quote hr) htarget'] at hf
      cases hf
      obtain rfl : _ = n := heq
      exact absurd hn (hapart.child hname'.quote hr)
    | ref _ _ => cases hf
  · refine mem_foldlM hfold (.inr ⟨_, hmem, childOf_link hkey hn (hapart.named hn.quote hmem) htarget⟩)
      fun r hr c' hf heq => ?_
    cases h.record hr with
    | attrib s => cases hf
    | value s => cases hf
    | child hname' =>
      rw [childOf_child hkey hname'] at hf
      cases hf
      obtain rfl : _ = n := heq
      exact absurd hr (hapart.child hn.quote hmem)
    | link hname' htarget' =>
      rw [childOf_link hkey hname' (hapart.named hname'.quote hr) htarget'] at hf
      cases hf
      obtain rfl : _ = n := heq
      obtain rfl := hapart.link hn.quote hmem hr
      rfl
    | ref _ _ => cases hf

theorem of_mem_getRefers {e' : Elem} (h : e' ∈ getRefers db e) :
    ∃ s, 'r' :: ':' :: s ∈ db.dups e.key ∧ e' = ⟨e.key, some s, .ref, false⟩ := by
  obtain ⟨r, hr, hre⟩ := List.mem_filterMap.mp h
  split at hre
  · next s =>
    cases hre
    exact ⟨s, hr, rfl⟩
  · cases hre

end

-- ---------------------------------------------------------------------------
-- Removal
-- ---------------------------------------------------------------------------

/-- The record of the element under its parent. -/
def Known (e : Elem) (parent r : Str) : Prop :=
  e.isRoot = false ∧ ∃ n, '/' ∉ n ∧
    match e.eType with
    | .regular => e.key = parent ++ '/' :: n ∧ r = 'c' :: ':' :: n
    | .ref => e.realKey = some (parent ++ '/' :: n) ∧ r = 's' :: ':' :: (n ++ backquote :: e.key)

/-- What a removal leaves, also when it raises an error. -/
structure Removes (e : Elem) (db : Store) (out : Out) : Prop where
  inv : Inv out.1
  shrinks : Shrinks db out.1
  nil : out.2 = none → e.eType = .regular → ∀ r, r ∉ out.1.dups e.key
  forgotten : out.2 = none → ∀ parent r, Known e parent r → r ∉ out.1.dups parent

theorem Removes.error (h : Inv db') (hshrinks : Shrinks db db') (err : String) : Removes e db (db', some err) :=
  ⟨h, hshrinks, nofun, nofun⟩

theorem Inv.remove_link (h : Inv db) (htarget : Path target) (hkey : Clean key) (hn : Name n) (depth : Nat) :
    Removes ⟨target, some (key ++ '/' :: n), .ref, false⟩ db
      (remove (depth + 1) ⟨target, some (key ++ '/' :: n), .ref, false⟩ db) := by
  have href : refRecord (key ++ '/' :: n) = 'r' :: ':' :: (key ++ '/' :: n) := by
    rw [refRecord, ← join_eq hkey hn.clean, clean_join key n]
  have hlink := linkRecord_eq hn.clean htarget.clean
  have hremove : remove (depth + 1) ⟨target, some (key ++ '/' :: n), .ref, false⟩ db =
      if (db.del target ('r' :: ':' :: (key ++ '/' :: n))).dups key ≠ [] then
        ((db.del target ('r' :: ':' :: (key ++ '/' :: n))).del key ('s' :: ':' :: (n ++ backquote :: target)), none)
      else (db.del target ('r' :: ':' :: (key ++ '/' :: n)), some "symbolink readonly") := by
    simp only [remove, Elem.path, Option.getD_some, href, Out.andThen, Bool.false_eq_true, if_false, removeParentRefer,
      getParent, xpathSplit_eq hn.slash, hlink]
    split
    · next heq =>
      split at heq <;> cases heq
    · next parent heq =>
      split at heq
      · next hne =>
        cases heq
        rw [if_pos hne]
        rfl
      · next hnil =>
        cases heq
        rw [if_neg hnil]
  rw [hremove]
  split
  · refine ⟨h.unlink hn.slash hn.quote, .trans (.del db _ _) (.del _ _ _), (fun _ href => by cases href), ?_⟩
    rintro - parent r ⟨-, n', hn', hreal, rfl⟩
    obtain ⟨rfl, rfl⟩ := path_inj hn.slash hn' (Option.some.inj hreal)
    simp
  · next hnil =>
    have hnone : 'r' :: ':' :: (key ++ '/' :: n) ∉ db.dups target := by
      intro hr
      have hs := (h.links hn.slash hn.quote).mpr hr
      refine hnil (List.ne_nil_of_mem (Library.MultiMap.mem_del.mpr ⟨?_, hs⟩))
      rintro ⟨-, heq⟩
      cases heq
    rw [del_of_notMem hnone]
    exact .error h (.refl db) _

/-- A loop of removals. -/
theorem runAll_removes {α : Type} {f : α → Store → Out} {elem : α → Elem} {as : List α} (h : Inv db)
    (hf : ∀ a ∈ as, ∀ db', Shrinks db db' → Inv db' → Removes (elem a) db' (f a db')) :
    Inv (runAll f as db).1 ∧ Shrinks db (runAll f as db).1 ∧
      ((runAll f as db).2 = none →
        ∀ a ∈ as, ∀ parent r, Known (elem a) parent r → r ∉ (runAll f as db).1.dups parent) := by
  induction as generalizing db with
  | nil => exact ⟨h, .refl db, fun _ _ ha => absurd ha List.not_mem_nil⟩
  | cons a as ih =>
    obtain ⟨ha, has⟩ := List.forall_mem_cons.mp hf
    have hfirst := ha db (.refl db) h
    rw [runAll, Out.andThen]
    split
    · next hok =>
      obtain ⟨hinv, hshrinks, hforgotten⟩ := ih hfirst.inv fun a ha db' hdb' =>
        has a ha db' (hfirst.shrinks.trans hdb')
      refine ⟨hinv, hfirst.shrinks.trans hshrinks, fun hnone => List.forall_mem_cons.mpr ⟨?_, hforgotten hnone⟩⟩
      intro parent r hknown hr
      exact hfirst.forgotten hok parent r hknown (hshrinks _ _ hr)
    · next err herr =>
      refine ⟨hfirst.inv, hfirst.shrinks, fun hnone => ?_⟩
      rw [hnone] at herr
      cases herr

/-- The last two calls of `_remove` for a node. -/
theorem Inv.remove_node (h : Inv db) (hkey : Path key) (hchild : ∀ n, 'c' :: ':' :: n ∉ db.dups key)
    (hlink : ∀ s, 's' :: ':' :: s ∉ db.dups key) (href : ∀ s, 'r' :: ':' :: s ∉ db.dups key) (isRoot : Bool) :
    Removes ⟨key, none, .regular, isRoot⟩ db
      (if isRoot then (db.delAll key, none) else removeParentRefer ⟨key, none, .regular, isRoot⟩ (db.delAll key)) := by
  have hinv := h.delAll hchild hlink href
  have hnil : ∀ r, r ∉ (db.delAll key).dups key := by simp
  cases isRoot with
  | true =>
    refine ⟨hinv, .delAll db key, fun _ _ => hnil, ?_⟩
    rintro - parent r ⟨hroot, -⟩
    cases hroot
  | false =>
    show Removes _ db ((db.delAll key).del (xpathSplit key).1 (childRecord (xpathSplit key).2), none)
    cases hkey with
    | root hroot _ =>
      obtain ⟨n, hslash, -, rfl⟩ := hroot
      have hempty : ∀ r, r ∉ db.dups [] := fun r hr => (h.path hr).ne_nil rfl
      have hsplit : xpathSplit ('/' :: n) = ([], n) := @xpathSplit_eq [] _ hslash
      rw [hsplit, del_of_notMem fun hr => hempty _ (Shrinks.delAll _ _ _ _ hr)]
      refine ⟨hinv, .delAll db _, fun _ _ => hnil, ?_⟩
      rintro - parent r ⟨-, n', hn', hkey, rfl⟩ hr
      obtain ⟨rfl, rfl⟩ := path_inj (a := []) hslash hn' hkey
      exact hempty _ (Shrinks.delAll _ _ _ _ hr)
    | @child parent n hparent hn =>
      rw [xpathSplit_eq hn.slash, childRecord, hn.clean]
      refine ⟨hinv.delChild hn.slash hnil, .trans (.delAll db _) (.del _ _ _),
        fun _ _ r hr => hnil r (Shrinks.del _ _ _ _ _ hr), ?_⟩
      rintro - parent' r ⟨-, n', hn', hkey, rfl⟩
      obtain ⟨rfl, rfl⟩ := path_inj hn.slash hn' hkey
      simp

/-- `_remove` keeps the invariant if the names are apart under every node it removes. -/
theorem remove_removes (depth : Nat) (h : Inv db) (he : Valid e)
    (hapart : e.eType = .regular → ∀ k, Under e.key k → Apart db k) : Removes e db (remove depth e db) := by
  induction depth generalizing db e with
  | zero => exact .error h (.refl db) _
  | succ depth ih =>
    cases he with
    | ref htarget hkey hn => exact h.remove_link htarget hkey hn depth
    | @regular key hkey isRoot =>
    have hapart := hapart rfl
    rw [remove]
    simp only
    cases hcs : getChild db ⟨key, none, .regular, isRoot⟩ with
    | error err => exact .error h (.refl db) err
    | ok cs =>
      obtain ⟨hvalid, hchildren, hlinks⟩ := h.getChild hkey (hapart key (.inl rfl)) hcs
      obtain ⟨hinv₁, hshrinks₁, hforgotten₁⟩ := @runAll_removes _ _ (fun c => remove depth c.2) Prod.snd cs h
        fun c hc db' hdb' hinv' => by
          refine ih hinv' (hvalid c hc).1 fun hregular k hk => (hapart k ?_).shrink hdb'
          rw [(hvalid c hc).2 hregular] at hk
          exact hk.of_child
      dsimp only
      generalize runAll (fun c => remove depth c.2) cs db = out₁ at hinv₁ hshrinks₁ hforgotten₁ ⊢
      obtain ⟨db₁, err₁⟩ := out₁
      cases err₁ with
      | some err => exact .error hinv₁ hshrinks₁ err
      | none =>
      obtain ⟨hinv₂, hshrinks₂, hforgotten₂⟩ := @runAll_removes _ _ (remove depth) id
        (getRefers db₁ ⟨key, none, .regular, isRoot⟩) hinv₁ fun e he db' _ hinv' => by
          obtain ⟨s, hs, rfl⟩ := of_mem_getRefers he
          obtain ⟨parent, n, hparent, hn, rfl⟩ := hinv₁.ref_of_mem hs
          exact ih hinv' (.ref hkey hparent.clean hn) nofun
      dsimp only [Out.andThen] at hinv₂ hshrinks₂ hforgotten₂ ⊢
      generalize runAll (remove depth) (getRefers db₁ ⟨key, none, .regular, isRoot⟩) db₁ = out₂
        at hinv₂ hshrinks₂ hforgotten₂ ⊢
      obtain ⟨db₂, err₂⟩ := out₂
      cases err₂ with
      | some err => exact .error hinv₂ (hshrinks₁.trans hshrinks₂) err
      | none =>
      have hnochild : ∀ n, 'c' :: ':' :: n ∉ db₂.dups key := by
        intro n hn
        have hn₁ := hshrinks₂ _ _ hn
        have hslash := (h.name_of_child (hshrinks₁ _ _ hn₁)).slash
        exact hforgotten₁ rfl _ (hchildren n (hshrinks₁ _ _ hn₁)) key _ ⟨rfl, n, hslash, rfl, rfl⟩ hn₁
      have hnolink : ∀ s, 's' :: ':' :: s ∉ db₂.dups key := by
        intro s hs
        have hs₁ := hshrinks₂ _ _ hs
        obtain ⟨n, target, hn, htarget, rfl⟩ := h.link_of_mem (hshrinks₁ _ _ hs₁)
        exact hforgotten₁ rfl _ (hlinks n target hn htarget (hshrinks₁ _ _ hs₁)) key _ ⟨rfl, n, hn.slash, rfl, rfl⟩ hs₁
      have hnoref : ∀ s, 'r' :: ':' :: s ∉ db₂.dups key := by
        intro s hs
        obtain ⟨parent, n, hparent, hn, rfl⟩ := hinv₁.ref_of_mem (hshrinks₂ _ _ hs)
        have hmem : (⟨key, some (parent ++ '/' :: n), .ref, false⟩ : Elem) ∈
            getRefers db₁ ⟨key, none, .regular, isRoot⟩ :=
          List.mem_filterMap.mpr ⟨_, hshrinks₂ _ _ hs, rfl⟩
        exact hforgotten₂ rfl _ hmem parent _ ⟨rfl, n, hn.slash, rfl, rfl⟩ ((hinv₂.links hn.slash hn.quote).mpr hs)
      have hlast := hinv₂.remove_node hkey hnochild hnolink hnoref isRoot
      exact ⟨hlast.inv, (hshrinks₁.trans hshrinks₂).trans hlast.shrinks, hlast.nil, hlast.forgotten⟩

-- ---------------------------------------------------------------------------
-- Adding
-- ---------------------------------------------------------------------------

theorem Name.of_fmt (hslash : '/' ∉ n) (hquote : backquote ∉ n) : Name (fmt n) := by
  have hsub : ∀ ch ∈ fmt n, ch ∈ n := by
    intro ch hch
    rw [fmt] at hch
    split at hch
    · exact (List.takeWhile_sublist _).mem hch
    · exact hch
  exact ⟨clean_fmt n, fun h => hslash (hsub _ h), fun h => hquote (hsub _ h)⟩

theorem Placed.put (h : Placed db key) (k r : Str) : Placed (db.put k r) key := by
  refine h.imp_right ?_
  rintro ⟨parent, name, hname, rfl, hchild⟩
  exact ⟨parent, name, hname, rfl, Library.MultiMap.mem_put.mpr (.inr hchild)⟩

theorem Inv.placed (h : Inv db) (hpresent : Present db key) : Placed db key := by
  cases hpresent with
  | root hroot => exact .inl hroot
  | child _ hchild => exact .inr ⟨_, _, (h.name_of_child hchild).slash, rfl, hchild⟩

theorem Inv.path_of_present (h : Inv db) (hpresent : Present db key) (hclean : Clean key) : Path key := by
  cases hpresent with
  | root hroot => exact .root hroot hclean
  | child _ hchild => exact .child (h.path hchild) (h.name_of_child hchild)

/-- A record that is not one of the two of a link. -/
theorem Inv.put (h : Inv db) (hkey : Path key) (hplaced : Placed db key) (hr : Rec r)
    (hlink : ∀ s, r ≠ 's' :: ':' :: s) (href : ∀ s, r ≠ 'r' :: ':' :: s) : Inv (db.put key r) where
  path hmem := by
    rcases Library.MultiMap.mem_put.mp hmem with ⟨rfl, -⟩ | hmem
    · exact hkey
    · exact h.path hmem
  record hmem := by
    rcases Library.MultiMap.mem_put.mp hmem with ⟨-, rfl⟩ | hmem
    · exact hr
    · exact h.record hmem
  links hslash hquote := by
    simp only [Library.MultiMap.mem_put, (hlink _).symm, (href _).symm, and_false, false_or]
    exact h.links hslash hquote
  children hmem := by
    refine Placed.put ?_ key r
    rcases Library.MultiMap.mem_put.mp hmem with ⟨rfl, -⟩ | hmem
    · exact hplaced
    · exact h.children hmem

theorem Inv.putAttrib (h : Inv db) (hkey : Path key) (hplaced : Placed db key) (k v : Str) :
    Inv (db.put key (attribRecord k v)) :=
  h.put hkey hplaced (.attrib _) nofun nofun

theorem Inv.putValue (h : Inv db) (hkey : Path key) (hplaced : Placed db key) (v : Str) :
    Inv (db.put key (valueRecord v)) :=
  h.put hkey hplaced (.value _) nofun nofun

theorem Inv.putLink (h : Inv db) (hkey : Path key) (hplaced : Placed db key) (htarget : Path target)
    (htplaced : Placed db target) (hn : Name n) :
    Inv ((db.put target ('r' :: ':' :: (key ++ '/' :: n))).put key ('s' :: ':' :: (n ++ backquote :: target))) where
  path hmem := by
    rcases Library.MultiMap.mem_put.mp hmem with ⟨rfl, -⟩ | hmem
    · exact hkey
    rcases Library.MultiMap.mem_put.mp hmem with ⟨rfl, -⟩ | hmem
    · exact htarget
    · exact h.path hmem
  record hmem := by
    rcases Library.MultiMap.mem_put.mp hmem with ⟨-, rfl⟩ | hmem
    · exact .link hn htarget
    rcases Library.MultiMap.mem_put.mp hmem with ⟨-, rfl⟩ | hmem
    · exact .ref hkey hn
    · exact h.record hmem
  links {key' n' target'} hslash hquote := by
    have hiff := @Inv.links _ h key' n' target' hslash hquote
    simp only [Library.MultiMap.mem_put, List.cons.injEq, true_and, Char.reduceEq, false_and, and_false, false_or, hiff]
    refine or_congr_left ?_
    constructor
    · rintro ⟨rfl, heq⟩
      obtain ⟨rfl, rfl⟩ := append_cons_inj hquote hn.quote heq
      exact ⟨rfl, rfl⟩
    · rintro ⟨rfl, heq⟩
      obtain ⟨rfl, rfl⟩ := path_inj hslash hn.slash heq
      exact ⟨rfl, rfl⟩
  children hmem := by
    refine Placed.put (Placed.put ?_ _ _) _ _
    rcases Library.MultiMap.mem_put.mp hmem with ⟨rfl, -⟩ | hmem
    · exact hplaced
    rcases Library.MultiMap.mem_put.mp hmem with ⟨rfl, -⟩ | hmem
    · exact htplaced
    · exact h.children hmem

section Deleting

-- what a record of an attribute or a value begins with
variable {ch : Char} (hch : ch = 'a' ∨ ch = 'v')

include hch

theorem mem_delPlain {ch' : Char} (hch' : ch' = 'c' ∨ ch' = 's' ∨ ch' = 'r') (k s : Str) {key' v : Str} :
    ch' :: v ∈ (db.del k (ch :: s)).dups key' ↔ ch' :: v ∈ db.dups key' := by
  rw [Library.MultiMap.mem_del, and_iff_right]
  rintro ⟨-, heq⟩
  obtain rfl := (List.cons.inj heq).1
  rcases hch with rfl | rfl <;> rcases hch' with h | h | h <;> exact absurd h (by decide)

theorem Placed.delPlain (h : Placed db key) (k s : Str) : Placed (db.del k (ch :: s)) key := by
  refine h.imp_right ?_
  rintro ⟨parent, name, hname, rfl, hchild⟩
  exact ⟨parent, name, hname, rfl, (mem_delPlain hch (.inl rfl) k s).mpr hchild⟩

theorem Inv.delPlain (h : Inv db) (key s : Str) : Inv (db.del key (ch :: s)) where
  path hr := h.path (Shrinks.del _ _ _ _ _ hr)
  record hr := h.record (Shrinks.del _ _ _ _ _ hr)
  links hslash hquote := by
    rw [mem_delPlain hch (.inr (.inl rfl)), mem_delPlain hch (.inr (.inr rfl))]
    exact h.links hslash hquote
  children hr := (h.children (Shrinks.del _ _ _ _ _ hr)).delPlain hch key s

end Deleting

theorem Inv.removeAttrib (h : Inv db) (key k : Str) : Inv (GalaDB.removeAttrib key k db) := by
  rw [GalaDB.removeAttrib]
  split
  · exact h.delPlain (.inl rfl) key _
  · exact h

theorem Placed.removeAttrib (h : Placed db key) (k : Str) : Placed (GalaDB.removeAttrib key k db) key := by
  rw [GalaDB.removeAttrib]
  split
  · exact h.delPlain (.inl rfl) key _
  · exact h

theorem Inv.removeOneValue (h : Inv db) (e : Elem) (v : Str) : Inv (GalaDB.removeOneValue e v db).1 := by
  rw [GalaDB.removeOneValue]
  split
  · exact h.delPlain (.inr rfl) e.key _
  · exact h

theorem Inv.removeValue (h : Inv db) (e : Elem) (v : Option Str) : Inv (GalaDB.removeValue e v db).1 := by
  cases v with
  | some v => exact h.removeOneValue e v
  | none => exact runAll_invariant (P := Inv) (fun v _ h => h.removeOneValue e v) (getValue db e.key) h

theorem Inv.addNode (h : Inv db) (hkey : Path key) (hplaced : Placed db key) (hslash : '/' ∉ k)
    (hquote : backquote ∉ k) :
    GalaDB.addNode anySize key k db = .ok (db.put key (childRecord k)) ∧ Inv (db.put key (childRecord k)) ∧
      Path (join key k) ∧ Placed (db.put key (childRecord k)) (join key k) := by
  have hname := Name.of_fmt hslash hquote
  have hjoin : join key k = key ++ '/' :: fmt k := by rw [join, hkey.clean]
  refine ⟨rfl, h.put hkey hplaced (.child hname) (fun _ hr => by cases hr) (fun _ hr => by cases hr), ?_, ?_⟩
  · rw [hjoin]
    exact .child hkey hname
  · rw [hjoin]
    exact .inr ⟨key, fmt k, hname.slash, rfl, Library.MultiMap.mem_put.mpr (.inl ⟨rfl, rfl⟩)⟩

theorem Inv.setAttrib (h : Inv db) (hkey : Path key) (hplaced : Placed db key) (k v : Str) :
    ∃ db', setAttrib anySize key k v db = .ok db' ∧ Inv db' ∧ Placed db' key := by
  have hadd {db : Store} (h : Inv db) (hplaced : Placed db key) :
      ∃ db', addAttrib anySize key k v db = .ok db' ∧ Inv db' ∧ Placed db' key :=
    ⟨_, rfl, h.putAttrib hkey hplaced k v, hplaced.put _ _⟩
  exact hadd (h.removeAttrib key k) (hplaced.removeAttrib k)

theorem Inv.addVectorItem (h : Inv db) (hkey : Path key) (hplaced : Placed db key) :
    Inv (outOf db ((addVectorItem anySize key db).map Prod.snd)).1 := by
  rw [GalaDB.addVectorItem]
  split
  · exact h
  split
  · exact h
  · next serial _ _ m hm =>
    obtain ⟨db₁, hset, hinv₁, hplaced₁⟩ := h.setAttrib hkey hplaced vectorIndexKey (tostring (m + 1))
    have hdigits := tonumber_digits hm
    have hslash : '/' ∉ serial := fun hmem => absurd (hdigits _ hmem) (by decide)
    have hquote : backquote ∉ serial := fun hmem => absurd (hdigits _ hmem) (by decide)
    rw [hset]
    exact (hinv₁.addNode hkey hplaced₁ hslash hquote).2.1

-- ---------------------------------------------------------------------------
-- Runs
-- ---------------------------------------------------------------------------

/-- An element that is there: a node, or a link with the path it was found by. -/
inductive Existing (db : Store) : Elem → Prop
  | regular {key : Str} (h : Present db key) (isRoot : Bool) : Existing db ⟨key, none, .regular, isRoot⟩
  | ref {target : Str} (h : Present db target) (path n : Str) (hslash : '/' ∉ n) (hquote : backquote ∉ n) :
      Existing db ⟨target, some (join path n), .ref, false⟩

namespace Op

/-- On elements that are there, with names free of slash and backquote; the number of the next
item of a vector is one that `tostring` wrote. -/
def Legal (db : Store) : Op → Prop
  | .addNode e k => Existing db e ∧ '/' ∉ k ∧ backquote ∉ k
  | .addPair e k _ => Existing db e ∧ '/' ∉ k ∧ backquote ∉ k
  | .addVectorNode e k _ => Existing db e ∧ '/' ∉ k ∧ backquote ∉ k
  | .addVectorItem e => Existing db e
  | .addRef e k link => Existing db e ∧ Existing db link ∧ '/' ∉ k ∧ backquote ∉ k
  | .addAttrib e k v => Existing db e ∧ (fmt k = vectorIndexKey → ∃ n : Nat, v = tostring n)
  | .addValue e _ | .removeAttrib e _ | .removeValue e _ | .remove e => Existing db e

/-- No key is cut at a NUL, and the names are apart under all that is removed. -/
def Safe (db : Store) : Op → Prop
  | .addNode e _ => Clean e.key
  | .addPair e _ _ => Clean e.key
  | .addVectorNode e _ _ => Clean e.key
  | .addVectorItem e => Clean e.key
  | .addRef e _ link => Clean e.key ∧ Clean link.key
  | .addAttrib e _ _ | .addValue e _ => Clean e.key
  | .removeAttrib _ _ | .removeValue _ _ => True
  | .remove e => Clean e.key ∧ (e.eType = .regular → ∀ k, Under e.key k → Apart db k)

end Op

/-- The stores after any number of operations on the empty one. -/
inductive Reached (depth : Nat) (safe : Store → Op → Prop) : Store → Prop
  | empty : Reached depth safe .empty
  | step {db : Store} (h : Reached depth safe db) (op : Op) (hlegal : op.Legal db) (hsafe : safe db op) :
      Reached depth safe (op.run depth db).1

theorem Existing.present (h : Existing db e) : Present db e.key := by
  cases h with
  | regular h _ => exact h
  | ref h _ _ _ _ => exact h

theorem Existing.valid (h : Existing db e) (hinv : Inv db) (hclean : Clean e.key) : Valid e := by
  have hpath := hinv.path_of_present h.present hclean
  cases h with
  | regular _ isRoot => exact .regular hpath isRoot
  | ref _ path n hslash hquote => exact .ref hpath (clean_fmt path) (.of_fmt hslash hquote)

theorem Op.run_inv (depth : Nat) (h : Inv db) {op : Op} (hlegal : op.Legal db) (hsafe : op.Safe db) :
    Inv (op.run depth db).1 := by
  cases op with
  | addNode e k =>
    obtain ⟨he, hslash, hquote⟩ := hlegal
    exact (h.addNode (h.path_of_present he.present hsafe) (h.placed he.present) hslash hquote).2.1
  | addPair e k v =>
    obtain ⟨he, hslash, hquote⟩ := hlegal
    obtain ⟨-, hinv, hpath, hplaced⟩ :=
      h.addNode (h.path_of_present he.present hsafe) (h.placed he.present) hslash hquote
    exact hinv.putValue hpath hplaced v
  | addVectorNode e k itag =>
    obtain ⟨he, hslash, hquote⟩ := hlegal
    obtain ⟨-, hinv, hpath, hplaced⟩ :=
      h.addNode (h.path_of_present he.present hsafe) (h.placed he.present) hslash hquote
    have hindex := hinv.putAttrib hpath hplaced vectorIndexKey ['1']
    cases itag with
    | none => exact hindex
    | some tag => exact hindex.putAttrib hpath (hplaced.put _ _) vectorItemTag tag
  | addVectorItem e => exact h.addVectorItem (h.path_of_present hlegal.present hsafe) (h.placed hlegal.present)
  | addRef e k link =>
    obtain ⟨he, hlink, hslash, hquote⟩ := hlegal
    obtain ⟨hclean, hlclean⟩ := hsafe
    have hname := Name.of_fmt hslash hquote
    have hinv := h.putLink (h.path_of_present he.present hclean) (h.placed he.present)
      (h.path_of_present hlink.present hlclean) (h.placed hlink.present) hname
    have hrecord : linkRecord k link.key = 's' :: ':' :: (fmt k ++ backquote :: link.key) := by
      rw [linkRecord, hlclean]
    have href : refRecord (join e.key k) = 'r' :: ':' :: (e.key ++ '/' :: fmt k) := by
      rw [refRecord, clean_join e.key k, join, hclean]
    show Inv ((db.put link.key (refRecord (join e.key k))).put e.key (linkRecord k link.key))
    rw [hrecord, href]
    exact hinv
  | addAttrib e k v =>
    exact h.putAttrib (h.path_of_present hlegal.1.present hsafe) (h.placed hlegal.1.present) k v
  | addValue e v =>
    exact h.putValue (h.path_of_present hlegal.present hsafe) (h.placed hlegal.present) v
  | removeAttrib e k => exact h.removeAttrib e.key k
  | removeValue e v => exact h.removeValue e v
  | remove e => exact (remove_removes depth h (hlegal.valid h hsafe.1) hsafe.2).inv

theorem Reached.inv {depth : Nat} (h : Reached depth (fun db op => op.Safe db) db) : Inv db := by
  induction h with
  | empty => exact .empty
  | step _ op hlegal hsafe ih => exact op.run_inv depth ih hlegal hsafe

/-- Links have both their records, nodes are known to their parents, and no record of a
link names a node that is not there. -/
structure Integrity (db : Store) : Prop where
  links : ∀ key name target, '/' ∉ name → backquote ∉ name →
    ('s' :: ':' :: (name ++ backquote :: target) ∈ db.dups key ↔
      'r' :: ':' :: (key ++ '/' :: name) ∈ db.dups target)
  children : ∀ key, db.dups key ≠ [] → ¬ IsRoot key →
    ∃ parent name, '/' ∉ name ∧ key = parent ++ '/' :: name ∧ 'c' :: ':' :: name ∈ db.dups parent
  targets : ∀ key s, 's' :: ':' :: s ∈ db.dups key → ∃ name target, '/' ∉ name ∧ backquote ∉ name ∧
    s = name ++ backquote :: target ∧ Present db key ∧ Present db target
  sources : ∀ target s, 'r' :: ':' :: s ∈ db.dups target → ∃ key name, '/' ∉ name ∧ backquote ∉ name ∧
    s = key ++ '/' :: name ∧ Present db key ∧ Present db target

theorem Inv.integrity (h : Inv db) : Integrity db where
  links _ _ _ hslash hquote := h.links hslash hquote
  children key hne hroot := by
    obtain ⟨r, hr⟩ := List.exists_mem_of_ne_nil _ hne
    exact (h.children hr).resolve_left hroot
  targets key s hs := by
    obtain ⟨n, target, hn, -, rfl⟩ := h.link_of_mem hs
    have hr := (h.links hn.slash hn.quote).mp hs
    exact ⟨n, target, hn.slash, hn.quote, rfl, h.present hs, h.present hr⟩
  sources target s hr := by
    obtain ⟨key, n, -, hn, rfl⟩ := h.ref_of_mem hr
    have hs := (h.links hn.slash hn.quote).mpr hr
    exact ⟨key, n, hn.slash, hn.quote, rfl, h.present hs, h.present hr⟩

theorem Removes.not_present {out : Out} (h : Removes e db out) (hnone : out.2 = none) (hregular : e.eType = .regular)
    (hflag : e.isRoot = false) (hroot : ¬ IsRoot e.key) : ¬ Present out.1 e.key := by
  intro hpresent
  obtain ⟨parent, name, hslash, hkey, hchild⟩ := (h.inv.placed hpresent).resolve_left hroot
  refine h.forgotten hnone parent _ ⟨hflag, name, hslash, ?_⟩ hchild
  rw [hregular]
  exact ⟨hkey, rfl⟩

/-- In every run in which no key is cut at a NUL and the names are apart under all that
is removed, the store keeps its integrity, and a node whose removal raised no error is
not there any more. -/
theorem reached_integrity (depth : Nat) (db : Store) (h : Reached depth (fun db op => op.Safe db) db) :
    Integrity db ∧ ∀ e, Op.Legal db (.remove e) → Op.Safe db (.remove e) → (remove depth e db).2 = none →
      e.eType = .regular → e.isRoot = false → ¬ IsRoot e.key → ¬ Present (remove depth e db).1 e.key :=
  ⟨h.inv.integrity, fun _ he hsafe hnone hregular hflag hroot =>
    (remove_removes depth h.inv (he.valid h.inv hsafe.1) hsafe.2).not_present hnone hregular hflag hroot⟩

theorem isRoot_r : IsRoot ['/', 'r'] := ⟨['r'], by decide, by decide, rfl⟩

/-- The root `/r`. -/
def rootR : Elem := ⟨['/', 'r'], none, .regular, true⟩

theorem present_under_r (h : 'c' :: ':' :: n ∈ db.dups ['/', 'r']) : Present db ('/' :: 'r' :: '/' :: n) :=
  .child (.root isRoot_r) h

/-- The target of the link `/r/a/x` is removed, and the link with it. -/
theorem integrity_after_target_removed :
    Integrity (Op.run 3 (Op.run 3 (Op.run 3 (Op.run 3 .empty (.addNode rootR ['a'])).1 (.addNode rootR ['b'])).1
      (.addRef (.node ['/', 'r', '/', 'a']) ['x'] (.node ['/', 'r', '/', 'b']))).1
      (.remove (.node ['/', 'r', '/', 'b']))).1 := by
  refine (reached_integrity 3 _ (.step (.step (.step (.step .empty _ ?_ ?_) _ ?_ ?_) _ ?_ ?_) _ ?_ ?_)).1
  · exact ⟨.regular (.root isRoot_r) true, by decide, by decide⟩
  · exact show Clean _ by decide
  · exact ⟨.regular (.root isRoot_r) true, by decide, by decide⟩
  · exact show Clean _ by decide
  · exact ⟨.regular (present_under_r (by decide)) false, .regular (present_under_r (by decide)) false, by decide,
      by decide⟩
  · exact ⟨show Clean _ by decide, show Clean _ by decide⟩
  · exact .regular (present_under_r (by decide)) false
  · refine ⟨show Clean _ by decide, fun _ k hk => ?_⟩
    have hne : k ≠ ['/', 'r', '/', 'a'] := by
      rintro rfl
      exact absurd hk (by rintro (h | h) <;> revert h <;> decide)
    have hnone : ∀ s, 's' :: ':' :: s ∉ (Op.run 3 (Op.run 3 (Op.run 3 .empty (.addNode rootR ['a'])).1
        (.addNode rootR ['b'])).1 (.addRef (.node ['/', 'r', '/', 'a']) ['x'] (.node ['/', 'r', '/', 'b']))).1.dups k := by
      intro s
      show 's' :: ':' :: s ∉ ((((Library.MultiMap.empty.put _ (childRecord _)).put _ (childRecord _)).put _
        (refRecord _)).put _ (linkRecord _ _)).dups k
      simp only [Library.MultiMap.mem_put, childRecord, refRecord, List.cons.injEq, Char.reduceEq, false_and, and_false,
        Library.MultiMap.dups_empty, List.not_mem_nil, or_false, not_and]
      exact fun hk => absurd hk hne
    exact ⟨fun _ h => absurd h (hnone _), fun _ h => absurd h (hnone _), fun _ h => absurd h (hnone _)⟩

/-- Under `/r/p` the name `x` is a node with a value and a link to `/r/t`: the removal
of `/r/p` leaves the node `/r/p/x`. -/
theorem orphan_after_remove : ¬ ∀ depth db, Reached depth (fun _ _ => True) db → Integrity db := by
  intro h
  have hreached : Reached 3 (fun _ _ => True) _ :=
    .step (.step (.step (.step (.step .empty (.addNode rootR ['p'])
      ⟨.regular (.root isRoot_r) true, by decide, by decide⟩ trivial)
      (.addPair (.node ['/', 'r', '/', 'p']) ['x'] ['v'])
      ⟨.regular (present_under_r (by decide)) false, by decide, by decide⟩ trivial)
      (.addNode rootR ['t']) ⟨.regular (.root isRoot_r) true, by decide, by decide⟩ trivial)
      (.addRef (.node ['/', 'r', '/', 'p']) ['x'] (.node ['/', 'r', '/', 't']))
      ⟨.regular (present_under_r (by decide)) false, .regular (present_under_r (by decide)) false, by decide,
        by decide⟩ trivial)
      (.remove (.node ['/', 'r', '/', 'p'])) (.regular (present_under_r (by decide)) false) trivial
  obtain ⟨parent, name, hslash, hkey, hchild⟩ := (h 3 _ hreached).children ['/', 'r', '/', 'p', '/', 'x'] (by decide)
    (by rintro ⟨n, hslash, -, heq⟩; cases heq; exact hslash (by decide))
  obtain ⟨rfl, rfl⟩ := path_inj (a := ['/', 'r', '/', 'p']) (b := ['x']) (by decide) hslash hkey
  revert hchild
  decide

end GalaLua.GalaDB
