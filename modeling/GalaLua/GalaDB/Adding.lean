import GalaLua.GalaDB.Table
import GalaLua.GalaDB.Strings

/-!
# Adding a table

Under a fresh node `addTable` stores a table whose strings are not cut at a NUL, or
LMDB refuses one of its records (`addTable_outcome`).
-/

namespace GalaLua.GalaDB

open Library.Lua

variable {s key name k : Str}

-- ---------------------------------------------------------------------------
-- The keys under a node
-- ---------------------------------------------------------------------------

def Under (key k : Str) : Prop := k = key ∨ key ++ ['/'] <+: k

theorem Under.of_child (h : Under (key ++ '/' :: name) k) : Under key k := by
  right
  have hprefix : key ++ ['/'] <+: key ++ '/' :: name := ⟨name, by simp⟩
  rcases h with rfl | h
  · exact hprefix
  · exact hprefix.trans ((List.prefix_append _ _).trans h)

theorem Under.child (h : Under key k) (name : Str) : Under key (k ++ '/' :: name) := by
  right
  rcases h with rfl | h
  · exact ⟨name, by simp⟩
  · exact h.trans (List.prefix_append _ _)

theorem not_under_child : ¬ Under (key ++ '/' :: name) key := by
  intro h
  have hlen : (key ++ '/' :: name).length ≤ key.length := by
    rcases h with h | h
    · exact le_of_eq (congrArg List.length h.symm)
    · have := h.length_le
      rw [List.length_append] at this
      omega
  rw [List.length_append, List.length_cons] at hlen
  omega

theorem Under.takeWhile_eq (hname : '/' ∉ name) (h : Under (key ++ '/' :: name) k) :
    (k.drop (key.length + 1)).takeWhile (· ≠ '/') = name := by
  have hall : ∀ ch ∈ name, decide (ch ≠ '/') = true := fun ch hch =>
    decide_eq_true fun heq => hname (heq ▸ hch)
  have hdrop (r : Str) : (key ++ '/' :: (name ++ r)).drop (key.length + 1) = name ++ r := by
    rw [List.drop_append, Nat.add_sub_cancel_left, List.drop_eq_nil_of_le (by omega)]
    rfl
  rcases h with rfl | ⟨r, rfl⟩
  · have hself := hdrop []
    rw [List.append_nil] at hself
    rw [hself, List.takeWhile_eq_self_iff]
    exact hall
  · have hrest := hdrop ('/' :: r)
    rw [List.append_assoc, List.append_assoc, List.singleton_append, List.cons_append, hrest,
      List.takeWhile_append_of_pos hall]
    simp

theorem Under.eq_name {a b : Str} (ha : '/' ∉ a) (hb : '/' ∉ b) (h : Under (key ++ '/' :: a) k)
    (h' : Under (key ++ '/' :: b) k) : a = b := by
  rw [← h.takeWhile_eq ha, h'.takeWhile_eq hb]

-- ---------------------------------------------------------------------------
-- Legal tables
-- ---------------------------------------------------------------------------

namespace Table

/-- The children of the node that stands for the table. -/
def children : Table → List (Str × Table)
  | .leaf _ => []
  | .array items => enumerate 0 items
  | .dict entries => entries

/-- Names without a slash and a backquote, each once; none begins with `@attr`. -/
inductive Legal : Table → Prop
  | leaf (s : Str) : Legal (.leaf s)
  | array {items : List Table} (items_legal : ∀ t ∈ items, Legal t) : Legal (.array items)
  | dict {entries : List (Str × Table)} (names : ∀ e ∈ entries, '/' ∉ e.1 ∧ backquote ∉ e.1 ∧ ¬ attrKey <+: e.1)
      (distinct : (entries.map Prod.fst).Nodup) (entries_legal : ∀ e ∈ entries, Legal e.2) : Legal (.dict entries)

/-- The property holds of every string of the table. -/
inductive All (p : Str → Prop) : Table → Prop
  | leaf {s : Str} (h : p s) : All p (.leaf s)
  | array {items : List Table} (h : ∀ t ∈ items, All p t) : All p (.array items)
  | dict {entries : List (Str × Table)} (names : ∀ e ∈ entries, p e.1) (h : ∀ e ∈ entries, All p e.2) :
      All p (.dict entries)

variable {α : Type} {t : Table}

theorem mem_enumerate {n : Nat} {l : List α} {e : Str × α} (h : e ∈ enumerate n l) :
    ∃ i, n < i ∧ e.1 = tostring i ∧ e.2 ∈ l := by
  induction l generalizing n with
  | nil => exact absurd h List.not_mem_nil
  | cons x l ih =>
    rcases List.mem_cons.mp h with rfl | h
    · exact ⟨n + 1, by omega, rfl, List.mem_cons_self⟩
    · obtain ⟨i, hi, hname, hmem⟩ := ih h
      exact ⟨i, by omega, hname, List.mem_cons_of_mem _ hmem⟩

theorem nodup_enumerate (n : Nat) (l : List α) : ((enumerate n l).map Prod.fst).Nodup := by
  induction l generalizing n with
  | nil => exact List.nodup_nil
  | cons x l ih =>
    refine List.nodup_cons.mpr ⟨?_, ih (n + 1)⟩
    intro hmem
    obtain ⟨e, he, heq⟩ := List.mem_map.mp hmem
    obtain ⟨i, hi, hname, -⟩ := mem_enumerate he
    have := tostring_injective (hname.symm.trans heq)
    omega

structure Named (es : List (Str × Table)) : Prop where
  slash : ∀ e ∈ es, '/' ∉ e.1
  clean : ∀ e ∈ es, Clean e.1
  distinct : (es.map Prod.fst).Nodup

theorem Named.ne_last {es : List (Str × Table)} {name : Str} (h : Named (es ++ [(name, t)])) {e : Str × Table}
    (he : e ∈ es) : e.1 ≠ name := by
  have hdistinct := h.distinct
  rw [List.map_append, List.nodup_append] at hdistinct
  exact hdistinct.2.2 e.1 (List.mem_map_of_mem he) name (by simp)

theorem Named.left {es es' : List (Str × Table)} (h : Named (es ++ es')) : Named es where
  slash e he := h.slash e (List.mem_append_left _ he)
  clean e he := h.clean e (List.mem_append_left _ he)
  distinct := h.distinct.sublist ((List.sublist_append_left es es').map _)

theorem Legal.named (h : t.Legal) (hclean : t.All Clean) : Named t.children := by
  cases h with
  | leaf s => exact ⟨nofun, nofun, List.nodup_nil⟩
  | array h =>
    refine ⟨fun e he => ?_, fun e he => ?_, nodup_enumerate 0 _⟩
    · obtain ⟨i, -, hname, -⟩ := mem_enumerate he
      rw [hname]
      exact slash_notMem_tostring i
    · obtain ⟨i, -, hname, -⟩ := mem_enumerate he
      rw [hname]
      exact clean_tostring i
  | dict hnames hdistinct h =>
    cases hclean with
    | dict hclean _ => exact ⟨fun e he => (hnames e he).1, hclean, hdistinct⟩

section

variable (fits : Str → Bool)

def Takes (key v : Str) : Prop := fits key = true ∧ fits v = true

instance (key v : Str) : Decidable (Takes fits key v) := inferInstanceAs (Decidable (_ ∧ _))

mutual

/-- LMDB takes every record that `addTable` puts. -/
def Fits (key : Str) : Table → Prop
  | .leaf s => Takes fits key (valueRecord s)
  | .array [] => True
  | .array (t :: ts) =>
    Takes fits key (attribRecord vectorIndexKey ['1']) ∧
      Takes fits key (attribRecord vectorItemTag ['i', 't', 'e', 'm']) ∧ FitsItems key 0 (t :: ts)
  | .dict entries => FitsEntries key entries

def FitsItems (key : Str) (n : Nat) : List Table → Prop
  | [] => True
  | t :: ts =>
    (Takes fits key (attribRecord vectorIndexKey (tostring (n + 2))) ∧
      Takes fits key (childRecord (tostring (n + 1)))) ∧
      t.Fits (join key (tostring (n + 1))) ∧ FitsItems key (n + 1) ts

def FitsEntries (key : Str) : List (Str × Table) → Prop
  | [] => True
  | (k, t) :: es => Takes fits key (childRecord k) ∧ t.Fits (join key k) ∧ FitsEntries key es

end

end

/-- `get_child` takes the key of every node with children. -/
inductive Short : Str → Table → Prop
  | mk {key : Str} {t : Table} (short : t.children ≠ [] → key.length < 1000)
      (children : ∀ c ∈ t.children, Short (join key c.1) c.2) : Short key t

end Table

-- ---------------------------------------------------------------------------
-- Outcomes
-- ---------------------------------------------------------------------------

/-- The call succeeds if and only if `good` holds, and then its result is `post`. -/
def Outcome {α : Type} (r : Res α) (good : Prop) (post : α → Prop) : Prop :=
  match r with
  | .ok a => good ∧ post a
  | .error _ => ¬ good

section

variable {α β : Type} {r : Res α} {good good' : Prop} {post post' : α → Prop}

theorem Outcome.bind {f : α → Res β} {post' : β → Prop} (h : Outcome r good post)
    (hf : ∀ a, post a → Outcome (f a) good' post') : Outcome (r.bind f) (good ∧ good') post' := by
  cases r with
  | error e => exact fun hgood => h hgood.1
  | ok a =>
    obtain ⟨hgood, hpost⟩ := h
    have hfa := hf a hpost
    show Outcome (f a) (good ∧ good') post'
    cases hr : f a with
    | error e =>
      rw [hr] at hfa
      exact fun hgood => hfa hgood.2
    | ok b =>
      rw [hr] at hfa
      exact ⟨⟨hgood, hfa.1⟩, hfa.2⟩

theorem Outcome.imp (h : Outcome r good post) (hgood : good ↔ good') (hpost : ∀ a, post a → post' a) :
    Outcome r good' post' := by
  cases r with
  | error e => exact fun h' => h (hgood.mpr h')
  | ok a => exact ⟨hgood.mp h.1, hpost a h.2⟩

theorem Outcome.ok {a : α} (h : post a) : Outcome (.ok a) True post := ⟨trivial, h⟩

end

theorem rawPut_outcome (fits : Str → Bool) (key v : Str) (db : Store) :
    Outcome (rawPut fits key v db) (Table.Takes fits key v) fun db' => db' = db.put key v := by
  rw [rawPut]
  split
  · next h => exact ⟨(Bool.and_eq_true ..).mp h, rfl⟩
  · next h => exact fun hgood => h ((Bool.and_eq_true ..).mpr hgood)

-- ---------------------------------------------------------------------------
-- Attributes
-- ---------------------------------------------------------------------------

variable {db db' : Store} {v : Str}

/-- An attribute whose records all give one value. -/
theorem lookup_attribs {as : List (Str × Str)} (d : List (Str × Str)) (huniq : ∀ v', (k, v') ∈ as → v' = v)
    (h : (k, v) ∈ as ∨ d.lookup k = some v) :
    (setKeys d as).lookup k = some v := by
  induction as generalizing d with
  | nil => exact h.resolve_left List.not_mem_nil
  | cons a as ih =>
    obtain ⟨k₁, v₁⟩ := a
    refine ih (setKey d k₁ v₁) (fun v' hv' => huniq v' (List.mem_cons_of_mem _ hv')) ?_
    rw [lookup_setKey]
    by_cases hk : k = k₁
    · subst hk
      right
      rw [if_pos rfl, huniq v₁ List.mem_cons_self]
    · rw [if_neg hk]
      rcases h with h | h
      · rcases List.mem_cons.mp h with h | h
        · exact absurd (congrArg Prod.fst h) hk
        · exact .inl h
      · exact .inr h

theorem lookup_getAttrib {r : Str} (hmem : r ∈ db.dups key) (hr : attribOf r = some (k, v))
    (huniq : ∀ r' ∈ db.dups key, ∀ v', attribOf r' = some (k, v') → v' = v) :
    (getAttrib db key).lookup k = some v := by
  refine lookup_attribs [] (fun v' hv' => ?_) (.inl (List.mem_filterMap.mpr ⟨r, hmem, hr⟩))
  obtain ⟨r', hr', hof⟩ := List.mem_filterMap.mp hv'
  exact huniq r' hr' v' hof

theorem lookup_getAttrib_none (h : ∀ r ∈ db.dups key, ∀ v, attribOf r ≠ some (k, v)) :
    (getAttrib db key).lookup k = none := by
  refine lookup_setKeys fun a ha => ?_
  rintro rfl
  obtain ⟨r, hr, hof⟩ := List.mem_filterMap.mp ha
  exact h r hr a.2 hof

theorem attribOf_record (hquote : backquote ∉ k) (v : Str) :
    attribOf ('a' :: ':' :: (k ++ backquote :: v)) = some (k, v) := by
  have hall : ∀ ch ∈ k, decide (ch ≠ backquote) = true := fun ch hch =>
    decide_eq_true fun heq => hquote (heq ▸ hch)
  rw [attribOf, List.takeWhile_append_of_pos hall, List.dropWhile_append_of_pos hall]
  simp

theorem attribOf_attribRecord (hk : Clean k) (hquote : backquote ∉ k) (hv : Clean v) :
    attribOf (attribRecord k v) = some (k, v) := by
  rw [attribRecord, hk, hv, attribOf_record hquote]

-- ---------------------------------------------------------------------------
-- Adding
-- ---------------------------------------------------------------------------

def itemTag : Str := attribRecord vectorItemTag ['i', 't', 'e', 'm']

/-- The attribute of an array whose next item gets the position `n`. -/
def nextIndex (n : Nat) : Str := attribRecord vectorIndexKey (tostring n)

/-- The records of the node that stands for a table. -/
def Table.records : Table → List Str
  | .leaf s => [valueRecord s]
  | .array [] => []
  | .array items => nextIndex (items.length + 1) :: itemTag :: (enumerate 0 items).map fun c => childRecord c.1
  | .dict entries => entries.map fun c => childRecord c.1

/-- The table is stored under the key. -/
inductive Holds (db : Store) : Str → Table → Prop
  | mk {key : Str} {t : Table} (records : ∀ r, r ∈ db.dups key ↔ r ∈ t.records)
      (children : ∀ c ∈ t.children, Holds db (join key c.1) c.2) : Holds db key t

def Fresh (db : Store) (key : Str) : Prop := ∀ k, Under key k → db.dups k = []

def SameOutside (key : Str) (db db' : Store) : Prop := ∀ k, ¬ Under key k → db'.dups k = db.dups k

theorem SameOutside.refl (key : Str) (db : Store) : SameOutside key db db := fun _ _ => rfl

theorem SameOutside.trans {db₁ db₂ db₃ : Store} (h : SameOutside key db₁ db₂) (h' : SameOutside key db₂ db₃) :
    SameOutside key db₁ db₃ := fun k hk => (h' k hk).trans (h k hk)

theorem SameOutside.of_child (h : SameOutside (key ++ '/' :: name) db db') : SameOutside key db db' :=
  fun k hk => h k fun hk' => hk hk'.of_child

theorem SameOutside.put (key v : Str) (db : Store) : SameOutside key db (db.put key v) :=
  fun _ hk => Library.MultiMap.dups_put_of_ne fun heq => hk (.inl heq)

theorem SameOutside.del (key v : Str) (db : Store) : SameOutside key db (db.del key v) :=
  fun _ hk => Library.MultiMap.dups_del_of_ne fun heq => hk (.inl heq)

theorem Holds.congr {t : Table} (h : Holds db key t) (hkey : Clean key)
    (hsame : ∀ k, Under key k → db'.dups k = db.dups k) : Holds db' key t := by
  induction h with
  | @mk key t hrecords _ ih =>
    refine ⟨fun r => ?_, fun c hc => ih c hc (clean_join ..) fun k hk => ?_⟩
    · rw [hsame key (.inl rfl), hrecords]
    · rw [join, hkey] at hk
      exact hsame k hk.of_child

/-- Some children of a node are stored, and nothing else lies under it. -/
structure Partial (db : Store) (key : Str) (attrs : List Str) (done : List (Str × Table)) : Prop where
  records : ∀ r, r ∈ db.dups key ↔ r ∈ attrs ∨ r ∈ done.map fun c => childRecord c.1
  holds : ∀ c ∈ done, Holds db (join key c.1) c.2
  fresh : ∀ k, Under key k → k ≠ key → (∀ c ∈ done, ¬ Under (join key c.1) k) → db.dups k = []

variable {attrs attrs' : List Str} {done : List (Str × Table)} {t : Table}

theorem Fresh.partialNone (h : Fresh db key) : Partial db key [] [] where
  records r := by
    rw [h key (.inl rfl)]
    exact ⟨fun hr => absurd hr List.not_mem_nil, fun hr => hr.elim id id⟩
  holds := nofun
  fresh k hk _ _ := h k hk

theorem Partial.fresh_child (h : Partial db key attrs done) (hkey : Clean key)
    (hnamed : Table.Named (done ++ [(name, t)])) : Fresh db (join key name) := by
  have hname := hnamed.clean (name, t) (by simp)
  have hslash := hnamed.slash (name, t) (by simp)
  intro k hk
  rw [join_eq hkey hname] at hk
  refine h.fresh k hk.of_child ?_ fun c hc hck => ?_
  · rintro rfl
    exact not_under_child hk
  · rw [join_eq hkey (hnamed.clean c (List.mem_append_left _ hc))] at hck
    exact hnamed.ne_last hc (hk.eq_name hslash (hnamed.slash c (List.mem_append_left _ hc)) hck).symm

/-- One more child: its record is put in `db₁`, its table is stored in `db₂`. -/
theorem Partial.step {db₁ db₂ : Store} (h : Partial db key attrs done) (hkey : Clean key)
    (hnamed : Table.Named (done ++ [(name, t)]))
    (hrecords : ∀ r, r ∈ db₁.dups key ↔ r ∈ attrs' ∨ r ∈ (done ++ [(name, t)]).map fun c => childRecord c.1)
    (hput : ∀ k, k ≠ key → db₁.dups k = db.dups k) (hholds : Holds db₂ (join key name) t)
    (hsame : SameOutside (join key name) db₁ db₂) : Partial db₂ key attrs' (done ++ [(name, t)]) := by
  have hname := hnamed.clean (name, t) (by simp)
  have hslash := hnamed.slash (name, t) (by simp)
  have hself : db₂.dups key = db₁.dups key := hsame key (by rw [join_eq hkey hname]; exact not_under_child)
  refine ⟨fun r => by rw [hself, hrecords], fun c hc => ?_, fun k hk hne hout => ?_⟩
  · rcases List.mem_append.mp hc with hc' | hc'
    · refine (h.holds c hc').congr (clean_join ..) fun k hk => ?_
      have hcname := hnamed.clean c (List.mem_append_left _ hc')
      rw [join_eq hkey hcname] at hk
      rw [hsame, hput]
      · rintro rfl
        exact not_under_child hk
      · intro hk'
        rw [join_eq hkey hname] at hk'
        exact hnamed.ne_last hc' (hk.eq_name (hnamed.slash c (List.mem_append_left _ hc')) hslash hk')
    · rw [List.mem_singleton.mp hc']
      exact hholds
  · rw [hsame k (hout (name, t) (by simp)), hput k hne]
    exact h.fresh k hk hne fun c hc => hout c (List.mem_append_left _ hc)

variable {fits : Str → Bool}

/-- The outcome of `addTable` under a fresh node. -/
def Table.Added (fits : Str → Bool) (t : Table) : Prop :=
  ∀ key db, Clean key → Fresh db key →
    Outcome (addTable fits key t db) (t.Fits fits key) fun db' => Holds db' key t ∧ SameOutside key db db'

/-- Putting the record of a child and then its table. -/
theorem Partial.addChild (h : Partial db key attrs done) (hkey : Clean key)
    (hnamed : Table.Named (done ++ [(name, t)])) (hadded : t.Added fits) :
    Outcome ((addNode fits key name db).bind (addTable fits (join key name) t))
      (Table.Takes fits key (childRecord name) ∧ t.Fits fits (join key name))
      fun db' => Partial db' key attrs (done ++ [(name, t)]) ∧ SameOutside key db db' := by
  refine (rawPut_outcome fits key (childRecord name) db).bind fun db₁ hdb₁ => ?_
  subst hdb₁
  have hput : ∀ k, k ≠ key → (db.put key (childRecord name)).dups k = db.dups k := fun k hk =>
    Library.MultiMap.dups_put_of_ne hk
  have hfresh : Fresh (db.put key (childRecord name)) (join key name) := fun k hk => by
    rw [hput k, h.fresh_child hkey hnamed k hk]
    rintro rfl
    rw [join, hkey] at hk
    exact not_under_child hk
  refine (hadded (join key name) _ (clean_join ..) hfresh).imp Iff.rfl ?_
  rintro db₂ ⟨hholds, hsame⟩
  refine ⟨h.step hkey hnamed (fun r => ?_) hput hholds hsame, SameOutside.trans (.put key (childRecord name) db) ?_⟩
  · rw [Library.MultiMap.mem_put, h.records, List.map_append, List.mem_append]
    simp only [true_and, List.map_cons, List.map_nil, List.mem_singleton]
    exact ⟨fun hr => hr.elim (fun hr => .inr (.inr hr)) fun hr => hr.imp_right .inl,
      fun hr => hr.elim (fun hr => .inr (.inl hr)) fun hr => hr.elim (fun hr => .inr (.inr hr)) .inl⟩
  · rw [join, hkey] at hsame
    exact hsame.of_child

theorem Partial.isVector_false (h : Partial db key [] done) : isVector db key = false := by
  rw [isVector, lookup_getAttrib_none]
  · rfl
  · intro r hr v
    obtain ⟨c, -, rfl⟩ := List.mem_map.mp (((h.records r).mp hr).resolve_left List.not_mem_nil)
    nofun

theorem addEntries_outcome {es : List (Str × Table)} (hadded : ∀ e ∈ es, e.2.Added fits)
    (hattr : ∀ e ∈ es, e.1 ≠ attrKey) (hkey : Clean key) (hnamed : Table.Named (done ++ es))
    (h : Partial db key [] done) :
    Outcome (addEntries fits key es db) (Table.FitsEntries fits key es)
      fun db' => Partial db' key [] (done ++ es) ∧ SameOutside key db db' := by
  induction es generalizing db done with
  | nil =>
    rw [addEntries, List.append_nil]
    exact .ok ⟨h, .refl key db⟩
  | cons e es ih =>
    obtain ⟨k, t⟩ := e
    obtain ⟨hk, hattr⟩ := List.forall_mem_cons.mp hattr
    obtain ⟨ht, hadded⟩ := List.forall_mem_cons.mp hadded
    rw [List.append_cons] at hnamed ⊢
    rw [addEntries, if_neg hk, h.isVector_false, if_neg Bool.false_ne_true, ← bind_bind]
    refine Outcome.imp ((h.addChild hkey hnamed.left ht).bind fun db₁ hdb₁ => ?_) and_assoc fun _ => id
    refine (ih hadded hattr hnamed hdb₁.1).imp Iff.rfl ?_
    rintro db₂ ⟨hpart, hsame⟩
    exact ⟨hpart, hdb₁.2.trans hsame⟩

-- ---------------------------------------------------------------------------
-- Arrays
-- ---------------------------------------------------------------------------

theorem attribOf_nextIndex (n : Nat) : attribOf (nextIndex n) = some (vectorIndexKey, tostring n) :=
  attribOf_attribRecord (by decide) (by decide) (clean_tostring n)

theorem attribOf_itemTag : attribOf itemTag = some (vectorItemTag, ['i', 't', 'e', 'm']) := by decide

theorem lookup_index {n : Nat} (hindex : nextIndex n ∈ db.dups key)
    (hrecords : ∀ r ∈ db.dups key, r ∈ [nextIndex n, itemTag] ∨ ∃ name, r = childRecord name) :
    (getAttrib db key).lookup vectorIndexKey = some (tostring n) := by
  refine lookup_getAttrib hindex (attribOf_nextIndex n) ?_
  intro r hr v hv
  rcases hrecords r hr with hr | ⟨name, rfl⟩
  · simp only [List.mem_cons, List.not_mem_nil, or_false] at hr
    rcases hr with rfl | rfl
    · rw [attribOf_nextIndex] at hv
      exact (congrArg Prod.snd (Option.some.inj hv)).symm
    · rw [attribOf_itemTag] at hv
      exact absurd (congrArg Prod.fst (Option.some.inj hv)) (show vectorItemTag ≠ vectorIndexKey by decide)
  · cases hv

theorem Partial.lookup_index {n : Nat} (h : Partial db key [nextIndex n, itemTag] done) :
    (getAttrib db key).lookup vectorIndexKey = some (tostring n) := by
  refine GalaDB.lookup_index ((h.records (nextIndex n)).mpr (.inl List.mem_cons_self)) fun r hr => ?_
  refine ((h.records r).mp hr).imp_right fun hr => ?_
  obtain ⟨c, -, rfl⟩ := List.mem_map.mp hr
  exact ⟨c.1, rfl⟩

theorem Partial.withAttrs (h : Partial db key attrs done) (hkey : Clean key)
    (hrecords : ∀ r, r ∈ db'.dups key ↔ r ∈ attrs' ∨ r ∈ done.map fun c => childRecord c.1)
    (hsame : ∀ k, k ≠ key → db'.dups k = db.dups k) : Partial db' key attrs' done where
  records := hrecords
  holds c hc := by
    refine (h.holds c hc).congr (clean_join ..) fun k hk => hsame k ?_
    rintro rfl
    rw [join, hkey] at hk
    exact not_under_child hk
  fresh k hk hne hout := by rw [hsame k hne, h.fresh k hk hne hout]

theorem nextIndex_ne_itemTag (n : Nat) : nextIndex n ≠ itemTag := by
  intro h
  have hof := attribOf_nextIndex n
  rw [h, attribOf_itemTag] at hof
  exact absurd (congrArg Prod.fst (Option.some.inj hof)) (show vectorItemTag ≠ vectorIndexKey by decide)

theorem Partial.setIndex {n m : Nat} (h : Partial db key [nextIndex n, itemTag] done) (hkey : Clean key) :
    Partial ((db.del key (nextIndex n)).put key (nextIndex m)) key [nextIndex m, itemTag] done := by
  refine h.withAttrs hkey (fun r => ?_) fun k hk => ?_
  · have hchild : nextIndex n ∉ done.map fun c => childRecord c.1 := by
      intro hmem
      obtain ⟨c, -, hc⟩ := List.mem_map.mp hmem
      cases hc
    simp only [Library.MultiMap.mem_put, Library.MultiMap.mem_del, h.records, true_and, List.mem_cons,
      List.not_mem_nil, or_false]
    constructor
    · rintro (rfl | ⟨hne, (rfl | rfl) | hr⟩)
      · exact .inl (.inl rfl)
      · exact absurd rfl hne
      · exact .inl (.inr rfl)
      · exact .inr hr
    · rintro ((rfl | rfl) | hr)
      · exact .inl rfl
      · exact .inr ⟨(nextIndex_ne_itemTag n).symm, .inl (.inr rfl)⟩
      · refine .inr ⟨?_, .inr hr⟩
        rintro rfl
        exact hchild hr
  · rw [Library.MultiMap.dups_put_of_ne hk, Library.MultiMap.dups_del_of_ne hk]

theorem Partial.addItems_cons {n : Nat} {ts : List Table} (h : Partial db key [nextIndex (n + 1), itemTag] done) :
    addItems fits key (t :: ts) db =
      (rawPut fits key (nextIndex (n + 2)) (db.del key (nextIndex (n + 1)))).bind fun db =>
        ((addNode fits key (tostring (n + 1)) db).bind
          (addTable fits (join key (tostring (n + 1))) t)).bind (addItems fits key ts) := by
  simp only [addItems, addVectorItem, h.lookup_index, tonumber_tostring, setAttrib, removeAttrib, addAttrib,
    bind_bind]
  rfl

theorem addItems_outcome {ts : List Table} {n : Nat} (hadded : ∀ t ∈ ts, t.Added fits) (hkey : Clean key)
    (hnamed : Table.Named (done ++ Table.enumerate n ts))
    (h : Partial db key [nextIndex (n + 1), itemTag] done) :
    Outcome (addItems fits key ts db) (Table.FitsItems fits key n ts) fun db' =>
      Partial db' key [nextIndex (n + ts.length + 1), itemTag] (done ++ Table.enumerate n ts) ∧
        SameOutside key db db' := by
  induction ts generalizing db done n with
  | nil =>
    rw [addItems, Table.enumerate, List.append_nil]
    exact .ok ⟨h, .refl key db⟩
  | cons t ts ih =>
    obtain ⟨ht, hadded⟩ := List.forall_mem_cons.mp hadded
    rw [Table.enumerate, List.append_cons] at hnamed ⊢
    rw [h.addItems_cons]
    have hlength : n + (t :: ts).length + 1 = n + 1 + ts.length + 1 := by
      rw [List.length_cons]
      omega
    have hsame : SameOutside key db ((db.del key (nextIndex (n + 1))).put key (nextIndex (n + 2))) :=
      .trans (.del key _ db) (.put key _ _)
    have hrest := ((h.setIndex (m := n + 2) hkey).addChild hkey hnamed.left ht).bind fun db₂ hdb₂ =>
      (ih hadded hnamed hdb₂.1).imp Iff.rfl fun db₃ hdb₃ =>
        (⟨hdb₃.1, hsame.trans (hdb₂.2.trans hdb₃.2)⟩ : _ ∧ SameOutside key db db₃)
    rw [hlength]
    refine Outcome.imp ((rawPut_outcome ..).bind fun db₁ hdb₁ => hdb₁ ▸ hrest) ?_ fun _ => id
    rw [Table.FitsItems, and_assoc, and_assoc]
    rfl

theorem setAttrib_new (h : ∀ r ∈ db.dups key, ∀ v, attribOf r ≠ some (k, v)) (v : Str) :
    setAttrib fits key k v db = rawPut fits key (attribRecord k v) db := by
  rw [setAttrib, removeAttrib, lookup_getAttrib_none h, addAttrib]

/-- The two attributes that make a fresh node a vector. -/
theorem Fresh.setAttribs (h : Fresh db key) (hkey : Clean key) :
    Outcome ((setAttrib fits key vectorIndexKey ['1'] db).bind
        (setAttrib fits key vectorItemTag ['i', 't', 'e', 'm']))
      (Table.Takes fits key (nextIndex 1) ∧ Table.Takes fits key itemTag)
      fun db' => Partial db' key [nextIndex 1, itemTag] [] ∧ SameOutside key db db' := by
  have hnil := h key (.inl rfl)
  rw [setAttrib_new (by rw [hnil]; exact nofun)]
  refine (rawPut_outcome fits key (nextIndex 1) db).bind fun db₁ hdb₁ => ?_
  subst hdb₁
  have hfirst : ∀ r ∈ (db.put key (nextIndex 1)).dups key, r = nextIndex 1 := by
    intro r hr
    rw [Library.MultiMap.mem_put, hnil] at hr
    exact (hr.resolve_right List.not_mem_nil).2
  rw [setAttrib_new]
  · refine (rawPut_outcome ..).imp Iff.rfl ?_
    rintro db₂ rfl
    refine ⟨h.partialNone.withAttrs hkey (fun r => ?_) fun k hk => ?_, .trans (.put key _ db) (.put key _ _)⟩
    · simp only [Library.MultiMap.mem_put, hnil, true_and, List.not_mem_nil, or_false, List.map_nil,
        List.mem_cons]
      exact or_comm
    · rw [Library.MultiMap.dups_put_of_ne hk, Library.MultiMap.dups_put_of_ne hk]
  · intro r hr v hv
    rw [hfirst r hr, attribOf_nextIndex] at hv
    exact absurd (congrArg Prod.fst (Option.some.inj hv)) (show vectorIndexKey ≠ vectorItemTag by decide)

theorem Partial.toHolds (h : Partial db key attrs t.children)
    (hrecords : ∀ r, r ∈ t.records ↔ r ∈ attrs ∨ r ∈ t.children.map fun c => childRecord c.1) : Holds db key t :=
  ⟨fun r => by rw [h.records, hrecords], h.holds⟩

/-- Under a fresh node a table is stored, or LMDB refuses one of its records. -/
theorem addTable_outcome (hlegal : t.Legal) (hclean : t.All Clean) : t.Added fits := by
  induction t using Table.induct with
  | leaf s =>
    intro key db hkey hfresh
    rw [addTable]
    refine (rawPut_outcome ..).imp Iff.rfl ?_
    rintro db' rfl
    refine ⟨⟨fun r => ?_, nofun⟩, .put key _ db⟩
    rw [Library.MultiMap.mem_put, hfresh key (.inl rfl)]
    simp [Table.records]
  | array items ih =>
    intro key db hkey hfresh
    have hnamed := hlegal.named hclean
    cases hlegal with
    | array hlegal =>
    cases hclean with
    | array hclean =>
    have hadded : ∀ t ∈ items, t.Added fits := fun t ht => ih t ht (hlegal t ht) (hclean t ht)
    cases items with
    | nil =>
      rw [addTable]
      refine .ok ⟨⟨fun r => ?_, nofun⟩, .refl key db⟩
      rw [hfresh key (.inl rfl), Table.records]
    | cons t ts =>
      have hitems : ∀ db₁, Partial db₁ key [nextIndex 1, itemTag] [] ∧ SameOutside key db db₁ →
          Outcome (if isVector db₁ key then addItems fits key (t :: ts) db₁
              else .error "Cannot Add List to NON-Vector Node") (Table.FitsItems fits key 0 (t :: ts))
            fun db' => Holds db' key (.array (t :: ts)) ∧ SameOutside key db db' := by
        rintro db₁ ⟨hpart, hsame⟩
        have hvector : isVector db₁ key = true := by rw [isVector, hpart.lookup_index, Option.isSome_some]
        rw [if_pos hvector]
        refine (addItems_outcome hadded hkey hnamed hpart).imp Iff.rfl ?_
        rintro db' ⟨hdone, hsame'⟩
        refine ⟨Partial.toHolds hdone fun r => ?_, hsame.trans hsame'⟩
        simp [Table.records, Table.children, or_assoc]
      rw [addTable, ← bind_bind]
      exact ((hfresh.setAttribs hkey).bind hitems).imp and_assoc fun _ => id
  | dict entries ih =>
    intro key db hkey hfresh
    have hnamed := hlegal.named hclean
    cases hlegal with
    | dict hnames _ hlegal =>
    cases hclean with
    | dict _ hclean =>
    have hadded : ∀ e ∈ entries, e.2.Added fits := fun e he => ih e he (hlegal e he) (hclean e he)
    have hattr : ∀ e ∈ entries, e.1 ≠ attrKey := fun e he heq => (hnames e he).2.2 (heq ▸ List.prefix_refl _)
    rw [addTable]
    refine (addEntries_outcome hadded hattr hkey hnamed hfresh.partialNone).imp Iff.rfl ?_
    rintro db' ⟨hpart, hsame⟩
    refine ⟨Partial.toHolds hpart fun r => ?_, hsame⟩
    simp [Table.records, Table.children]

end GalaLua.GalaDB
