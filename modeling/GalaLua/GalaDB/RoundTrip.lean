import GalaLua.GalaDB.Adding

/-!
# Adding a table and reading it back

From the records that `addTable` puts, `toTable` reads the table with its arrays in
byte order (`toTable_reads`). The table that was added comes back if and only if no
string is cut at a NUL, every key and record is short enough, and the byte order of
the positions leaves the table as it is (`round_trip_iff`).
-/

namespace GalaLua.GalaDB

open Library.Lua

variable {s key name k v : Str} {db db' : Store} {t : Table} {fits : Str → Bool}

-- ---------------------------------------------------------------------------
-- Reading
-- ---------------------------------------------------------------------------

section

variable {α β : Type}

theorem mapM_ok {f : α → Res β} {g : α → β} {l : List α} (h : ∀ a ∈ l, f a = .ok (g a)) :
    l.mapM f = .ok (l.map g) := by
  induction l with
  | nil => rfl
  | cons a l ih =>
    obtain ⟨ha, hl⟩ := List.forall_mem_cons.mp h
    rw [List.mapM_cons, ha, ih hl]
    rfl

theorem mapM_error {f : α → Res β} {l : List α} {a : α} (ha : a ∈ l) {err : String} (h : f a = .error err) :
    ∃ err, l.mapM f = .error err := by
  induction l with
  | nil => exact absurd ha List.not_mem_nil
  | cons b l ih =>
    rw [List.mapM_cons]
    cases hb : f b with
    | error e => exact ⟨e, rfl⟩
    | ok c =>
      rcases List.mem_cons.mp ha with rfl | ha
      · rw [h] at hb
        cases hb
      · obtain ⟨e, he⟩ := ih ha
        rw [he]
        exact ⟨e, rfl⟩

namespace Table

instance : Std.Total fun a b : Str × α => a.1 ≤ b.1 := ⟨fun a b => le_total a.1 b.1⟩

instance : IsTrans (Str × α) fun a b => a.1 ≤ b.1 := ⟨fun _ _ _ => le_trans⟩

theorem mem_sortByName {es : List (Str × α)} {e : Str × α} : e ∈ sortByName es ↔ e ∈ es :=
  List.mem_insertionSort _

theorem pairwise_sortByName {es : List (Str × α)} (h : (es.map Prod.fst).Nodup) :
    ((sortByName es).map Prod.fst).Pairwise (· < ·) := by
  have hsorted : ((sortByName es).map Prod.fst).Pairwise (· ≤ ·) :=
    List.pairwise_map.mpr (List.pairwise_insertionSort _ es)
  have hnodup : ((sortByName es).map Prod.fst).Nodup :=
    ((List.perm_insertionSort _ es).map Prod.fst).nodup_iff.mpr h
  exact hsorted.imp₂ (fun _ _ => lt_of_le_of_ne) hnodup

theorem sortByName_map {f : Str × α → Str × β} (hf : ∀ e, (f e).1 = e.1) (es : List (Str × α)) :
    (sortByName es).map f = sortByName (es.map f) :=
  List.map_insertionSort _ _ f es fun a _ b _ => by rw [hf, hf]

end Table

end

def childName : Str → Option Str
  | 'c' :: ':' :: name => some name
  | _ => none

theorem childName_eq_some {r : Str} : childName r = some name ↔ r = 'c' :: ':' :: name := by
  constructor
  · unfold childName
    split
    · intro h
      rw [Option.some.inj h]
    · nofun
  · rintro rfl
    rfl

theorem Holds.records_cases (h : Holds db key t) {r : Str} (hr : r ∈ db.dups key) :
    (∃ s, r = valueRecord s) ∨ (∃ a v, r = attribRecord a v) ∨ ∃ c ∈ t.children, r = childRecord c.1 := by
  cases h with
  | mk hrecords _ =>
    rw [hrecords] at hr
    cases t with
    | leaf s => exact .inl ⟨s, List.mem_singleton.mp hr⟩
    | array items =>
      cases items with
      | nil => exact absurd hr List.not_mem_nil
      | cons t ts =>
        rcases List.mem_cons.mp hr with rfl | hr
        · exact .inr (.inl ⟨_, _, rfl⟩)
        rcases List.mem_cons.mp hr with rfl | hr
        · exact .inr (.inl ⟨_, _, rfl⟩)
        obtain ⟨c, hc, rfl⟩ := List.mem_map.mp hr
        exact .inr (.inr ⟨c, hc, rfl⟩)
    | dict entries =>
      obtain ⟨c, hc, rfl⟩ := List.mem_map.mp hr
      exact .inr (.inr ⟨c, hc, rfl⟩)

theorem Holds.mem_child (h : Holds db key t) {c : Str × Table} (hc : c ∈ t.children) :
    childRecord c.1 ∈ db.dups key := by
  cases h with
  | mk hrecords _ =>
    rw [hrecords]
    cases t with
    | leaf s => exact absurd hc List.not_mem_nil
    | array items =>
      cases items with
      | nil => exact absurd hc List.not_mem_nil
      | cons t ts => exact List.mem_cons_of_mem _ (List.mem_cons_of_mem _ (List.mem_map_of_mem hc))
    | dict entries => exact List.mem_map_of_mem hc

theorem Holds.child (h : Holds db key t) {c : Str × Table} (hc : c ∈ t.children) :
    Holds db (join key c.1) c.2 := by
  cases h with
  | mk _ hchildren => exact hchildren c hc

theorem Holds.names_eq (h : Holds db key t) (hnamed : Table.Named t.children) :
    (db.dups key).filterMap childName = (Table.sortByName t.children).map Prod.fst := by
  refine Library.MultiMap.eq_of_mem ?_ (Table.pairwise_sortByName hnamed.distinct) fun name => ?_
  · refine (db.sorted key).filterMap childName fun r r' hlt name hr name' hr' => ?_
    rw [childName_eq_some.mp hr, childName_eq_some.mp hr'] at hlt
    rwa [List.cons_lt_cons_self, List.cons_lt_cons_self] at hlt
  · have hclean {c : Str × Table} (hc : c ∈ t.children) : childRecord c.1 = 'c' :: ':' :: c.1 := by
      rw [childRecord, hnamed.clean c hc]
    rw [List.mem_filterMap, List.mem_map]
    constructor
    · rintro ⟨r, hr, hname⟩
      rw [childName_eq_some] at hname
      subst hname
      rcases h.records_cases hr with ⟨s, hs⟩ | ⟨a, v, ha⟩ | ⟨c, hc, hcr⟩
      · cases hs
      · cases ha
      · rw [hclean hc] at hcr
        cases hcr
        exact ⟨c, Table.mem_sortByName.mpr hc, rfl⟩
    · rintro ⟨c, hc, rfl⟩
      have hc := Table.mem_sortByName.mp hc
      exact ⟨childRecord c.1, h.mem_child hc, childName_eq_some.mpr (hclean hc)⟩

/-- The children of a node without links are those of its child records. -/
theorem foldlM_childOf {l : List Str} (hl : ∀ r ∈ l, ∀ s, r ≠ 's' :: ':' :: s) (d : List (Str × Elem))
    (hnodup : (d.map Prod.fst ++ l.filterMap childName).Nodup) :
    l.foldlM (fun dict v => (childOf (.node key) v).map fun child =>
        match child with
        | some (name, c) => setKey dict name c
        | none => dict) d =
      .ok (d ++ (l.filterMap childName).map fun n => (n, Elem.node (join key n))) := by
  induction l generalizing d with
  | nil =>
    rw [List.filterMap_nil, List.map_nil, List.append_nil]
    rfl
  | cons r l ih =>
    obtain ⟨hr, hl'⟩ := List.forall_mem_cons.mp hl
    rw [List.foldlM_cons]
    cases hname : childName r with
    | none =>
      have hof : childOf (.node key) r = .ok none := by
        unfold childOf
        split
        · cases hname
        · exact absurd rfl (hr _)
        · rfl
      rw [List.filterMap_cons_none hname] at hnodup ⊢
      rw [hof]
      exact ih hl' d hnodup
    | some name =>
      rw [childName_eq_some] at hname
      subst hname
      rw [List.filterMap_cons_some (childName_eq_some.mpr rfl)] at hnodup ⊢
      have hnew : name ∉ d.map Prod.fst := by
        intro hmem
        rw [List.nodup_append] at hnodup
        exact hnodup.2.2 name hmem name List.mem_cons_self rfl
      rw [List.append_cons] at hnodup
      have hrest := ih hl' (d ++ [(name, .node (join key name))]) (by rwa [List.map_append])
      rw [← setKey_new hnew] at hrest
      rw [List.map_cons, List.append_cons, ← setKey_new hnew]
      exact hrest

theorem nodup_childName (db : Store) (key : Str) : ((db.dups key).filterMap childName).Nodup := by
  refine List.Pairwise.filterMap childName (fun r r' hne name hr name' hr' heq => hne ?_) (db.sorted key).nodup
  rw [childName_eq_some.mp hr, childName_eq_some.mp hr', heq]

theorem getChild_node (hlinks : ∀ r ∈ db.dups key, ∀ s, r ≠ 's' :: ':' :: s) :
    getChild db (.node key) =
      if db.dups key ≠ [] ∧ 1000 ≤ key.length then .error "Key is too long,there may be something wrong"
      else .ok (((db.dups key).filterMap childName).map fun n => (n, .node (join key n))) := by
  have hkey : (Elem.node key).key = key := rfl
  rw [getChild, hkey]
  split
  · rfl
  · exact foldlM_childOf hlinks [] (nodup_childName db key)

theorem Holds.getChild_eq (h : Holds db key t) (hnamed : Table.Named t.children)
    (hshort : t.children ≠ [] → key.length < 1000) (hleaf : t.children = [] → db.dups key = []) :
    getChild db (.node key) =
      .ok ((Table.sortByName t.children).map fun c => (c.1, .node (join key c.1))) := by
  have hlinks : ∀ r ∈ db.dups key, ∀ s, r ≠ 's' :: ':' :: s := by
    intro r hr s hs
    rcases h.records_cases hr with ⟨v, rfl⟩ | ⟨a, v, rfl⟩ | ⟨c, -, rfl⟩
    · cases hs
    · cases hs
    · cases hs
  have hguard : ¬ (db.dups key ≠ [] ∧ 1000 ≤ key.length) := by
    rintro ⟨hne, hlong⟩
    exact absurd (hshort fun hnil => hne (hleaf hnil)) (Nat.not_lt.mpr hlong)
  rw [getChild_node hlinks, if_neg hguard, h.names_eq hnamed, List.map_map]
  rfl

/-- A call for each child, in the byte order of the names. -/
theorem Holds.mapM_children {β : Type} (h : Holds db key t) (hnamed : Table.Named t.children)
    (hleaf : t.children = [] → db.dups key = []) {f : Str × Elem → Res β} {g : Str × Table → β}
    (hf : ∀ c ∈ t.children, (Table.Short (join key c.1) c.2 → f (c.1, .node (join key c.1)) = .ok (g c)) ∧
      (¬ Table.Short (join key c.1) c.2 → ∃ err, f (c.1, .node (join key c.1)) = .error err)) :
    (Table.Short key t → (getChild db (.node key)).bind (fun cs => cs.mapM f) =
      .ok ((Table.sortByName t.children).map g)) ∧
    (¬ Table.Short key t → ∃ err, (getChild db (.node key)).bind (fun cs => cs.mapM f) = .error err) := by
  constructor
  · rintro ⟨hshort, hchildren⟩
    rw [h.getChild_eq hnamed hshort hleaf]
    refine (List.mapM_map ..).trans (mapM_ok fun c hc => ?_)
    have hc := Table.mem_sortByName.mp hc
    exact (hf c hc).1 (hchildren c hc)
  · intro hnot
    by_cases hshort : t.children ≠ [] → key.length < 1000
    · rw [h.getChild_eq hnamed hshort hleaf]
      have hlong : ∃ c ∈ t.children, ¬ Table.Short (join key c.1) c.2 := by
        by_contra hall
        push Not at hall
        exact hnot ⟨hshort, hall⟩
      obtain ⟨c, hc, hc'⟩ := hlong
      obtain ⟨err, herr⟩ := (hf c hc).2 hc'
      exact mapM_error (List.mem_map_of_mem (Table.mem_sortByName.mpr hc)) herr
    · push Not at hshort
      obtain ⟨hne, hlong⟩ := hshort
      obtain ⟨c, cs, hcs⟩ := List.exists_cons_of_ne_nil hne
      have hmem := h.mem_child (hcs ▸ List.mem_cons_self)
      refine ⟨"Key is too long,there may be something wrong", ?_⟩
      rw [getChild, if_pos ⟨List.ne_nil_of_mem hmem, hlong⟩]
      rfl

theorem exists_bound {α : Type} {P : α → Nat → Prop} {l : List α} (h : ∀ a ∈ l, ∃ n, ∀ m, n ≤ m → P a m) :
    ∃ n, ∀ a ∈ l, ∀ m, n ≤ m → P a m := by
  induction l with
  | nil => exact ⟨0, nofun⟩
  | cons a l ih =>
    obtain ⟨ha, hl⟩ := List.forall_mem_cons.mp h
    obtain ⟨n, hn⟩ := ha
    obtain ⟨n', hn'⟩ := ih hl
    refine ⟨max n n', List.forall_mem_cons.mpr ⟨fun m hm => hn m ((le_max_left n n').trans hm), fun b hb m hm => ?_⟩⟩
    exact hn' b hb m ((le_max_right n n').trans hm)

theorem arrangedItems_eq (ts : List Table) : Table.arrangedItems ts = ts.map Table.arranged := by
  induction ts with
  | nil => rfl
  | cons t ts ih => rw [Table.arrangedItems, ih, List.map_cons]

theorem arrangedEntries_eq (es : List (Str × Table)) :
    Table.arrangedEntries es = es.map fun e => (e.1, e.2.arranged) := by
  induction es with
  | nil => rfl
  | cons e es ih => rw [Table.arrangedEntries, ih, List.map_cons]

theorem enumerate_map {α β : Type} (f : α → β) (n : Nat) (l : List α) :
    Table.enumerate n (l.map f) = (Table.enumerate n l).map fun e => (e.1, f e.2) := by
  induction l generalizing n with
  | nil => rfl
  | cons x l ih => rw [List.map_cons, Table.enumerate, Table.enumerate, ih, List.map_cons]

/-- What `toTable` gives for a stored table, with enough stack. -/
def Table.Reads (db : Store) (attrFlag : Bool) (key : Str) (t : Table) (depth : Nat) : Prop :=
  (Table.Short key t → toTable db attrFlag depth (.node key) = .ok t.arranged) ∧
    (¬ Table.Short key t → ∃ err, toTable db attrFlag depth (.node key) = .error err)

theorem toTable_leaf (h : Holds db key (.leaf s)) (hs : Clean s) (attrFlag : Bool) (depth : Nat) :
    Table.Reads db attrFlag key (.leaf s) (depth + 1) := by
  cases h with
  | mk hrecords _ =>
    have hdups : db.dups key = ['v' :: ':' :: s] := by
      refine Library.MultiMap.eq_of_mem (db.sorted key) (List.pairwise_singleton _ _) fun r => ?_
      rw [hrecords, Table.records, valueRecord, hs]
    have hvector : isVector db key = false := by
      rw [isVector, getAttrib, hdups]
      rfl
    have hvalue : getValue db key = [s] := by
      rw [getValue, hdups]
      rfl
    refine ⟨fun _ => ?_, fun hnot => absurd ⟨fun h => absurd rfl h, fun _ hc => by cases hc⟩ hnot⟩
    rw [toTable, Elem.node, hvector, if_neg Bool.false_ne_true, hvalue]
    rfl

theorem toTable_array {items : List Table} (h : Holds db key (.array items)) (hne : items ≠ [])
    (hnamed : Table.Named (Table.enumerate 0 items)) {attrFlag : Bool} {depth : Nat}
    (hreads : ∀ c ∈ Table.enumerate 0 items, c.2.Reads db attrFlag (join key c.1) depth) :
    Table.Reads db attrFlag key (.array items) (depth + 1) := by
  obtain ⟨t, ts, rfl⟩ := List.exists_cons_of_ne_nil hne
  have hvector : isVector db key = true := by
    cases h with
    | mk hrecords _ =>
      have hindex := (hrecords (nextIndex ((t :: ts).length + 1))).mpr List.mem_cons_self
      rw [isVector, lookup_index hindex, Option.isSome_some]
      intro r hr
      rcases List.mem_cons.mp ((hrecords r).mp hr) with rfl | hr
      · exact .inl List.mem_cons_self
      rcases List.mem_cons.mp hr with rfl | hr
      · exact .inl (List.mem_cons_of_mem _ List.mem_cons_self)
      obtain ⟨c, -, rfl⟩ := List.mem_map.mp hr
      exact .inr ⟨c.1, rfl⟩
  have harranged : (Table.array (t :: ts)).arranged =
      .array ((Table.sortByName (Table.enumerate 0 (t :: ts))).map fun c => c.2.arranged) := by
    have hmap := Table.sortByName_map (f := fun c : Str × Table => (c.1, c.2.arranged)) (fun _ => rfl)
      (Table.enumerate 0 (t :: ts))
    rw [Table.arranged, arrangedItems_eq, enumerate_map, ← hmap, List.map_map]
    · rfl
    · exact fun hnil => by cases hnil
  have hchildren := h.mapM_children hnamed (fun hnil => by cases hnil)
    (f := fun c => toTable db attrFlag depth c.2) (g := fun c => c.2.arranged) hreads
  have htoTable : toTable db attrFlag (depth + 1) (.node key) =
      ((getChild db (.node key)).bind fun cs => cs.mapM fun c => toTable db attrFlag depth c.2).map .array := by
    rw [toTable, show (Elem.node key).key = key from rfl, hvector, if_pos rfl, bind_map]
  rw [Table.Reads, htoTable, harranged]
  refine ⟨fun hshort => by rw [hchildren.1 hshort]; rfl, fun hnot => ?_⟩
  obtain ⟨err, herr⟩ := hchildren.2 hnot
  exact ⟨err, by rw [herr]; rfl⟩

theorem toTable_dict (h : Holds db key t) (hnode : t.records = t.children.map fun c => childRecord c.1)
    (harranged : t.arranged = .dict (Table.sortByName (Table.arrangedEntries t.children)))
    (hnamed : Table.Named t.children) {attrFlag : Bool} {depth : Nat}
    (hreads : ∀ c ∈ t.children, c.2.Reads db attrFlag (join key c.1) depth) :
    Table.Reads db attrFlag key t (depth + 1) := by
  have hrecords : ∀ r ∈ db.dups key, ∃ name, r = childRecord name := by
    cases h with
    | mk hrecords _ =>
      intro r hr
      rw [hrecords, hnode] at hr
      obtain ⟨c, -, rfl⟩ := List.mem_map.mp hr
      exact ⟨c.1, rfl⟩
  have hattrib : getAttrib db key = [] := by
    have hnil : (db.dups key).filterMap attribOf = [] := by
      rw [List.filterMap_eq_nil_iff]
      intro r hr
      obtain ⟨name, rfl⟩ := hrecords r hr
      rfl
    rw [getAttrib, hnil]
    rfl
  have hvector : isVector db key = false := by
    rw [isVector, hattrib]
    rfl
  have hvalue : getValue db key = [] := by
    rw [getValue, List.filterMap_eq_nil_iff]
    intro r hr
    obtain ⟨name, rfl⟩ := hrecords r hr
    rfl
  have hleaf : t.children = [] → db.dups key = [] := by
    intro hnil
    rw [List.eq_nil_iff_forall_not_mem]
    intro r hr
    cases h with
    | mk hrecords _ =>
      rw [hrecords, hnode, hnil] at hr
      exact absurd hr List.not_mem_nil
  have hchildren := h.mapM_children hnamed hleaf
    (f := fun c => (toTable db attrFlag depth c.2).map fun t => (c.1, t)) (g := fun c => (c.1, c.2.arranged))
    fun c hc => by
      refine ⟨fun hshort => by rw [(hreads c hc).1 hshort]; rfl, fun hnot => ?_⟩
      obtain ⟨err, herr⟩ := (hreads c hc).2 hnot
      exact ⟨err, by rw [herr]; rfl⟩
  have htoTable : toTable db attrFlag (depth + 1) (.node key) =
      ((getChild db (.node key)).bind fun cs => cs.mapM fun c =>
        (toTable db attrFlag depth c.2).map fun t => (c.1, t)).map .dict := by
    have hkey : (Elem.node key).key = key := rfl
    rw [toTable, hkey, hvector, if_neg Bool.false_ne_true, hvalue, hattrib, bind_map]
    simp only [ne_eq, not_true_eq_false, and_false, if_false]
  rw [Table.Reads, htoTable, harranged]
  refine ⟨fun hshort => ?_, fun hnot => ?_⟩
  · have hmap := Table.sortByName_map (f := fun c : Str × Table => (c.1, c.2.arranged)) (fun _ => rfl) t.children
    rw [hchildren.1 hshort, arrangedEntries_eq, hmap]
    rfl
  · obtain ⟨err, herr⟩ := hchildren.2 hnot
    exact ⟨err, by rw [herr]; rfl⟩

/-- A stored table is read with its arrays in byte order. -/
theorem toTable_reads (hlegal : t.Legal) (hclean : t.All Clean) (h : Holds db key t) (attrFlag : Bool) :
    ∃ n, ∀ depth, n ≤ depth → Table.Reads db attrFlag key t depth := by
  induction t using Table.induct generalizing key with
  | leaf s =>
    cases hclean with
    | leaf hs =>
    refine ⟨1, fun depth hdepth => ?_⟩
    obtain ⟨depth, rfl⟩ := Nat.exists_eq_add_of_le' hdepth
    exact toTable_leaf h hs attrFlag depth
  | array items ih =>
    have hnamed := hlegal.named hclean
    cases hlegal with
    | array hlegal =>
    cases hclean with
    | array hclean =>
    have hbound : ∀ c ∈ Table.enumerate 0 items,
        ∃ n, ∀ depth, n ≤ depth → c.2.Reads db attrFlag (join key c.1) depth := by
      intro c hc
      obtain ⟨-, -, -, hmem⟩ := Table.mem_enumerate hc
      exact ih c.2 hmem (hlegal _ hmem) (hclean _ hmem) (h.child hc)
    obtain ⟨n, hn⟩ := exists_bound hbound
    refine ⟨n + 1, fun depth hdepth => ?_⟩
    obtain ⟨depth, rfl⟩ := Nat.exists_eq_add_of_le' ((Nat.le_add_left 1 n).trans hdepth)
    have hreads : ∀ c ∈ Table.enumerate 0 items, c.2.Reads db attrFlag (join key c.1) depth :=
      fun c hc => hn c hc depth (by omega)
    by_cases hnil : items = []
    · subst hnil
      exact toTable_dict h rfl rfl hnamed hreads
    · exact toTable_array h hnil hnamed hreads
  | dict entries ih =>
    have hnamed := hlegal.named hclean
    cases hlegal with
    | dict _ _ hlegal =>
    cases hclean with
    | dict _ hclean =>
    have hbound : ∀ c ∈ entries, ∃ n, ∀ depth, n ≤ depth → c.2.Reads db attrFlag (join key c.1) depth :=
      fun c hc => ih c hc (hlegal c hc) (hclean c hc) (h.child hc)
    obtain ⟨n, hn⟩ := exists_bound hbound
    refine ⟨n + 1, fun depth hdepth => ?_⟩
    obtain ⟨depth, rfl⟩ := Nat.exists_eq_add_of_le' ((Nat.le_add_left 1 n).trans hdepth)
    exact toTable_dict h rfl rfl hnamed fun c hc => hn c hc depth (by omega)

-- ---------------------------------------------------------------------------
-- Strings that are cut
-- ---------------------------------------------------------------------------

/-- A record as `addTable` writes it. -/
inductive CleanRecord : Str → Prop
  | child (name : Str) : CleanRecord (childRecord name)
  | value (v : Str) : CleanRecord (valueRecord v)
  | index (n : Nat) : CleanRecord (nextIndex n)
  | tag : CleanRecord itemTag

def Adds (db db' : Store) : Prop := ∀ k, ∀ r ∈ db'.dups k, r ∈ db.dups k ∨ CleanRecord r

theorem Adds.refl (db : Store) : Adds db db := fun _ _ hr => .inl hr

theorem Adds.trans {db₁ db₂ db₃ : Store} (h : Adds db₁ db₂) (h' : Adds db₂ db₃) : Adds db₁ db₃ :=
  fun k r hr => (h' k r hr).elim (h k r) .inr

theorem rawPut_adds (hv : CleanRecord v) (h : rawPut fits key v db = .ok db') : Adds db db' := by
  rw [rawPut] at h
  split at h
  · cases h
    intro k r hr
    rcases Library.MultiMap.mem_put.mp hr with ⟨-, rfl⟩ | hr
    · exact .inr hv
    · exact .inl hr
  · cases h

theorem setAttrib_adds (hv : CleanRecord (attribRecord k v)) (h : setAttrib fits key k v db = .ok db') :
    Adds db db' := by
  refine Adds.trans ?_ (rawPut_adds hv h)
  intro k' r hr
  rw [removeAttrib] at hr
  split at hr
  · exact .inl (Library.MultiMap.mem_del.mp hr).2
  · exact .inl hr

theorem addVectorItem_adds {item : Str} (h : addVectorItem fits key db = .ok (item, db')) : Adds db db' := by
  unfold addVectorItem at h
  split at h
  · cases h
  split at h
  · cases h
  · next serial _ _ n _ =>
    obtain ⟨db₁, hindex, h⟩ := bind_eq_ok h
    obtain ⟨db₂, hnode, h⟩ := bind_eq_ok h
    cases h
    exact (setAttrib_adds (.index (n + 1)) hindex).trans (rawPut_adds (.child serial) hnode)

theorem addTable_adds (hlegal : t.Legal) (h : addTable fits key t db = .ok db') : Adds db db' := by
  induction t using Table.induct generalizing key db db' with
  | leaf s =>
    rw [addTable] at h
    exact rawPut_adds (.value s) h
  | array items ih =>
    cases hlegal with
    | array hlegal =>
    have hitems : ∀ (ts : List Table) (db db' : Store), (∀ t ∈ ts, t ∈ items) →
        addItems fits key ts db = .ok db' → Adds db db' := by
      intro ts
      induction ts with
      | nil =>
        intro db db' _ h
        cases h
        exact .refl db
      | cons t ts ihts =>
        intro db db' hmem h
        obtain ⟨ht, hts⟩ := List.forall_mem_cons.mp hmem
        rw [addItems] at h
        obtain ⟨⟨item, db₁⟩, hitem, h⟩ := bind_eq_ok h
        obtain ⟨db₂, htable, h⟩ := bind_eq_ok h
        exact (addVectorItem_adds hitem).trans
          ((ih t ht (hlegal t ht) htable).trans (ihts db₂ db' hts h))
    cases items with
    | nil =>
      cases h
      exact .refl db
    | cons t ts =>
      rw [addTable] at h
      obtain ⟨db₁, hindex, h⟩ := bind_eq_ok h
      obtain ⟨db₂, htag, h⟩ := bind_eq_ok h
      split at h
      · exact (setAttrib_adds (.index 1) hindex).trans
          ((setAttrib_adds .tag htag).trans (hitems _ _ _ (fun _ => id) h))
      · cases h
  | dict entries ih =>
    cases hlegal with
    | dict hnames _ hlegal =>
    have hentries : ∀ (es : List (Str × Table)) (db db' : Store), (∀ e ∈ es, e ∈ entries) →
        addEntries fits key es db = .ok db' → Adds db db' := by
      intro es
      induction es with
      | nil =>
        intro db db' _ h
        cases h
        exact .refl db
      | cons e es ihes =>
        intro db db' hmem h
        obtain ⟨he, hes⟩ := List.forall_mem_cons.mp hmem
        obtain ⟨k, t⟩ := e
        have hk : k ≠ attrKey := fun heq => (hnames (k, t) he).2.2 (heq ▸ List.prefix_refl _)
        rw [addEntries, if_neg hk] at h
        split at h
        · cases h
        obtain ⟨db₁, hnode, h⟩ := bind_eq_ok h
        obtain ⟨db₂, htable, h⟩ := bind_eq_ok h
        exact (rawPut_adds (.child k) hnode).trans
          ((ih (k, t) he (hlegal _ he) htable).trans (ihes db₂ db' hes h))
    rw [addTable] at h
    exact hentries entries db db' (fun _ => id) h

theorem mapM_mem {α β : Type} {f : α → Res β} {l : List α} {bs : List β} (h : l.mapM f = .ok bs) :
    ∀ b ∈ bs, ∃ a ∈ l, f a = .ok b := by
  induction l generalizing bs with
  | nil =>
    cases h
    exact nofun
  | cons a l ih =>
    rw [List.mapM_cons] at h
    obtain ⟨b, hb, h⟩ := bind_eq_ok h
    obtain ⟨bs', hbs, h⟩ := bind_eq_ok h
    cases h
    refine List.forall_mem_cons.mpr ⟨⟨a, List.mem_cons_self, hb⟩, fun b' hb' => ?_⟩
    obtain ⟨a', ha', hf⟩ := ih hbs b' hb'
    exact ⟨a', List.mem_cons_of_mem _ ha', hf⟩

theorem getAttrib_clean (h : ∀ r ∈ db.dups key, CleanRecord r) {a : Str × Str} (ha : a ∈ getAttrib db key) :
    Clean a.1 ∧ Clean a.2 := by
  obtain ⟨r, hr, hof⟩ := List.mem_filterMap.mp ((mem_setKeys ha).resolve_left List.not_mem_nil)
  cases h r hr with
  | child name => cases hof
  | value v => cases hof
  | index n =>
    rw [attribOf_nextIndex] at hof
    cases hof
    exact ⟨show Clean vectorIndexKey by decide, clean_tostring n⟩
  | tag =>
    rw [attribOf_itemTag] at hof
    cases hof
    exact ⟨by decide, by decide⟩

theorem CleanRecord.clean_value {s : Str} (h : CleanRecord ('v' :: ':' :: s)) : Clean s := by
  generalize hr : 'v' :: ':' :: s = r at h
  cases h with
  | child name => cases hr
  | value v =>
    cases hr
    exact clean_fmt v
  | index n => cases hr
  | tag => cases hr

theorem CleanRecord.clean_child (h : CleanRecord ('c' :: ':' :: name)) : Clean name := by
  generalize hr : 'c' :: ':' :: name = r at h
  cases h with
  | child name =>
    cases hr
    exact clean_fmt name
  | value v => cases hr
  | index n => cases hr
  | tag => cases hr

/-- What is read is made of the strings in the records. -/
theorem toTable_clean {root : Str} (hdb : ∀ k, Under root k → ∀ r ∈ db.dups k, CleanRecord r) {attrFlag : Bool}
    {depth : Nat} (hkey : Clean key) (hunder : Under root key)
    (h : toTable db attrFlag depth (.node key) = .ok t) : t.All Clean := by
  induction depth generalizing key t with
  | zero => cases h
  | succ depth ih =>
    have hrecords := hdb key hunder
    have hlinks : ∀ r ∈ db.dups key, ∀ s, r ≠ 's' :: ':' :: s := by
      intro r hr s hs
      cases hrecords r hr <;> cases hs
    have hchild : ∀ cs, getChild db (.node key) = .ok cs → ∀ c ∈ cs, Clean c.1 ∧
        ∀ t, toTable db attrFlag depth c.2 = .ok t → t.All Clean := by
      intro cs hcs c hc
      rw [getChild_node hlinks] at hcs
      split at hcs
      · cases hcs
      cases hcs
      obtain ⟨name, hname, rfl⟩ := List.mem_map.mp hc
      obtain ⟨r, hr, hrname⟩ := List.mem_filterMap.mp hname
      rw [childName_eq_some] at hrname
      subst hrname
      refine ⟨(hrecords _ hr).clean_child, fun t ht => ih (clean_join ..) ?_ ht⟩
      rw [join, hkey]
      exact hunder.child _
    rw [toTable, show (Elem.node key).key = key from rfl] at h
    split at h
    · obtain ⟨cs, hcs, h⟩ := bind_eq_ok h
      obtain ⟨ts, hts, rfl⟩ := map_eq_ok h
      refine .array fun t ht => ?_
      obtain ⟨c, hc, hct⟩ := mapM_mem hts t ht
      exact (hchild cs hcs c hc).2 t hct
    have hvalues : ∀ v ∈ getValue db key, Clean v := by
      intro v hv
      obtain ⟨r, hr, hrv⟩ := List.mem_filterMap.mp hv
      split at hrv
      · cases hrv
        exact (hrecords _ hr).clean_value
      · cases hrv
    split at h
    · next v hv =>
      cases h
      exact .leaf (hvalues v (hv ▸ List.mem_cons_self))
    · next v vs _ hv =>
      cases h
      refine .array fun t ht => ?_
      obtain ⟨v', hv', rfl⟩ := List.mem_map.mp ht
      exact .leaf (hvalues v' (hv ▸ hv'))
    · obtain ⟨cs, hcs, h⟩ := bind_eq_ok h
      obtain ⟨es, hes, rfl⟩ := map_eq_ok h
      have hentries : ∀ e ∈ es, Clean e.1 ∧ e.2.All Clean := by
        intro e he
        obtain ⟨c, hc, hce⟩ := mapM_mem hes e he
        obtain ⟨t, ht, rfl⟩ := map_eq_ok hce
        exact ⟨(hchild cs hcs c hc).1, (hchild cs hcs c hc).2 t ht⟩
      split
      · have hset : ∀ e ∈ setKey es attrKey (.dict ((getAttrib db key).map fun a => (a.1, .leaf a.2))),
            Clean e.1 ∧ e.2.All Clean := by
          intro e he
          rcases mem_setKey he with rfl | he
          · refine ⟨show Clean attrKey by decide, .dict (fun e he => ?_) fun e he => ?_⟩
            · obtain ⟨a, ha, rfl⟩ := List.mem_map.mp he
              exact (getAttrib_clean hrecords ha).1
            · obtain ⟨a, ha, rfl⟩ := List.mem_map.mp he
              exact .leaf (getAttrib_clean hrecords ha).2
          · exact hentries e he
        exact .dict (fun e he => (hset e he).1) fun e he => (hset e he).2
      · exact .dict (fun e he => (hentries e he).1) fun e he => (hentries e he).2

-- ---------------------------------------------------------------------------
-- Tables that are equal in Lua
-- ---------------------------------------------------------------------------

namespace Table

theorem normalItems_eq (ts : List Table) : normalItems ts = ts.map normal := by
  induction ts with
  | nil => rfl
  | cons t ts ih => rw [normalItems, ih, List.map_cons]

theorem normalEntries_eq (es : List (Str × Table)) : normalEntries es = es.map fun e => (e.1, e.2.normal) := by
  induction es with
  | nil => rfl
  | cons e es ih => rw [normalEntries, ih, List.map_cons]

theorem normal_array {items : List Table} (h : items ≠ []) : (array items).normal = .array (items.map normal) := by
  rw [normal, normalItems_eq]
  exact h

theorem normal_dict (entries : List (Str × Table)) :
    (dict entries).normal = .dict (sortByName (entries.map fun e => (e.1, e.2.normal))) := by
  rw [normal, normalEntries_eq]

theorem all_normal {p : Str → Prop} {t : Table} : t.normal.All p ↔ t.All p := by
  induction t using Table.induct with
  | leaf s => rfl
  | array items ih =>
    by_cases hnil : items = []
    · subst hnil
      exact iff_of_true (.dict nofun nofun) (.array nofun)
    · rw [normal_array hnil]
      constructor
      · rintro (_ | h)
        exact .array fun t ht => (ih t ht).mp (h _ (List.mem_map_of_mem ht))
      · rintro (_ | h)
        refine .array fun t ht => ?_
        obtain ⟨t', ht', rfl⟩ := List.mem_map.mp ht
        exact (ih t' ht').mpr (h t' ht')
  | dict entries ih =>
    have hmem {e : Str × Table} (he : e ∈ entries) :
        (e.1, e.2.normal) ∈ sortByName (entries.map fun e => (e.1, e.2.normal)) :=
      mem_sortByName.mpr (List.mem_map.mpr ⟨e, he, rfl⟩)
    rw [normal_dict]
    constructor
    · rintro (_ | _ | ⟨hnames, h⟩)
      exact .dict (fun e he => hnames (e.1, e.2.normal) (hmem he)) fun e he => (ih e he).mp (h _ (hmem he))
    · rintro (_ | _ | ⟨hnames, h⟩)
      refine .dict (fun e he => ?_) fun e he => ?_
      · obtain ⟨e', he', rfl⟩ := List.mem_map.mp (mem_sortByName.mp he)
        exact hnames e' he'
      · obtain ⟨e', he', rfl⟩ := List.mem_map.mp (mem_sortByName.mp he)
        exact (ih e' he').mpr (h e' he')

theorem arranged_array {items : List Table} (h : items ≠ []) :
    (array items).arranged = .array ((sortByName (enumerate 0 (items.map arranged))).map Prod.snd) := by
  rw [arranged, arrangedItems_eq]
  exact h

theorem arranged_dict (entries : List (Str × Table)) :
    (dict entries).arranged = .dict (sortByName (entries.map fun e => (e.1, e.2.arranged))) := by
  rw [arranged, arrangedEntries_eq]

theorem sortByName_sortByName {α : Type} (es : List (Str × α)) : sortByName (sortByName es) = sortByName es :=
  (List.pairwise_insertionSort _ es).insertionSort_eq

theorem normal_arranged (t : Table) : t.arranged.normal = t.arranged := by
  induction t using Table.induct with
  | leaf s => rfl
  | array items ih =>
    by_cases hnil : items = []
    · subst hnil
      rfl
    · have hitems : ∀ t ∈ (sortByName (enumerate 0 (items.map arranged))).map Prod.snd, t.normal = t := by
        intro t ht
        obtain ⟨e, he, rfl⟩ := List.mem_map.mp ht
        obtain ⟨-, -, -, hmem⟩ := mem_enumerate (mem_sortByName.mp he)
        obtain ⟨t, ht, heq⟩ := List.mem_map.mp hmem
        rw [← heq, ih t ht]
      have hne : (sortByName (enumerate 0 (items.map arranged))).map Prod.snd ≠ [] := by
        obtain ⟨t, ts, rfl⟩ := List.exists_cons_of_ne_nil hnil
        exact List.ne_nil_of_mem (List.mem_map_of_mem (mem_sortByName.mpr List.mem_cons_self))
      rw [arranged_array hnil, normal_array hne, List.map_congr_left hitems, List.map_id']
  | dict entries ih =>
    have hentries : ∀ e ∈ entries, ((e.1, e.2.arranged.normal) : Str × Table) = (e.1, e.2.arranged) := by
      intro e he
      rw [ih e he]
    rw [arranged_dict, normal_dict, sortByName_map (f := fun e : Str × Table => (e.1, e.2.normal)) fun _ => rfl,
      List.map_map, sortByName_sortByName]
    exact congrArg (fun es => dict (sortByName es)) (List.map_congr_left hentries)

end Table

-- ---------------------------------------------------------------------------
-- The round trip
-- ---------------------------------------------------------------------------

/-- The table is added, and with enough stack an equal one is read. -/
def RoundTrip (fits : Str → Bool) (db : Store) (key : Str) (t : Table) : Prop :=
  ∃ db' r n, addTable fits key t db = .ok db' ∧
    (∀ depth, n ≤ depth → toTable db' true depth (.node key) = .ok r) ∧ r.normal = t.normal

theorem RoundTrip.clean (h : RoundTrip fits db key t) (hkey : Clean key) (hfresh : Fresh db key) (hlegal : t.Legal) :
    t.All Clean := by
  obtain ⟨db', r, n, hadd, hread, hnormal⟩ := h
  have hrecords : ∀ k, Under key k → ∀ r ∈ db'.dups k, CleanRecord r := by
    intro k hk r hr
    refine (addTable_adds hlegal hadd k r hr).resolve_left ?_
    rw [hfresh k hk]
    exact List.not_mem_nil
  have hr := toTable_clean hrecords hkey (.inl rfl) (hread n le_rfl)
  rwa [← Table.all_normal, hnormal, Table.all_normal] at hr

/-- For strings that are not cut. -/
theorem RoundTrip.iff_of_clean (hkey : Clean key) (hfresh : Fresh db key) (hlegal : t.Legal) (hclean : t.All Clean) :
    RoundTrip fits db key t ↔ t.Fits fits key ∧ Table.Short key t ∧ t.arranged = t.normal := by
  have hadded := @addTable_outcome _ fits hlegal hclean key db hkey hfresh
  constructor
  · rintro ⟨db', r, n, hadd, hread, hnormal⟩
    rw [hadd] at hadded
    obtain ⟨hfits, hholds, -⟩ := hadded
    obtain ⟨m, hm⟩ := toTable_reads hlegal hclean hholds true
    obtain ⟨hshort, hlong⟩ := hm (max n m) (le_max_right n m)
    have hr := hread (max n m) (le_max_left n m)
    by_cases h : Table.Short key t
    · rw [hshort h] at hr
      cases hr
      exact ⟨hfits, h, t.normal_arranged.symm.trans hnormal⟩
    · obtain ⟨err, herr⟩ := hlong h
      rw [herr] at hr
      cases hr
  · rintro ⟨hfits, hshort, harranged⟩
    cases hadd : addTable fits key t db with
    | error err =>
      rw [hadd] at hadded
      exact absurd hfits hadded
    | ok db' =>
      rw [hadd] at hadded
      obtain ⟨m, hm⟩ := toTable_reads hlegal hclean hadded.2.1 true
      exact ⟨db', t.arranged, m, hadd, fun depth hdepth => (hm depth hdepth).1 hshort,
        t.normal_arranged.trans harranged⟩

/-- A table that is added to a fresh node and read back is the same table if and
only if no string of it is cut at a NUL, LMDB takes every record, `get_child` takes
every key, and listing the arrays in the byte order of their positions changes
nothing. -/
theorem round_trip_iff (fits : Str → Bool) (db : Store) (key : Str) (t : Table) (hkey : Clean key)
    (hfresh : Fresh db key) (hlegal : t.Legal) :
    RoundTrip fits db key t ↔
      t.All Clean ∧ t.Fits fits key ∧ Table.Short key t ∧ t.arranged = t.normal := by
  constructor
  · intro h
    have hclean := h.clean hkey hfresh hlegal
    exact ⟨hclean, (RoundTrip.iff_of_clean hkey hfresh hlegal hclean).mp h⟩
  · rintro ⟨hclean, h⟩
    exact (RoundTrip.iff_of_clean hkey hfresh hlegal hclean).mpr h

def lmdbFits (s : Str) : Bool := 0 < s.length && s.length ≤ 1982

theorem round_trip_nested :
    RoundTrip lmdbFits .empty ['k'] (.dict [(['b'], .array [.leaf ['x'], .leaf []]), (['a'], .dict [])]) := by
  refine (round_trip_iff lmdbFits .empty ['k'] _ (by decide) (fun _ _ => rfl) ?_).mpr ⟨?_, ?_, ?_, ?_⟩
  · refine .dict (by decide) (by decide) ?_
    simp only [List.forall_mem_cons, List.not_mem_nil, false_implies, implies_true, and_true]
    refine ⟨.array ?_, .dict (fun _ h => by cases h) List.nodup_nil (fun _ h => by cases h)⟩
    simp only [List.forall_mem_cons, List.not_mem_nil, false_implies, implies_true, and_true]
    exact ⟨.leaf _, .leaf _⟩
  · refine .dict (by decide) ?_
    simp only [List.forall_mem_cons, List.not_mem_nil, false_implies, implies_true, and_true]
    refine ⟨.array ?_, .dict (fun _ h => by cases h) (fun _ h => by cases h)⟩
    simp only [List.forall_mem_cons, List.not_mem_nil, false_implies, implies_true, and_true]
    exact ⟨.leaf (by decide), .leaf (by decide)⟩
  · simp only [Table.Fits, Table.FitsEntries, Table.FitsItems, Table.Takes]
    decide
  · refine .mk (by decide) ?_
    simp only [Table.children, List.forall_mem_cons, List.not_mem_nil, false_implies, implies_true, and_true]
    refine ⟨.mk (by decide) ?_, .mk (by decide) (fun _ h => by cases h)⟩
    simp only [Table.children, Table.enumerate, List.forall_mem_cons, List.not_mem_nil, false_implies, implies_true,
      and_true]
    exact ⟨.mk (by decide) (fun _ h => by cases h), .mk (by decide) (fun _ h => by cases h)⟩
  · simp only [Table.arranged, Table.arrangedItems, Table.arrangedEntries, Table.normal, Table.normalItems,
      Table.normalEntries, Table.enumerate, Table.sortByName]
    rfl

/-- An array of the strings of one letter. -/
def letters (chars : List Char) : Table := .array (chars.map fun ch => .leaf [ch])

theorem arranged_letters {chars : List Char} (h : chars ≠ []) :
    (letters chars).arranged = letters ((Table.sortByName (Table.enumerate 0 chars)).map Prod.snd) := by
  have hmap := Table.sortByName_map (f := fun e : Str × Char => (e.1, Table.leaf [e.2])) (fun _ => rfl)
    (Table.enumerate 0 chars)
  have harranged : Table.arranged ∘ (fun ch : Char => Table.leaf [ch]) = fun ch => .leaf [ch] := by
    funext ch
    rfl
  rw [letters, Table.arranged_array (List.map_eq_nil_iff.not.mpr h), List.map_map, harranged, enumerate_map, ← hmap,
    letters, List.map_map, List.map_map]
  rfl

/-- The tenth string comes back in the second place. -/
theorem ten_items_reordered :
    (letters ['a', 'b', 'c', 'd', 'e', 'f', 'g', 'h', 'i', 'j']).Legal ∧
      ¬ RoundTrip lmdbFits .empty ['k'] (letters ['a', 'b', 'c', 'd', 'e', 'f', 'g', 'h', 'i', 'j']) := by
  have hlegal : (letters ['a', 'b', 'c', 'd', 'e', 'f', 'g', 'h', 'i', 'j']).Legal := by
    refine .array fun t ht => ?_
    obtain ⟨ch, -, rfl⟩ := List.mem_map.mp ht
    exact .leaf _
  have hsorted : (Table.sortByName (Table.enumerate 0 ['a', 'b', 'c', 'd', 'e', 'f', 'g', 'h', 'i', 'j'])).map
      Prod.snd = ['a', 'j', 'b', 'c', 'd', 'e', 'f', 'g', 'h', 'i'] := by
    decide
  refine ⟨hlegal, fun h => ?_⟩
  have hclean := h.clean (by decide) (fun _ _ => rfl) hlegal
  obtain ⟨-, -, harranged⟩ := (RoundTrip.iff_of_clean (by decide) (fun _ _ => rfl) hlegal hclean).mp h
  rw [arranged_letters (by decide), hsorted, letters, letters, Table.normal_array (by decide)] at harranged
  cases harranged

end GalaLua.GalaDB
