import GalaLua.GalaDB.MergeTables
import GalaLua.Library.Walks

/-!
# Merged exports

`merge_to_xml` writes the tables of the elements as nested tags, with the text of each
element where the element is. Elements get lost when they have the first two names in
common, and are there more than once when a name inside a path is also a first name. The
export is complete if and only if neither is the case, no table looks like an element,
and the elements can be written at all (`merge_iff`).
-/

namespace GalaLua.GalaDB

open Library (Walk visits)
open Library.Lua

-- ---------------------------------------------------------------------------
-- Writing
-- ---------------------------------------------------------------------------

inductive Piece
  | start (k : Str)
  | text (e : Elem) (s : Str)
  | stop (k : Str)

def Piece.str : Piece → Str
  | .start k => '<' :: (k ++ ['>'])
  | .text _ s => s
  | .stop k => '<' :: '/' :: (k ++ ['>'])

/-- `pairs` comes to the fields of a table in some order. -/
structure Pairs where
  order : Obj → List (Str × Obj) → List (Str × Obj)
  perm : ∀ x l, (order x l).Perm l

def Obj.isTable : Obj → Bool
  | .elem _ => false
  | _ => true

def keyName : Str := ['k', 'e', 'y']

def writeAll (f : Str × Obj → Res (List Piece)) : List (Str × Obj) → Res (List Piece)
  | [] => .ok []
  | b :: bs => (f b).bind fun ps => (writeAll f bs).map (ps ++ ·)

section

variable (pairs : Pairs) (toXml : Elem → List (Str × Obj) → Res Str) (els : List Elem) (h : Tables)

/-- One round of the loop in `_to_xml`. What has a field `key` is taken for an element. -/
def writeEntry (write : Obj → Res (List Piece)) (b : Str × Obj) : Res (List Piece) :=
  match b.2 with
  | .elem i =>
    match els[i]? with
    | some e => (toXml e (h (.elem i))).map fun s => [.text e s]
    | none => .error "no such element"
  | v =>
    if (h.field v keyName).isSome then .error "attempt to call method 'to_xml' (a nil value)"
    else (write v).map fun ps => .start (fmt b.1) :: (ps ++ [.stop (fmt b.1)])

/-- `_to_xml`, with a stack of `depth` calls. -/
def writeTable : Nat → Obj → Res (List Piece)
  | 0, _ => .error "stack overflow"
  | depth + 1, x => writeAll (writeEntry toXml els h (writeTable depth)) (pairs.order x (h x))

/-- `merge_to_xml`. The text is what the pieces are, one after the other. -/
def mergeToXml (depth : Nat) : Res (List Piece) := writeTable pairs toXml els (buildPath els) depth .path

end

-- ---------------------------------------------------------------------------
-- Reading
-- ---------------------------------------------------------------------------

/-- A tag with the names of those around it and its own, and the text of an element with
the names of the tags around it. -/
inductive Event
  | opened (names : List Str)
  | text (ancestors : List Str) (e : Elem) (s : Str)

/-- The events, if each tag is closed by its own name. -/
def scan : List Str → List Piece → Option (List Event)
  | [], [] => some []
  | _ :: _, [] => none
  | names, .start k :: ps => (scan (names ++ [k]) ps).map (.opened (names ++ [k]) :: ·)
  | names, .text e s :: ps => (scan names ps).map (.text names e s :: ·)
  | names, .stop k :: ps => if names.getLast? = some k then scan names.dropLast ps else none

section

variable (pairs : Pairs) (toXml : Elem → List (Str × Obj) → Res Str) (els : List Elem)

/-- The text of every element is there once, in the tags of its ancestors, and no tag is
there twice. -/
def Shown (ps : List Piece) : Prop :=
  ∃ events, scan [] ps = some events ∧ events.Nodup ∧
    (∀ e ∈ els, ∃ c s, .text c e s ∈ events) ∧
    ∀ c e s, .text c e s ∈ events → e ∈ els ∧ c = (tokens e).dropLast ∧ toXml e [] = .ok s

/-- The export is complete, on a stack that is not too small. -/
def Complete : Prop := ∃ d, ∀ depth ≥ d, ∃ ps, mergeToXml pairs toXml els depth = .ok ps ∧ Shown toXml els ps

/-- When nothing gets lost or mixed up: no element writes over the second name of another, no
name in the middle of a path is found in the outermost table, and no table has a field `key`. -/
structure Separate : Prop where
  named : ∀ e ∈ els, tokens e ≠ []
  clean : ∀ e ∈ els, ∀ t ∈ (tokens e).dropLast, Clean t
  key : ∀ e ∈ els, keyName ∉ (tokens e).tail
  heads : ∀ e ∈ els, ∀ e' ∈ els, (tokens e).take 2 = (tokens e').take 2 → e = e'
  inner : ∀ i, ∀ t ∈ (tokensAt els i).tail.dropLast, ∀ i' ≤ i, (tokensAt els i').head? ≠ some t
  returns : ∀ e ∈ els, ∃ s, toXml e [] = .ok s

end

-- ---------------------------------------------------------------------------
-- What is written
-- ---------------------------------------------------------------------------

variable {pairs : Pairs} {toXml : Elem → List (Str × Obj) → Res Str} {els : List Elem} {h : Tables}
variable {e e' : Elem} {x y w v : Obj} {k t : Str} {ks ks' : List Str} {ps : List Piece} {i i' m m' depth : Nat}

/-- The fields in the order in which `_to_xml` comes to them. -/
def entries (pairs : Pairs) (h : Tables) (x : Obj) : List (Str × Obj) := pairs.order x (h x)

/-- `_to_xml` can go on from here. -/
def Good (toXml : Elem → List (Str × Obj) → Res Str) (els : List Elem) (h : Tables) : Obj → Prop
  | .elem i => ∃ e s, els[i]? = some e ∧ toXml e (h (.elem i)) = .ok s
  | v => h.field v keyName = none

theorem Good.key (h' : Good toXml els h v) (hv : v.isTable = true) : h.field v keyName = none := by
  cases v with
  | elem i => cases hv
  | path => exact h'
  | table i j => exact h'

theorem writeAll_ok_iff {f : Str × Obj → Res (List Piece)} {bs : List (Str × Obj)} :
    (∃ ps, writeAll f bs = .ok ps) ↔ ∀ b ∈ bs, ∃ ps, f b = .ok ps := by
  induction bs with
  | nil => exact iff_of_true ⟨[], rfl⟩ nofun
  | cons b bs ih =>
    rw [List.forall_mem_cons, ← ih]
    constructor
    · rintro ⟨ps, hps⟩
      obtain ⟨ps₁, h₁, hps⟩ := bind_eq_ok hps
      obtain ⟨ps₂, h₂, -⟩ := map_eq_ok hps
      exact ⟨⟨ps₁, h₁⟩, ps₂, h₂⟩
    · rintro ⟨⟨ps₁, h₁⟩, ps₂, h₂⟩
      refine ⟨ps₁ ++ ps₂, ?_⟩
      rw [writeAll, h₁, h₂]
      rfl

theorem writeEntry_ok_iff {write : Obj → Res (List Piece)} {b : Str × Obj} :
    (∃ ps, writeEntry toXml els h write b = .ok ps) ↔
      Good toXml els h b.2 ∧ (b.2.isTable = true → ∃ ps, write b.2 = .ok ps) := by
  obtain ⟨k, v⟩ := b
  have htable (hv : v.isTable = true) (hw : writeEntry toXml els h write (k, v) =
      if (h.field v keyName).isSome then .error "attempt to call method 'to_xml' (a nil value)"
      else (write v).map fun ps => .start (fmt k) :: (ps ++ [.stop (fmt k)]))
      (hgood : Good toXml els h v ↔ h.field v keyName = none) :
      (∃ ps, writeEntry toXml els h write (k, v) = .ok ps) ↔
        Good toXml els h v ∧ (v.isTable = true → ∃ ps, write v = .ok ps) := by
    rw [hw, hgood]
    simp only [hv, true_imp_iff]
    cases hkey : h.field v keyName with
    | some y => exact iff_of_false nofun nofun
    | none =>
      constructor
      · rintro ⟨ps, hps⟩
        obtain ⟨ps', h', -⟩ := map_eq_ok hps
        exact ⟨rfl, ps', h'⟩
      · rintro ⟨-, ps, hps⟩
        rw [hps]
        exact ⟨_, rfl⟩
  cases v with
  | path => exact htable rfl rfl Iff.rfl
  | table i j => exact htable rfl rfl Iff.rfl
  | elem i =>
    simp only [writeEntry, Good, Obj.isTable]
    cases hi : els[i]? with
    | none =>
      refine iff_of_false ?_ fun ⟨⟨_, _, hsome, _⟩, _⟩ => nomatch hsome
      rintro ⟨ps, hps⟩
      cases hps
    | some e =>
      cases hs : toXml e (h (.elem i)) with
      | error err =>
        refine iff_of_false ?_ ?_
        · rintro ⟨ps, hps⟩
          obtain ⟨s, hs', -⟩ := map_eq_ok hps
          rw [hs] at hs'
          cases hs'
        · rintro ⟨⟨e', s, he, hs'⟩, -⟩
          cases he
          rw [hs] at hs'
          cases hs'
      | ok s =>
        refine iff_of_true ⟨[.text e s], ?_⟩ ⟨⟨e, s, rfl, hs⟩, nofun⟩
        exact congrArg (Except.map fun s => [Piece.text e s]) hs

/-- The tables are written when all that is in them can be, and the stack is high enough. -/
theorem writeTable_ok_iff : (∃ ps, writeTable pairs toXml els h depth x = .ok ps) ↔
    0 < depth ∧ ∀ ks v, Walk (entries pairs h) Obj.isTable x ks v →
      Good toXml els h v ∧ (v.isTable = true → ks.length < depth) := by
  induction depth generalizing x with
  | zero => exact iff_of_false nofun fun hlt => absurd hlt.1 (Nat.lt_irrefl 0)
  | succ depth ih =>
    rw [writeTable, writeAll_ok_iff]
    simp only [writeEntry_ok_iff, ih]
    constructor
    · intro hall
      refine ⟨Nat.succ_pos _, fun ks v hwalk => ?_⟩
      cases hwalk with
      | one hedge =>
        obtain ⟨hgood, htable⟩ := hall _ hedge
        exact ⟨hgood, fun hv => Nat.succ_lt_succ (htable hv).1⟩
      | cons hedge hinner hwalk =>
        obtain ⟨hgood, hlen⟩ := ((hall _ hedge).2 hinner).2 _ _ hwalk
        exact ⟨hgood, fun hv => Nat.succ_lt_succ (hlen hv)⟩
    · rintro ⟨-, hall⟩ ⟨k, v⟩ hedge
      obtain ⟨hgood, hlen⟩ := hall [k] v (.one hedge)
      refine ⟨hgood, fun hv => ⟨Nat.lt_of_succ_lt_succ (hlen hv), fun ks v' hwalk => ?_⟩⟩
      obtain ⟨hgood', hlen'⟩ := hall (k :: ks) v' (.cons hedge hv hwalk)
      exact ⟨hgood', fun hv' => Nat.lt_of_succ_lt_succ (hlen' hv')⟩

-- ---------------------------------------------------------------------------
-- What is read
-- ---------------------------------------------------------------------------

/-- The event for the end of a walk from a table inside of the tags `names`. -/
def eventOf (toXml : Elem → List (Str × Obj) → Res Str) (els : List Elem) (h : Tables) (names : List Str)
    (p : List Str × Obj) : Option Event :=
  match p.2 with
  | .elem i =>
    match els[i]? with
    | some e =>
      match toXml e (h (.elem i)) with
      | .ok s => some (.text (names ++ (p.1.map fmt).dropLast) e s)
      | .error _ => none
    | none => none
  | _ => some (.opened (names ++ p.1.map fmt))

theorem eventOf_cons (names : List Str) (k : Str) (hks : ks ≠ []) (v : Obj) :
    eventOf toXml els h names (k :: ks, v) = eventOf toXml els h (names ++ [fmt k]) (ks, v) := by
  have hmap : ks.map fmt ≠ [] := fun hnil => hks (List.map_eq_nil_iff.mp hnil)
  have htext : names ++ ((k :: ks).map fmt).dropLast = names ++ [fmt k] ++ (ks.map fmt).dropLast := by
    rw [List.map_cons, List.dropLast_cons_of_ne_nil hmap, List.append_assoc]
    rfl
  have hopened : names ++ (k :: ks).map fmt = names ++ [fmt k] ++ ks.map fmt := by
    rw [List.append_assoc]
    rfl
  simp only [eventOf, htext, hopened]

theorem scan_writeAll {f : Str × Obj → Res (List Piece)} {g : Str × Obj → List Event} {names : List Str}
    {bs : List (Str × Obj)}
    (hf : ∀ b ps, f b = .ok ps → ∀ rest, scan names (ps ++ rest) = (scan names rest).map (g b ++ ·))
    (hps : writeAll f bs = .ok ps) (rest : List Piece) :
    scan names (ps ++ rest) = (scan names rest).map (bs.flatMap g ++ ·) := by
  induction bs generalizing ps with
  | nil =>
    cases hps
    exact Option.map_id'.symm
  | cons b bs ih =>
    obtain ⟨ps₁, h₁, hps⟩ := bind_eq_ok hps
    obtain ⟨ps₂, h₂, rfl⟩ := map_eq_ok hps
    rw [List.append_assoc, hf b ps₁ h₁, ih h₂, Option.map_map, List.flatMap_cons]
    refine congrArg (Option.map · _) (funext fun evs => ?_)
    exact (List.append_assoc ..).symm

/-- The events of what is written for a table. -/
theorem scan_writeTable (hps : writeTable pairs toXml els h depth x = .ok ps) (names : List Str) (rest : List Piece) :
    scan names (ps ++ rest) = (scan names rest).map
      ((visits (entries pairs h) Obj.isTable depth x).filterMap (eventOf toXml els h names) ++ ·) := by
  induction depth generalizing x ps names rest with
  | zero => cases hps
  | succ depth ih =>
    rw [visits, List.filterMap_flatMap]
    refine scan_writeAll (fun b ps hb rest => ?_) hps rest
    obtain ⟨k, v⟩ := b
    have htable (hv : v.isTable = true) (hw : writeEntry toXml els h (writeTable pairs toXml els h depth) (k, v) =
        if (h.field v keyName).isSome then .error "attempt to call method 'to_xml' (a nil value)"
        else (writeTable pairs toXml els h depth v).map fun ps => .start (fmt k) :: (ps ++ [.stop (fmt k)]))
        (hopened : eventOf toXml els h names ([k], v) = some (.opened (names ++ [fmt k]))) :
        scan names (ps ++ rest) = (scan names rest).map
          ((([k], v) :: if v.isTable then (visits (entries pairs h) Obj.isTable depth v).map fun p => (k :: p.1, p.2)
            else []).filterMap (eventOf toXml els h names) ++ ·) := by
      rw [hw] at hb
      split at hb
      · cases hb
      · obtain ⟨ps', hps', rfl⟩ := map_eq_ok hb
        have hstop : scan (names ++ [fmt k]) (.stop (fmt k) :: rest) = scan names rest := by
          rw [scan, List.getLast?_concat, if_pos rfl, List.dropLast_concat]
        have hinner : ((visits (entries pairs h) Obj.isTable depth v).map fun p => (k :: p.1, p.2)).filterMap
            (eventOf toXml els h names) =
            (visits (entries pairs h) Obj.isTable depth v).filterMap (eventOf toXml els h (names ++ [fmt k])) := by
          rw [List.filterMap_map]
          refine List.filterMap_congr fun p hp => ?_
          exact eventOf_cons names k (Library.walk_of_visits hp).ne_nil p.2
        rw [if_pos hv, List.filterMap_cons_some hopened, hinner, List.cons_append, List.append_assoc, scan, ih hps',
          List.singleton_append, hstop, Option.map_map]
        rfl
    cases v with
    | path => exact htable rfl rfl rfl
    | table i j => exact htable rfl rfl rfl
    | elem i =>
      simp only [writeEntry] at hb
      cases hi : els[i]? with
      | none =>
        rw [hi] at hb
        cases hb
      | some e =>
        rw [hi] at hb
        obtain ⟨s, hs, rfl⟩ := map_eq_ok hb
        have hevent : eventOf toXml els h names ([k], .elem i) = some (.text names e s) := by
          simp [eventOf, hi, hs]
        rw [List.filterMap_cons_some hevent, List.singleton_append, scan]
        rfl

theorem scan_mergeToXml (hps : mergeToXml pairs toXml els depth = .ok ps) : scan [] ps =
    some ((visits (entries pairs (buildPath els)) Obj.isTable depth .path).filterMap
      (eventOf toXml els (buildPath els) [])) := by
  have hwrite := scan_writeTable hps [] []
  rw [List.append_nil] at hwrite
  simpa only [scan, Option.map_some, List.append_nil] using hwrite

-- ---------------------------------------------------------------------------
-- The walks from the outermost table
-- ---------------------------------------------------------------------------

variable {d : Nat}

theorem buildPath_proper (els : List Elem) : (buildPath els).Proper := by
  induction els using List.reverseRecOn with
  | nil => exact fun _ => List.nodup_nil
  | append_singleton els e ih =>
    rw [buildPath_concat]
    exact ih.foldl _

theorem mem_entries : (k, v) ∈ entries pairs (buildPath els) x ↔ (buildPath els).field x k = some v := by
  rw [entries, (pairs.perm x _).mem_iff]
  exact mem_iff_lookup (buildPath_proper els x)

theorem nodup_entries (x : Obj) : ((entries pairs (buildPath els) x).map Prod.fst).Nodup :=
  ((pairs.perm x _).map Prod.fst).nodup_iff.mpr (buildPath_proper els x)

/-- A walk through the tables of the merged export. -/
abbrev Leads (pairs : Pairs) (els : List Elem) (ks : List Str) (v : Obj) : Prop :=
  Walk (entries pairs (buildPath els)) Obj.isTable .path ks v

theorem Leads.one (h : (buildPath els).field .path k = some v) : Leads pairs els [k] v :=
  Walk.one (mem_entries.mpr h)

theorem Leads.snoc (h : Leads pairs els ks x) (hx : x.isTable = true) (hfield : (buildPath els).field x k = some v) :
    Leads pairs els (ks ++ [k]) v :=
  Walk.trans h hx (.one (mem_entries.mpr hfield))

theorem leads_snoc_iff : Leads pairs els (ks ++ [k]) v ↔
    (ks = [] ∧ (buildPath els).field .path k = some v) ∨
      ∃ x, Leads pairs els ks x ∧ x.isTable = true ∧ (buildPath els).field x k = some v := by
  refine Walk.snoc_iff.trans ?_
  simp only [mem_entries]

theorem field_ne_path (h : (buildPath els).field x k = some y) : y ≠ .path := by
  obtain ⟨i, m, hk, -, rfl, -⟩ := last_write h
  exact nodeAt_ne_path hk

theorem Leads.ne_path (h : Leads pairs els ks v) : v ≠ .path := by
  obtain rfl | ⟨ks, k, rfl⟩ := List.eq_nil_or_concat' ks
  · exact absurd rfl (Walk.ne_nil h)
  · rcases leads_snoc_iff.mp h with ⟨-, hfield⟩ | ⟨x, -, -, hfield⟩
    · exact field_ne_path hfield
    · exact field_ne_path hfield

/-- The last step of a walk was written for an element, and not written over later. -/
theorem Leads.last (h : Leads pairs els (ks ++ [k]) v) :
    ∃ i m, (tokensAt els i)[m]? = some k ∧ v = nodeAt els i (m + 1) ∧
      (buildPath els).field (nodeAt els i m) k = some v ∧
      (ks = [] ∧ m = 0 ∨ m ≠ 0 ∧ Leads pairs els ks (nodeAt els i m) ∧ (nodeAt els i m).isTable = true) ∧
      ∀ i' > i, ∀ m', (tokensAt els i')[m']? = some k → nodeAt els i m ≠ nodeAt els i' m' := by
  rcases leads_snoc_iff.mp h with ⟨rfl, hfield⟩ | ⟨x, hx, htable, hfield⟩
  · obtain ⟨i, m, hk, hpath, hv, hlater⟩ := last_write hfield
    rw [hpath] at hfield hlater
    refine ⟨i, m, hk, hv, hfield, .inl ⟨rfl, ?_⟩, hlater⟩
    cases m with
    | zero => rfl
    | succ m =>
      have hlt : m < (tokensAt els i).length := Nat.lt_of_succ_lt (List.getElem?_eq_some_iff.mp hk).1
      exact absurd hpath.symm (nodeAt_ne_path (List.getElem?_eq_getElem hlt))
  · obtain ⟨i, m, hk, rfl, hv, hlater⟩ := last_write hfield
    refine ⟨i, m, hk, hv, hfield, .inr ⟨?_, hx, htable⟩, hlater⟩
    rintro rfl
    exact hx.ne_path (nodeAt_zero els i)

theorem Leads.next (h : Leads pairs els ks v) (hv : v.isTable = true) : ∃ k y, (buildPath els).field v k = some y := by
  obtain rfl | ⟨ks, k, rfl⟩ := List.eq_nil_or_concat' ks
  · exact absurd rfl (Walk.ne_nil h)
  obtain ⟨i, m, hk, rfl, -, -, -⟩ := h.last
  have hlt : m + 1 < (tokensAt els i).length := by
    have hle := (List.getElem?_eq_some_iff.mp hk).1
    refine Nat.lt_of_le_of_ne hle fun hend => ?_
    rw [nodeAt_last hend] at hv
    cases hv
  obtain ⟨y, hy⟩ := written (List.getElem?_eq_getElem hlt)
  exact ⟨_, y, hy⟩

theorem isTable_eq_false (h : v.isTable ≠ true) : ∃ i, v = .elem i := by
  cases v with
  | elem i => exact ⟨i, rfl⟩
  | path => exact absurd rfl h
  | table i j => exact absurd rfl h

-- ---------------------------------------------------------------------------
-- What a complete export shows
-- ---------------------------------------------------------------------------

/-- The facts about the walks that follow from a complete export. -/
structure Displays (pairs : Pairs) (toXml : Elem → List (Str × Obj) → Res Str) (els : List Elem) (d : Nat) : Prop where
  good : ∀ ks v, Leads pairs els ks v → Good toXml els (buildPath els) v ∧ (v.isTable = true → ks.length < d)
  found : ∀ e ∈ els, ∃ i ks, els[i]? = some e ∧ Leads pairs els ks (.elem i)
  placed : ∀ i ks, Leads pairs els ks (.elem i) →
    ∃ e s, els[i]? = some e ∧ (ks.map fmt).dropLast = (tokens e).dropLast ∧ toXml e [] = .ok s

theorem eventOf_text {names c : List Str} {p : List Str × Obj} {s : Str}
    (h : eventOf toXml els (buildPath els) names p = some (.text c e s)) :
    ∃ i, p.2 = .elem i ∧ els[i]? = some e ∧ c = names ++ (p.1.map fmt).dropLast ∧
      toXml e (buildPath els (.elem i)) = .ok s := by
  obtain ⟨ks, v⟩ := p
  cases v with
  | path => cases h
  | table i j => cases h
  | elem i =>
    simp only [eventOf] at h
    split at h
    · next e' he =>
      split at h
      · next s' hs =>
        cases h
        exact ⟨i, rfl, he, rfl, hs⟩
      · cases h
    · cases h

theorem eventOf_elem {names : List Str} {s : Str} (he : els[i]? = some e) (hs : toXml e (buildPath els (.elem i)) = .ok s) :
    eventOf toXml els (buildPath els) names (ks, .elem i) = some (.text (names ++ (ks.map fmt).dropLast) e s) := by
  simp only [eventOf, he, hs]

theorem Complete.displays (h : Complete pairs toXml els) : ∃ d, Displays pairs toXml els d := by
  obtain ⟨d, hd⟩ := h
  obtain ⟨ps, hps, events, hscan, -, hfound, hright⟩ := hd d (Nat.le_refl d)
  obtain ⟨hpos, hgood⟩ := writeTable_ok_iff.mp ⟨ps, hps⟩
  have hevents := Option.some.inj (hscan.symm.trans (scan_mergeToXml hps))
  refine ⟨d, hgood, fun e he => ?_, fun i ks hwalk => ?_⟩
  · obtain ⟨c, s, hmem⟩ := hfound e he
    rw [hevents] at hmem
    obtain ⟨⟨ks, v⟩, hvisit, hevent⟩ := List.mem_filterMap.mp hmem
    obtain ⟨i, rfl, hi, -, -⟩ := eventOf_text hevent
    exact ⟨i, ks, hi, Library.walk_of_visits hvisit⟩
  · obtain ⟨⟨e, s, hi, hs⟩, -⟩ := hgood ks _ hwalk
    -- the table that the element is in is reached on the stack
    have hlen : ks.length ≤ d := by
      obtain rfl | ⟨ks, k, rfl⟩ := List.eq_nil_or_concat' ks
      · exact Nat.zero_le d
      · rw [List.length_append, List.length_singleton]
        rcases leads_snoc_iff.mp hwalk with ⟨rfl, -⟩ | ⟨x, hx, htable, -⟩
        · exact hpos
        · exact (hgood ks x hx).2 htable
    have hmem : Event.text (ks.map fmt).dropLast e s ∈ events := by
      rw [hevents]
      exact List.mem_filterMap.mpr ⟨(ks, .elem i), hwalk.mem_visits hlen, eventOf_elem hi hs⟩
    obtain ⟨-, hc, hs'⟩ := hright _ e s hmem
    exact ⟨e, s, hi, hc, hs'⟩

namespace Displays

theorem clean (hD : Displays pairs toXml els d) {e : Elem} (he : e ∈ els) (ht : t ∈ (tokens e).dropLast) : Clean t := by
  obtain ⟨i, ks, hi, hwalk⟩ := hD.found e he
  obtain ⟨e', s, hi', hc, -⟩ := hD.placed i ks hwalk
  obtain rfl : e = e' := Option.some.inj (hi.symm.trans hi')
  rw [← hc] at ht
  obtain ⟨k, -, rfl⟩ := List.mem_map.mp (List.dropLast_subset _ ht)
  exact clean_fmt k

theorem clean_key (hD : Displays pairs toXml els d) (h : Leads pairs els (ks ++ [k]) v) (hv : v.isTable = true) :
    Clean k := by
  obtain ⟨i, m, hk, rfl, -, -, -⟩ := h.last
  obtain ⟨e, he, htok⟩ := elem_of_tokensAt hk
  have hne : m + 1 ≠ (tokensAt els i).length := fun hend => by
    rw [nodeAt_last hend] at hv
    cases hv
  refine hD.clean (List.mem_of_getElem? he) (List.mem_of_getElem? (i := m) ?_)
  have hlt := (List.getElem?_eq_some_iff.mp hk).1
  rw [← htok, List.getElem?_dropLast, if_pos (by omega), hk]

theorem map_fmt (hD : Displays pairs toXml els d) (h : Leads pairs els ks v) (hv : v.isTable = true) :
    ks.map fmt = ks := by
  induction ks using List.reverseRecOn generalizing v with
  | nil => rfl
  | append_singleton ks k ih =>
    have hk : fmt k = k := hD.clean_key h hv
    rw [List.map_append, List.map_singleton, hk]
    rcases leads_snoc_iff.mp h with ⟨rfl, -⟩ | ⟨x, hx, htable, -⟩
    · rfl
    · rw [ih hx htable]

/-- An element is where its path says. -/
theorem place (hD : Displays pairs toXml els d) (h : Leads pairs els ks (.elem i)) :
    ks.dropLast = (tokensAt els i).dropLast := by
  obtain ⟨e, s, hi, hc, -⟩ := hD.placed i ks h
  rw [tokensAt_eq hi, ← hc]
  obtain rfl | ⟨ks, k, rfl⟩ := List.eq_nil_or_concat' ks
  · rfl
  · rw [List.map_append, List.map_singleton, List.dropLast_concat, List.dropLast_concat]
    rcases leads_snoc_iff.mp h with ⟨rfl, -⟩ | ⟨x, hx, htable, -⟩
    · rfl
    · exact (hD.map_fmt hx htable).symm

theorem onward (hD : Displays pairs toXml els d) (h : Leads pairs els ks v) (hv : v.isTable = true) :
    ∃ ks' i, Walk (entries pairs (buildPath els)) Obj.isTable v ks' (.elem i) := by
  induction hn : d - ks.length generalizing ks v with
  | zero =>
    have := (hD.good ks v h).2 hv
    omega
  | succ n ih =>
    obtain ⟨k, y, hy⟩ := h.next hv
    by_cases htable : y.isTable = true
    · obtain ⟨ks', i, hwalk⟩ := ih (h.snoc hv hy) htable (by rw [List.length_append, List.length_singleton]; omega)
      exact ⟨k :: ks', i, .cons (mem_entries.mpr hy) htable hwalk⟩
    · obtain ⟨i, rfl⟩ := isTable_eq_false htable
      exact ⟨[k], i, .one (mem_entries.mpr hy)⟩

/-- No two walks of different lengths lead to one place. -/
theorem same_length (hD : Displays pairs toXml els d) (h : Leads pairs els ks v) (h' : Leads pairs els ks' v) :
    ks.length = ks'.length := by
  have helem : ∀ {ks ks' i}, Leads pairs els ks (.elem i) → Leads pairs els ks' (.elem i) → ks.length = ks'.length := by
    intro ks ks' i h h'
    have heq : ks.dropLast.length = ks'.dropLast.length := by rw [hD.place h, hD.place h']
    have hpos := List.length_pos_iff.mpr (Walk.ne_nil h)
    have hpos' := List.length_pos_iff.mpr (Walk.ne_nil h')
    rw [List.length_dropLast, List.length_dropLast] at heq
    omega
  by_cases hv : v.isTable = true
  · obtain ⟨r, i, hr⟩ := hD.onward h hv
    have := helem (Walk.trans h hv hr) (Walk.trans h' hv hr)
    rw [List.length_append, List.length_append] at this
    omega
  · obtain ⟨i, rfl⟩ := isTable_eq_false hv
    exact helem h h'

/-- Below the first level a walk leads to an element or to a table of its own. -/
theorem own_node (hD : Displays pairs toXml els d) (hu : Unrelated els) (hk : (tokensAt els i)[m]? = some k)
    (hwalk : Leads pairs els ks (nodeAt els i (m + 1))) (hlen : 2 ≤ ks.length) :
    (m + 1 = (tokensAt els i).length ∧ nodeAt els i (m + 1) = .elem i) ∨
      (m + 1 < (tokensAt els i).length ∧ nodeAt els i (m + 1) = .table i (m + 1) ∧
        ∀ a ≤ i, (tokensAt els a)[0]? ≠ some k) := by
  rcases nodeAt_succ hk with hend | hown | ⟨-, a, -, ha, hfirst, ⟨hone, heq⟩ | ⟨hlong, -⟩⟩
  · exact .inl hend
  · exact .inr hown
  · rw [heq] at hwalk
    have := congrArg List.length (hD.place hwalk)
    rw [List.length_dropLast, List.length_dropLast, hone] at this
    omega
  · rw [← hfirst] at hwalk
    have hone := hD.same_length hwalk (Leads.one (nodeAt_one hu ha hlong))
    rw [List.length_singleton] at hone
    omega

/-- The step to such a place was written for the element itself. -/
theorem own_step (hD : Displays pairs toXml els d) (hu : Unrelated els) (hm : m + 1 < (tokensAt els i).length)
    (hwalk : Leads pairs els (ks ++ [k]) (nodeAt els i (m + 2))) (hks : ks ≠ []) :
    (tokensAt els i)[m + 1]? = some k ∧ Leads pairs els ks (nodeAt els i (m + 1)) ∧
      (nodeAt els i (m + 1)).isTable = true ∧
      (buildPath els).field (nodeAt els i (m + 1)) k = some (nodeAt els i (m + 2)) ∧
      ∀ i' > i, ∀ m', (tokensAt els i')[m']? = some k → nodeAt els i (m + 1) ≠ nodeAt els i' m' := by
  have hlen : 2 ≤ (ks ++ [k]).length := by
    have := List.length_pos_iff.mpr hks
    rw [List.length_append, List.length_singleton]
    omega
  have hown := hD.own_node hu (List.getElem?_eq_getElem hm) hwalk hlen
  obtain ⟨i', m', hk, heq, hfield, hcase, hlater⟩ := hwalk.last
  obtain ⟨rfl, rfl⟩ := node_unique (Nat.succ_ne_zero m) (hown.imp_right fun h => h.2.1) hk heq
  rcases hcase with ⟨hnil, -⟩ | ⟨-, hbefore, htable⟩
  · exact absurd hnil hks
  · exact ⟨hk, hbefore, htable, hfield, hlater⟩

/-- The tables that an element is in are those of its own path. -/
theorem walk_prefix (hD : Displays pairs toXml els d) (hu : Unrelated els) (hm : m < (tokensAt els i).length)
    (hwalk : Leads pairs els ks (nodeAt els i (m + 1))) (hlen : ks.length = m + 1) (hm' : m' ≤ m) :
    Leads pairs els ((tokensAt els i).take (m' + 1)) (nodeAt els i (m' + 1)) := by
  induction m generalizing ks m' with
  | zero =>
    obtain rfl : m' = 0 := Nat.le_zero.mp hm'
    have hhead := List.getElem?_eq_getElem hm
    have htake : (tokensAt els i).take 1 = [(tokensAt els i)[0]] := by
      rw [List.take_add_one, hhead]
      rfl
    rw [htake]
    rcases Nat.eq_or_lt_of_le (Nat.succ_le_of_lt hm) with hone | hlong
    · obtain ⟨k, rfl⟩ := List.length_eq_one_iff.mp hlen
      have hstep : Leads pairs els ([] ++ [k]) (nodeAt els i 1) := hwalk
      rcases leads_snoc_iff.mp hstep with ⟨-, hfield⟩ | ⟨x, hx, -, -⟩
      · obtain ⟨a, ha, -, hcase⟩ := first_field hfield
        rw [nodeAt_last hone] at hcase
        rcases hcase with ⟨-, heq⟩ | ⟨-, heq⟩
        all_goals cases heq
        rw [hhead] at ha
        cases ha
        exact hwalk
      · exact absurd rfl (Walk.ne_nil hx)
    · exact Leads.one (nodeAt_one hu hhead hlong)
  | succ m ih =>
    obtain rfl | ⟨ks, k, rfl⟩ := List.eq_nil_or_concat' ks
    · cases hlen
    rw [List.length_append, List.length_singleton] at hlen
    have hks : ks ≠ [] := by
      rintro rfl
      cases hlen
    obtain ⟨hk, hbefore, htable, hfield, -⟩ := hD.own_step hu hm hwalk hks
    rcases Nat.eq_or_lt_of_le hm' with rfl | hlt
    · rw [List.take_add_one, hk]
      exact (ih (Nat.lt_of_succ_lt hm) hbefore (by omega) (Nat.le_refl m)).snoc htable hfield
    · exact ih (Nat.lt_of_succ_lt hm) hbefore (by omega) (Nat.le_of_lt_succ hlt)

/-- Element `i` is there, in the tables of its own path. -/
structure Current (pairs : Pairs) (els : List Elem) (i : Nat) : Prop where
  named : tokensAt els i ≠ []
  leads : ∀ m < (tokensAt els i).length, Leads pairs els ((tokensAt els i).take (m + 1)) (nodeAt els i (m + 1))

theorem current (hD : Displays pairs toXml els d) (hu : Unrelated els) (he : e ∈ els) :
    ∃ i, els[i]? = some e ∧ Current pairs els i := by
  obtain ⟨i, ks, hi, hwalk⟩ := hD.found e he
  have hnamed : tokensAt els i ≠ [] := by
    obtain rfl | ⟨ks, k, rfl⟩ := List.eq_nil_or_concat' ks
    · exact absurd rfl (Walk.ne_nil hwalk)
    obtain ⟨i', m, hk, heq, -⟩ := hwalk.last
    rcases nodeAt_succ hk with ⟨-, h⟩ | ⟨-, h, -⟩ | ⟨-, a, -, ha, -, ⟨-, h⟩ | ⟨-, h⟩⟩
    all_goals
      rw [h] at heq
      cases heq
    · exact fun hnil => by rw [hnil] at hk; cases hk
    · exact fun hnil => by rw [hnil] at ha; cases ha
  have hpos := List.length_pos_iff.mpr hnamed
  obtain ⟨m, hm⟩ : ∃ m, m + 1 = (tokensAt els i).length := ⟨(tokensAt els i).length - 1, by omega⟩
  have hlen : ks.length = m + 1 := by
    have heq := congrArg List.length (hD.place hwalk)
    have hpos' := List.length_pos_iff.mpr (Walk.ne_nil hwalk)
    rw [List.length_dropLast, List.length_dropLast] at heq
    omega
  rw [← nodeAt_last hm] at hwalk
  refine ⟨i, hi, hnamed, fun m' hm' => ?_⟩
  exact hD.walk_prefix hu (by omega) hwalk hlen (by omega)

/-- No later element has the first two names of a current one. -/
theorem later (hD : Displays pairs toXml els d) (hu : Unrelated els) (hc : Current pairs els i) (hi : i < i') :
    (tokensAt els i').take 2 ≠ (tokensAt els i).take 2 := by
  intro heq
  have hpos := List.length_pos_iff.mpr hc.named
  have hhead : (tokensAt els i')[0]? = (tokensAt els i)[0]? := by
    have := congrArg (·[0]?) heq
    simpa using this
  have hk := List.getElem?_eq_getElem hpos
  rcases Nat.eq_or_lt_of_le (Nat.succ_le_of_lt hpos) with hone | hlong
  · have hstep : Leads pairs els ([] ++ [(tokensAt els i)[0]]) (nodeAt els i 1) := by
      have := hc.leads 0 hpos
      rwa [List.take_add_one, hk] at this
    obtain ⟨a, m, ha, hv, -, ⟨-, rfl⟩ | ⟨hm, hnil, -⟩, hlater⟩ := hstep.last
    · -- what the outermost table holds for the name is this element
      have honea := hu.one hone.symm hk ha
      rw [nodeAt_last hone, nodeAt_last honea.symm] at hv
      cases hv
      exact hlater i' hi 0 (hhead.trans hk) rfl
    · exact absurd rfl (Walk.ne_nil hnil)
  · have hwalk := hc.leads 1 hlong
    have hk1 := List.getElem?_eq_getElem hlong
    have htake : (tokensAt els i).take 2 = [(tokensAt els i)[0]] ++ [(tokensAt els i)[1]] := by
      rw [List.take_add_one, hk1, List.take_add_one, hk]
      rfl
    rw [htake] at hwalk
    obtain ⟨-, -, -, -, hlater⟩ := hD.own_step hu hlong hwalk (List.cons_ne_nil _ _)
    have hsecond : (tokensAt els i')[1]? = (tokensAt els i)[1]? := by
      have := congrArg (·[1]?) heq
      simpa using this
    refine hlater i' hi 1 (hsecond.trans hk1) ?_
    have hlong' : 2 ≤ (tokensAt els i').length := (List.getElem?_eq_some_iff.mp (hsecond.trans hk1)).1
    have hone := nodeAt_one hu hk hlong
    rw [nodeAt_one hu (hhead.trans hk) hlong'] at hone
    exact (Option.some.inj hone).symm

/-- The places inside the path of a current element are tables, and below the first level its own. -/
theorem inner_node (hD : Displays pairs toXml els d) (hu : Unrelated els) (hc : Current pairs els i)
    (hm : m + 1 < (tokensAt els i).length) (hk : (tokensAt els i)[m]? = some k) :
    (nodeAt els i (m + 1)).isTable = true ∧ (m ≠ 0 → ∀ a ≤ i, (tokensAt els a)[0]? ≠ some k) := by
  cases m with
  | zero =>
    obtain ⟨a, -, htable⟩ := first_table hu hk hm
    rw [htable]
    exact ⟨rfl, fun h => absurd rfl h⟩
  | succ m =>
    have hlen : 2 ≤ ((tokensAt els i).take (m + 2)).length := by
      rw [List.length_take]
      omega
    rcases hD.own_node hu hk (hc.leads (m + 1) (by omega)) hlen with ⟨hend, -⟩ | ⟨-, htable, hhead⟩
    · omega
    · rw [htable]
      exact ⟨rfl, fun _ => hhead⟩

/-- A complete export has nothing that gets lost or mixed up. -/
theorem separate (hD : Displays pairs toXml els d) (hu : Unrelated els) : Separate toXml els where
  named e he := by
    obtain ⟨i, hi, hc⟩ := hD.current hu he
    rw [← tokensAt_eq hi]
    exact hc.named
  clean e he t ht := hD.clean he ht
  key e he hkey := by
    obtain ⟨i, hi, hc⟩ := hD.current hu he
    rw [← tokensAt_eq hi] at hkey
    obtain ⟨m, hm⟩ := List.mem_iff_getElem?.mp hkey
    rw [List.getElem?_tail] at hm
    have hlt := (List.getElem?_eq_some_iff.mp hm).1
    have hbefore : m < (tokensAt els i).length := by omega
    obtain ⟨htable, -⟩ := hD.inner_node hu hc hlt (List.getElem?_eq_getElem hbefore)
    obtain ⟨y, hy⟩ := written hm
    have hgood := (hD.good _ _ (hc.leads m hbefore)).1
    rw [hgood.key htable] at hy
    cases hy
  heads e he e' he' heq := by
    obtain ⟨i, hi, hc⟩ := hD.current hu he
    obtain ⟨i', hi', hc'⟩ := hD.current hu he'
    rw [← tokensAt_eq hi, ← tokensAt_eq hi'] at heq
    rcases Nat.lt_trichotomy i i' with hlt | rfl | hlt
    · exact absurd heq.symm (hD.later hu hc hlt)
    · exact Option.some.inj (hi.symm.trans hi')
    · exact absurd heq (hD.later hu hc' hlt)
  inner i t ht a ha hhead := by
    obtain ⟨j, hj⟩ := List.mem_iff_getElem?.mp ht
    rw [List.getElem?_dropLast] at hj
    split at hj
    case isFalse => cases hj
    next hlt =>
    rw [List.getElem?_tail] at hj
    rw [List.length_tail] at hlt
    obtain ⟨e, he, htok⟩ := elem_of_tokensAt hj
    obtain ⟨i₁, hi₁, hc⟩ := hD.current hu (List.mem_of_getElem? he)
    have hsame : tokensAt els i₁ = tokensAt els i := (tokensAt_eq hi₁).trans htok.symm
    have hle : i ≤ i₁ := by
      refine Nat.le_of_not_lt fun hlt => hD.later hu hc hlt ?_
      rw [hsame]
    obtain ⟨-, hheads⟩ := hD.inner_node hu hc (m := j + 1) (by rw [hsame]; omega) (hsame ▸ hj)
    rw [List.head?_eq_getElem?] at hhead
    exact hheads (Nat.succ_ne_zero j) a (Nat.le_trans ha hle) hhead
  returns e he := by
    obtain ⟨i, ks, hi, hwalk⟩ := hD.found e he
    obtain ⟨e', s, hi', -, hs⟩ := hD.placed i ks hwalk
    cases hi.symm.trans hi'
    exact ⟨s, hs⟩

end Displays

-- ---------------------------------------------------------------------------
-- What is written for separate elements
-- ---------------------------------------------------------------------------

namespace Separate

/-- Behind the first name there is the element or a table of its own. -/
theorem own (hS : Separate toXml els) (hk : (tokensAt els i)[m]? = some k) (hm : m ≠ 0) :
    (m + 1 = (tokensAt els i).length ∧ nodeAt els i (m + 1) = .elem i) ∨
      (m + 1 < (tokensAt els i).length ∧ nodeAt els i (m + 1) = .table i (m + 1)) := by
  rcases nodeAt_succ hk with hend | ⟨hlt, htable, -⟩ | ⟨hlt, a, ha, hhead, -⟩
  · exact .inl hend
  · exact .inr ⟨hlt, htable⟩
  · obtain ⟨m, rfl⟩ := Nat.exists_eq_succ_of_ne_zero hm
    have hmem : k ∈ (tokensAt els i).tail.dropLast := by
      refine List.mem_of_getElem? (i := m) ?_
      rw [List.getElem?_dropLast, List.length_tail, if_pos (by omega), List.getElem?_tail]
      exact hk
    rw [← List.head?_eq_getElem?] at hhead
    exact absurd hhead (hS.inner i k hmem a ha)

/-- The places of an element are the element, one table of the first level, and tables of its own. -/
theorem own_unique (hS : Separate toXml els) (hk : (tokensAt els i)[m]? = some k) (hm : m ≠ 0)
    (hk' : (tokensAt els i')[m']? = some t) (heq : nodeAt els i (m + 1) = nodeAt els i' (m' + 1)) :
    i' = i ∧ m' = m :=
  node_unique hm ((hS.own hk hm).imp_right And.right) hk' heq

/-- A table of the first level is there for one first name. -/
theorem first_unique (hS : Separate toXml els) (hu : Unrelated els) (hk : (tokensAt els i)[0]? = some k)
    (hlen : 2 ≤ (tokensAt els i).length) (hm : m < (tokensAt els i').length)
    (hlen' : m + 1 < (tokensAt els i').length) (heq : nodeAt els i 1 = nodeAt els i' (m + 1)) :
    m = 0 ∧ (tokensAt els i')[0]? = some k := by
  obtain ⟨a, ha, htable⟩ := first_table hu hk hlen
  have hm0 : m = 0 := by
    by_contra hne
    rcases hS.own (List.getElem?_eq_getElem hm) hne with ⟨hend, -⟩ | ⟨-, hown⟩
    · omega
    · rw [htable, hown] at heq
      cases heq
      exact hne rfl
  subst hm0
  have hk' := List.getElem?_eq_getElem hm
  obtain ⟨a', ha', htable'⟩ := first_table hu hk' hlen'
  rw [htable, htable'] at heq
  cases heq
  exact ⟨rfl, by rw [hk', ← ha', ha]⟩

/-- A walk follows the path of an element. -/
theorem follows (hS : Separate toXml els) (hu : Unrelated els) (h : Leads pairs els ks v) :
    ∃ i m, m < (tokensAt els i).length ∧ ks = (tokensAt els i).take (m + 1) ∧ v = nodeAt els i (m + 1) := by
  induction ks using List.reverseRecOn generalizing v with
  | nil => exact absurd rfl (Walk.ne_nil h)
  | append_singleton ks k ih =>
    obtain ⟨i, m, hk, hv, -, hcase, -⟩ := h.last
    have hm := (List.getElem?_eq_some_iff.mp hk).1
    refine ⟨i, m, hm, ?_, hv⟩
    rw [List.take_add_one, hk]
    refine congrArg (· ++ [k]) ?_
    rcases hcase with ⟨rfl, rfl⟩ | ⟨hne, hbefore, htable⟩
    · rfl
    obtain ⟨m, rfl⟩ := Nat.exists_eq_succ_of_ne_zero hne
    obtain ⟨i', m', hm', rfl, heq⟩ := ih hbefore
    have hk' := List.getElem?_eq_getElem hm'
    have hbefore' := List.getElem?_eq_getElem (Nat.lt_of_succ_lt hm)
    by_cases hzero : m' = 0
    · subst hzero
      have hlong : 2 ≤ (tokensAt els i').length := by
        refine Nat.lt_of_le_of_ne hm' fun hone => ?_
        rw [heq, nodeAt_last hone] at htable
        cases htable
      obtain ⟨rfl, hhead⟩ := hS.first_unique hu hk' hlong (Nat.lt_of_succ_lt hm) hm heq.symm
      rw [List.take_add_one, List.take_add_one, hk', hhead]
      rfl
    · obtain ⟨rfl, rfl⟩ := hS.own_unique hk' hzero hbefore' heq.symm
      rfl

theorem inner_table (hS : Separate toXml els) (hu : Unrelated els) (hlt : m + 1 < (tokensAt els i).length) :
    (nodeAt els i (m + 1)).isTable = true := by
  have hk := List.getElem?_eq_getElem (Nat.lt_of_succ_lt hlt)
  by_cases hm : m = 0
  · subst hm
    obtain ⟨a, -, htable⟩ := first_table hu hk hlt
    rw [htable]
    rfl
  · rcases hS.own hk hm with ⟨hend, -⟩ | ⟨-, htable⟩
    · omega
    · rw [htable]
      rfl

theorem fields_elem (hS : Separate toXml els) (hu : Unrelated els) (a : Nat) : buildPath els (.elem a) = [] := by
  by_contra hne
  obtain ⟨⟨k, y⟩, hmem⟩ := List.exists_mem_of_ne_nil _ hne
  obtain ⟨i, m, hk, heq, -⟩ := last_write ((mem_iff_lookup (buildPath_proper els _)).mp hmem)
  cases m with
  | zero => cases heq
  | succ m =>
    have htable := hS.inner_table hu (List.getElem?_eq_some_iff.mp hk).1
    rw [← heq] at htable
    cases htable

theorem follows_elem (hS : Separate toXml els) (hu : Unrelated els) {a : Nat} (h : Leads pairs els ks (.elem a)) :
    ks = tokensAt els a ∧ tokensAt els a ≠ [] := by
  obtain ⟨i, m, hm, rfl, heq⟩ := hS.follows hu h
  have hend : m + 1 = (tokensAt els i).length := by
    refine (Nat.eq_or_lt_of_le hm).resolve_right fun hlt => ?_
    have htable := hS.inner_table hu hlt
    rw [← heq] at htable
    cases htable
  rw [nodeAt_last hend] at heq
  cases heq
  exact ⟨List.take_of_length_le (Nat.le_of_eq hend.symm), List.length_pos_iff.mp (by omega)⟩

theorem follows_table (hS : Separate toXml els) (hu : Unrelated els) (h : Leads pairs els ks v)
    (hv : v.isTable = true) : ∃ i m, m + 1 < (tokensAt els i).length ∧ ks = (tokensAt els i).take (m + 1) := by
  obtain ⟨i, m, hm, rfl, rfl⟩ := hS.follows hu h
  refine ⟨i, m, Nat.lt_of_le_of_ne hm fun hend => ?_, rfl⟩
  rw [nodeAt_last hend] at hv
  cases hv

theorem map_fmt (hS : Separate toXml els) (he : e ∈ els) : (tokens e).dropLast.map fmt = (tokens e).dropLast :=
  (List.map_congr_left fun t ht => hS.clean e he t ht).trans (List.map_id _)

theorem heads_at (hS : Separate toXml els) (hi : els[i]? = some e) (hk : (tokensAt els i')[0]? = some k)
    (heq : (tokensAt els i).take 2 = (tokensAt els i').take 2) : els[i']? = some e := by
  obtain ⟨e', hi', htok⟩ := elem_of_tokensAt hk
  rw [tokensAt_eq hi, htok] at heq
  rw [hi', hS.heads e (List.mem_of_getElem? hi) e' (List.mem_of_getElem? hi') heq]

theorem own_field (hS : Separate toXml els) (hk : (tokensAt els i)[m + 1]? = some k) (hm : m ≠ 0) :
    (buildPath els).field (nodeAt els i (m + 1)) k = some (nodeAt els i (m + 2)) := by
  have hlt := Nat.lt_of_succ_lt (List.getElem?_eq_some_iff.mp hk).1
  obtain ⟨y, hy⟩ := written hk
  obtain ⟨i', m', hk', heq, rfl, -⟩ := last_write hy
  cases m' with
  | zero => exact absurd heq (nodeAt_ne_path (List.getElem?_eq_getElem hlt))
  | succ m' =>
    have hlt' := Nat.lt_of_succ_lt (List.getElem?_eq_some_iff.mp hk').1
    obtain ⟨rfl, rfl⟩ := hS.own_unique (List.getElem?_eq_getElem hlt) hm (List.getElem?_eq_getElem hlt') heq
    exact hy

theorem leads_rest (hS : Separate toXml els) (hu : Unrelated els)
    (h : Leads pairs els ((tokensAt els i).take 2) (nodeAt els i 2)) (hm : m + 1 < (tokensAt els i).length) :
    Leads pairs els ((tokensAt els i).take (m + 2)) (nodeAt els i (m + 2)) := by
  induction m with
  | zero => exact h
  | succ m ih =>
    have hk := List.getElem?_eq_getElem hm
    rw [List.take_add_one, hk]
    exact (ih (Nat.lt_of_succ_lt hm)).snoc (hS.inner_table hu hm) (hS.own_field hk (Nat.succ_ne_zero m))

/-- The last element with its first two names is there. -/
theorem reached (hS : Separate toXml els) (hu : Unrelated els) (he : e ∈ els) :
    ∃ i, els[i]? = some e ∧ Leads pairs els (tokensAt els i) (.elem i) := by
  obtain ⟨i₀, hi₀⟩ := List.mem_iff_getElem?.mp he
  have hpos : 0 < (tokensAt els i₀).length := by
    rw [tokensAt_eq hi₀]
    exact List.length_pos_iff.mpr (hS.named e he)
  have hk := List.getElem?_eq_getElem hpos
  rcases Nat.eq_or_lt_of_le (Nat.succ_le_of_lt hpos) with hone | hlong
  · obtain ⟨y, hy⟩ := written hk
    obtain ⟨i, m, hk', heq, rfl, -⟩ := last_write hy
    cases m with
    | succ m =>
      have hlt := Nat.lt_of_succ_lt (List.getElem?_eq_some_iff.mp hk').1
      exact absurd heq.symm (nodeAt_ne_path (List.getElem?_eq_getElem hlt))
    | zero =>
      have hone' := hu.one hone.symm hk hk'
      have hsame : tokensAt els i = [(tokensAt els i₀)[0]] := by
        obtain ⟨t, ht⟩ := List.length_eq_one_iff.mp hone'
        rw [ht] at hk' ⊢
        rw [Option.some.inj hk']
      have hsame₀ : tokensAt els i₀ = [(tokensAt els i₀)[0]] := by
        obtain ⟨t, ht⟩ := List.length_eq_one_iff.mp hone.symm
        simp only [ht, List.getElem_cons_zero]
      refine ⟨i, hS.heads_at hi₀ hk' (by rw [hsame, ← hsame₀]), ?_⟩
      rw [nodeAt_last hone'.symm, nodeAt_zero] at hy
      rw [hsame]
      exact Leads.one hy
  · have hk1 := List.getElem?_eq_getElem hlong
    obtain ⟨y, hy⟩ := written hk1
    obtain ⟨i, m, hk', heq, rfl, -⟩ := last_write hy
    have hm := (List.getElem?_eq_some_iff.mp hk').1
    cases m with
    | zero => exact absurd heq (nodeAt_ne_path hk)
    | succ m =>
      obtain ⟨rfl, hhead⟩ := hS.first_unique hu hk hlong (Nat.lt_of_succ_lt hm) hm heq
      have htake : (tokensAt els i).take 2 = [(tokensAt els i₀)[0]] ++ [(tokensAt els i₀)[1]] := by
        rw [List.take_add_one, List.take_add_one, hhead, hk']
        rfl
      have htake₀ : (tokensAt els i₀).take 2 = [(tokensAt els i₀)[0]] ++ [(tokensAt els i₀)[1]] := by
        rw [List.take_add_one, List.take_add_one, hk, hk1]
        rfl
      have hfirst : Leads pairs els [(tokensAt els i₀)[0]] (nodeAt els i 1) := Leads.one (nodeAt_one hu hhead hm)
      rw [heq] at hy
      have hsecond := hfirst.snoc (hS.inner_table hu hm) hy
      rw [← htake] at hsecond
      obtain ⟨m, hend⟩ : ∃ m, m + 2 = (tokensAt els i).length := ⟨(tokensAt els i).length - 2, by omega⟩
      have hwalk := hS.leads_rest hu hsecond (m := m) (by omega)
      rw [List.take_of_length_le (Nat.le_of_eq hend.symm), nodeAt_last hend] at hwalk
      exact ⟨i, hS.heads_at hi₀ hhead (htake₀.trans htake.symm), hwalk⟩

/-- Everything that a walk leads to can be written. -/
theorem good (hS : Separate toXml els) (hu : Unrelated els) (h : Leads pairs els ks v) :
    Good toXml els (buildPath els) v := by
  have hkey : (buildPath els).field v keyName = none := by
    refine Option.eq_none_iff_forall_ne_some.mpr fun y hy => ?_
    obtain ⟨i, m, hk, heq, -⟩ := last_write hy
    cases m with
    | zero => exact h.ne_path heq
    | succ m =>
      obtain ⟨e, he, htok⟩ := elem_of_tokensAt hk
      refine hS.key e (List.mem_of_getElem? he) (List.mem_of_getElem? (i := m) ?_)
      rw [List.getElem?_tail, ← htok]
      exact hk
  cases v with
  | path => exact hkey
  | table i j => exact hkey
  | elem a =>
    obtain ⟨-, hnamed⟩ := hS.follows_elem hu h
    obtain ⟨e, he, -⟩ := elem_of_tokensAt (List.getElem?_eq_getElem (List.length_pos_iff.mpr hnamed))
    obtain ⟨s, hs⟩ := hS.returns e (List.mem_of_getElem? he)
    exact ⟨e, s, he, by rw [hS.fields_elem hu a, hs]⟩

/-- What the end of a walk shows. -/
theorem event_cases (hS : Separate toXml els) (hu : Unrelated els) {p : List Str × Obj} {ev : Event}
    (h : Leads pairs els p.1 p.2) (hev : eventOf toXml els (buildPath els) [] p = some ev) :
    ev = .opened p.1 ∨ ∃ i e s, p = (tokens e, .elem i) ∧ els[i]? = some e ∧ toXml e [] = .ok s ∧
      ev = .text (tokens e).dropLast e s := by
  obtain ⟨ks, v⟩ := p
  have htable (hv : v.isTable = true) (hopened : eventOf toXml els (buildPath els) [] (ks, v) =
      some (.opened ([] ++ ks.map fmt))) : ev = .opened ks := by
    obtain ⟨i, m, hm, heq⟩ := hS.follows_table hu h hv
    dsimp only at heq
    have hclean : ks.map fmt = ks := by
      refine (List.map_congr_left fun t ht => ?_).trans (List.map_id _)
      rw [heq] at ht
      obtain ⟨j, hj⟩ := List.mem_iff_getElem?.mp ht
      rw [List.getElem?_take] at hj
      split at hj
      · obtain ⟨e, he, htok⟩ := elem_of_tokensAt hj
        refine hS.clean e (List.mem_of_getElem? he) t (List.mem_of_getElem? (i := j) ?_)
        rw [List.getElem?_dropLast, ← htok, if_pos (by omega), hj]
      · cases hj
    rw [hopened] at hev
    cases hev
    rw [hclean]
    rfl
  cases v with
  | path => exact .inl (htable rfl rfl)
  | table i j => exact .inl (htable rfl rfl)
  | elem i =>
    right
    obtain ⟨hks, hnamed⟩ := hS.follows_elem hu h
    obtain ⟨e, he, htok⟩ := elem_of_tokensAt (List.getElem?_eq_getElem (List.length_pos_iff.mpr hnamed))
    obtain ⟨s, hs⟩ := hS.returns e (List.mem_of_getElem? he)
    rw [eventOf_elem he (by rw [hS.fields_elem hu i, hs])] at hev
    cases hev
    dsimp only at hks
    refine ⟨i, e, s, by rw [hks, htok], he, hs, ?_⟩
    rw [hks, htok, ← List.map_dropLast, hS.map_fmt (List.mem_of_getElem? he)]
    rfl

theorem event_unique (hS : Separate toXml els) (hu : Unrelated els) {p p' : List Str × Obj} {ev : Event}
    (h : Leads pairs els p.1 p.2) (h' : Leads pairs els p'.1 p'.2)
    (hev : eventOf toXml els (buildPath els) [] p = some ev)
    (hev' : eventOf toXml els (buildPath els) [] p' = some ev) : p.1 = p'.1 := by
  rcases hS.event_cases hu h hev with heq | ⟨i, e, s, rfl, -, -, heq⟩
  all_goals rcases hS.event_cases hu h' hev' with heq' | ⟨i', e', s', rfl, -, -, heq'⟩
  · exact Event.opened.inj (heq.symm.trans heq')
  · cases heq.symm.trans heq'
  · cases heq.symm.trans heq'
  · rw [(Event.text.inj (heq.symm.trans heq')).2.1]

theorem length_bound (els : List Elem) : ∃ d, ∀ i, (tokensAt els i).length ≤ d := by
  have hall : ∃ d, ∀ e ∈ els, (tokens e).length ≤ d := by
    induction els with
    | nil => exact ⟨0, nofun⟩
    | cons e els ih =>
      obtain ⟨d, hd⟩ := ih
      refine ⟨max (tokens e).length d, List.forall_mem_cons.mpr ⟨Nat.le_max_left _ _, fun e' he' => ?_⟩⟩
      exact Nat.le_trans (hd e' he') (Nat.le_max_right _ _)
  obtain ⟨d, hd⟩ := hall
  refine ⟨d, fun i => ?_⟩
  cases hi : els[i]? with
  | none =>
    rw [tokensAt, hi]
    exact Nat.zero_le d
  | some e =>
    rw [tokensAt_eq hi]
    exact hd e (List.mem_of_getElem? hi)

/-- Where nothing gets lost or mixed up, the export is complete. -/
theorem complete (hS : Separate toXml els) (hu : Unrelated els) : Complete pairs toXml els := by
  obtain ⟨d, hd⟩ := length_bound els
  refine ⟨d + 1, fun depth hdepth => ?_⟩
  obtain ⟨ps, hps⟩ : ∃ ps, mergeToXml pairs toXml els depth = .ok ps := by
    refine writeTable_ok_iff.mpr ⟨by omega, fun ks v hwalk => ⟨hS.good hu hwalk, fun hv => ?_⟩⟩
    obtain ⟨i, m, hm, rfl⟩ := hS.follows_table hu hwalk hv
    have := hd i
    rw [List.length_take]
    omega
  refine ⟨ps, hps, _, scan_mergeToXml hps, ?_, fun e he => ?_, fun c e s hmem => ?_⟩
  · refine List.pairwise_filterMap.mpr ?_
    have hlabels : ((visits (entries pairs (buildPath els)) Obj.isTable depth .path).map Prod.fst).Nodup :=
      Library.nodup_visits nodup_entries depth .path
    refine (List.pairwise_map.mp hlabels).imp_of_mem fun {p p'} hp hp' hne ev hev ev' hev' heq => hne ?_
    subst heq
    exact hS.event_unique hu (Library.walk_of_visits hp) (Library.walk_of_visits hp') hev hev'
  · obtain ⟨i, hi, hwalk⟩ := hS.reached hu he
    obtain ⟨s, hs⟩ := hS.returns e he
    have hevent : eventOf toXml els (buildPath els) [] (tokensAt els i, .elem i) =
        some (.text ([] ++ ((tokensAt els i).map fmt).dropLast) e s) :=
      eventOf_elem hi (by rw [hS.fields_elem hu i, hs])
    have hlen := hd i
    exact ⟨_, s, List.mem_filterMap.mpr ⟨_, Walk.mem_visits hwalk (by omega), hevent⟩⟩
  · obtain ⟨p, hp, hev⟩ := List.mem_filterMap.mp hmem
    rcases hS.event_cases hu (Library.walk_of_visits hp) hev with h | ⟨i, e', s', rfl, hi, hs, h⟩
    all_goals cases h
    exact ⟨List.mem_of_getElem? hi, rfl, hs⟩

end Separate

/-- The merged export is complete if and only if no name in the middle of a path is looked up
where it can be found by chance, and nothing is written over. -/
theorem merge_iff (hu : Unrelated els) : Complete pairs toXml els ↔ Separate toXml els :=
  ⟨fun h => h.displays.elim fun _ hD => hD.separate hu, fun hS => hS.complete hu⟩

def inOrder : Pairs := ⟨fun _ l => l, fun _ _ => .refl _⟩

instance (els : List Elem) : Decidable (Unrelated els) :=
  inferInstanceAs (Decidable (∀ e ∈ els, ∀ e' ∈ els, tokens e <+: tokens e' → tokens e = tokens e'))

/-- Two elements with the same first name, and each with a second name of its own. -/
theorem two_elements_merged :
    Complete inOrder (fun e _ => .ok e.path)
      [.node ['/', 'r', '/', 'a', '/', 'x'], .node ['/', 'r', '/', 'b', '/', 'y']] := by
  refine (merge_iff (by decide)).mpr ⟨by decide, by decide, by decide, by decide, fun i => ?_, fun e _ => ⟨_, rfl⟩⟩
  match i with
  | 0 => decide
  | 1 => decide
  | i + 2 => exact nofun

/-- Two elements below the same second name: the second is written over the first. -/
theorem first_element_lost :
    ¬∀ (pairs : Pairs) (toXml : Elem → List (Str × Obj) → Res Str) (els : List Elem), Unrelated els →
      (∀ e ∈ els, ∃ s, toXml e [] = .ok s) → Complete pairs toXml els := by
  intro h
  have hu : Unrelated [.node ['/', 'r', '/', 'a', '/', 'x'], .node ['/', 'r', '/', 'a', '/', 'y']] := by decide
  obtain ⟨d, hD⟩ := (h inOrder (fun e _ => .ok e.path) _ hu fun e _ => ⟨_, rfl⟩).displays
  have heq := (hD.separate hu).heads (.node ['/', 'r', '/', 'a', '/', 'x']) (by decide)
    (.node ['/', 'r', '/', 'a', '/', 'y']) (by decide) (by decide)
  exact absurd heq (by decide)

end GalaLua.GalaDB
