import GalaLua.GalaDB.Strings

/-!
# The tables of a merged export

`merge_to_xml` sorts the elements into nested tables by the names of their paths. The
table for a name in the middle of a path is looked up in the outermost table instead of
the one that the names before it led to. So it is a new table as a rule, and replaces
the one there, or else a table of the first level, which then is in two places.

What the loops write is a list of writes for each element, and the last write to a
field is what is found there (`last_write`, `written`).
-/

namespace GalaLua.GalaDB

open Library.Lua

-- ---------------------------------------------------------------------------
-- Tables
-- ---------------------------------------------------------------------------

/-- What `merge_to_xml` has in its fields: the table called `path`, the elements by their
place in the list, and the table made for name `j` of element `i`. -/
inductive Obj
  | path
  | elem (i : Nat)
  | table (i j : Nat)
deriving DecidableEq

abbrev Tables := Obj → List (Str × Obj)

def Tables.set (h : Tables) (w : Obj × Str × Obj) : Tables := Function.update h w.1 (setKey (h w.1) w.2.1 w.2.2)

/-- `path[t]` and the like. -/
def Tables.field (h : Tables) (x : Obj) (k : Str) : Option Obj := (h x).lookup k

def tokens (e : Elem) : List Str := split '/' e.path

/-- The loop over the tokens of element `i`. -/
def insertTokens (i : Nat) : Nat → Obj → List Str → Tables → Tables
  | _, _, [], h => h
  | _, cache, [t], h => h.set (cache, t, .elem i)
  | j, cache, t :: ts, h =>
    let next := (h.field .path t).getD (.table i j)
    insertTokens i (j + 1) next ts (h.set (cache, t, next))

def buildPath (els : List Elem) : Tables :=
  els.zipIdx.foldl (fun h p => insertTokens p.2 1 .path (tokens p.1) h) fun _ => []

-- ---------------------------------------------------------------------------
-- Writes
-- ---------------------------------------------------------------------------

variable {els els' : List Elem} {e : Elem} {h : Tables} {x y : Obj} {k t : Str} {ts : List Str} {i j m : Nat}
variable {ws : List (Obj × Str × Obj)}

theorem Tables.field_set (h : Tables) (w : Obj × Str × Obj) (x : Obj) (k : Str) :
    (h.set w).field x k = if x = w.1 ∧ k = w.2.1 then some w.2.2 else h.field x k := by
  obtain ⟨x', k', y⟩ := w
  rw [Tables.field, Tables.set, Function.update_apply]
  by_cases hx : x = x'
  · subst hx
    rw [if_pos rfl, lookup_setKey]
    simp only [true_and]
    rfl
  · simp only [hx, if_false, false_and]
    rfl

/-- No field is there twice. -/
def Tables.Proper (h : Tables) : Prop := ∀ x, ((h x).map Prod.fst).Nodup

theorem Tables.Proper.set (hp : h.Proper) (w : Obj × Str × Obj) : (h.set w).Proper := by
  intro x
  rw [Tables.set, Function.update_apply]
  split
  · exact nodup_setKey (hp _) _ _
  · exact hp x

theorem Tables.Proper.foldl (hp : h.Proper) (ws : List (Obj × Str × Obj)) : (ws.foldl Tables.set h).Proper := by
  induction ws generalizing h with
  | nil => exact hp
  | cons w ws ih => exact ih (hp.set w)

theorem field_foldl_of_notMem (hnot : ∀ y, (x, k, y) ∉ ws) : (ws.foldl Tables.set h).field x k = h.field x k := by
  induction ws generalizing h with
  | nil => rfl
  | cons w ws ih =>
    rw [List.foldl_cons, ih fun y hy => hnot y (List.mem_cons_of_mem _ hy), Tables.field_set, if_neg]
    rintro ⟨rfl, rfl⟩
    exact hnot w.2.2 List.mem_cons_self

/-- A field that is written has one of the values. -/
theorem field_foldl_of_mem (hmem : (x, k, y) ∈ ws) :
    ∃ y', (x, k, y') ∈ ws ∧ (ws.foldl Tables.set h).field x k = some y' := by
  induction ws using List.reverseRecOn with
  | nil => exact absurd hmem List.not_mem_nil
  | append_singleton ws w ih =>
    rw [List.foldl_append]
    by_cases hw : x = w.1 ∧ k = w.2.1
    · obtain ⟨rfl, rfl⟩ := hw
      refine ⟨w.2.2, List.mem_append_right _ (List.mem_singleton.mpr rfl), ?_⟩
      exact (Tables.field_set ..).trans (if_pos ⟨rfl, rfl⟩)
    · rcases List.mem_append.mp hmem with hmem | hmem
      · obtain ⟨y', hy', hlookup⟩ := ih hmem
        refine ⟨y', List.mem_append_left _ hy', ?_⟩
        exact (Tables.field_set ..).trans ((if_neg hw).trans hlookup)
      · obtain rfl := List.mem_singleton.mp hmem
        exact absurd ⟨rfl, rfl⟩ hw

/-- The writes of one element, when `p` is what the outermost table holds. -/
def writesFrom (p : Str → Option Obj) (i : Nat) : Nat → Obj → List Str → List (Obj × Str × Obj)
  | _, _, [] => []
  | _, cache, [t] => [(cache, t, .elem i)]
  | j, cache, t :: ts => (cache, t, (p t).getD (.table i j)) :: writesFrom p i (j + 1) ((p t).getD (.table i j)) ts

/-- In the outermost table there are the tables of the first level and elements. -/
def Tables.Closed (h : Tables) : Prop := ∀ k y, h.field .path k = some y → (∃ i, y = .elem i) ∨ ∃ i, y = .table i 1

theorem Tables.Closed.next_ne (hc : h.Closed) : (h.field .path t).getD (.table i j) ≠ .path := by
  cases hl : h.field .path t with
  | none => exact nofun
  | some y => rcases hc t y hl with ⟨i, rfl⟩ | ⟨i, rfl⟩ <;> exact nofun

theorem Tables.field_set_of_ne {w : Obj × Str × Obj} (hx : x ≠ w.1) : (h.set w).field x = h.field x := by
  funext k
  rw [Tables.field_set, if_neg fun heq => hx heq.1]

theorem insertTokens_below (hc : h.Closed) (hx : x ≠ .path) :
    insertTokens i j x ts h = (writesFrom (h.field .path) i j x ts).foldl Tables.set h := by
  induction ts generalizing j x h with
  | nil => rfl
  | cons t ts ih =>
    cases ts with
    | nil => rfl
    | cons t' ts =>
      rw [insertTokens, writesFrom, List.foldl_cons]
      · have hpath : (h.set (x, t, (h.field .path t).getD (.table i j))).field .path = h.field .path :=
          Tables.field_set_of_ne hx.symm
        have hclosed : (h.set (x, t, (h.field .path t).getD (.table i j))).Closed := by
          rwa [Tables.Closed, hpath]
        rw [ih hclosed hc.next_ne, hpath]
      all_goals exact nofun

theorem insertTokens_path (hc : h.Closed) (hx : x ≠ .path) :
    (insertTokens i j x ts h).field .path = h.field .path := by
  induction ts generalizing j x h with
  | nil => rfl
  | cons t ts ih =>
    cases ts with
    | nil => exact Tables.field_set_of_ne hx.symm
    | cons t' ts =>
      rw [insertTokens]
      · have hpath : (h.set (x, t, (h.field .path t).getD (.table i j))).field .path = h.field .path :=
          Tables.field_set_of_ne hx.symm
        have hclosed : (h.set (x, t, (h.field .path t).getD (.table i j))).Closed := by
          rwa [Tables.Closed, hpath]
        rw [ih hclosed hc.next_ne, hpath]
      · exact nofun

theorem buildPath_append (els : List Elem) (e : Elem) :
    buildPath (els ++ [e]) = insertTokens els.length 1 .path (tokens e) (buildPath els) := by
  rw [buildPath, List.zipIdx_append, List.foldl_append]
  simp only [List.zipIdx_singleton, Nat.zero_add, List.foldl_cons, List.foldl_nil]
  rfl

theorem Tables.Closed.setFirst (hc : h.Closed) :
    (h.set (.path, t, (h.field .path t).getD (.table i 1))).Closed := by
  intro k y hy
  rw [Tables.field_set] at hy
  split at hy
  · cases hy
    cases hl : h.field .path t with
    | none => exact .inr ⟨i, rfl⟩
    | some y => exact hc t y hl
  · exact hc k y hy

/-- What the outermost table holds afterwards. -/
theorem insertTokens_first (hc : h.Closed) (ts : List Str) (k : Str) :
    (insertTokens i 1 .path ts h).field .path k =
      match ts with
      | [] => h.field .path k
      | [t] => if k = t then some (.elem i) else h.field .path k
      | t :: _ => if k = t then some ((h.field .path t).getD (.table i 1)) else h.field .path k := by
  match ts with
  | [] => rfl
  | [t] =>
    rw [insertTokens, Tables.field_set]
    simp only [true_and]
  | t :: t' :: ts =>
    rw [insertTokens, insertTokens_path hc.setFirst hc.next_ne, Tables.field_set]
    · simp only [true_and]
    · exact nofun

theorem Tables.Closed.insertTokens (hc : h.Closed) (ts : List Str) : (insertTokens i 1 .path ts h).Closed := by
  intro k y hy
  rw [insertTokens_first hc] at hy
  match ts with
  | [] => exact hc k y hy
  | [t] =>
    dsimp only at hy
    split at hy
    · cases hy
      exact .inl ⟨i, rfl⟩
    · exact hc k y hy
  | t :: t' :: ts =>
    dsimp only at hy
    split at hy
    · cases hy
      cases hl : h.field .path t with
      | none => exact .inr ⟨i, rfl⟩
      | some y => exact hc t y hl
    · exact hc k y hy

theorem insertTokens_eq (hc : h.Closed) (ts : List Str) : insertTokens i 1 .path ts h =
    (writesFrom ((insertTokens i 1 .path ts h).field .path) i 1 .path ts).foldl Tables.set h := by
  match ts with
  | [] => rfl
  | [t] => rfl
  | t :: t' :: ts =>
    have hnext : (insertTokens i 1 .path (t :: t' :: ts) h).field .path t =
        some ((h.field .path t).getD (.table i 1)) := (insertTokens_first hc _ t).trans (if_pos rfl)
    rw [writesFrom, hnext, Option.getD_some, List.foldl_cons]
    · rw [insertTokens, insertTokens_path hc.setFirst hc.next_ne]
      · exact insertTokens_below hc.setFirst hc.next_ne
      · exact nofun
    · exact nofun

theorem buildPath_closed (els : List Elem) : (buildPath els).Closed := by
  induction els using List.reverseRecOn with
  | nil => exact nofun
  | append_singleton els e ih =>
    rw [buildPath_append]
    exact ih.insertTokens _

/-- The writes for the element that comes after the others. -/
def writesOf (els : List Elem) (e : Elem) : List (Obj × Str × Obj) :=
  writesFrom ((buildPath (els ++ [e])).field .path) els.length 1 .path (tokens e)

theorem buildPath_concat (els : List Elem) (e : Elem) :
    buildPath (els ++ [e]) = (writesOf els e).foldl Tables.set (buildPath els) := by
  rw [writesOf, buildPath_append]
  exact insertTokens_eq (buildPath_closed els) _

-- ---------------------------------------------------------------------------
-- The places of the elements
-- ---------------------------------------------------------------------------

def tokensAt (els : List Elem) (i : Nat) : List Str := (els[i]?.map tokens).getD []

/-- Where the first `m` names of element `i` lead to, when the outermost table holds `p`. -/
def node (p : Str → Option Obj) (i : Nat) (ts : List Str) : Nat → Obj
  | 0 => .path
  | m + 1 => if m + 1 = ts.length then .elem i else (ts[m]?.bind p).getD (.table i (m + 1))

def nodeAt (els : List Elem) (i m : Nat) : Obj :=
  node ((buildPath (els.take (i + 1))).field .path) i (tokensAt els i) m

theorem mem_writesFrom_iff {p : Str → Option Obj} (pre : List Str) :
    (x, k, y) ∈ writesFrom p i (pre.length + 1) (node p i (pre ++ ts) pre.length) ts ↔
      ∃ m ≥ pre.length, (pre ++ ts)[m]? = some k ∧ x = node p i (pre ++ ts) m ∧ y = node p i (pre ++ ts) (m + 1) := by
  induction ts generalizing pre with
  | nil =>
    refine iff_of_false List.not_mem_nil ?_
    rintro ⟨m, hm, hk, -⟩
    rw [List.append_nil, List.getElem?_eq_none hm] at hk
    cases hk
  | cons t ts ih =>
    have hhead : (pre ++ t :: ts)[pre.length]? = some t := by
      rw [List.getElem?_append_right (Nat.le_refl _), Nat.sub_self]
      rfl
    -- the first name, or the names behind it
    have hsplit : (∃ m ≥ pre.length, (pre ++ t :: ts)[m]? = some k ∧ x = node p i (pre ++ t :: ts) m ∧
          y = node p i (pre ++ t :: ts) (m + 1)) ↔
        (k = t ∧ x = node p i (pre ++ t :: ts) pre.length ∧ y = node p i (pre ++ t :: ts) (pre.length + 1)) ∨
        ∃ m ≥ (pre ++ [t]).length, (pre ++ [t] ++ ts)[m]? = some k ∧ x = node p i (pre ++ [t] ++ ts) m ∧
          y = node p i (pre ++ [t] ++ ts) (m + 1) := by
      rw [List.append_assoc, List.singleton_append, List.length_append, List.length_singleton]
      constructor
      · rintro ⟨m, hm, hk, hx, hy⟩
        rcases Nat.eq_or_lt_of_le hm with rfl | hm
        · rw [hhead] at hk
          exact .inl ⟨(Option.some.inj hk).symm, hx, hy⟩
        · exact .inr ⟨m, hm, hk, hx, hy⟩
      · rintro (⟨rfl, hx, hy⟩ | ⟨m, hm, hk, hx, hy⟩)
        · exact ⟨pre.length, Nat.le_refl _, hhead, hx, hy⟩
        · exact ⟨m, Nat.le_of_succ_le hm, hk, hx, hy⟩
    rw [hsplit]
    cases ts with
    | nil =>
      have hlast : node p i (pre ++ [t]) (pre.length + 1) = .elem i := by
        rw [node, if_pos (by rw [List.length_append, List.length_singleton])]
      rw [hlast, or_iff_left]
      · simp only [writesFrom, List.mem_singleton, Prod.mk.injEq]
        exact and_left_comm
      · rintro ⟨m, hm, hk, -⟩
        rw [List.append_nil, List.getElem?_eq_none hm] at hk
        cases hk
    | cons t' ts =>
      have hnext : node p i (pre ++ t :: t' :: ts) (pre.length + 1) = (p t).getD (.table i (pre.length + 1)) := by
        rw [node, if_neg, hhead]
        · rfl
        · rw [List.length_append, List.length_cons, List.length_cons]
          omega
      have ih := ih (pre ++ [t])
      have hpre : pre ++ [t] ++ t' :: ts = pre ++ t :: t' :: ts := List.append_assoc ..
      have hlen : (pre ++ [t]).length = pre.length + 1 := by rw [List.length_append, List.length_singleton]
      rw [hpre, hlen, hnext] at ih
      rw [hpre, hlen, ← ih, hnext, writesFrom]
      · simp only [List.mem_cons, Prod.mk.injEq]
        exact or_congr_left and_left_comm
      · exact nofun

theorem tokensAt_append (hi : i < els.length) : tokensAt (els ++ els') i = tokensAt els i := by
  rw [tokensAt, tokensAt, List.getElem?_append_left hi]

theorem tokensAt_length (els : List Elem) (e : Elem) : tokensAt (els ++ [e]) els.length = tokens e := by
  rw [tokensAt, List.getElem?_concat_length]
  rfl

theorem nodeAt_append (hi : i < els.length) (m : Nat) : nodeAt (els ++ els') i m = nodeAt els i m := by
  rw [nodeAt, nodeAt, tokensAt_append hi, List.take_append_of_le_length hi]

theorem lt_of_tokensAt (hk : (tokensAt els i)[m]? = some k) : i < els.length := by
  refine Nat.lt_of_not_le fun hle => ?_
  rw [tokensAt, List.getElem?_eq_none hle] at hk
  cases hk

theorem mem_writesOf (els : List Elem) (e : Elem) : (x, k, y) ∈ writesOf els e ↔
    ∃ m, (tokensAt (els ++ [e]) els.length)[m]? = some k ∧ x = nodeAt (els ++ [e]) els.length m ∧
      y = nodeAt (els ++ [e]) els.length (m + 1) := by
  have hnode (m : Nat) : nodeAt (els ++ [e]) els.length m =
      node ((buildPath (els ++ [e])).field .path) els.length (tokens e) m := by
    rw [nodeAt, tokensAt_length, List.take_of_length_le (by rw [List.length_append, List.length_singleton])]
  have hmem := @mem_writesFrom_iff x y k (tokens e) els.length ((buildPath (els ++ [e])).field .path) []
  simp only [List.nil_append, List.length_nil, Nat.zero_add, ge_iff_le, Nat.zero_le, true_and] at hmem
  simp only [hnode, tokensAt_length]
  exact hmem

/-- What is in a field was the last to be written there. -/
theorem last_write (hfield : (buildPath els).field x k = some y) :
    ∃ i m, (tokensAt els i)[m]? = some k ∧ x = nodeAt els i m ∧ y = nodeAt els i (m + 1) ∧
      ∀ i' > i, ∀ m', (tokensAt els i')[m']? = some k → x ≠ nodeAt els i' m' := by
  induction els using List.reverseRecOn with
  | nil => cases hfield
  | append_singleton els e ih =>
    rw [buildPath_concat] at hfield
    by_cases hwrite : ∃ y, (x, k, y) ∈ writesOf els e
    · obtain ⟨y₀, hy₀⟩ := hwrite
      obtain ⟨y', hy', hlookup⟩ := field_foldl_of_mem (h := buildPath els) hy₀
      rw [hfield] at hlookup
      cases hlookup
      obtain ⟨m, hk, hx, hy⟩ := (mem_writesOf els e).mp hy'
      refine ⟨els.length, m, hk, hx, hy, fun i' hi' m' hk' => ?_⟩
      have := lt_of_tokensAt hk'
      rw [List.length_append, List.length_singleton] at this
      omega
    · rw [not_exists] at hwrite
      rw [field_foldl_of_notMem hwrite] at hfield
      obtain ⟨i, m, hk, hx, hy, hlater⟩ := ih hfield
      have hi := lt_of_tokensAt hk
      refine ⟨i, m, ?_, ?_, ?_, fun i' hi' m' hk' => ?_⟩
      · rwa [tokensAt_append hi]
      · rwa [nodeAt_append hi]
      · rwa [nodeAt_append hi]
      · by_cases hlt : i' < els.length
        · rw [tokensAt_append hlt] at hk'
          rw [nodeAt_append hlt]
          exact hlater i' hi' m' hk'
        · obtain rfl : i' = els.length := by
            have := lt_of_tokensAt hk'
            rw [List.length_append, List.length_singleton] at this
            omega
          exact fun hx' => hwrite _ ((mem_writesOf els e).mpr ⟨m', hk', hx', rfl⟩)

/-- No field is taken away again. -/
theorem written (hk : (tokensAt els i)[m]? = some k) : ∃ y, (buildPath els).field (nodeAt els i m) k = some y := by
  induction els using List.reverseRecOn with
  | nil => cases hk
  | append_singleton els e ih =>
    rw [buildPath_concat]
    by_cases hwrite : ∃ y, (nodeAt (els ++ [e]) i m, k, y) ∈ writesOf els e
    · obtain ⟨y₀, hy₀⟩ := hwrite
      obtain ⟨y, -, hlookup⟩ := field_foldl_of_mem (h := buildPath els) hy₀
      exact ⟨y, hlookup⟩
    · rw [not_exists] at hwrite
      rw [field_foldl_of_notMem hwrite]
      have hlt : i < els.length := by
        refine Nat.lt_of_not_le fun hle => ?_
        obtain rfl : i = els.length := by
          have := lt_of_tokensAt hk
          rw [List.length_append, List.length_singleton] at this
          omega
        exact hwrite _ ((mem_writesOf els e).mpr ⟨m, hk, rfl, rfl⟩)
      rw [nodeAt_append hlt]
      rw [tokensAt_append hlt] at hk
      exact ih hk

-- ---------------------------------------------------------------------------
-- Elements of which none is above another
-- ---------------------------------------------------------------------------

/-- No element is an ancestor of another. -/
def Unrelated (els : List Elem) : Prop := ∀ e ∈ els, ∀ e' ∈ els, tokens e <+: tokens e' → tokens e = tokens e'

theorem Unrelated.left (hu : Unrelated (els ++ els')) : Unrelated els := fun e he e' he' =>
  hu e (List.mem_append_left _ he) e' (List.mem_append_left _ he')

theorem tokensAt_eq (hi : els[i]? = some e) : tokensAt els i = tokens e := by
  rw [tokensAt, hi]
  rfl

theorem elem_of_tokensAt (hk : (tokensAt els i)[m]? = some k) : ∃ e, els[i]? = some e ∧ tokensAt els i = tokens e := by
  have hi := lt_of_tokensAt hk
  exact ⟨els[i], List.getElem?_eq_getElem hi, tokensAt_eq (List.getElem?_eq_getElem hi)⟩

/-- An element that is alone with its name has no others with this name in front. -/
theorem Unrelated.one (hu : Unrelated els) {a : Nat} (hone : (tokensAt els a).length = 1)
    (ha : (tokensAt els a)[0]? = some k) (hk : (tokensAt els i)[0]? = some k) : (tokensAt els i).length = 1 := by
  obtain ⟨e, he, htok⟩ := elem_of_tokensAt ha
  obtain ⟨e', he', htok'⟩ := elem_of_tokensAt hk
  have hpre : tokensAt els a <+: tokensAt els i := by
    obtain ⟨t, ht⟩ := List.length_eq_one_iff.mp hone
    cases hi : tokensAt els i with
    | nil =>
      rw [hi] at hk
      cases hk
    | cons t' ts =>
      rw [ht] at ha ⊢
      rw [hi] at hk
      cases ha
      cases hk
      exact ⟨ts, rfl⟩
  rw [htok, htok'] at hpre
  rw [htok', ← hu e (List.mem_of_getElem? he) e' (List.mem_of_getElem? he') hpre, ← htok]
  exact hone

theorem field_path_concat (els : List Elem) (e : Elem) (k : Str) :
    (buildPath (els ++ [e])).field .path k =
      match tokens e with
      | [] => (buildPath els).field .path k
      | [t] => if k = t then some (.elem els.length) else (buildPath els).field .path k
      | t :: _ =>
        if k = t then some (((buildPath els).field .path t).getD (.table els.length 1))
        else (buildPath els).field .path k := by
  rw [buildPath_append]
  exact insertTokens_first (buildPath_closed els) (tokens e) k

theorem nodeAt_zero (els : List Elem) (i : Nat) : nodeAt els i 0 = .path := rfl

theorem nodeAt_last (hend : m + 1 = (tokensAt els i).length) : nodeAt els i (m + 1) = .elem i := by
  rw [nodeAt, node, if_pos hend]

theorem nodeAt_inner (hk : (tokensAt els i)[m]? = some k) (hlt : m + 1 < (tokensAt els i).length) :
    nodeAt els i (m + 1) = ((buildPath (els.take (i + 1))).field .path k).getD (.table i (m + 1)) := by
  rw [nodeAt, node, if_neg (Nat.ne_of_lt hlt), hk]
  rfl

/-- In the outermost table there are elements with one name, and the tables that were made
for the first elements with longer paths. -/
theorem first_field (hfield : (buildPath els).field .path t = some y) :
    ∃ a, (tokensAt els a)[0]? = some t ∧ nodeAt els a 1 = y ∧
      ((tokensAt els a).length = 1 ∧ y = .elem a ∨ 2 ≤ (tokensAt els a).length ∧ y = .table a 1) := by
  induction els using List.reverseRecOn with
  | nil => cases hfield
  | append_singleton els e ih =>
    have hlast := tokensAt_length els e
    have hold (h : (buildPath els).field .path t = some y) :
        ∃ a, (tokensAt (els ++ [e]) a)[0]? = some t ∧ nodeAt (els ++ [e]) a 1 = y ∧
          ((tokensAt (els ++ [e]) a).length = 1 ∧ y = .elem a ∨
            2 ≤ (tokensAt (els ++ [e]) a).length ∧ y = .table a 1) := by
      obtain ⟨a, ha, hcase⟩ := ih h
      have hlt := lt_of_tokensAt ha
      have hsame : tokensAt (els ++ [e]) a = tokensAt els a := tokensAt_append hlt
      rw [← hsame] at ha hcase
      exact ⟨a, ha, by rwa [nodeAt_append hlt]⟩
    have hwhole := hfield
    rw [field_path_concat] at hfield
    match htok : tokens e with
    | [] =>
      rw [htok] at hfield
      exact hold hfield
    | [t'] =>
      rw [htok] at hfield hlast
      dsimp only at hfield
      split at hfield
      · next heq =>
        cases hfield
        exact ⟨els.length, by rw [hlast, heq]; rfl, nodeAt_last (by rw [hlast]; rfl),
          .inl ⟨by rw [hlast]; rfl, rfl⟩⟩
      · exact hold hfield
    | t' :: t'' :: ts =>
      rw [htok] at hfield hlast
      dsimp only at hfield
      split at hfield
      · next heq =>
        cases hl : (buildPath els).field .path t' with
        | none =>
          rw [hl] at hfield
          cases hfield
          have hhead : (tokensAt (els ++ [e]) els.length)[0]? = some t := by rw [hlast, heq]; rfl
          have hlen : 2 ≤ (tokensAt (els ++ [e]) els.length).length := by
            rw [hlast, List.length_cons, List.length_cons]
            omega
          have htake : (els ++ [e]).take (els.length + 1) = els ++ [e] :=
            List.take_of_length_le (by rw [List.length_append, List.length_singleton])
          refine ⟨els.length, hhead, ?_, .inr ⟨hlen, rfl⟩⟩
          rw [nodeAt_inner hhead hlen, htake, hwhole]
          rfl
        | some y' =>
          rw [hl] at hfield
          cases hfield
          exact hold (heq ▸ hl)
      · exact hold hfield

theorem tokensAt_take {a : Nat} (ha : a ≤ i) : tokensAt (els.take (i + 1)) a = tokensAt els a := by
  rw [tokensAt, tokensAt, List.getElem?_take, if_pos (Nat.lt_succ_of_le ha)]

theorem nodeAt_take {a : Nat} (ha : a ≤ i) (m : Nat) : nodeAt (els.take (i + 1)) a m = nodeAt els a m := by
  rw [nodeAt, nodeAt, tokensAt_take ha, List.take_take, Nat.min_eq_left (Nat.succ_le_succ ha)]

/-- Where a name leads to: to the element, to a table of its own, or to what the outermost
table has for this name. -/
theorem nodeAt_succ (hk : (tokensAt els i)[m]? = some k) :
    (m + 1 = (tokensAt els i).length ∧ nodeAt els i (m + 1) = .elem i) ∨
    (m + 1 < (tokensAt els i).length ∧ nodeAt els i (m + 1) = .table i (m + 1) ∧
      ∀ a ≤ i, (tokensAt els a)[0]? ≠ some k) ∨
    (m + 1 < (tokensAt els i).length ∧ ∃ a ≤ i, (tokensAt els a)[0]? = some k ∧
      nodeAt els a 1 = nodeAt els i (m + 1) ∧
      ((tokensAt els a).length = 1 ∧ nodeAt els i (m + 1) = .elem a ∨
        2 ≤ (tokensAt els a).length ∧ nodeAt els i (m + 1) = .table a 1)) := by
  have hlen : m < (tokensAt els i).length := (List.getElem?_eq_some_iff.mp hk).1
  rcases Nat.eq_or_lt_of_le (Nat.succ_le_of_lt hlen) with hend | hlt
  · exact .inl ⟨hend, nodeAt_last hend⟩
  right
  have hnode := nodeAt_inner hk hlt
  cases hl : (buildPath (els.take (i + 1))).field .path k with
  | none =>
    refine .inl ⟨hlt, by rw [hnode, hl]; rfl, fun a ha hhead => ?_⟩
    rw [← tokensAt_take ha] at hhead
    obtain ⟨y, hy⟩ := written hhead
    rw [nodeAt_zero, hl] at hy
    cases hy
  | some y =>
    rw [hl, Option.getD_some] at hnode
    obtain ⟨a, ha, hfirst, hcase⟩ := first_field hl
    have hle : a ≤ i := by
      have := lt_of_tokensAt ha
      rw [List.length_take] at this
      omega
    rw [tokensAt_take hle] at ha hcase
    rw [nodeAt_take hle] at hfirst
    rw [hnode]
    exact .inr ⟨hlt, a, hle, ha, hfirst, hcase⟩

theorem nodeAt_ne_path (hk : (tokensAt els i)[m]? = some k) : nodeAt els i (m + 1) ≠ .path := by
  rcases nodeAt_succ hk with ⟨-, h⟩ | ⟨-, h, -⟩ | ⟨-, a', -, -, -, ⟨-, h⟩ | ⟨-, h⟩⟩
  all_goals
    rw [h]
    exact nofun

theorem nodeAt_table {a b : Nat} (hk : (tokensAt els i)[m]? = some k) (hb : 2 ≤ b)
    (hnode : nodeAt els i (m + 1) = .table a b) : a = i ∧ b = m + 1 := by
  rcases nodeAt_succ hk with ⟨-, h⟩ | ⟨-, h, -⟩ | ⟨-, a', -, -, -, ⟨-, h⟩ | ⟨-, h⟩⟩
  all_goals
    rw [h] at hnode
    cases hnode
  · exact ⟨rfl, rfl⟩
  · omega

/-- An element, or a table below the first level, is in the path of one element only. -/
theorem node_unique {k' : Str} {i' m' : Nat} (hm : m ≠ 0)
    (hown : (m + 1 = (tokensAt els i).length ∧ nodeAt els i (m + 1) = .elem i) ∨
      nodeAt els i (m + 1) = .table i (m + 1))
    (hk' : (tokensAt els i')[m']? = some k') (heq : nodeAt els i (m + 1) = nodeAt els i' (m' + 1)) :
    i' = i ∧ m' = m := by
  rcases hown with ⟨hend, helem⟩ | htable
  · rw [helem] at heq
    rcases nodeAt_succ hk' with ⟨hend', h⟩ | ⟨-, h, -⟩ | ⟨-, a, -, -, -, ⟨hone, h⟩ | ⟨-, h⟩⟩
    all_goals
      rw [h] at heq
      cases heq
    · exact ⟨rfl, by omega⟩
    · omega
  · obtain ⟨rfl, hmm⟩ := nodeAt_table hk' (by omega) (heq.symm.trans htable)
    exact ⟨rfl, by omega⟩

/-- The tables of the first level stay where they are. -/
theorem nodeAt_one (hu : Unrelated els) (hk : (tokensAt els i)[0]? = some k) (hlen : 2 ≤ (tokensAt els i).length) :
    (buildPath els).field .path k = some (nodeAt els i 1) := by
  induction els using List.reverseRecOn with
  | nil => cases hk
  | append_singleton els e ih =>
    have hi := lt_of_tokensAt hk
    rw [List.length_append, List.length_singleton] at hi
    rcases Nat.eq_or_lt_of_le (Nat.le_of_lt_succ hi) with rfl | hlt
    · obtain ⟨y, hy⟩ := written hk
      rw [nodeAt_zero] at hy
      have htake : (els ++ [e]).take (els.length + 1) = els ++ [e] :=
        List.take_of_length_le (by rw [List.length_append, List.length_singleton])
      rw [nodeAt_inner hk hlen, htake, hy]
      rfl
    · rw [nodeAt_append hlt, field_path_concat]
      have hsame : tokensAt (els ++ [e]) i = tokensAt els i := tokensAt_append hlt
      have ih := ih hu.left (hsame ▸ hk) (hsame ▸ hlen)
      match htok : tokens e with
      | [] => exact ih
      | [t'] =>
        dsimp only
        split
        · next heq =>
          -- the new element would be above this one
          have hlast : tokensAt (els ++ [e]) els.length = [k] := by rw [tokensAt_length, htok, heq]
          have hone := hu.one (by rw [hlast]; rfl) (by rw [hlast]; rfl) hk
          omega
        · exact ih
      | t' :: t'' :: ts =>
        dsimp only
        split
        · next heq =>
          rw [← heq, ih]
          rfl
        · exact ih

theorem first_table (hu : Unrelated els) (hk : (tokensAt els i)[0]? = some k) (hlen : 2 ≤ (tokensAt els i).length) :
    ∃ a, (tokensAt els a)[0]? = some k ∧ nodeAt els i 1 = .table a 1 := by
  obtain ⟨a, ha, -, ⟨hone, -⟩ | ⟨-, heq⟩⟩ := first_field (nodeAt_one hu hk hlen)
  · have := hu.one hone ha hk
    omega
  · exact ⟨a, ha, heq⟩

end GalaLua.GalaDB
