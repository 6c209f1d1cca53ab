import GalaLua.GalaDB.XPath
import Mathlib.Order.Filter.AtTopBot.Basic
import Mathlib.Order.Filter.Finite

/-!
# Where a path leads

What the two functions say of an element, in terms of the records: `Selects` follows
a path token by token, and `Begins` looks at the names in front of its first wildcard
and at that wildcard. `xpath` gives the elements that the path selects
(`selector_selects`), `xpath_match` is true of those that the path begins with
(`match_begins`); so the two agree on an element if and only if the path selects it
exactly when it begins with it.
-/

namespace GalaLua.GalaDB

open Library.Lua
open Filter (atTop)

variable {db : Store} {root e a b : Elem} {r n x s key : Str} {ns ks ms : List Str} {t : Token} {p : List Token}
variable {depth : Nat}

-- ---------------------------------------------------------------------------
-- Names
-- ---------------------------------------------------------------------------

def Rooted (key : Str) : Prop := ∃ ns, ns ≠ [] ∧ (∀ n ∈ ns, Proper n) ∧ key = '/' :: concat ns

/-- Every walk comes to an end, and every link leads to a key of names. -/
structure Acyclic (db : Store) : Prop where
  tree : ∀ {e}, Rooted e.key → Tree db e
  rooted : ∀ {e cs b}, Rooted e.key → getChild db e = .ok cs → b ∈ cs → Rooted b.2.key

/-- Where names lead by `_xpath`: to the key they make, if it has records, and else to the
child of what the names in front of the last lead to, from the root. -/
inductive LeadsTo (db : Store) (root : Elem) : Elem → List Str → Elem → Prop
  | self (e : Elem) : LeadsTo db root e [] e
  | stored {e : Elem} {ns : List Str} (hne : ns ≠ []) (h : db.dups (e.key ++ '/' :: concat ns) ≠ []) :
      LeadsTo db root e ns
        ⟨e.key ++ '/' :: concat ns, e.realKey.map (join · (concat ns)), e.eType, false⟩
  | child {e p a : Elem} {x n : Str} {ks ns : List Str} {cs : List (Str × Elem)}
      (h : db.dups (e.key ++ '/' :: concat (ns ++ [n])) = []) (hkey : e.key = '/' :: concat (x :: ks))
      (hks : ∀ m ∈ x :: ks, Proper m) (hp : LeadsTo db root root (ks ++ ns) p) (hcs : getChild db p = .ok cs)
      (ha : cs.lookup n = some a) : LeadsTo db root e (ns ++ [n]) a

/-- The names of an element behind the one of its root. -/
def Elem.names (e : Elem) : List Str := (split '/' e.path).drop 1

/-- The path leads from the element to another. A `*` with conditions leads nowhere. -/
inductive Selects (db : Store) (root : Elem) : Elem → List Token → Elem → Prop
  | done (e : Elem) : Selects db root e [] e
  | names {e b a : Elem} {ns : List Str} {p : List Token} (hne : ns ≠ []) (hp : ∀ n, p.head? ≠ some (.name n))
      (hb : LeadsTo db root e ns b) (h : Selects db root b p a) : Selects db root e (ns.map .name ++ p) a
  | any {e a : Elem} {cs : List (Str × Elem)} {b : Str × Elem} {p : List Token} (hcs : getChild db e = .ok cs)
      (hb : b ∈ cs) (h : Selects db root b.2 p a) : Selects db root e (.any none :: p) a
  | all {e b a : Elem} {cond : Option Cond} {p : List Token} (hb : Reaches db e b) (hne : b.key ≠ e.key)
      (hmet : ∀ c ∈ cond, c.met db b.key = true) (h : Selects db root b p a) : Selects db root e (.all cond :: p) a

/-- What is asked at a wildcard: at a `**` of the element itself, at a `*` of the element
that the names lead to. -/
def Passes (db : Store) (root e : Elem) (names : List Str) : Token → Prop
  | .all cond => ∀ c ∈ cond, c.met db e.key = true
  | t => t.conds ≠ [] → ∃ b, LeadsTo db root root names b ∧ ∀ c ∈ t.conds, c.met db b.key = true

theorem isStar_of_two {tok : Str} (h : tok.take 2 = ['*', '*']) : isStar tok = true := by
  cases tok with
  | nil => cases h
  | cons ch tok =>
    obtain rfl : ch = '*' := (List.cons.inj h).1
    rfl

theorem foldl_attrSelector_nil (pieces : List Str) :
    pieces.foldl (fun sel _ => xpathAttrSelector db sel none none) [] = [] := by
  induction pieces with
  | nil => rfl
  | cons p pieces ih => exact ih

theorem split_names (hns : ∀ m ∈ ns, Proper m ∧ isStar m = false) {p : List Token} (hp : ∀ t ∈ p, t.Valid) :
    split '/' (pathText (ns.map .name ++ p)) = ns ++ p.map Token.text := by
  rw [split_pathText, List.map_append, List.map_map]
  · congr 1
    exact List.map_id ns
  · refine List.forall_mem_append.mpr ⟨List.forall_mem_map.mpr fun m hm => ⟨nofun, fun n heq => ?_⟩, hp⟩
    cases heq
    exact hns m hm

/-- What a wildcard may be: `*`, `*` with conditions, `**`. -/
inductive Star (t : Token) : Prop
  | any (h : t = .any none)
  | anyAt (s : Str) (htext : t.text = '*' :: '@' :: s) (hconds : t.conds ≠ []) (hsplit : split '&' s ≠ [])
      (hmeets : ∀ db key, meets db key s = t.conds.all (Cond.met · db key))
  | all (cond : Option Cond) (h : t = .all cond)

theorem Token.Valid.star (h : t.Valid) (hstar : isStar t.text = true) : Star t := by
  cases t with
  | name n => exact absurd (h.2 n rfl).2 (by simpa [Token.text] using hstar)
  | any cond =>
    cases cond with
    | none => exact .any rfl
    | some c =>
      have hc := h.1 c List.mem_cons_self
      refine .anyAt c.text rfl (List.cons_ne_nil _ _) ?_ fun db key => ?_
      · rw [split_one hc.text_ne (hc.notMem_text (.inr rfl))]
        exact List.cons_ne_nil _ _
      · rw [meets_one hc]
        exact (Bool.and_true _).symm
  | anyBoth k₁ v₁ k₂ =>
    have h₁ := h.1 ⟨k₁, some v₁⟩ List.mem_cons_self
    have h₂ := h.1 ⟨k₂, none⟩ (by simp [Token.conds])
    refine .anyAt _ rfl (List.cons_ne_nil _ _) ?_ fun db key => ?_
    · rw [split_two h₁.text_ne (h₁.notMem_text (.inr rfl)) h₂.key.ne h₂.key.ampersand]
      exact List.cons_ne_nil _ _
    · rw [show k₂ = Cond.text ⟨k₂, none⟩ from rfl, meets_two h₁ h₂]
      exact congrArg _ (Bool.and_true _).symm
  | all cond => exact .all cond rfl

theorem tableSlice_root {i : Nat} (hle : i ≤ ms.length) :
    tableSlice ([r] ++ ms) 2 (1 + i) = ms.take i := by
  rw [tableSlice, Nat.add_comm 1 i]
  split
  · next hshort =>
    rw [List.length_append, List.length_singleton] at hshort
    obtain rfl : i = 0 := by omega
    rfl
  · rfl

/-- The names in front of a wildcard are one call of `_xpath`. -/
theorem selector_names {toks : List Str} (hne : ns ≠ []) (hns : ∀ m ∈ ns, isStar m = false)
    (htoks : ∀ tok ∈ toks.head?, isStar tok = true) :
    xpathSelector db root (depth + 1) e (ns ++ toks) =
      (xpathPlain db root depth e (concat ns)).bind fun found =>
        xpathCollect (xpathSelector db root depth) toks found.toList := by
  cases ns with
  | nil => exact absurd rfl hne
  | cons m ns =>
    obtain ⟨hm, hns⟩ := List.forall_mem_cons.mp hns
    have hall : ∀ tok ∈ ns, (!isStar tok) = true := fun tok htok => by rw [hns tok htok]; rfl
    have htake : (ns ++ toks).takeWhile (fun tok => !isStar tok) = ns := by
      rw [List.takeWhile_append_of_pos hall]
      cases toks with
      | nil => exact List.append_nil ns
      | cons tok toks => rw [List.takeWhile_cons_of_neg (by simp [htoks tok rfl]), List.append_nil]
    have hdrop : (ns ++ toks).dropWhile (fun tok => !isStar tok) = toks := by
      rw [List.dropWhile_append_of_pos hall]
      cases toks with
      | nil => rfl
      | cons tok toks => rw [List.dropWhile_cons_of_neg (by simp [htoks tok rfl])]
    rw [List.cons_append, xpathSelector, if_neg fun h => absurd (isStar_of_two h) (by simp [hm]), if_neg (by simp [hm]),
      htake, hdrop]

/-- A name that is there moves the cursor on. -/
theorem matchFrom_names {pre post toks : List Str} (hns : ∀ m ∈ ns, isStar m = false) :
    matchFrom db root depth e (pre ++ (ns ++ post)) pre.length (ns ++ toks) =
      matchFrom db root depth e (pre ++ (ns ++ post)) (pre.length + ns.length) toks := by
  induction ns generalizing pre with
  | nil => rfl
  | cons m ns ih =>
    obtain ⟨hm, hns⟩ := List.forall_mem_cons.mp hns
    have hlen : pre.length ≠ (pre ++ (m :: ns ++ post)).length := by simp
    have hget : (pre ++ (m :: ns ++ post))[pre.length]? = some m := by simp
    show matchFrom db root depth e _ pre.length (m :: (ns ++ toks)) = _
    rw [matchFrom, if_neg hlen, if_neg fun h => absurd (isStar_of_two h) (by simp [hm]),
      if_neg (by simp [hm]), if_pos hget]
    have hrest : matchFrom db root depth e (pre ++ [m] ++ (ns ++ post)) (pre ++ [m]).length (ns ++ toks) = _ := ih hns
    simp only [List.append_assoc, List.singleton_append, List.length_append, List.length_singleton] at hrest
    rw [List.cons_append, hrest, List.length_cons]
    congr 1
    omega

theorem Rooted.clean (h : Rooted key) : Clean key := by
  obtain ⟨ns, -, hns, rfl⟩ := h
  exact clean_slash (clean_concat fun m hm => (hns m hm).clean)

theorem Rooted.cases (h : Rooted key) : ∃ x ks, (∀ m ∈ x :: ks, Proper m) ∧ key = '/' :: concat (x :: ks) := by
  obtain ⟨ns, hne, hns, rfl⟩ := h
  obtain ⟨x, ks, rfl⟩ := List.exists_cons_of_ne_nil hne
  exact ⟨x, ks, hns, rfl⟩

theorem rooted_getRoot (hr : Proper r) : Rooted (getRoot r).key :=
  ⟨[r], List.cons_ne_nil _ _, List.forall_mem_singleton.mpr hr, congrArg ('/' :: ·) (concat_one r).symm⟩

theorem Rooted.append (h : Rooted key) (hns : ∀ m ∈ ns, Proper m) (hne : ns ≠ []) : Rooted (key ++ '/' :: concat ns) := by
  obtain ⟨x, ks, hks, rfl⟩ := h.cases
  refine ⟨x :: (ks ++ ns), List.cons_ne_nil _ _, ?_, ?_⟩
  · rw [← List.cons_append]
    exact List.forall_mem_append.mpr ⟨hks, hns⟩
  · obtain ⟨n, ns, rfl⟩ := List.exists_cons_of_ne_nil hne
    rw [List.cons_append, ← concat_append, List.cons_append]

theorem LeadsTo.rooted (hdb : Acyclic db) (hroot : Rooted root.key) (h : LeadsTo db root e ns a) (he : Rooted e.key)
    (hns : ∀ m ∈ ns, Proper m) : Rooted a.key := by
  induction h with
  | self e => exact he
  | stored hne _ => exact he.append hns hne
  | @child e p a x n ks ns cs _ _ hks _ hcs ha ih =>
    have hp := ih hroot (List.forall_mem_append.mpr
      ⟨fun m hm => hks m (List.mem_cons_of_mem _ hm), (List.forall_mem_append.mp hns).1⟩)
    obtain ⟨l₁, l₂, rfl, -⟩ := List.lookup_eq_some_iff.mp ha
    exact hdb.rooted hp hcs (b := (n, a)) (by simp)

theorem Reaches.rooted (hdb : Acyclic db) (he : Rooted e.key) (h : Reaches db e a) : Rooted a.key := by
  induction h with
  | refl e => exact he
  | step hcs hb _ ih => exact ih (hdb.rooted he hcs hb)

theorem Reaches.split_path (hdb : Acyclic db) (hr : Proper r) (he : Reaches db (getRoot r) e) :
    split '/' e.path = [r] ++ e.names ∧ ∀ n ∈ e.names, Proper n := by
  obtain ⟨names, hall, hsplit, -⟩ := he.tokens hr (hdb.tree (rooted_getRoot hr))
  have hnames : e.names = names := by rw [Elem.names, hsplit, List.drop_one, List.tail_cons]
  rw [hnames]
  exact ⟨hsplit, hall⟩

theorem proper_r : Proper ['r'] := ⟨⟨by decide, by decide, by decide⟩, by decide⟩

/-- `/r/a/b` -/
def nested : Store := (Library.MultiMap.empty.put "/r".toList "c:a".toList).put "/r/a".toList "c:b".toList

theorem nested_children : getChild nested (getRoot ['r']) = .ok [(['a'], .node "/r/a".toList)] ∧
    getChild nested (.node "/r/a".toList) = .ok [(['b'], .node "/r/a/b".toList)] ∧
    getChild nested (.node "/r/a/b".toList) = .ok [] := by
  refine ⟨?_, ?_, ?_⟩ <;> decide

theorem tree_nested : Tree nested (getRoot ['r']) := by
  obtain ⟨hr, ha, hb⟩ := nested_children
  have hname (ch : Char) (h : ch = 'a' ∨ ch = 'b') : Proper [ch] := by
    rcases h with rfl | rfl <;> exact ⟨⟨by decide, by decide, by decide⟩, by decide⟩
  exact .node hr (List.forall_mem_singleton.mpr (hname _ (.inl rfl)))
    (List.forall_mem_singleton.mpr (.node ha (List.forall_mem_singleton.mpr (hname _ (.inr rfl)))
      (List.forall_mem_singleton.mpr (.node hb nofun nofun))))

end GalaLua.GalaDB
