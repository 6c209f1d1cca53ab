import GalaLua.GalaDB.Selection
import Mathlib.Algebra.Group.Nat.Defs

/-!
# Where selection and matching differ

A path that is more than a single `**` differs in some store: `xpath_match` says yes
at the first wildcard, or behind the last name, whatever else there is, and `xpath`
goes on to the end of the path. The stores are chains of links, whose keys stay short
however long the path is. `agrees_everywhere_iff` puts the two directions together.
-/

namespace GalaLua.GalaDB

open Library.Lua

variable {db base : Store} {root e : Elem} {n k v s key : Str} {names ns ms : List Str} {c : Cond} {t : Token}
variable {z : Char} {i j depth : Nat} {as : List (Str × Str)}

-- ---------------------------------------------------------------------------
-- A chain of links
-- ---------------------------------------------------------------------------

/-- The key of the root and of the nodes behind it. -/
def linkKey (z : Char) : Nat → Str
  | 0 => ['/', 'r']
  | i + 1 => '/' :: 'q' :: '/' :: z :: '/' :: tostring i

/-- From the node `i` on, a link under every name. -/
def chain (z : Char) : Nat → List Str → Store → Store
  | _, [], base => base
  | i, m :: ms, base =>
    (chain z (i + 1) ms base).put (linkKey z i) ('s' :: ':' :: (m ++ backquote :: linkKey z (i + 1)))

def attribs (key : Str) : List (Str × Str) → Store
  | [] => .empty
  | a :: as => (attribs key as).put key ('a' :: ':' :: (a.1 ++ backquote :: a.2))

def chainElem (z : Char) (ms : List Str) : Nat → Elem
  | 0 => getRoot ['r']
  | i + 1 => ⟨linkKey z (i + 1), some ('/' :: 'r' :: (ms.take (i + 1)).flatMap ('/' :: ·)), .ref, false⟩

theorem chainElem_key : (chainElem z ms i).key = linkKey z i := by
  cases i <;> rfl

theorem chainElem_path : (chainElem z ms i).path = '/' :: 'r' :: (ms.take i).flatMap ('/' :: ·) := by
  cases i <;> rfl

theorem proper_tostring (i : Nat) : Proper (tostring i) where
  clean := clean_tostring i
  slash := slash_notMem_tostring i
  quote h := absurd (isDigit_tostring h) (by decide)
  ne := Nat.toDigits_ne_nil

theorem mem_linkKey {ch : Char} (h : ch ∈ linkKey z i) :
    ch = '/' ∨ ch = 'r' ∨ ch = 'q' ∨ ch = z ∨ ch.isDigit = true := by
  cases i with
  | zero =>
    rcases List.mem_cons.mp h with h | h
    · exact .inl h
    · exact .inr (.inl (List.mem_singleton.mp h))
  | succ i =>
    simp only [linkKey, List.mem_cons] at h
    rcases h with h | h | h | h | h | h
    · exact .inl h
    · exact .inr (.inr (.inl h))
    · exact .inl h
    · exact .inr (.inr (.inr (.inl h)))
    · exact .inl h
    · exact .inr (.inr (.inr (.inr (isDigit_tostring h))))

theorem notMem_linkKey {ch : Char} (hz : z = 'a' ∨ z = 'b') (h : ch = '\x00' ∨ ch = backquote) : ch ∉ linkKey z i := by
  intro hmem
  rcases h with rfl | rfl
  · rcases mem_linkKey hmem with h | h | h | h | h <;> revert h <;> rcases hz with rfl | rfl <;> decide
  · rcases mem_linkKey hmem with h | h | h | h | h <;> revert h <;> rcases hz with rfl | rfl <;> decide

theorem linkKey_injective : Function.Injective (linkKey z) := by
  intro i j h
  cases i with
  | zero => cases j with
    | zero => rfl
    | succ j => simp [linkKey] at h
  | succ i => cases j with
    | zero => simp [linkKey] at h
    | succ j =>
      simp only [linkKey, List.cons.injEq, true_and] at h
      rw [tostring_injective h]

theorem length_linkKey (h : i ≤ 2 ^ 64 + 2) : (linkKey z i).length < 1000 := by
  cases i with
  | zero => simp [linkKey]
  | succ i =>
    have hdigits : (tostring i).length ≤ 20 := (Nat.length_toDigits_le_iff (by decide) (by decide)).mpr (by omega)
    simp only [linkKey, List.length_cons]
    omega

theorem chain_of_ne (h : ∀ j, i ≤ j → j < i + ms.length → key ≠ linkKey z j) :
    (chain z i ms base).dups key = base.dups key := by
  induction ms generalizing i with
  | nil => rfl
  | cons m ms ih =>
    rw [List.length_cons] at h
    rw [chain, Library.MultiMap.dups_put_of_ne (h i (Nat.le_refl i) (by omega))]
    exact ih fun j hj hlt => h j (by omega) (by omega)

theorem chain_at (h : j < ms.length) (hbase : base.dups (linkKey z (i + j)) = []) :
    (chain z i ms base).dups (linkKey z (i + j)) = ['s' :: ':' :: (ms[j] ++ backquote :: linkKey z (i + j + 1))] := by
  induction ms generalizing i j with
  | nil => cases h
  | cons m ms ih =>
    cases j with
    | zero =>
      have hnone : (chain z (i + 1) ms base).dups (linkKey z i) = [] := by
        rw [chain_of_ne fun j hj _ heq => absurd (linkKey_injective heq) (by omega)]
        exact hbase
      rw [chain, Library.MultiMap.put, Nat.add_zero]
      simp [hnone, Library.MultiMap.insertDup]
    | succ j =>
      rw [chain, Library.MultiMap.dups_put_of_ne fun heq => absurd (linkKey_injective heq) (by omega)]
      have := ih (i := i + 1) (j := j) (Nat.lt_of_succ_lt_succ h) (by rwa [show i + 1 + j = i + (j + 1) by omega])
      rw [show i + (j + 1) = i + 1 + j by omega]
      exact this

theorem mem_attribs :
    s ∈ (attribs key as).dups k ↔ k = key ∧ ∃ a ∈ as, s = 'a' :: ':' :: (a.1 ++ backquote :: a.2) := by
  induction as with
  | nil => simp [attribs]
  | cons a as ih =>
    rw [attribs, Library.MultiMap.mem_put, ih, List.exists_mem_cons_iff]
    tauto

theorem attribs_of_ne (h : k ≠ key) : (attribs key as).dups k = [] :=
  List.eq_nil_iff_forall_not_mem.mpr fun _ hs => h (mem_attribs.mp hs).1

/-- The store in which the names `ms` are a chain of links from the root. -/
structure Chained (db : Store) (z : Char) (ms : List Str) : Prop where
  child : ∀ i (h : i < ms.length), getChild db (chainElem z ms i) = .ok [(ms[i], chainElem z ms (i + 1))]
  leaf : getChild db (chainElem z ms ms.length) = .ok []
  names : ∀ m ∈ ms, Proper m
  letter : z = 'a' ∨ z = 'b'
  first : ms.head? ≠ some [z]

structure Bare (db : Store) (z : Char) : Prop where
  root : ∀ path, db.dups ('/' :: 'r' :: '/' :: path) = []
  node : ∀ i path, db.dups (linkKey z (i + 1) ++ '/' :: path) = []

theorem Chained.no_child (h : Chained db z ms) {cs : List (Str × Elem)}
    (hcs : getChild db (chainElem z ms ms.length) = .ok cs) : cs = [] :=
  Except.ok.inj (hcs.symm.trans h.leaf)

theorem Chained.reaches (h : Chained db z ms) {k : Nat} (hk : i + k ≤ ms.length) :
    Reaches db (chainElem z ms i) (chainElem z ms (i + k)) := by
  induction k generalizing i with
  | zero => exact .refl _
  | succ k ih =>
    have hnext : i + 1 + k = i + (k + 1) := by omega
    have hrest : Reaches db (chainElem z ms (i + 1)) (chainElem z ms (i + 1 + k)) := ih (i := i + 1) (by omega)
    rw [hnext] at hrest
    exact .step (h.child i (by omega)) (List.mem_singleton_self _) hrest

theorem Chained.tree (h : Chained db z ms) {k : Nat} (hk : i + k = ms.length) : Tree db (chainElem z ms i) := by
  induction k generalizing i with
  | zero =>
    obtain rfl : i = ms.length := hk
    exact .node h.leaf nofun nofun
  | succ k ih =>
    have hlt : i < ms.length := by omega
    exact .node (h.child i hlt) (List.forall_mem_singleton.mpr (h.names _ (List.getElem_mem hlt)))
      (List.forall_mem_singleton.mpr (ih (i := i + 1) (by omega)))

theorem clean_chainPath (hms : ∀ m ∈ ms, Proper m) : Clean (chainElem z ms i).path := by
  rw [chainElem_path]
  have hclean : Clean (concat (['r'] :: ms.take i)) :=
    clean_concat (List.forall_mem_cons.mpr ⟨by decide, fun m hm => (hms m (List.mem_of_mem_take hm)).clean⟩)
  exact clean_slash hclean

theorem childOf_chain (hz : z = 'a' ∨ z = 'b') (hms : ∀ m ∈ ms, Proper m) (hlt : i < ms.length) :
    childOf (chainElem z ms i) ('s' :: ':' :: (ms[i] ++ backquote :: linkKey z (i + 1))) =
      .ok (some (ms[i], chainElem z ms (i + 1))) := by
  have hm := hms _ (List.getElem_mem hlt)
  have hne : linkKey z (i + 1) ≠ [] := List.cons_ne_nil _ _
  have hpath : join (chainElem z ms i).path ms[i] = '/' :: 'r' :: (ms.take (i + 1)).flatMap ('/' :: ·) := by
    rw [join_eq (clean_chainPath hms) hm.clean, chainElem_path, List.take_succ_eq_append_getElem hlt,
      List.flatMap_append, List.flatMap_singleton]
    rfl
  rw [childOf, split_two hm.ne hm.quote hne (notMem_linkKey hz (.inr rfl)), chainElem, ← hpath]

theorem getChild_link (hz : z = 'a' ∨ z = 'b') (hms : ∀ m ∈ ms, Proper m) (hlt : i < ms.length) (hi : i ≤ 2 ^ 64 + 2)
    (h : db.dups (linkKey z i) = ['s' :: ':' :: (ms[i] ++ backquote :: linkKey z (i + 1))]) :
    getChild db (chainElem z ms i) = .ok [(ms[i], chainElem z ms (i + 1))] := by
  rw [getChild, chainElem_key, h, if_neg fun hlong => absurd (length_linkKey (z := z) hi) (Nat.not_lt.mpr hlong.2),
    List.foldlM_cons, childOf_chain hz hms hlt]
  rfl

theorem getChild_leaf (hi : i ≤ 2 ^ 64 + 2) (h : ∀ r ∈ db.dups (linkKey z i), ∃ s, r = 'a' :: ':' :: s) :
    getChild db (chainElem z ms i) = .ok [] := by
  have hfold (l : List Str) (hl : ∀ r ∈ l, ∃ s, r = 'a' :: ':' :: s) :
      l.foldlM (addChild (childOf (chainElem z ms i))) [] = .ok [] := by
    induction l with
    | nil => rfl
    | cons r l ih =>
      obtain ⟨⟨s, rfl⟩, hrest⟩ := List.forall_mem_cons.mp hl
      exact ih hrest
  rw [getChild, chainElem_key, if_neg fun hlong => absurd (length_linkKey (z := z) hi) (Nat.not_lt.mpr hlong.2)]
  exact hfold _ h

def chainStore (z : Char) (ms : List Str) (as : List (Str × Str)) : Store :=
  chain z 0 ms (attribs (linkKey z ms.length) as)

theorem chainStore_at (hlt : i < ms.length) :
    (chainStore z ms as).dups (linkKey z i) = ['s' :: ':' :: (ms[i] ++ backquote :: linkKey z (i + 1))] := by
  have hat : (chainStore z ms as).dups (linkKey z (0 + i)) = _ :=
    chain_at hlt (attribs_of_ne fun heq => absurd (linkKey_injective heq) (by omega))
  rwa [Nat.zero_add] at hat

theorem chainStore_leaf :
    (chainStore z ms as).dups (linkKey z ms.length) = (attribs (linkKey z ms.length) as).dups (linkKey z ms.length) :=
  chain_of_ne fun j _ hlt heq => absurd (linkKey_injective heq) (by omega)

theorem chainStore_of_ne (h : ∀ i, key ≠ linkKey z i) : (chainStore z ms as).dups key = [] := by
  rw [chainStore, chain_of_ne fun i _ _ => h i, attribs_of_ne (h _)]

theorem chained_chainStore (hz : z = 'a' ∨ z = 'b') (hfirst : ms.head? ≠ some [z]) (hms : ∀ m ∈ ms, Proper m)
    (hlen : ms.length ≤ 2 ^ 64 + 2) : Chained (chainStore z ms as) z ms where
  child i h := getChild_link hz hms h (by omega) (chainStore_at h)
  leaf := by
    refine getChild_leaf hlen fun r hr => ?_
    rw [chainStore_leaf] at hr
    obtain ⟨-, a, -, rfl⟩ := mem_attribs.mp hr
    exact ⟨_, rfl⟩
  names := hms
  letter := hz
  first := hfirst

theorem bare_chainStore : Bare (chainStore z ms as) z where
  root path := chainStore_of_ne fun i => by cases i <;> simp [linkKey]
  node i path := chainStore_of_ne fun j heq => by
    cases j with
    | zero => simp [linkKey] at heq
    | succ j =>
      simp only [linkKey, List.cons_append, List.cons.injEq, true_and] at heq
      exact slash_notMem_tostring j (heq ▸ List.mem_append_right _ List.mem_cons_self)

-- ---------------------------------------------------------------------------
-- Names on the chain
-- ---------------------------------------------------------------------------

theorem xpathPlain_root (habsent : db.dups ('/' :: 'r' :: '/' :: concat (ns ++ [n])) = []) (hns : ∀ m ∈ ns, Proper m)
    (hn : Proper n) :
    xpathPlain db root (depth + 1) (getRoot ['r']) (concat (ns ++ [n])) =
      (xpathPlain db root depth root (concat ns)).bind fun parent =>
        match parent with
        | some p => (getChild db p).map (List.lookup n)
        | none => .ok none :=
  xpathPlain_absent (by decide)
    (clean_concat (List.forall_mem_append.mpr ⟨fun m hm => (hns m hm).clean, List.forall_mem_singleton.mpr hn.clean⟩))
    (concat_ne_nil hn.ne) habsent (relative_cons (n := ['r']) (by decide) _) hn

theorem Chained.xpathPlain_take (h : Chained db z ms) (hbare : Bare db z) (hi : i ≤ ms.length) (hdepth : i < depth) :
    xpathPlain db (getRoot ['r']) depth (getRoot ['r']) (concat (ms.take i)) = .ok (some (chainElem z ms i)) := by
  induction i generalizing depth with
  | zero =>
    obtain ⟨k, rfl⟩ : ∃ k, depth = k + 1 := ⟨depth - 1, by omega⟩
    rfl
  | succ i ih =>
    obtain ⟨k, rfl⟩ : ∃ k, depth = k + 1 := ⟨depth - 1, by omega⟩
    rw [List.take_succ_eq_append_getElem hi,
      xpathPlain_root (hbare.root _) (fun m hm => h.names m (List.mem_of_mem_take hm))
        (h.names _ (List.getElem_mem hi)), ih (by omega) (by omega)]
    show (getChild db (chainElem z ms i)).map _ = _
    rw [h.child i hi]
    simp [Except.map]

/-- The chain does not begin with the name `z`. -/
theorem Chained.xpathPlain_lost (h : Chained db z ms) (hbare : Bare db z) (hms : ms ≠ []) (hns : ∀ m ∈ ns, Proper m)
    {o : Option Elem} (ho : xpathPlain db (getRoot ['r']) depth (getRoot ['r']) (concat ([z] :: ns)) = .ok o) :
    o = none := by
  have hz : Proper [z] := by
    rcases h.letter with rfl | rfl <;> exact ⟨⟨by decide, by decide, by decide⟩, by decide⟩
  induction ns using List.reverseRecOn generalizing depth o with
  | nil =>
    cases depth with
    | zero => cases ho
    | succ k =>
      have hlt : 0 < ms.length := List.length_pos_of_ne_nil hms
      change xpathPlain db _ (k + 1) _ (concat ([] ++ [[z]])) = _ at ho
      rw [xpathPlain_root (hbare.root _) (by simp) hz] at ho
      obtain ⟨p, hp, ho⟩ := bind_eq_ok ho
      cases k with
      | zero => cases hp
      | succ k =>
        cases hp
        have hchild : getChild db (getRoot ['r']) = .ok [(ms[0], chainElem z ms 1)] := h.child 0 hlt
        have hne : [z] ≠ ms[0] := fun heq => h.first (by rw [List.head?_eq_getElem?, List.getElem?_eq_getElem hlt, heq])
        change (getChild db (getRoot ['r'])).map (List.lookup [z]) = .ok o at ho
        rw [hchild] at ho
        rw [← Except.ok.inj ho, List.lookup_cons, beq_false_of_ne hne]
        rfl
  | append_singleton ns n ih =>
    obtain ⟨hns, hn⟩ := List.forall_mem_append.mp hns
    rw [← List.cons_append] at ho
    cases depth with
    | zero => cases ho
    | succ k =>
      rw [xpathPlain_root (hbare.root _) (List.forall_mem_cons.mpr ⟨hz, hns⟩) (hn n (List.mem_singleton_self _))] at ho
      obtain ⟨p, hp, ho⟩ := bind_eq_ok ho
      obtain rfl := ih hns hp
      exact (Except.ok.inj ho).symm

/-- From the last node no path leads on. -/
theorem Chained.xpathPlain_leaf (h : Chained db z ms) (hbare : Bare db z) (hms : ms ≠ []) (hns : ∀ m ∈ ns, Proper m)
    (hne : ns ≠ []) {o : Option Elem}
    (ho : xpathPlain db (getRoot ['r']) depth (chainElem z ms ms.length) (concat ns) = .ok o) : o = none := by
  obtain ⟨i, hi⟩ : ∃ i, ms.length = i + 1 := ⟨ms.length - 1, by have := List.length_pos_of_ne_nil hms; omega⟩
  obtain ⟨init, last, rfl⟩ := (List.eq_nil_or_concat' ns).resolve_left hne
  obtain ⟨hinit, hlast⟩ := List.forall_mem_append.mp hns
  have hlast := hlast last (List.mem_singleton_self _)
  rw [hi] at ho
  cases depth with
  | zero => cases ho
  | succ k =>
    have hkey : Clean (linkKey z (i + 1)) := by
      rw [clean_iff]
      exact fun hnul => absurd hnul (notMem_linkKey h.letter (.inl rfl))
    have hrel : relative ((chainElem z ms (i + 1)).key ++ '/' :: concat (init ++ [last])) =
        some (concat (([z] :: tostring i :: init) ++ [last])) := by
      have hpath : concat (([z] :: tostring i :: init) ++ [last]) =
          z :: '/' :: (tostring i ++ '/' :: concat (init ++ [last])) := by
        cases init <;> simp [concat]
      rw [hpath]
      exact relative_cons (n := ['q']) (by decide) _
    rw [xpathPlain_absent hkey (clean_concat fun m hm => (hns m hm).clean) (concat_ne_nil hlast.ne) (hbare.node i _)
      hrel hlast] at ho
    obtain ⟨p, hp, ho⟩ := bind_eq_ok ho
    obtain rfl := h.xpathPlain_lost hbare hms (List.forall_mem_cons.mpr ⟨proper_tostring i, hinit⟩) hp
    exact (Except.ok.inj ho).symm

-- ---------------------------------------------------------------------------
-- Selecting on the chain
-- ---------------------------------------------------------------------------

theorem collect_nil {f : Elem → Res (List Elem)} {l l' : List Elem} (hf : ∀ e ∈ l, ∀ r, f e = .ok r → r = [])
    (h : collect f l = .ok l') : l' = [] := by
  induction l generalizing l' with
  | nil => exact (Except.ok.inj h).symm
  | cons e l ih =>
    obtain ⟨he, hl⟩ := List.forall_mem_cons.mp hf
    rw [collect] at h
    obtain ⟨r, hr, h⟩ := bind_eq_ok h
    obtain ⟨r', hr', rfl⟩ := map_eq_ok h
    rw [he r hr, ih hl hr']
    rfl

theorem walk_leaf (h : ∀ cs, getChild db e = .ok cs → cs = []) {l : List Elem} (hl : walk db depth e = .ok l) :
    l = [e] := by
  cases depth with
  | zero => cases hl
  | succ k =>
    rw [walk] at hl
    obtain ⟨cs, hcs, hl⟩ := bind_eq_ok hl
    obtain rfl := h cs hcs
    exact (Except.ok.inj hl).symm

theorem allSelector_leaf (h : ∀ cs, getChild db e = .ok cs → cs = []) {l : List Elem}
    (hl : xpathAllSelector db depth e = .ok l) : l = [] := by
  rw [xpathAllSelector] at hl
  obtain ⟨all, hall, rfl⟩ := map_eq_ok hl
  rw [walk_leaf h hall]
  simp

theorem allSelector_two {b : Str × Elem} (h : getChild db e = .ok [b]) (hb : ∀ cs, getChild db b.2 = .ok cs → cs = [])
    {l : List Elem} (hl : xpathAllSelector db depth e = .ok l) : ∀ a ∈ l, a = b.2 := by
  rw [xpathAllSelector] at hl
  obtain ⟨all, hall, rfl⟩ := map_eq_ok hl
  cases depth with
  | zero => cases hall
  | succ k =>
    rw [walk, h] at hall
    obtain ⟨below, hbelow, rfl⟩ := map_eq_ok hall
    obtain ⟨r, hr, hbelow⟩ := bind_eq_ok hbelow
    obtain rfl := walk_leaf hb hr
    obtain rfl := Except.ok.inj hbelow
    simp

theorem xpathCollect_nil {select : Elem → List Str → Res (List Elem)} {toks : List Str} {l : List Elem}
    (h : xpathCollect select toks [] = .ok l) : l = [] := by
  rw [xpathCollect] at h
  split at h
  · exact (Except.ok.inj h).symm
  · exact (Except.ok.inj h).symm

theorem Token.Valid.proper (h : t.Valid) (hstar : isStar t.text = false) : Proper t.text := by
  cases t with
  | name n => exact (h.2 n rfl).1
  | any cond => cases cond <;> cases hstar
  | anyBoth k₁ v₁ k₂ => cases hstar
  | all cond => cases cond <;> cases hstar

theorem Chained.selector_leaf (h : Chained db z ms) (hbare : Bare db z) (hms : ms ≠ []) {p : List Token}
    (hp : ∀ t ∈ p, t.Valid) {l : List Elem}
    (hl : xpathSelector db (getRoot ['r']) depth (chainElem z ms ms.length) (p.map Token.text) = .ok l) : l = [] := by
  cases depth with
  | zero => cases hl
  | succ k =>
    cases p with
    | nil => cases hl
    | cons t p =>
      obtain ⟨ht, hp⟩ := List.forall_mem_cons.mp hp
      rw [List.map_cons, xpathSelector] at hl
      split at hl
      · obtain ⟨all, hall, hl⟩ := bind_eq_ok hl
        obtain rfl := allSelector_leaf (fun _ => h.no_child) hall
        have hnone : xpathCollect (xpathSelector db (getRoot ['r']) k) (p.map Token.text) [] = .ok l := by
          rw [← hl]
          simp [xpathAttrSelector]
        exact xpathCollect_nil hnone
      · split at hl
        · rw [h.leaf] at hl
          have hnone : xpathCollect (xpathSelector db (getRoot ['r']) k) (p.map Token.text) [] = .ok l := by
            rw [← hl]
            simp [Except.bind, foldl_attrSelector_nil]
          exact xpathCollect_nil hnone
        · next hstar =>
          have hnames : ∀ m ∈ t.text :: (p.map Token.text).takeWhile (fun tok => !isStar tok), Proper m := by
            refine List.forall_mem_cons.mpr ⟨ht.proper (by simpa using hstar), fun m hm => ?_⟩
            obtain ⟨t', ht', rfl⟩ := List.mem_map.mp ((List.takeWhile_prefix _).subset hm)
            exact (hp t' ht').proper (by simpa using List.mem_takeWhile_imp hm)
          obtain ⟨o, ho, hl⟩ := bind_eq_ok hl
          obtain rfl := h.xpathPlain_leaf hbare hms hnames (List.cons_ne_nil _ _) ho
          exact xpathCollect_nil hl

-- ---------------------------------------------------------------------------
-- Attributes that meet the conditions of a token
-- ---------------------------------------------------------------------------

def Token.attrs : Token → List (Str × Str)
  | .name _ => []
  | .any cond => cond.toList.map fun c => (c.key, c.value.getD [])
  | .anyBoth k₁ v₁ k₂ => if k₁ = k₂ then [(k₁, v₁)] else [(k₁, v₁), (k₂, [])]
  | .all cond => cond.toList.map fun c => (c.key, c.value.getD [])

/-- Every key has one value, and the conditions are about these. -/
structure Fulfils (as : List (Str × Str)) (cs : List Cond) : Prop where
  quote : ∀ a ∈ as, backquote ∉ a.1
  unique : ∀ a ∈ as, ∀ a' ∈ as, a'.1 = a.1 → a'.2 = a.2
  met : ∀ c ∈ cs, ∃ v, (c.key, v) ∈ as ∧ ∀ w ∈ c.value, w = v

theorem fulfils_option {cond : Option Cond} (h : ∀ c ∈ cond.toList, c.Valid) :
    Fulfils (cond.toList.map fun c => (c.key, c.value.getD [])) cond.toList := by
  cases cond with
  | none => exact ⟨nofun, nofun, nofun⟩
  | some c =>
    refine ⟨?_, ?_, ?_⟩
    · simpa using (h c List.mem_cons_self).quote
    · simp
    · cases hv : c.value <;> simp [hv]

theorem Token.Valid.fulfils (h : t.Valid) : Fulfils t.attrs t.conds := by
  cases t with
  | name n => exact ⟨nofun, nofun, nofun⟩
  | any cond => exact fulfils_option h.1
  | all cond => exact fulfils_option h.1
  | anyBoth k₁ v₁ k₂ =>
    have hq₁ : backquote ∉ k₁ := (h.1 ⟨k₁, some v₁⟩ List.mem_cons_self).quote
    have hq₂ : backquote ∉ k₂ := (h.1 ⟨k₂, none⟩ (by simp [Token.conds])).quote
    by_cases heq : k₁ = k₂
    · subst heq
      exact ⟨by simpa [Token.attrs] using hq₁, by simp [Token.attrs], by simp [Token.attrs, Token.conds]⟩
    · refine ⟨by simp [Token.attrs, heq, hq₁, hq₂], ?_, ?_⟩
      · simp [Token.attrs, heq, Ne.symm heq]
      · simp [Token.attrs, Token.conds, heq]

theorem met_attribs {cs : List Cond} (h : Fulfils as cs) (hdups : db.dups key = (attribs key as).dups key) :
    ∀ c ∈ cs, c.met db key = true := by
  intro c hc
  obtain ⟨v, hv, hval⟩ := h.met c hc
  have hmem : 'a' :: ':' :: (c.key ++ backquote :: v) ∈ db.dups key := by
    rw [hdups]
    exact mem_attribs.mpr ⟨rfl, (c.key, v), hv, rfl⟩
  have hlookup : (getAttrib db key).lookup c.key = some v := by
    refine lookup_getAttrib hmem (attribOf_record (h.quote _ hv) v) fun r hr v' hof => ?_
    rw [hdups] at hr
    obtain ⟨-, a, ha, rfl⟩ := mem_attribs.mp hr
    rw [attribOf_record (h.quote a ha)] at hof
    obtain ⟨hk, rfl⟩ := Prod.mk.inj (Option.some.inj hof)
    exact h.unique _ hv a ha hk
  rw [Cond.met]
  cases hvalue : c.value with
  | none => simp [hlookup]
  | some w => simp [hlookup, hval w hvalue]

-- ---------------------------------------------------------------------------
-- Matching on the chain
-- ---------------------------------------------------------------------------

theorem Chained.split_path (h : Chained db z ms) : split '/' (chainElem z ms i).path = ['r'] :: ms.take i := by
  rw [chainElem_path]
  have hroot {names : List Str} (h : ∀ m ∈ names, '/' ∉ m ∧ m ≠ []) :
      split '/' ('/' :: concat (['r'] :: names)) = ['r'] :: names :=
    split_rooted (List.forall_mem_cons.mpr ⟨by decide, h⟩)
  refine hroot fun m hm => ?_
  have hm := h.names m (List.mem_of_mem_take hm)
  exact ⟨hm.slash, hm.ne⟩

theorem Chained.match_tokens (h : Chained db z ms) (hns : ∀ m ∈ ns, Proper m ∧ isStar m = false) {xs : List Str}
    (hms : ms = ns ++ xs) {p : List Token} (hp : ∀ t ∈ p, t.Valid) :
    xpathMatch db root depth (chainElem z ms ms.length) (pathText (ns.map .name ++ p)) =
      matchFrom db root depth (chainElem z ms ms.length) ([['r']] ++ ms) (1 + ns.length) (p.map Token.text) := by
  rw [xpathMatch, h.split_path, List.take_length, split_names hns hp, hms]
  show matchFrom db root depth _ ([['r']] ++ (ns ++ xs)) [['r']].length _ = _
  exact matchFrom_names fun m hm => (hns m hm).2

theorem Chained.match_names (h : Chained db z ms) (hns : ∀ m ∈ ns, Proper m ∧ isStar m = false) {xs : List Str}
    (hms : ms = ns ++ xs) :
    xpathMatch db root depth (chainElem z ms ms.length) (pathText (ns.map .name)) = .ok true := by
  have htokens : xpathMatch db root depth (chainElem z ms ms.length) (pathText (ns.map .name ++ [])) = _ :=
    h.match_tokens hns hms nofun
  rw [List.append_nil] at htokens
  exact htokens

/-- It matches as well when a `**` follows, whatever is behind that. -/
theorem Chained.match_all (h : Chained db z ms) (hns : ∀ m ∈ ns, Proper m ∧ isStar m = false)
    (hlen : ns.length < ms.length) {xs : List Str} (hms : ms = ns ++ xs) {cond : Option Cond} {p : List Token}
    (hp : ∀ t ∈ .all cond :: p, t.Valid) (hmet : ∀ c ∈ (Token.all cond).conds, c.met db (linkKey z ms.length) = true) :
    xpathMatch db root depth (chainElem z ms ms.length) (pathText (ns.map .name ++ .all cond :: p)) = .ok true := by
  have hvalid : ∀ c ∈ cond, c.Valid := fun c hc => (hp _ List.mem_cons_self).1 c (Option.mem_toList.mpr hc)
  have hne : 1 + ns.length ≠ ([['r']] ++ ms).length := by simp; omega
  have hall : cond.all (Cond.met · db (linkKey z ms.length)) = true := by
    cases cond with
    | none => rfl
    | some c => exact hmet c List.mem_cons_self
  rw [h.match_tokens hns hms hp, List.map_cons, GalaDB.match_all hvalid, chainElem_key, hall, decide_eq_true hne]
  rfl

/-- And when a `*` follows. -/
theorem Chained.match_star (h : Chained db z ms) (hbare : Bare db z) (hns : ∀ m ∈ ns, Proper m ∧ isStar m = false)
    {x : Str} {xs : List Str} (hms : ms = ns ++ x :: xs) {p : List Token} (hp : ∀ t' ∈ t :: p, t'.Valid)
    (ht : isStar t.text = true) (hmet : ∀ c ∈ t.conds, c.met db (linkKey z ms.length) = true)
    (hxs : t.conds ≠ [] → xs = []) (hdepth : ms.length < depth) :
    xpathMatch db (getRoot ['r']) depth (chainElem z ms ms.length) (pathText (ns.map .name ++ t :: p)) = .ok true := by
  have hlen : 1 + ns.length ≠ ([['r']] ++ ms).length := by rw [hms]; simp; omega
  have hvalid := (List.forall_mem_cons.mp hp).1
  cases hvalid.star ht with
  | any heq =>
    subst heq
    rw [h.match_tokens hns hms hp, List.map_cons, matchFrom, if_neg hlen]
    rfl
  | anyAt s htext hconds _ hmeets =>
    obtain rfl := hxs hconds
    have hend : ms.length = ns.length + 1 := by rw [hms]; simp
    have hslice : tableSlice ([['r']] ++ ms) 2 (1 + ns.length + 1) = ms.take ms.length := by
      rw [Nat.add_assoc, ← hend, tableSlice_root (Nat.le_refl _)]
    have hnot : ¬ ('*' :: '@' :: s).take 2 = ['*', '*'] := by simp
    have hstar : isStar ('*' :: '@' :: s) = true := rfl
    have hat : (('*' :: '@' :: s).drop 1).take 1 = ['@'] := rfl
    rw [h.match_tokens hns hms hp, List.map_cons, matchFrom, if_neg hlen, htext, if_neg hnot, if_pos hstar, if_pos hat,
      hslice, h.xpathPlain_take hbare (Nat.le_refl _) hdepth]
    show Except.ok (meets db (chainElem z ms ms.length).key s) = _
    rw [chainElem_key, hmeets, List.all_eq_true.mpr hmet]
  | all cond heq =>
    subst heq
    exact h.match_all hns (by rw [hms]; simp) hms hp hmet

-- ---------------------------------------------------------------------------
-- What is selected instead
-- ---------------------------------------------------------------------------

theorem chainElem_ne (hne : i ≠ j) : chainElem z ms i ≠ chainElem z ms j := by
  intro heq
  have hkey := congrArg Elem.key heq
  rw [chainElem_key, chainElem_key] at hkey
  exact hne (linkKey_injective hkey)

/-- The step of a wildcard from the node in front of the end of the chain. -/
theorem Chained.selector_star (h : Chained db z ms) (hbare : Bare db z) (hms : ms.length = i + 1) {p : List Token}
    (hp : ∀ t' ∈ t :: p, t'.Valid) (hstar : Star t) (hmore : t.conds ≠ [] ∧ (∀ cond, t ≠ .all cond) ∨ p ≠ [])
    {l : List Elem} (hl : xpathSelector db (getRoot ['r']) depth (chainElem z ms i) ((t :: p).map Token.text) = .ok l) :
    l = [] := by
  obtain ⟨ht, hp⟩ := List.forall_mem_cons.mp hp
  have hchild : getChild db (chainElem z ms i) = .ok [(ms[i], chainElem z ms ms.length)] := by
    have := h.child i (by omega)
    rwa [← hms] at this
  have hne : ms ≠ [] := fun heq => by simp [heq] at hms
  cases depth with
  | zero => cases hl
  | succ k =>
    have hleaf {sel : List Elem} (hsel : ∀ e ∈ sel, e = chainElem z ms ms.length) (hrest : p ≠ []) {l : List Elem}
        (hl : xpathCollect (xpathSelector db (getRoot ['r']) k) (p.map Token.text) sel = .ok l) : l = [] := by
      rw [xpathCollect, if_neg (by simpa using hrest)] at hl
      refine collect_nil (fun e he r hr => ?_) hl
      rw [hsel e he] at hr
      exact h.selector_leaf hbare hne hp hr
    rw [List.map_cons, xpathSelector] at hl
    cases hstar with
    | any heq =>
      subst heq
      rw [hchild] at hl
      refine hleaf (fun e he => List.mem_singleton.mp he) ?_ hl
      rcases hmore with ⟨hconds, -⟩ | hrest
      · exact absurd rfl hconds
      · exact hrest
    | anyAt s htext _ hsplit _ =>
      have hnot : ¬ ('*' :: '@' :: s).take 2 = ['*', '*'] := by simp
      have hstar : isStar ('*' :: '@' :: s) = true := rfl
      have hat : (('*' :: '@' :: s).drop 1).take 1 = ['@'] := rfl
      rw [htext, if_neg hnot, if_pos hstar, hchild] at hl
      obtain ⟨piece, pieces, hpieces⟩ := List.exists_cons_of_ne_nil hsplit
      change xpathCollect _ _ ((split '&' s).foldl (fun sel _ => xpathAttrSelector db sel none none) _) = _ at hl
      rw [hpieces, List.foldl_cons, attrSelector_none, foldl_attrSelector_nil] at hl
      exact xpathCollect_nil hl
    | all cond heq =>
      subst heq
      have htwo : (Token.all cond).text.take 2 = ['*', '*'] := by cases cond <;> rfl
      rw [if_pos htwo] at hl
      obtain ⟨all, hall, hl⟩ := bind_eq_ok hl
      refine hleaf (fun e he => ?_) (hmore.resolve_left fun hnot => hnot.2 cond rfl) hl
      refine allSelector_two hchild (fun _ => h.no_child) hall e ?_
      split at he
      · exact List.mem_of_mem_filter he
      · exact he

-- ---------------------------------------------------------------------------
-- Stores in which they differ
-- ---------------------------------------------------------------------------

/-- In some tree the two differ, with every stack that is large enough. -/
def Differs (p : List Token) : Prop :=
  ∃ db, Tree db (getRoot ['r']) ∧ ∃ d, ∀ depth ≥ d, ¬ Agrees db (getRoot ['r']) depth (pathText p)

theorem differs_of_missed {p : List Token} (h : Chained db z ms) {d : Nat}
    (hmatch : ∀ depth ≥ d, xpathMatch db (getRoot ['r']) depth (chainElem z ms ms.length) (pathText p) = .ok true)
    (hmissed : ∀ depth ≥ d, ∀ l, xpath db (getRoot ['r']) depth (getRoot ['r']) (pathText p) = .ok l →
      chainElem z ms ms.length ∉ l) : Differs p := by
  refine ⟨db, h.tree (i := 0) (Nat.zero_add _), d, fun depth hdepth hagrees => ?_⟩
  obtain ⟨l, hl, hiff⟩ := hagrees
  have hreach := h.reaches (i := 0) (k := ms.length) (by omega)
  rw [Nat.zero_add] at hreach
  exact hmissed depth hdepth l hl ((hiff _ hreach).mpr (hmatch depth hdepth))

/-- A letter that is not the name. -/
def letter (m : Str) : Char := if m = ['a'] then 'b' else 'a'

theorem letter_cases (m : Str) : letter m = 'a' ∨ letter m = 'b' := by
  rw [letter]
  split
  · exact .inr rfl
  · exact .inl rfl

theorem ne_letter (m : Str) : m ≠ [letter m] := by
  rw [letter]
  split
  · next h =>
    rw [h]
    decide
  · next h => exact h

theorem proper_x : Proper ['x'] := ⟨⟨by decide, by decide, by decide⟩, by decide⟩

theorem exists_chained (hne : ms ≠ []) (hms : ∀ m ∈ ms, Proper m) (hlen : ms.length ≤ 2 ^ 64 + 2)
    (as : List (Str × Str)) :
    ∃ db z, Chained db z ms ∧ Bare db z ∧
      db.dups (linkKey z ms.length) = (attribs (linkKey z ms.length) as).dups (linkKey z ms.length) := by
  obtain ⟨m, ms, rfl⟩ := List.exists_cons_of_ne_nil hne
  refine ⟨chainStore (letter m) (m :: ms) as, letter m, ?_, bare_chainStore, chainStore_leaf⟩
  exact chained_chainStore (letter_cases m) (fun h => ne_letter m (Option.some.inj h)) hms hlen

theorem differs_names (hns : ∀ m ∈ ns, Proper m ∧ isStar m = false) (hne : ns ≠ []) (hlen : ns.length < 2 ^ 64) :
    Differs (ns.map .name) := by
  have hms : ∀ m ∈ ns ++ [['x']], Proper m :=
    List.forall_mem_append.mpr ⟨fun m hm => (hns m hm).1, List.forall_mem_singleton.mpr proper_x⟩
  obtain ⟨db, z, h, hbare, -⟩ := exists_chained (by simp) hms (by simp; omega) []
  refine differs_of_missed (d := ns.length + 2) h (fun depth _ => h.match_names hns rfl) fun depth hdepth l hl => ?_
  obtain ⟨k, rfl⟩ : ∃ k, depth = k + 1 := ⟨depth - 1, by omega⟩
  have htext := split_names hns (p := []) nofun
  rw [List.append_nil] at htext
  have htake : xpathPlain db (getRoot ['r']) k (getRoot ['r']) (concat ((ns ++ [['x']]).take ns.length)) = _ :=
    h.xpathPlain_take hbare (by simp) (by omega)
  rw [List.take_left] at htake
  rw [xpath, htext, selector_names hne (fun m hm => (hns m hm).2) (by simp), htake] at hl
  obtain rfl : [chainElem z (ns ++ [['x']]) ns.length] = l := Except.ok.inj hl
  rw [List.mem_singleton]
  exact chainElem_ne (by simp)

theorem Chained.selected (h : Chained db z ms) (hbare : Bare db z) (hns : ∀ m ∈ ns, Proper m ∧ isStar m = false)
    {xs : List Str} (hms : ms = ns ++ xs) {p : List Token} (hp : ∀ t' ∈ t :: p, t'.Valid) (ht : isStar t.text = true)
    {d : Nat} (hdepth : ns.length + 2 ≤ d) {l : List Elem}
    (hl : xpath db (getRoot ['r']) d (getRoot ['r']) (pathText (ns.map .name ++ t :: p)) = .ok l) :
    ∃ k, xpathSelector db (getRoot ['r']) k (chainElem z ms ns.length) ((t :: p).map Token.text) = .ok l := by
  rw [xpath, split_names hns hp] at hl
  by_cases hne : ns = []
  · subst hne
    exact ⟨d, hl⟩
  · obtain ⟨k, rfl⟩ : ∃ k, d = k + 1 := ⟨d - 1, by omega⟩
    have htake : xpathPlain db (getRoot ['r']) k (getRoot ['r']) (concat (ms.take ns.length)) = _ :=
      h.xpathPlain_take hbare (by simp [hms]) (by omega)
    rw [hms, List.take_left, ← hms] at htake
    rw [selector_names hne (fun m hm => (hns m hm).2) (by simpa using ht), htake] at hl
    change xpathCollect _ ((t :: p).map Token.text) [chainElem z ms ns.length] = _ at hl
    rw [xpathCollect, if_neg (by simp), collect] at hl
    obtain ⟨r, hr, hl⟩ := bind_eq_ok hl
    obtain rfl := Except.ok.inj hl
    exact ⟨k, hr.trans (congrArg Except.ok (List.append_nil r).symm)⟩

theorem differs_star (hns : ∀ m ∈ ns, Proper m ∧ isStar m = false) (hlen : ns.length < 2 ^ 64) {p : List Token}
    (hp : ∀ t' ∈ t :: p, t'.Valid) (ht : isStar t.text = true)
    (hmore : t.conds ≠ [] ∧ (∀ cond, t ≠ .all cond) ∨ p ≠ []) : Differs (ns.map .name ++ t :: p) := by
  have hms : ∀ m ∈ ns ++ [['x']], Proper m :=
    List.forall_mem_append.mpr ⟨fun m hm => (hns m hm).1, List.forall_mem_singleton.mpr proper_x⟩
  have hvalid := (List.forall_mem_cons.mp hp).1
  obtain ⟨db, z, h, hbare, hdups⟩ := exists_chained (by simp) hms (by simp; omega) t.attrs
  refine differs_of_missed (d := ns.length + 2) h (fun depth hdepth => ?_) fun depth hdepth l hl => ?_
  · exact h.match_star hbare hns rfl hp ht (met_attribs hvalid.fulfils hdups) (fun _ => rfl) (by simp; omega)
  · obtain ⟨k, hk⟩ := h.selected hbare hns rfl hp ht hdepth hl
    rw [h.selector_star hbare (by simp) hp (hvalid.star ht) hmore hk]
    exact List.not_mem_nil

theorem differs_any (hns : ∀ m ∈ ns, Proper m ∧ isStar m = false) (hlen : ns.length < 2 ^ 64) :
    Differs (ns.map .name ++ [.any none]) := by
  have hms : ∀ m ∈ ns ++ [['x'], ['x']], Proper m :=
    List.forall_mem_append.mpr ⟨fun m hm => (hns m hm).1, by simp [proper_x]⟩
  have hvalid : ∀ t ∈ [Token.any none], t.Valid := List.forall_mem_singleton.mpr ⟨nofun, nofun⟩
  obtain ⟨db, z, h, hbare, -⟩ := exists_chained (by simp) hms (by simp; omega) []
  refine differs_of_missed (d := ns.length + 3) h (fun depth hdepth => ?_) fun depth hdepth l hl => ?_
  · exact h.match_star hbare hns rfl hvalid rfl nofun (fun hconds => absurd rfl hconds) (by simp; omega)
  · obtain ⟨k, hk⟩ := h.selected hbare hns rfl hvalid rfl (by omega) hl
    have hchild := h.child ns.length (by simp)
    cases k with
    | zero => cases hk
    | succ k =>
      change (getChild _ _).bind _ = _ at hk
      rw [hchild] at hk
      obtain rfl : [chainElem z (ns ++ [['x'], ['x']]) (ns.length + 1)] = l := Except.ok.inj hk
      rw [List.mem_singleton]
      exact chainElem_ne (by simp)

-- ---------------------------------------------------------------------------
-- A name for two things
-- ---------------------------------------------------------------------------

/-- The node that is there beside the first link. -/
def besides (n : Str) : Elem := ⟨'/' :: 'r' :: '/' :: n, none, .regular, false⟩

/-- The chain, and a child of the root with the name of the first link. -/
def clashStore (z : Char) (n : Str) (ms : List Str) (as : List (Str × Str)) : Store :=
  ((chainStore z (n :: ms) as).put ['/', 'r'] ('c' :: ':' :: n)).put ('/' :: 'r' :: '/' :: n) ['v', ':']

theorem clashStore_of_ne (hroot : key ≠ ['/', 'r']) (hchild : key ≠ '/' :: 'r' :: '/' :: n) :
    (clashStore z n ms as).dups key = (chainStore z (n :: ms) as).dups key := by
  rw [clashStore, Library.MultiMap.dups_put_of_ne hchild, Library.MultiMap.dups_put_of_ne hroot]

theorem clashStore_child : (clashStore z n ms as).dups ('/' :: 'r' :: '/' :: n) = [['v', ':']] := by
  have hnone : (chainStore z (n :: ms) as).dups ('/' :: 'r' :: '/' :: n) = [] := bare_chainStore.root n
  have hput : ((chainStore z (n :: ms) as).put ['/', 'r'] ('c' :: ':' :: n)).dups ('/' :: 'r' :: '/' :: n) = [] := by
    rw [Library.MultiMap.dups_put_of_ne (by simp), hnone]
  rw [clashStore, Library.MultiMap.put]
  simp [hput, Library.MultiMap.insertDup]

theorem clashStore_root : (clashStore z n ms as).dups ['/', 'r'] =
    ['c' :: ':' :: n, 's' :: ':' :: (n ++ backquote :: linkKey z 1)] := by
  have hlink : (chainStore z (n :: ms) as).dups ['/', 'r'] = ['s' :: ':' :: (n ++ backquote :: linkKey z 1)] :=
    chainStore_at (i := 0) (show 0 < (n :: ms).length from Nat.succ_pos _)
  have hle : ('c' :: ':' :: n : Str) ≤ 's' :: ':' :: (n ++ backquote :: linkKey z 1) :=
    le_of_lt (List.Lex.rel (by decide))
  rw [clashStore, Library.MultiMap.dups_put_of_ne (by simp), Library.MultiMap.put]
  simp [hlink, Library.MultiMap.insertDup, hle]

theorem linkKey_ne_besides : linkKey z i ≠ '/' :: 'r' :: '/' :: n := by
  cases i <;> simp [linkKey]

/-- The walk does not meet the child: the link comes behind it and takes its place. -/
theorem chained_clashStore (hz : z = 'a' ∨ z = 'b') (hfirst : n ≠ [z]) (hms : ∀ m ∈ n :: ms, Proper m)
    (hlen : (n :: ms).length ≤ 2 ^ 64 + 2) : Chained (clashStore z n ms as) z (n :: ms) where
  child i h := by
    cases i with
    | zero =>
      have hof := childOf_chain (i := 0) hz hms h
      have hroot : (clashStore z n ms as).dups (chainElem z (n :: ms) 0).key = _ := clashStore_root
      rw [getChild, hroot, if_neg fun hlong => absurd hlong.2 (show ¬ 1000 ≤ 2 by decide), List.foldlM_cons]
      change List.foldlM (addChild (childOf (chainElem z (n :: ms) 0))) [(n, .node (join ['/', 'r'] n))]
        ['s' :: ':' :: (n ++ backquote :: linkKey z 1)] = _
      rw [List.foldlM_cons, addChild]
      change (Except.map _ (childOf (chainElem z (n :: ms) 0)
        ('s' :: ':' :: ((n :: ms)[0] ++ backquote :: linkKey z (0 + 1))))).bind _ = _
      rw [hof]
      simp [setKey, Except.map, Except.bind, pure, Except.pure]
    | succ i =>
      refine getChild_link hz hms h (by omega) ?_
      rw [clashStore_of_ne (by simp [linkKey]) linkKey_ne_besides]
      exact chainStore_at h
  leaf := by
    refine getChild_leaf hlen fun r hr => ?_
    rw [clashStore_of_ne (by simp [linkKey]) linkKey_ne_besides, chainStore_leaf] at hr
    obtain ⟨-, a, -, rfl⟩ := mem_attribs.mp hr
    exact ⟨_, rfl⟩
  names := hms
  letter := hz
  first h := hfirst (Option.some.inj h)

theorem besides_no_child {cs : List (Str × Elem)} (h : getChild (clashStore z n ms as) (besides n) = .ok cs) :
    cs = [] := by
  rw [getChild] at h
  split at h
  · cases h
  · rw [besides, clashStore_child] at h
    exact (Except.ok.inj h).symm

/-- `_xpath` takes the key of the child. -/
theorem xpathPlain_besides (hn : Proper n) (hns : ∀ m ∈ ns, Proper m) {o : Option Elem}
    (ho : xpathPlain (clashStore z n ms as) (getRoot ['r']) depth (getRoot ['r']) (concat (n :: ns)) = .ok o) :
    ∀ a ∈ o, a = besides n := by
  induction ns using List.reverseRecOn generalizing depth o with
  | nil =>
    cases depth with
    | zero => cases ho
    | succ k =>
      have hone : concat [n] = n := List.append_nil n
      have hjoin : join (getRoot ['r']).key n = '/' :: 'r' :: '/' :: n := join_eq (by decide) hn.clean
      rw [hone, xpathPlain, if_neg hn.ne, hjoin, clashStore_child] at ho
      obtain rfl := Except.ok.inj ho
      exact fun a ha => (Option.some.inj ha).symm
  | append_singleton ns m ih =>
    obtain ⟨hns, hm⟩ := List.forall_mem_append.mp hns
    have hm := hm m (List.mem_singleton_self _)
    cases depth with
    | zero => cases ho
    | succ k =>
      have hpath : concat ((n :: ns) ++ [m]) ≠ n := fun heq => by
        rw [concat_concat (List.cons_ne_nil _ _)] at heq
        exact hn.slash (heq ▸ List.mem_append_right _ List.mem_cons_self)
      have habsent : (clashStore z n ms as).dups ('/' :: 'r' :: '/' :: concat ((n :: ns) ++ [m])) = [] := by
        rw [clashStore_of_ne (by simp) (by simpa using hpath), bare_chainStore.root]
      rw [← List.cons_append, xpathPlain_root habsent (List.forall_mem_cons.mpr ⟨hn, hns⟩) hm] at ho
      obtain ⟨p, hp, ho⟩ := bind_eq_ok ho
      cases p with
      | none =>
        obtain rfl := Except.ok.inj ho
        exact fun a ha => absurd ha (Option.not_mem_none a)
      | some p =>
        obtain rfl := ih hns hp p rfl
        obtain ⟨cs, hcs, rfl⟩ := map_eq_ok ho
        rw [besides_no_child hcs]
        exact fun a ha => absurd ha (Option.not_mem_none a)

theorem selector_all_nil (h : ∀ cs, getChild db e = .ok cs → cs = []) {cond : Option Cond} {l : List Elem}
    (hl : xpathSelector db root depth e [(Token.all cond).text] = .ok l) : l = [] := by
  cases depth with
  | zero => cases hl
  | succ k =>
    have htwo : (Token.all cond).text.take 2 = ['*', '*'] := by cases cond <;> rfl
    rw [xpathSelector, if_pos htwo] at hl
    obtain ⟨all, hall, hl⟩ := bind_eq_ok hl
    obtain rfl := allSelector_leaf h hall
    have hnone : xpathCollect (xpathSelector db root k) [] [] = .ok l := by
      rw [← hl]
      simp [xpathAttrSelector]
    exact xpathCollect_nil hnone

theorem differs_all (hns : ∀ m ∈ ns, Proper m ∧ isStar m = false) (hne : ns ≠ []) (hlen : ns.length < 2 ^ 64)
    {cond : Option Cond} (hvalid : (Token.all cond).Valid) : Differs (ns.map .name ++ [.all cond]) := by
  obtain ⟨n, ns, rfl⟩ := List.exists_cons_of_ne_nil hne
  rw [List.length_cons] at hlen
  have hms : ∀ m ∈ n :: (ns ++ [['x']]), Proper m :=
    List.forall_mem_append.mpr ⟨fun m hm => (hns m hm).1, List.forall_mem_singleton.mpr proper_x⟩
  have hp : ∀ t ∈ [Token.all cond], t.Valid := List.forall_mem_singleton.mpr hvalid
  have hstar : isStar (Token.all cond).text = true := by cases cond <;> rfl
  have h : Chained (clashStore (letter n) n (ns ++ [['x']]) (Token.all cond).attrs) (letter n) (n :: (ns ++ [['x']])) :=
    chained_clashStore (letter_cases n) (ne_letter n) hms (by simp; omega)
  refine differs_of_missed (d := 1) h (fun depth hdepth => ?_) fun depth hdepth l hl => ?_
  · refine h.match_all hns (by simp) rfl hp (met_attribs hvalid.fulfils ?_)
    rw [clashStore_of_ne (by simp [linkKey]) linkKey_ne_besides, chainStore_leaf]
  · obtain ⟨k, rfl⟩ : ∃ k, depth = k + 1 := ⟨depth - 1, by omega⟩
    rw [xpath, split_names hns hp, selector_names (List.cons_ne_nil _ _) (fun m hm => (hns m hm).2)
      (by simpa using hstar)] at hl
    obtain ⟨o, ho, hl⟩ := bind_eq_ok hl
    have hbesides :=
      xpathPlain_besides (hns n List.mem_cons_self).1 (fun m hm => (hns m (List.mem_cons_of_mem _ hm)).1) ho
    rw [xpathCollect, if_neg (by simp)] at hl
    rw [collect_nil (fun a ha r hr => ?_) hl]
    · exact List.not_mem_nil
    · rw [hbesides a (Option.mem_toList.mp ha)] at hr
      exact selector_all_nil (fun _ => besides_no_child) hr

-- ---------------------------------------------------------------------------
-- Every path
-- ---------------------------------------------------------------------------

theorem names_cases (p : List Token) :
    ∃ ns : List Str, p = ns.map .name ∨ ∃ t p', p = ns.map .name ++ t :: p' ∧ ∀ n, t ≠ .name n := by
  induction p with
  | nil => exact ⟨[], .inl rfl⟩
  | cons t p ih =>
    cases t with
    | name n =>
      obtain ⟨ns, rfl | ⟨t, p', rfl, ht⟩⟩ := ih
      · exact ⟨n :: ns, .inl rfl⟩
      · exact ⟨n :: ns, .inr ⟨t, p', rfl, ht⟩⟩
    | any cond => exact ⟨[], .inr ⟨_, p, rfl, nofun⟩⟩
    | anyBoth k₁ v₁ k₂ => exact ⟨[], .inr ⟨_, p, rfl, nofun⟩⟩
    | all cond => exact ⟨[], .inr ⟨_, p, rfl, nofun⟩⟩

theorem agrees_everywhere_iff {p : List Token} (hne : p ≠ []) (hp : ∀ t ∈ p, t.Valid) (hlen : p.length < 2 ^ 64) :
    (∀ db r, Proper r → Tree db (getRoot r) → ∃ d, ∀ depth ≥ d, Agrees db (getRoot r) depth (pathText p)) ↔
      ∃ cond, p = [.all cond] := by
  constructor
  · intro h
    by_contra hnot
    suffices hdiffers : Differs p by
      obtain ⟨db, htree, d, hd⟩ := hdiffers
      obtain ⟨d', hd'⟩ := h db ['r'] proper_r htree
      exact hd (max d d') (le_max_left _ _) (hd' _ (le_max_right _ _))
    have hnames {ns : List Str} (p' : List Token) (hp : ∀ t ∈ ns.map .name ++ p', t.Valid) :
        ∀ m ∈ ns, Proper m ∧ isStar m = false :=
      fun m hm => (hp (.name m) (List.mem_append_left _ (List.mem_map_of_mem hm))).2 m rfl
    obtain ⟨ns, rfl | ⟨t, p, rfl, ht⟩⟩ := names_cases p
    · exact differs_names (hnames [] (by simpa using hp)) (by simpa using hne) (by simpa using hlen)
    · have hns := hnames _ hp
      have hlt : ns.length < 2 ^ 64 := by
        rw [List.length_append, List.length_map] at hlen
        omega
      obtain ⟨-, hp⟩ := List.forall_mem_append.mp hp
      have hvalid := (List.forall_mem_cons.mp hp).1
      cases t with
      | name n => exact absurd rfl (ht n)
      | any cond =>
        cases cond with
        | none =>
          by_cases hrest : p = []
          · subst hrest
            exact differs_any hns hlt
          · exact differs_star hns hlt hp rfl (.inr hrest)
        | some c => exact differs_star hns hlt hp rfl (.inl ⟨List.cons_ne_nil _ _, nofun⟩)
      | anyBoth k₁ v₁ k₂ => exact differs_star hns hlt hp rfl (.inl ⟨List.cons_ne_nil _ _, nofun⟩)
      | all cond =>
        by_cases hrest : p = []
        · subst hrest
          refine differs_all hns (fun heq => hnot ⟨cond, ?_⟩) hlt hvalid
          rw [heq]
          rfl
        · exact differs_star hns hlt hp (by cases cond <;> rfl) (.inr hrest)
  · rintro ⟨cond, rfl⟩ db r hr htree
    exact all_agrees hr htree fun c hc => (hp _ List.mem_cons_self).1 c (Option.mem_toList.mpr hc)

end GalaLua.GalaDB
