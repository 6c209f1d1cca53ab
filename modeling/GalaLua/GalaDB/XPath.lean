import GalaLua.GalaDB.Integrity

/-!
# Paths with wildcards

`xpath` searches the elements under a node for those that a path selects, token
by token: a name, `*` or `**`, the last two with conditions on the attributes.
`xpath_match` holds one element against a path, along the element's own path. For
a path that is a single `**` the two agree on every element that is reached from
the root (`all_agrees`).
-/

namespace GalaLua.GalaDB

open Library.Lua

-- ---------------------------------------------------------------------------
-- Paths as lists of names
-- ---------------------------------------------------------------------------

/-- `table.concat` with a slash. -/
def concat : List Str → Str
  | [] => []
  | n :: ns => n ++ ns.flatMap ('/' :: ·)

/-- `"/[^/]*/(.*)"`: the path without its first name. -/
def relative (path : Str) : Option Str :=
  match ((path.dropWhile (· ≠ '/')).drop 1).dropWhile (· ≠ '/') with
  | [] => none
  | _ :: rel => some rel

/-- `table_slice`, which counts from 1. -/
def tableSlice (values : List Str) (i1 i2 : Nat) : List Str :=
  if i1 < 1 ∨ values.length < i1 then [] else (values.take i2).drop (i1 - 1)

def isStar (tok : Str) : Bool := tok.take 1 = ['*']

-- ---------------------------------------------------------------------------
-- Selection
-- ---------------------------------------------------------------------------

/-- What the call gives for each of them, in one list. -/
def collect (f : Elem → Res (List Elem)) : List Elem → Res (List Elem)
  | [] => .ok []
  | e :: all => (f e).bind fun r => (collect f all).map (r ++ ·)

/-- `_xpath_collect` for the tokens that are left. -/
def xpathCollect (select : Elem → List Str → Res (List Elem)) (toks : List Str) (all : List Elem) :
    Res (List Elem) :=
  if toks = [] then .ok all else collect (select · toks) all

section Selecting

variable (db : Store) (root : Elem)

/-- `_xpath`, with a stack of `depth` calls. -/
def xpathPlain : Nat → Elem → Str → Res (Option Elem)
  | 0, _, _ => .error "stack overflow"
  | depth + 1, e, path =>
    if path = [] then .ok (some e)
    else if db.dups (join e.key path) ≠ [] then
      .ok (some ⟨join e.key path, e.realKey.map (join · path), e.eType, false⟩)
    else
      match relative (join e.key path) with
      | none => .error "bad argument #1 to 'find' (string expected, got nil)"
      | some [] => .error "not found!"
      | some rel =>
        (xpathPlain depth root (xpathSplit rel).1).bind fun parent =>
          match parent with
          | some p => (getChild db p).map (List.lookup (xpathSplit rel).2)
          | none => .ok none

/-- The elements in the order in which `walk` comes to them. -/
def walk : Nat → Elem → Res (List Elem)
  | 0, _ => .error "stack overflow"
  | depth + 1, e =>
    (getChild db e).bind fun children => (collect (walk depth) (children.map Prod.snd)).map (e :: ·)

def xpathAllSelector (depth : Nat) (e : Elem) : Res (List Elem) :=
  (walk db depth e).map (List.filter fun a => a.key ≠ e.key)

/-- The key is `none` when it is no string: a table of attributes has no such key. -/
def xpathAttrSelector (elist : List Elem) (attrKey attrValue : Option Str) : List Elem :=
  elist.filter fun e =>
    let found := attrKey.bind fun k => (getAttrib db e.key).lookup k
    match attrValue with
    | some v => found = some v
    | none => found.isSome

def xpathSelector : Nat → Elem → List Str → Res (List Elem)
  | 0, _, _ => .error "stack overflow"
  | _ + 1, _, [] => .error "bad argument #1 to 'sub' (string expected, got nil)"
  | depth + 1, e, tok :: toks =>
    if tok.take 2 = ['*', '*'] then
      (xpathAllSelector db depth e).bind fun all =>
        let kv := split '=' (tok.drop 3)
        xpathCollect (xpathSelector depth) toks
          (if (tok.drop 2).take 1 = ['@'] then xpathAttrSelector db all kv[0]? kv[1]? else all)
    else if isStar tok then
      (getChild db e).bind fun children =>
        let all := children.map Prod.snd
        xpathCollect (xpathSelector depth) toks
          (if (tok.drop 1).take 1 = ['@'] then
            -- The list of the pieces is not unpacked: it is the key, and there is no value.
            (split '&' (tok.drop 2)).foldl (fun sel _ => xpathAttrSelector db sel none none) all
          else all)
    else
      -- The names in front of the next wildcard are one path.
      (xpathPlain db root depth e (concat (tok :: toks.takeWhile fun tok => !isStar tok))).bind fun found =>
        xpathCollect (xpathSelector depth) (toks.dropWhile fun tok => !isStar tok) found.toList

def xpath (depth : Nat) (e : Elem) (path : Str) : Res (List Elem) :=
  xpathSelector db root depth e (split '/' path)

-- ---------------------------------------------------------------------------
-- Matching
-- ---------------------------------------------------------------------------

/-- The loop over the conditions behind an `@`. -/
def meets (key conds : Str) : Bool :=
  (split '&' conds).all fun cond =>
    match split '=' cond with
    | [] => true
    | [k] => ((getAttrib db key).lookup k).isSome
    | k :: v :: _ => (getAttrib db key).lookup k = some v

/-- The loop over the tokens of the path. -/
def matchFrom (depth : Nat) (e : Elem) (selfTokens : List Str) : Nat → List Str → Res Bool
  | _, [] => .ok true
  | cursor, v :: tokens =>
    if cursor = selfTokens.length then .ok false
    else if v.take 2 = ['*', '*'] then
      .ok (if (v.drop 2).take 1 = ['@'] then meets db e.key (v.drop 3) else true)
    else if isStar v then
      if (v.drop 1).take 1 = ['@'] then
        (xpathPlain db root depth root (concat (tableSlice selfTokens 2 (cursor + 1)))).bind fun element =>
          match element with
          | some el => .ok (meets db el.key (v.drop 2))
          | none =>
            if split '&' (v.drop 2) = [] then .ok true
            else .error "attempt to index local 'element' (a nil value)"
      else .ok true
    else if selfTokens[cursor]? = some v then matchFrom depth e selfTokens (cursor + 1) tokens
    else .ok false

def xpathMatch (depth : Nat) (e : Elem) (path : Str) : Res Bool :=
  matchFrom db root depth e (split '/' e.path) 1 (split '/' path)

end Selecting

-- ---------------------------------------------------------------------------
-- Tokens
-- ---------------------------------------------------------------------------

/-- A condition on an attribute: `k`, or `k=v`. -/
structure Cond where
  key : Str
  value : Option Str

def Cond.text (c : Cond) : Str :=
  match c.value with
  | none => c.key
  | some v => c.key ++ '=' :: v

inductive Token where
  | name (n : Str)
  | any (cond : Option Cond)
  /-- `*@k1=v1&k2` -/
  | anyBoth (k₁ v₁ k₂ : Str)
  | all (cond : Option Cond)

def Token.text : Token → Str
  | .name n => n
  | .any none => ['*']
  | .any (some c) => '*' :: '@' :: c.text
  | .anyBoth k₁ v₁ k₂ => '*' :: '@' :: (Cond.text ⟨k₁, some v₁⟩ ++ '&' :: k₂)
  | .all none => ['*', '*']
  | .all (some c) => '*' :: '*' :: '@' :: c.text

def Token.conds : Token → List Cond
  | .name _ => []
  | .any cond => cond.toList
  | .anyBoth k₁ v₁ k₂ => [⟨k₁, some v₁⟩, ⟨k₂, none⟩]
  | .all cond => cond.toList

/-- The name of a node. -/
structure Proper (n : Str) : Prop extends Name n where
  ne : n ≠ []

/-- What may stand around the `=` of a condition. -/
structure Word (s : Str) : Prop where
  ne : s ≠ []
  slash : '/' ∉ s
  equals : '=' ∉ s
  ampersand : '&' ∉ s

structure Cond.Valid (c : Cond) : Prop where
  key : Word c.key
  quote : backquote ∉ c.key
  value : ∀ v ∈ c.value, Word v

def Token.Valid (t : Token) : Prop :=
  (∀ c ∈ t.conds, c.Valid) ∧ ∀ n, t = .name n → Proper n ∧ isStar n = false

def pathText (p : List Token) : Str := concat (p.map Token.text)

/-- What the condition says of the attributes under the key. -/
def Cond.met (c : Cond) (db : Store) (key : Str) : Bool :=
  match c.value with
  | none => ((getAttrib db key).lookup c.key).isSome
  | some v => (getAttrib db key).lookup c.key = some v

variable {db : Store} {root e e' a : Elem} {n r s key : Str} {names ns : List Str} {c c₁ c₂ : Cond} {t : Token}
variable {cs : List (Str × Elem)} {b : Str × Elem} {depth : Nat}

theorem split_eq {sep : Char} {ps : List Str} (h : pieces sep s = ps) (hne : ps ≠ []) (hps : ∀ p ∈ ps, p ≠ []) :
    split sep s = ps := by
  rcases List.eq_nil_or_concat' ps with rfl | ⟨init, last, rfl⟩
  · exact absurd rfl hne
  have hhead : init.head? ≠ some [] := fun hh =>
    hps [] (List.mem_append_left _ (List.mem_of_mem_head? hh)) rfl
  have hlast : last ≠ [] := hps last (by simp)
  simp [split, h, hhead, hlast]

theorem split_eq_tail {sep : Char} {ps : List Str} (h : pieces sep s = [] :: ps) (hps : ∀ p ∈ ps, p ≠ []) :
    split sep s = ps := by
  rcases List.eq_nil_or_concat' ps with rfl | ⟨init, last, rfl⟩
  · simp [split, h]
  have hlast : last ≠ [] := hps last (by simp)
  have hdrop : ([] :: (init ++ [last]) : List Str).dropLast = [] :: init := by
    rw [← List.cons_append, List.dropLast_concat]
  simp [split, h, hdrop, hlast, List.getLast?_cons]

theorem pieces_concat (h : ∀ m ∈ n :: ns, '/' ∉ m) : pieces '/' (concat (n :: ns)) = n :: ns := by
  induction ns generalizing n with
  | nil =>
    rw [concat, List.flatMap_nil, List.append_nil, pieces_of_notMem (h n List.mem_cons_self)]
  | cons m ns ih =>
    obtain ⟨hn, h⟩ := List.forall_mem_cons.mp h
    rw [concat, List.flatMap_cons, List.cons_append, pieces_append hn]
    exact congrArg (n :: ·) (ih h)

theorem split_concat (h : ∀ n ∈ names, '/' ∉ n ∧ n ≠ []) : split '/' (concat names) = names := by
  cases names with
  | nil => rfl
  | cons n ns => exact split_eq (pieces_concat fun m hm => (h m hm).1) (List.cons_ne_nil _ _) fun m hm => (h m hm).2

theorem split_rooted (h : ∀ n ∈ names, '/' ∉ n ∧ n ≠ []) : split '/' ('/' :: concat names) = names := by
  cases names with
  | nil => rfl
  | cons n ns =>
    refine split_eq_tail ?_ fun m hm => (h m hm).2
    rw [pieces, if_pos rfl, pieces_concat fun m hm => (h m hm).1]

theorem split_one {sep : Char} (hne : s ≠ []) (hs : sep ∉ s) : split sep s = [s] :=
  split_eq (pieces_of_notMem hs) (List.cons_ne_nil _ _) (by simpa using hne)

theorem Cond.Valid.split_text (h : c.Valid) : split '=' c.text = c.key :: c.value.toList := by
  rw [Cond.text]
  cases hv : c.value with
  | none => exact split_one h.key.ne h.key.equals
  | some v =>
    have hword := h.value v hv
    exact split_two h.key.ne h.key.equals hword.ne hword.equals

theorem Cond.Valid.text_ne (h : c.Valid) : c.text ≠ [] := by
  rw [Cond.text]
  cases c.value with
  | none => exact h.key.ne
  | some v => exact List.append_ne_nil_of_left_ne_nil h.key.ne _

theorem Cond.Valid.notMem_text (h : c.Valid) {ch : Char} (hch : ch = '/' ∨ ch = '&') : ch ∉ c.text := by
  have hword {s : Str} (hs : Word s) : ch ∉ s := by
    rcases hch with rfl | rfl
    · exact hs.slash
    · exact hs.ampersand
  have hne : ch ≠ '=' := by rcases hch with rfl | rfl <;> decide
  rw [Cond.text]
  cases hv : c.value with
  | none => exact hword h.key
  | some v =>
    rw [List.mem_append, List.mem_cons, not_or, not_or]
    exact ⟨hword h.key, hne, hword (h.value v hv)⟩

theorem met_of_split (h : c.Valid) :
    (match split '=' c.text with
      | [] => true
      | [k] => ((getAttrib db key).lookup k).isSome
      | k :: v :: _ => decide ((getAttrib db key).lookup k = some v)) = c.met db key := by
  rw [h.split_text, Cond.met]
  cases c.value <;> rfl

theorem meets_one (h : c.Valid) : meets db key c.text = c.met db key := by
  rw [meets, split_one h.text_ne (h.notMem_text (.inr rfl)), List.all_cons, List.all_nil, Bool.and_true]
  exact met_of_split h

theorem meets_two (h₁ : c₁.Valid) (h₂ : c₂.Valid) :
    meets db key (c₁.text ++ '&' :: c₂.text) = (c₁.met db key && c₂.met db key) := by
  rw [meets, split_two h₁.text_ne (h₁.notMem_text (.inr rfl)) h₂.text_ne (h₂.notMem_text (.inr rfl)),
    List.all_cons, List.all_cons, List.all_nil, Bool.and_true]
  exact congrArg₂ (· && ·) (met_of_split h₁) (met_of_split h₂)

theorem attrSelector_eq (h : c.Valid) (l : List Elem) :
    xpathAttrSelector db l (split '=' c.text)[0]? (split '=' c.text)[1]? = l.filter fun e => c.met db e.key := by
  rw [h.split_text, xpathAttrSelector]
  refine List.filter_congr fun e _ => ?_
  rw [Cond.met]
  cases c.value <;> rfl

theorem attrSelector_none (l : List Elem) : xpathAttrSelector db l none none = [] :=
  List.filter_eq_nil_iff.mpr fun _ _ => nofun

theorem Token.Valid.text_ne (h : t.Valid) : t.text ≠ [] := by
  cases t with
  | name n => exact (h.2 n rfl).1.ne
  | any cond => cases cond <;> exact List.cons_ne_nil _ _
  | anyBoth k₁ v₁ k₂ => exact List.cons_ne_nil _ _
  | all cond => cases cond <;> exact List.cons_ne_nil _ _

theorem Token.Valid.slash_notMem (h : t.Valid) : '/' ∉ t.text := by
  cases t with
  | name n => exact (h.2 n rfl).1.slash
  | any cond =>
    cases cond with
    | none => decide
    | some c =>
      simpa [Token.text] using (h.1 c List.mem_cons_self).notMem_text (.inl rfl)
  | anyBoth k₁ v₁ k₂ =>
    have h₁ := (h.1 ⟨k₁, some v₁⟩ List.mem_cons_self).notMem_text (.inl rfl)
    have h₂ := (h.1 ⟨k₂, none⟩ (by simp [Token.conds])).key.slash
    simpa [Token.text] using ⟨h₁, h₂⟩
  | all cond =>
    cases cond with
    | none => decide
    | some c => simpa [Token.text] using (h.1 c List.mem_cons_self).notMem_text (.inl rfl)

theorem split_pathText {p : List Token} (h : ∀ t ∈ p, t.Valid) : split '/' (pathText p) = p.map Token.text :=
  split_concat (List.forall_mem_map.mpr fun t ht => ⟨(h t ht).slash_notMem, (h t ht).text_ne⟩)

theorem forall_ne_slash (h : '/' ∉ n) : ∀ ch ∈ n, decide (ch ≠ '/') = true := fun _ hch =>
  decide_eq_true fun heq => h (heq ▸ hch)

theorem relative_cons (hn : '/' ∉ n) (path : Str) : relative ('/' :: (n ++ '/' :: path)) = some path := by
  have hfirst : ('/' :: (n ++ '/' :: path)).dropWhile (fun ch => decide (ch ≠ '/')) = '/' :: (n ++ '/' :: path) :=
    List.dropWhile_cons_of_neg (by decide)
  have hsecond : (n ++ '/' :: path).dropWhile (fun ch => decide (ch ≠ '/')) = '/' :: path := by
    rw [List.dropWhile_append_of_pos (forall_ne_slash hn), List.dropWhile_cons_of_neg (by decide)]
  rw [relative, hfirst, List.drop_one, List.tail_cons, hsecond]

-- ---------------------------------------------------------------------------
-- The elements under a root
-- ---------------------------------------------------------------------------

def getRoot (name : Str) : Elem := ⟨'/' :: name, none, .regular, true⟩

inductive Reaches (db : Store) : Elem → Elem → Prop
  | refl (e : Elem) : Reaches db e e
  | step {e e' : Elem} {cs : List (Str × Elem)} {b : Str × Elem} (hcs : getChild db e = .ok cs) (hb : b ∈ cs)
      (h : Reaches db b.2 e') : Reaches db e e'

/-- The walk from the element comes to an end, over children with proper names. -/
inductive Tree (db : Store) : Elem → Prop
  | node {e : Elem} {cs : List (Str × Elem)} (hcs : getChild db e = .ok cs) (hnames : ∀ b ∈ cs, Proper b.1)
      (h : ∀ b ∈ cs, Tree db b.2) : Tree db e

theorem Reaches.snoc (h : Reaches db e e') (hcs : getChild db e' = .ok cs) (hb : b ∈ cs) :
    ∃ cs₁ b₁, getChild db e = .ok cs₁ ∧ b₁ ∈ cs₁ ∧ Reaches db b₁.2 b.2 := by
  induction h with
  | refl e => exact ⟨cs, b, hcs, hb, .refl _⟩
  | step hcs₁ hb₁ _ ih =>
    obtain ⟨cs₂, b₂, hcs₂, hb₂, hreach⟩ := ih hcs
    exact ⟨_, _, hcs₁, hb₁, .step hcs₂ hb₂ hreach⟩

def keyOf (b : Str × Elem) : Str × Str := (b.1, b.2.key)

theorem map_setKey (d : List (Str × Elem)) (n : Str) (e : Elem) :
    (setKey d n e).map keyOf = setKey (d.map keyOf) n e.key := by
  induction d with
  | nil => rfl
  | cons b d ih =>
    obtain ⟨n', e'⟩ := b
    rw [setKey, List.map_cons, keyOf, setKey]
    split
    · rfl
    · rw [List.map_cons, ih]
      rfl

theorem childOf_keyOf (hkey : e'.key = e.key) (r : Str) :
    (childOf e' r).map (Option.map keyOf) = (childOf e r).map (Option.map keyOf) := by
  unfold childOf
  split
  · rw [hkey]
    cases e.eType <;> cases e'.eType <;> rfl
  · split <;> rfl
  · rfl

/-- The keys of the children are known from the key alone. -/
theorem foldlM_keyOf (hkey : e'.key = e.key) (l : List Str) {d d' : List (Str × Elem)}
    (hd : d'.map keyOf = d.map keyOf) :
    (l.foldlM (addChild (childOf e')) d').map (List.map keyOf) =
      (l.foldlM (addChild (childOf e)) d).map (List.map keyOf) := by
  induction l generalizing d d' with
  | nil => exact congrArg Except.ok hd
  | cons r l ih =>
    have hof := childOf_keyOf hkey r
    rw [List.foldlM_cons, List.foldlM_cons, addChild, addChild]
    cases hr : childOf e r with
    | error err =>
      rw [hr] at hof
      cases hr' : childOf e' r with
      | error err' =>
        rw [hr'] at hof
        cases hof
        rfl
      | ok child =>
        rw [hr'] at hof
        cases hof
    | ok child =>
      rw [hr] at hof
      cases hr' : childOf e' r with
      | error err' =>
        rw [hr'] at hof
        cases hof
      | ok child' =>
        rw [hr'] at hof
        have hmap : child'.map keyOf = child.map keyOf := Except.ok.inj hof
        refine ih ?_
        cases child with
        | none =>
          cases child' with
          | none => exact hd
          | some b' => cases hmap
        | some b =>
          cases child' with
          | none => cases hmap
          | some b' =>
            have hb : keyOf b' = keyOf b := Option.some.inj hmap
            show (setKey d' b'.1 b'.2).map keyOf = (setKey d b.1 b.2).map keyOf
            rw [map_setKey, map_setKey, hd, (Prod.mk.inj hb).1, (Prod.mk.inj hb).2]

theorem getChild_keyOf (hkey : e'.key = e.key) (hcs : getChild db e = .ok cs) (hb : b ∈ cs) :
    ∃ cs' b', getChild db e' = .ok cs' ∧ b' ∈ cs' ∧ b'.2.key = b.2.key := by
  have hmap : (getChild db e').map (List.map keyOf) = (getChild db e).map (List.map keyOf) := by
    rw [getChild, getChild, hkey]
    split
    · rfl
    · exact foldlM_keyOf hkey _ rfl
  rw [hcs] at hmap
  obtain ⟨cs', hcs', heq⟩ := map_eq_ok hmap
  obtain ⟨b', hb', hkeys⟩ := List.mem_map.mp (heq ▸ List.mem_map_of_mem hb)
  exact ⟨cs', b', hcs', hb', (Prod.mk.inj hkeys).2⟩

/-- Below an element nothing has its key: the way from the one to the other could be
taken again and again. -/
theorem Tree.key_ne (h : Tree db e) (hcs : getChild db e = .ok cs) (hb : b ∈ cs) (hreach : Reaches db b.2 a) :
    a.key ≠ e.key := by
  induction h generalizing cs b a with
  | node hcs₁ _ _ ih =>
    intro hkey
    obtain rfl := Except.ok.inj (hcs₁.symm.trans hcs)
    obtain ⟨cs', b', hcs', hb', hkey'⟩ := getChild_keyOf hkey hcs hb
    obtain ⟨cs₂, b₂, hcs₂, hb₂, hreach₂⟩ := hreach.snoc hcs' hb'
    exact ih b hb hcs₂ hb₂ hreach₂ hkey'

theorem collect_spec {f : Nat → Elem → Res (List Elem)} {P : Elem → Elem → Prop} {l : List Elem}
    (h : ∀ e ∈ l, ∃ d, ∀ depth ≥ d, ∃ r, f depth e = .ok r ∧ ∀ a, a ∈ r ↔ P e a) :
    ∃ d, ∀ depth ≥ d, ∃ r, collect (f depth) l = .ok r ∧ ∀ a, a ∈ r ↔ ∃ e ∈ l, P e a := by
  induction l with
  | nil => exact ⟨0, fun _ _ => ⟨[], rfl, by simp⟩⟩
  | cons e l ih =>
    obtain ⟨he, hl⟩ := List.forall_mem_cons.mp h
    obtain ⟨d₁, h₁⟩ := he
    obtain ⟨d₂, h₂⟩ := ih hl
    refine ⟨max d₁ d₂, fun depth hdepth => ?_⟩
    obtain ⟨r₁, hr₁, hmem₁⟩ := h₁ depth (by omega)
    obtain ⟨r₂, hr₂, hmem₂⟩ := h₂ depth (by omega)
    refine ⟨r₁ ++ r₂, ?_, fun a => ?_⟩
    · rw [collect, hr₁, hr₂]
      rfl
    · rw [List.mem_append, hmem₁, hmem₂, List.exists_mem_cons_iff]

theorem Tree.walk (h : Tree db e) :
    ∃ d, ∀ depth ≥ d, ∃ l, walk db depth e = .ok l ∧ ∀ a, a ∈ l ↔ Reaches db e a := by
  induction h with
  | @node e cs hcs _ _ ih =>
    obtain ⟨d, hd⟩ := collect_spec (l := cs.map Prod.snd) (List.forall_mem_map.mpr ih)
    refine ⟨d + 1, fun depth hdepth => ?_⟩
    obtain ⟨k, rfl⟩ : ∃ k, depth = k + 1 := ⟨depth - 1, by omega⟩
    obtain ⟨l, hl, hmem⟩ := hd k (by omega)
    refine ⟨e :: l, ?_, fun a => ?_⟩
    · rw [GalaDB.walk, hcs]
      show ((collect (GalaDB.walk db k) (cs.map Prod.snd)).map (e :: ·)) = _
      rw [hl]
      rfl
    · rw [List.mem_cons, hmem]
      constructor
      · rintro (rfl | ⟨b, hb, hreach⟩)
        · exact .refl _
        · obtain ⟨child, hchild, rfl⟩ := List.mem_map.mp hb
          exact .step hcs hchild hreach
      · intro hreach
        cases hreach with
        | refl => exact .inl rfl
        | step hcs' hb hreach =>
          obtain rfl := Except.ok.inj (hcs.symm.trans hcs')
          exact .inr ⟨_, List.mem_map_of_mem hb, hreach⟩

-- ---------------------------------------------------------------------------
-- The paths of the elements
-- ---------------------------------------------------------------------------

/-- An element that is no link has one path. -/
def Elem.Plain (e : Elem) : Prop := e.eType = .regular → e.realKey = none

theorem childOf_path (he : e.Plain) (h : childOf e r = .ok (some b)) : b.2.path = join e.path b.1 ∧ b.2.Plain := by
  unfold childOf at h
  split at h
  · cases h
    cases htype : e.eType with
    | ref => exact ⟨rfl, fun hregular => by cases hregular⟩
    | regular =>
      have hpath : e.path = e.key := by rw [Elem.path, he htype, Option.getD_none]
      rw [hpath]
      exact ⟨rfl, fun _ => rfl⟩
  · split at h
    · cases h
      exact ⟨rfl, fun hregular => by cases hregular⟩
    · cases h
  · cases h

theorem Reaches.path (h : Reaches db e a) (htree : Tree db e) (he : e.Plain) (hclean : Clean e.path) :
    ∃ names : List Str, (∀ n ∈ names, Proper n) ∧ a.path = e.path ++ names.flatMap ('/' :: ·) ∧
      (names = [] → a = e) := by
  induction h with
  | refl e => exact ⟨[], nofun, (List.append_nil _).symm, fun _ => rfl⟩
  | @step e a cs b hcs hb _ ih =>
    obtain ⟨hcs', hnames, hchildren⟩ := htree
    obtain rfl := Except.ok.inj (hcs.symm.trans hcs')
    obtain ⟨r, -, hof⟩ := (of_mem_foldlM (getChild_foldlM hcs) hb).resolve_left List.not_mem_nil
    obtain ⟨hpath, hplain⟩ := childOf_path he hof
    obtain ⟨names, hall, ha, -⟩ := ih (hchildren b hb) hplain (hpath ▸ clean_join ..)
    refine ⟨b.1 :: names, List.forall_mem_cons.mpr ⟨hnames b hb, hall⟩, ?_, nofun⟩
    rw [ha, hpath, join_eq hclean (hnames b hb).clean, List.flatMap_cons, List.append_assoc]

theorem clean_slash (h : Clean s) : Clean ('/' :: s) := by
  rw [clean_iff]
  intro hnul
  have hlong := clean_iff.mp h ((List.mem_cons.mp hnul).resolve_left (by decide))
  exact hlong.trans (Nat.le_succ _)

theorem Reaches.tokens (hr : Proper r) (htree : Tree db (getRoot r)) (h : Reaches db (getRoot r) e) :
    ∃ names, (∀ n ∈ names, Proper n) ∧ split '/' e.path = r :: names ∧ (names = [] ↔ e = getRoot r) := by
  obtain ⟨names, hall, hpath, hnil⟩ := h.path htree (fun _ => rfl) (clean_slash hr.clean)
  have hsplit : split '/' e.path = r :: names := by
    rw [hpath]
    exact split_rooted (List.forall_mem_cons.mpr ⟨⟨hr.slash, hr.ne⟩, fun n hn => ⟨(hall n hn).slash, (hall n hn).ne⟩⟩)
  refine ⟨names, hall, hsplit, hnil, ?_⟩
  rintro rfl
  have hroot : split '/' (getRoot r).path = [r] :=
    split_eq_tail (congrArg ([] :: ·) (pieces_of_notMem hr.slash)) (by simpa using hr.ne)
  exact (List.cons.inj (hsplit.symm.trans hroot)).2

-- ---------------------------------------------------------------------------
-- A path of one token
-- ---------------------------------------------------------------------------

/-- The elements that `root:xpath(path)` gives are those under the root that match. -/
def Agrees (db : Store) (root : Elem) (depth : Nat) (path : Str) : Prop :=
  ∃ l, xpath db root depth root path = .ok l ∧
    ∀ e, Reaches db root e → (e ∈ l ↔ xpathMatch db root depth e path = .ok true)

theorem selector_all {cond : Option Cond} (hcond : ∀ c ∈ cond, c.Valid) {l : List Elem} (hl : walk db depth e = .ok l) :
    xpathSelector db root (depth + 1) e [(Token.all cond).text] =
      .ok ((l.filter fun a => a.key ≠ e.key).filter fun a => cond.all (Cond.met · db a.key)) := by
  have hall : xpathAllSelector db depth e = .ok (l.filter fun a => a.key ≠ e.key) := by rw [xpathAllSelector, hl]; rfl
  cases cond with
  | none =>
    simp [xpathSelector, Token.text, hall, Except.bind, xpathCollect]
  | some c =>
    have hattr : xpathAttrSelector db _ _ _ = _ := attrSelector_eq (hcond c rfl) (l.filter fun a => a.key ≠ e.key)
    simpa [xpathSelector, Token.text, hall, Except.bind, xpathCollect] using hattr

theorem match_all {cond : Option Cond} (hcond : ∀ c ∈ cond, c.Valid) (selfTokens toks : List Str) (cursor : Nat) :
    matchFrom db root depth e selfTokens cursor ((Token.all cond).text :: toks) =
      .ok (decide (cursor ≠ selfTokens.length) && cond.all (Cond.met · db e.key)) := by
  cases cond with
  | none => by_cases h : cursor = selfTokens.length <;> simp [matchFrom, Token.text, h]
  | some c =>
    have hmeets : meets db e.key c.text = _ := meets_one (hcond c rfl)
    by_cases h : cursor = selfTokens.length <;> simp [matchFrom, Token.text, hmeets, h]

theorem all_agrees (hr : Proper r) (htree : Tree db (getRoot r)) {cond : Option Cond} (hcond : ∀ c ∈ cond, c.Valid) :
    ∃ d, ∀ depth ≥ d, Agrees db (getRoot r) depth (pathText [.all cond]) := by
  obtain ⟨d, hd⟩ := htree.walk
  refine ⟨d + 1, fun depth hdepth => ?_⟩
  obtain ⟨k, rfl⟩ : ∃ k, depth = k + 1 := ⟨depth - 1, by omega⟩
  obtain ⟨l, hl, hmem⟩ := hd k (by omega)
  have htext : split '/' (pathText [.all cond]) = [(Token.all cond).text] := by
    refine split_pathText (List.forall_mem_singleton.mpr ⟨fun c hc => hcond c (by simpa [Token.conds] using hc), nofun⟩)
  refine ⟨_, by rw [xpath, htext, selector_all hcond hl], fun e hreach => ?_⟩
  obtain ⟨names, -, htokens, hnil⟩ := hreach.tokens hr htree
  -- The root alone has the key of the root.
  have hkey : e.key ≠ (getRoot r).key ↔ names ≠ [] := by
    rw [ne_eq, ne_eq, not_iff_not, hnil]
    constructor
    · intro hkey
      cases hreach with
      | refl => rfl
      | step hcs hb hreach => exact absurd hkey (htree.key_ne hcs hb hreach)
    · rintro rfl
      rfl
  rw [xpathMatch, htext, htokens, match_all hcond, List.mem_filter, List.mem_filter, hmem]
  simp [hreach, hkey, List.length_cons]

-- ---------------------------------------------------------------------------
-- Paths, cut in front of the last name
-- ---------------------------------------------------------------------------

theorem concat_one (n : Str) : concat [n] = n := by rw [concat, List.flatMap_nil, List.append_nil]

theorem concat_cons (n m : Str) (a : List Str) : concat (n :: m :: a) = n ++ '/' :: concat (m :: a) := by
  rw [concat, concat, List.flatMap_cons, List.cons_append]

theorem concat_append (n : Str) (a : List Str) (m : Str) (b : List Str) :
    concat (n :: a ++ m :: b) = concat (n :: a) ++ '/' :: concat (m :: b) := by
  rw [concat, List.cons_append, concat, concat, List.flatMap_append, List.flatMap_cons, List.append_assoc,
    List.cons_append]

theorem concat_concat (hne : ns ≠ []) (n : Str) : concat (ns ++ [n]) = concat ns ++ '/' :: n := by
  cases ns with
  | nil => exact absurd rfl hne
  | cons m ns => simp [concat]

theorem concat_ne_nil (hn : n ≠ []) : concat (ns ++ [n]) ≠ [] := by
  cases ns with
  | nil => simpa [concat] using hn
  | cons m ns => simp [concat]

theorem clean_concat (h : ∀ m ∈ ns, Clean m) : Clean (concat ns) := by
  rw [clean_iff]
  cases ns with
  | nil => nofun
  | cons m ns =>
    intro hnul
    have hlong {x : Str} (hx : x ∈ m :: ns) (hmem : '\x00' ∈ x) : 100 ≤ x.length := clean_iff.mp (h x hx) hmem
    rw [concat, List.length_append]
    rcases List.mem_append.mp hnul with hnul | hnul
    · exact (hlong List.mem_cons_self hnul).trans (Nat.le_add_right _ _)
    · obtain ⟨x, hx, hmem⟩ := List.mem_flatMap.mp hnul
      have hlen := hlong (List.mem_cons_of_mem _ hx) ((List.mem_cons.mp hmem).resolve_left (by decide))
      have hsub := (List.sublist_flatten_of_mem (List.mem_map_of_mem (f := ('/' :: ·)) hx)).length_le
      rw [List.length_cons] at hsub
      rw [List.flatMap_def]
      omega

theorem xpathSplit_concat (hn : '/' ∉ n) : xpathSplit (concat (ns ++ [n])) = (concat ns, n) := by
  cases ns with
  | nil =>
    have hone : concat [n] = n := List.append_nil n
    rw [List.nil_append, hone, xpathSplit, List.rdropWhile_eq_nil_iff.mpr (forall_ne_slash hn),
      List.rtakeWhile_eq_self_iff.mpr (forall_ne_slash hn)]
    rfl
  | cons m ns => rw [concat_concat (List.cons_ne_nil _ _), xpathSplit_eq hn]

/-- `_xpath` for a key that is not there asks the root for the parent. -/
theorem xpathPlain_absent {path last : Str} (hkey : Clean e.key) (hpath : Clean path) (hne : path ≠ [])
    (habsent : db.dups (e.key ++ '/' :: path) = [])
    (hrel : relative (e.key ++ '/' :: path) = some (concat (ns ++ [last]))) (hlast : Proper last) :
    xpathPlain db root (depth + 1) e path =
      (xpathPlain db root depth root (concat ns)).bind fun parent =>
        match parent with
        | some p => (getChild db p).map (List.lookup last)
        | none => .ok none := by
  have hparent : concat (ns ++ [last]) ≠ [] := concat_ne_nil hlast.ne
  obtain ⟨ch, s, hcons⟩ := List.exists_cons_of_ne_nil hparent
  rw [xpathPlain, if_neg hne, join_eq hkey hpath, if_neg (not_not.mpr habsent), hrel, hcons]
  show (xpathPlain db root depth root (xpathSplit (ch :: s)).1).bind _ = _
  rewrite [← hcons, xpathSplit_concat hlast.slash]
  rfl

end GalaLua.GalaDB
