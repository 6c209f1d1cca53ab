import GalaLua.Modules.Path

/-!
# What normalising keeps

`norm_path` gives a path without dots that names the same place, and does nothing when it
is applied again. A relative path becomes an absolute one when its first entry is blanked
and others follow: `normPath_iff` says when that happens.
-/

namespace GalaLua.Modules.Path

open Library.LuaPattern (Text)

def Absolute (s : Text) : Prop := s.head? = some '/'

instance (s : Text) : Decidable (Absolute s) := inferInstanceAs (Decidable (_ = _))

/-- The place of a path below a directory, both with the last name first. -/
def locate (start : List Text) (s : Text) : List Text :=
  (split s).foldl walk (if Absolute s then [] else start)

/-- What is expected of the normal form of `s`. -/
structure Keeps (s : Text) : Prop where
  absolute : Absolute (normPath s) ↔ Absolute s
  location : ∀ start, locate start (normPath s) = locate start s
  noDot : dot ∉ split (normPath s)
  noInner : ∀ pre post, split (normPath s) = pre ++ [] :: post → pre = [] ∨ post = []
  dotsFirst : ∀ pre post, split (normPath s) = pre ++ dotDot :: post → ∀ k ∈ pre, k = [] ∨ k = dotDot
  again : normPath (normPath s) = normPath s

/-- Out of the directory `n` levels below the first one some `..` leads. -/
def Leaves : Nat → List Text → Prop
  | _, [] => False
  | n, k :: xs =>
    if k = dotDot then n = 0 ∨ Leaves (n - 1) xs
    else if k = dot ∨ k = [] then Leaves n xs
    else Leaves (n + 1) xs

/-- The first entry of a path of several entries is no dot, and if it is a name, no `..`
behind it cancels it. -/
def FirstKept (s : Text) : Prop :=
  ∀ k xs, split s = k :: xs → xs ≠ [] → k ≠ dot ∧ (k = [] ∨ k = dotDot ∨ ¬ Leaves 0 xs)

variable {s k : Text} {xs ys str top loc : List Text}

-- ---------------------------------------------------------------------------
-- The first entry
-- ---------------------------------------------------------------------------

/-- The search among blanks and names takes the last name. -/
theorem cancel_names (h : dotDot ∉ top) : named top = [] ∧ cancel top = none ∨
    ∃ top' k, cancel top = some top' ∧ dotDot ∉ top' ∧ named top = k :: named top' := by
  induction top with
  | nil => exact .inl ⟨rfl, rfl⟩
  | cons x top ih =>
    obtain ⟨hx, htop⟩ := not_or.mp (fun hmem => h (List.mem_cons.mpr hmem))
    by_cases hblank : x = []
    · subst hblank
      rw [named_blank, cancel, if_pos (.inl rfl)]
      rcases ih htop with ⟨hnil, hnone⟩ | ⟨top', k, hsome, hfree, hnamed⟩
      · exact .inl ⟨hnil, by rw [hnone]; rfl⟩
      · refine .inr ⟨[] :: top', k, by rw [hsome]; rfl, fun hmem => ?_, by rw [named_blank, hnamed]⟩
        exact (List.mem_cons.mp hmem).elim (by decide) hfree
    · refine .inr ⟨[] :: top, x, by rw [cancel, if_neg (not_or.mpr ⟨hblank, Ne.symm hx⟩)], fun hmem => ?_, ?_⟩
      · exact (List.mem_cons.mp hmem).elim (by decide) htop
      · rw [named_cons_of_ne hblank, named_blank]

/-- A name at the front is blanked when a `..` leads out of it. -/
theorem first_foldl (hne : k ≠ []) (hdots : k ≠ dotDot) (htop : dotDot ∉ top) :
    ∃ top', Leaves (named top).length xs ∧ xs.foldl normStep (top ++ [k]) = top' ++ [[]] ∨
      ¬ Leaves (named top).length xs ∧ xs.foldl normStep (top ++ [k]) = top' ++ [k] := by
  induction xs generalizing top with
  | nil => exact ⟨top, .inr ⟨id, rfl⟩⟩
  | cons x xs ih =>
    have hfree {y : Text} {ys : List Text} (hy : y ≠ dotDot) (hys : dotDot ∉ ys) : dotDot ∉ y :: ys :=
      fun hmem => (List.mem_cons.mp hmem).elim (fun heq => hy heq.symm) hys
    rw [List.foldl_cons, normStep, Leaves]
    by_cases hup : x = dotDot
    · have hone : cancel [k] = some [[]] := by rw [cancel, if_neg (not_or.mpr ⟨hne, hdots⟩)]
      rw [if_pos hup, if_pos hup, cancel_append, hone]
      rcases cancel_names htop with ⟨hnil, hnone⟩ | ⟨top', n, hsome, htop', hnamed⟩
      · rw [hnone, hnil]
        exact ⟨_, .inl ⟨.inl rfl, @foldl_append_surplus [] xs ([] :: top) (.inl rfl)⟩⟩
      · rw [hsome, hnamed, List.length_cons, Nat.add_sub_cancel, or_iff_right (Nat.succ_ne_zero _)]
        exact @ih ([] :: top') (hfree (by decide) htop')
    · rw [if_neg hup, if_neg hup]
      by_cases hdot : x = dot
      · rw [if_pos hdot, if_pos (.inl hdot)]
        exact @ih ([] :: top) (hfree (by decide) htop)
      · rw [if_neg hdot]
        by_cases hblank : x = []
        · rw [if_pos (.inr hblank), hblank]
          exact @ih ([] :: top) (hfree (by decide) htop)
        · rw [if_neg (not_or.mpr ⟨hdot, hblank⟩)]
          have hnamed : (named top).length + 1 = (named (x :: top)).length := by
            rw [named_cons_of_ne hblank, List.length_cons]
          rw [hnamed]
          exact @ih (x :: top) (hfree hup htop)

theorem length_cancel : ∀ {str str'}, cancel str = some str' → str'.length = str.length
  | x :: str, str', h => by
    rw [cancel] at h
    split at h
    · obtain ⟨str'', hsome, rfl⟩ := Option.map_eq_some_iff.mp h
      rw [List.length_cons, length_cancel hsome, List.length_cons]
    · cases h
      rfl

theorem length_foldl : (xs.foldl normStep str).length = str.length + xs.length := by
  induction xs generalizing str with
  | nil => rfl
  | cons x xs ih =>
    have hstep : (normStep str x).length = str.length + 1 := by
      rw [normStep]
      split
      · split
        next hsome => rw [List.length_cons, length_cancel hsome]
        next => rfl
      · split <;> rfl
    rw [List.foldl_cons, ih, hstep, List.length_cons]
    omega

-- ---------------------------------------------------------------------------
-- The text
-- ---------------------------------------------------------------------------

theorem Settled.sublist {str' : List Text} (hsub : str'.Sublist str) (h : Settled str) : Settled str' := by
  induction hsub with
  | slnil => exact h
  | cons k hsub ih => exact ih h.2.2
  | cons_cons k hsub ih => exact ⟨fun hdots x hx => h.1 hdots x (hsub.subset hx), h.2.1, ih h.2.2⟩

theorem Settled.dot_notMem (h : Settled str) : dot ∉ str := by
  induction str with
  | nil => exact List.not_mem_nil
  | cons k str ih => exact fun hmem => (List.mem_cons.mp hmem).elim (fun heq => h.2.1 heq.symm) (ih h.2.2)

theorem foldl_of_settled (h : Settled str) : str.reverse.foldl normStep [] = str := by
  induction str with
  | nil => rfl
  | cons k str ih =>
    obtain ⟨hdots, hdot, hset⟩ := h
    rw [List.reverse_cons, List.foldl_append, List.foldl_cons, List.foldl_nil, ih hset, normStep]
    by_cases hk : k = dotDot
    · rw [if_pos hk]
      rcases cancel_cases hset with ⟨hnone, -⟩ | ⟨pre, x, post, heq, -, hx, hxdots, -⟩
      · rw [hnone, hk]
      · have hsurplus := hdots hk x (heq ▸ List.mem_append_right _ List.mem_cons_self)
        exact absurd hsurplus (not_or.mpr ⟨hx, hxdots⟩)
    · rw [if_neg hk, if_neg hdot]

theorem collapse_sublist : (collapse xs).Sublist xs := by
  induction xs with
  | nil => exact .slnil
  | cons x xs ih =>
    rw [collapse]
    split
    · exact ih.cons x
    · exact ih.cons_cons x

theorem collapse_eq_nil : collapse xs = [] ↔ xs = [] := by
  induction xs with
  | nil => rfl
  | cons x xs ih =>
    rw [collapse]
    split
    next hand => exact ⟨fun h => absurd (ih.mp h) hand.2, fun h => absurd h (List.cons_ne_nil _ _)⟩
    next => exact ⟨fun h => absurd h (List.cons_ne_nil _ _), fun h => absurd h (List.cons_ne_nil _ _)⟩

theorem collapse_collapse : collapse (collapse xs) = collapse xs := by
  induction xs with
  | nil => rfl
  | cons x xs ih =>
    rw [collapse]
    split
    next => exact ih
    next hand => rw [collapse, if_neg fun h => hand ⟨h.1, fun hnil => h.2 (collapse_eq_nil.mpr hnil)⟩, ih]

theorem collapse_blank : ∀ {xs pre post}, collapse xs = pre ++ [] :: post → post = []
  | [], pre, post, h => by simp [collapse] at h
  | x :: xs, pre, post, h => by
    rw [collapse] at h
    split at h
    next => exact collapse_blank h
    next hand =>
      cases pre with
      | nil =>
        obtain ⟨rfl, rfl⟩ := List.cons.inj h
        by_contra hne
        exact hand ⟨rfl, fun hnil => hne (by rw [hnil]; rfl)⟩
      | cons y pre => exact collapse_blank (List.cons.inj h).2

theorem absolute_concat (h : SlashFree (k :: xs)) : Absolute (concat (k :: xs)) ↔ k = [] ∧ xs ≠ [] := by
  cases k with
  | nil => cases xs <;> simp [Absolute, concat]
  | cons c k =>
    have hc : c ≠ '/' := fun heq => (slashFree_cons.mp h).1 (heq ▸ List.mem_cons_self)
    simp [Absolute, concat, hc]

theorem split_eq_nil : split s = [] ↔ s = [] := by
  refine ⟨fun h => ?_, fun h => h ▸ rfl⟩
  obtain ⟨k, xs, rfl, hfree⟩ := exists_concat s
  by_contra hne
  rw [split_concat hfree hne] at h
  cases h

theorem concat_split (h : split s = k :: xs) : s = concat (k :: xs) := by
  obtain ⟨y, ys, rfl, hfree⟩ := exists_concat s
  by_cases hnil : concat (y :: ys) = []
  · rw [hnil, split_eq_nil.mpr rfl] at h
    cases h
  · rw [← h, split_concat hfree hnil]

/-- The normal form of a path whose first entry is `k`. -/
structure Form (s k : Text) (xs : List Text) (y : Text) (ys : List Text) : Prop where
  slashFree : SlashFree (y :: ys)
  settled : Settled (y :: ys).reverse
  rest : ys = [] ↔ xs = []
  first : y = [] ↔ k = [] ∨ k = dot ∨ k ≠ dotDot ∧ Leaves 0 xs
  normal : normPath s = concat (y :: collapse ys)

theorem exists_form (h : split s = k :: xs) : ∃ y ys, Form s k xs y ys := by
  have hfree : SlashFree ((split s).foldl normStep []) := foldl_slashFree (by simp [SlashFree]) (split_slashFree s)
  have hset : Settled ((split s).foldl normStep []) := @settled_foldl [] trivial _
  obtain ⟨top, y, hfold, hfirst⟩ : ∃ top y, (k :: xs).foldl normStep [] = top ++ [y] ∧
      (y = [] ↔ k = [] ∨ k = dot ∨ k ≠ dotDot ∧ Leaves 0 xs) := by
    by_cases hup : k = dotDot
    · subst hup
      refine ⟨_, _, @foldl_append_surplus _ xs [] (.inr rfl), ?_⟩
      simp [dotDot, dot]
    by_cases hdot : k = dot
    · subst hdot
      exact ⟨_, _, @foldl_append_surplus _ xs [] (.inl rfl), by simp⟩
    by_cases hblank : k = []
    · subst hblank
      exact ⟨_, _, @foldl_append_surplus _ xs [] (.inl rfl), by simp⟩
    have hone : normStep [] k = [] ++ [k] := by rw [normStep, if_neg hup, if_neg hdot]; rfl
    rw [List.foldl_cons, hone]
    obtain ⟨top, ⟨hleaves, htop⟩ | ⟨hstays, htop⟩⟩ := @first_foldl k xs [] hblank hup List.not_mem_nil
    · exact ⟨top, [], htop, iff_of_true rfl (.inr (.inr ⟨hup, hleaves⟩))⟩
    · refine ⟨top, k, htop, iff_of_false hblank ?_⟩
      rintro (h | h | ⟨-, h⟩)
      · exact hblank h
      · exact hdot h
      · exact hstays h
  have hlen := @length_foldl (k :: xs) []
  rw [h] at hfree hset
  rw [hfold] at hfree hset hlen
  refine ⟨y, top.reverse, ?_, by simpa using hset, ?_, hfirst, ?_⟩
  · exact fun x hx => hfree x (by simpa [or_comm] using hx)
  · rw [List.reverse_eq_nil_iff, ← List.length_eq_zero_iff, ← List.length_eq_zero_iff]
    simp at hlen
    omega
  · rw [normPath, h, hfold, List.reverse_append, List.reverse_singleton, List.singleton_append, squeeze_concat]
    exact fun x hx => hfree x (by simpa [or_comm] using hx)

-- ---------------------------------------------------------------------------
-- The place
-- ---------------------------------------------------------------------------

theorem walk_named : xs.foldl walk loc = (named xs).foldl walk loc := by
  induction xs generalizing loc with
  | nil => rfl
  | cons x xs ih =>
    by_cases hx : x = []
    · rw [hx, named_blank, List.foldl_cons, walk, if_pos (.inl rfl), ih]
    · rw [named_cons_of_ne hx, List.foldl_cons, List.foldl_cons, ih]

def Proper (ns : List Text) : Prop := ∀ n ∈ ns, n ≠ [] ∧ n ≠ dot

theorem Proper.nameStep {ns : List Text} (h : Proper ns) (k : Text) : Proper (nameStep ns k) ∧
    (nameStep ns k).reverse.foldl walk loc = walk (ns.reverse.foldl walk loc) k := by
  have hsnoc (ns : List Text) (k : Text) :
      (k :: ns).reverse.foldl walk loc = walk (ns.reverse.foldl walk loc) k := by
    rw [List.reverse_cons, List.foldl_append, List.foldl_cons, List.foldl_nil]
  have hup : dotDot ≠ [] ∧ dotDot ≠ dot := by decide
  unfold Path.nameStep
  by_cases hk : k = dotDot
  · rw [if_pos hk]
    cases ns with
    | nil => exact ⟨List.forall_mem_singleton.mpr hup, by rw [hk]; exact hsnoc [] dotDot⟩
    | cons n ns =>
      dsimp only
      obtain ⟨hn, hns⟩ := List.forall_mem_cons.mp h
      by_cases hdots : n = dotDot
      · rw [if_pos hdots, hsnoc, hk]
        exact ⟨List.forall_mem_cons.mpr ⟨hup, h⟩, rfl⟩
      · refine ⟨by rw [if_neg hdots]; exact hns, ?_⟩
        rw [if_neg hdots, hsnoc ns n, hk, walk, if_neg (not_or.mpr hup), if_pos rfl, walk, if_neg (not_or.mpr hn),
          if_neg hdots, List.tail_cons]
  · rw [if_neg hk]
    by_cases hsame : k = dot ∨ k = []
    · rw [if_pos hsame, walk, if_pos hsame.symm]
      exact ⟨h, rfl⟩
    · rw [if_neg hsame, hsnoc]
      exact ⟨List.forall_mem_cons.mpr ⟨(not_or.mp hsame).symm, h⟩, rfl⟩

theorem Proper.foldl {ns : List Text} (h : Proper ns) (xs : List Text) : Proper (xs.foldl Path.nameStep ns) ∧
    (xs.foldl Path.nameStep ns).reverse.foldl walk loc = xs.foldl walk (ns.reverse.foldl walk loc) := by
  induction xs generalizing ns with
  | nil => exact ⟨h, rfl⟩
  | cons x xs ih =>
    obtain ⟨hproper, hwalk⟩ := @Proper.nameStep loc _ h x
    rw [List.foldl_cons, List.foldl_cons, ← hwalk]
    exact ih hproper

theorem walk_normPath (s : Text) : (split (normPath s)).foldl walk loc = (split s).foldl walk loc := by
  rw [walk_named, ← names, names_normPath, (@Proper.foldl loc [] (fun _ h => absurd h List.not_mem_nil) _).2]
  rfl

-- ---------------------------------------------------------------------------
-- All of it
-- ---------------------------------------------------------------------------

theorem split_normal {y : Text} {ys : List Text} (h : Form s k xs y ys) :
    split (normPath s) = [] ∨ split (normPath s) = y :: collapse ys := by
  by_cases hnil : normPath s = []
  · exact .inl (split_eq_nil.mpr hnil)
  · obtain ⟨hy, hys⟩ := slashFree_cons.mp h.slashFree
    rw [h.normal] at hnil ⊢
    exact .inr (split_concat (slashFree_cons.mpr ⟨hy, collapse_slashFree hys⟩) hnil)

theorem Form.settled_split {y : Text} {ys : List Text} (h : Form s k xs y ys) :
    Settled (split (normPath s)).reverse := by
  rcases split_normal h with hs | hs
  · rw [hs]
    exact trivial
  · rw [hs]
    exact h.settled.sublist (List.reverse_sublist.mpr (collapse_sublist.cons_cons y))

theorem Form.absolute {y : Text} {ys : List Text} (h : Form s k xs y ys) :
    Absolute (normPath s) ↔ y = [] ∧ xs ≠ [] := by
  obtain ⟨hy, hys⟩ := slashFree_cons.mp h.slashFree
  rw [h.normal, absolute_concat (slashFree_cons.mpr ⟨hy, collapse_slashFree hys⟩), Ne, collapse_eq_nil, h.rest]

theorem absolute_iff (hs : split s = k :: xs) : Absolute s ↔ k = [] ∧ xs ≠ [] := by
  have hfree := split_slashFree s
  rw [hs] at hfree
  rw [concat_split hs, absolute_concat hfree]

theorem Form.normPath_normPath {y : Text} {ys : List Text} (h : Form s k xs y ys) :
    normPath (normPath s) = normPath s := by
  obtain ⟨hy, hys⟩ := slashFree_cons.mp h.slashFree
  have hfold : (split (normPath s)).foldl normStep [] = (split (normPath s)).reverse := by
    rw [← foldl_of_settled h.settled_split, List.reverse_reverse]
  rw [Path.normPath, hfold, List.reverse_reverse]
  rcases split_normal h with hs | hs
  · rw [hs, split_eq_nil.mp hs]
    rfl
  · rw [hs, h.normal, squeeze_concat (slashFree_cons.mpr ⟨hy, collapse_slashFree hys⟩), collapse_collapse]

/-- A path keeps its meaning when its first entry is kept. -/
theorem normPath_iff (s : Text) : Keeps s ↔ FirstKept s := by
  rcases hs : split s with _ | ⟨k, xs⟩
  · obtain rfl := split_eq_nil.mp hs
    have hnil : normPath [] = [] := rfl
    refine iff_of_true ⟨by rw [hnil], fun _ => by rw [hnil], ?_, ?_, ?_, by rw [hnil, hnil]⟩ ?_
    · exact List.not_mem_nil
    · exact fun pre post h => absurd h (by simp [hnil, hs])
    · exact fun pre post h => absurd h (by simp [hnil, hs])
    · exact fun k xs h => absurd (hs.symm.trans h) (by simp)
  obtain ⟨y, ys, h⟩ := exists_form hs
  have hsame : (Absolute (normPath s) ↔ Absolute s) ↔ FirstKept s := by
    rw [h.absolute, absolute_iff hs, h.first]
    constructor
    · intro hiff k' xs' hs' hne
      obtain ⟨rfl, rfl⟩ := List.cons.inj (hs.symm.trans hs')
      refine ⟨fun hdot => ?_, ?_⟩
      · have hblank := (hiff.mp ⟨.inr (.inl hdot), hne⟩).1
        exact absurd (hdot.symm.trans hblank) (by decide)
      · by_cases hblank : k = []
        · exact .inl hblank
        by_cases hup : k = dotDot
        · exact .inr (.inl hup)
        · exact .inr (.inr fun hleaves => hblank (hiff.mp ⟨.inr (.inr ⟨hup, hleaves⟩), hne⟩).1)
    · refine fun hkept => ⟨fun ⟨hfirst, hne⟩ => ⟨?_, hne⟩, fun ⟨hblank, hne⟩ => ⟨.inl hblank, hne⟩⟩
      obtain ⟨hdot, hstays⟩ := hkept k xs hs hne
      rcases hfirst with hblank | hfirst | ⟨hup, hleaves⟩
      · exact hblank
      · exact absurd hfirst hdot
      · exact hstays.resolve_right (not_or.mpr ⟨hup, not_not.mpr hleaves⟩)
  refine ⟨fun hkeeps => hsame.mp hkeeps.absolute, fun hkept => ?_⟩
  have habs := hsame.mpr hkept
  refine ⟨habs, fun start => ?_, ?_, ?_, ?_, h.normPath_normPath⟩
  · rw [locate, locate, walk_normPath]
    simp only [habs]
  · exact fun hmem => h.settled_split.dot_notMem (List.mem_reverse.mpr hmem)
  · intro pre post hpost
    rcases split_normal h with hnil | hcons
    · exact absurd (hnil.symm.trans hpost) (by simp)
    · cases pre with
      | nil => exact .inl rfl
      | cons x pre => exact .inr (collapse_blank (List.cons.inj (hcons.symm.trans hpost)).2)
  · intro pre post hpost x hx
    have hset := h.settled_split
    rw [hpost, List.reverse_append, List.reverse_cons, List.append_assoc] at hset
    exact (settled_append hset).1 rfl x (List.mem_reverse.mpr hx)

/-- The path `a/../b` becomes `/b`. -/
theorem sibling_not_kept : ¬ Keeps "a/../b".toList := by
  rw [normPath_iff]
  exact fun h => absurd (h ['a'] [dotDot, ['b']] (by decide) (by decide)).2 (by simp [Leaves, dotDot])

end GalaLua.Modules.Path
