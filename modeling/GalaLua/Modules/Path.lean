import GalaLua.Library.LuaPattern
import Mathlib.Data.List.Forall2

/-!
# Paths

The parts of `os.path` that normalise a path and compare it with a directory.
`norm_path` blanks the entries of a table from the front to the back; here the
table is a list with its last entry first.
-/

namespace GalaLua.Modules.Path

open Library
open Library.LuaPattern (Text)

def dot : Text := ['.']

def dotDot : Text := ['.', '.']

-- ---------------------------------------------------------------------------
-- Normal paths
-- ---------------------------------------------------------------------------

/-- The loop of `_split` at `/`, with the characters since the last separator. -/
def splitLoop (cap : Text) : Text → List Text
  | [] => if cap = [] then [] else [cap]
  | c :: s => if c = '/' then cap :: splitLoop [] s else splitLoop (cap ++ [c]) s

def split (s : Text) : List Text :=
  splitLoop [] s ++ if s.getLast? = some '/' then [[]] else []

/-- The search behind a `..`: the first entry that is neither blank nor `..` is blanked. -/
def cancel : List Text → Option (List Text)
  | [] => none
  | k :: str => if k = [] ∨ k = dotDot then (cancel str).map (k :: ·) else some ([] :: str)

/-- One turn of the loop of `norm_path`. -/
def normStep (str : List Text) (k : Text) : List Text :=
  if k = dotDot then
    match cancel str with
    | some str => [] :: str
    | none => dotDot :: str
  else if k = dot then [] :: str
  else k :: str

/-- `table.concat(str, "/")` -/
def concat : List Text → Text
  | [] => []
  | k :: str => k ++ str.flatMap ('/' :: ·)

/-- `string.gsub(s, "/+", "/")` -/
def squeeze : Text → Text
  | [] => []
  | c :: s => if c = '/' ∧ s.head? = some '/' then squeeze s else c :: squeeze s

def normPath (s : Text) : Text := squeeze (concat ((split s).foldl normStep []).reverse)

-- ---------------------------------------------------------------------------
-- Prefixes
-- ---------------------------------------------------------------------------

/-- `string.gsub(prefix, "-", "%%-")` -/
def escapeDashes (s : Text) : Text := s.flatMap fun c => if c = '-' then ['%', '-'] else [c]

/-- `is_prefix_of`; `none` where the pattern cannot be read. -/
def isPrefixOf (s pre : Text) : Option Bool :=
  LuaPattern.isMatch s ('^' :: (escapeDashes pre ++ "[%w-_/.]+".toList))

/-- The characters that `is_legal` allows. -/
def legalChar (c : Char) : Bool := c.isAlphanum || c = '-' || c = '_' || c = '/' || c = '.'

-- ---------------------------------------------------------------------------
-- Files
-- ---------------------------------------------------------------------------

/-- What `string.format` and `io.open` take of a text with a NUL in it. -/
def cString (s : Text) : Text := s.takeWhile (· ≠ '\x00')

/-- The argument of a `%s`: a long one is kept as it is. -/
def formatArg (s : Text) : Text := if 100 ≤ s.length then s else cString s

inductive Entry
  | file (content : Text)
  | directory
  deriving DecidableEq, Repr

/-- What opening a path for reading finds. A path that ends in a slash or in
dots is that of a directory. -/
structure Disk where
  find : Text → Option Entry
  ends : ∀ s content, find s = some (.file content) → (split s).getLast? ∉ [none, some [], some dot, some dotDot]

def Disk.open (disk : Disk) (s : Text) : Option Entry := disk.find (cString s)

/-- `pwd:join(p)` -/
def join (pwd s : Text) : Text := formatArg pwd ++ '/' :: formatArg s

/-- `abs_path`, with what `PWD` is set to. -/
def absPath (pwd : Option Text) (s : Text) : Except String Text :=
  match pwd with
  | none => .error "path is illegal"
  | some pwd => .ok (normPath (join pwd s))

def isFile (disk : Disk) (pwd : Option Text) (s : Text) : Except String Bool :=
  (absPath pwd s).map fun path => path.getLast? ≠ some '/' && (disk.open s).isSome

-- ---------------------------------------------------------------------------
-- Locations
-- ---------------------------------------------------------------------------

/-- The entries of a table that are not blank. -/
def named (str : List Text) : List Text := str.filter (· ≠ [])

def names (s : Text) : List Text := named (split s)

/-- A name is entered from `loc`, given with its last name first. -/
def walk (loc : List Text) (k : Text) : List Text :=
  if k = [] ∨ k = dot then loc else if k = dotDot then loc.tail else k :: loc

def resolve (s : Text) : List Text := ((names s).foldl walk []).reverse

-- ---------------------------------------------------------------------------
-- Splitting
-- ---------------------------------------------------------------------------

variable {s t a cap k : Text} {xs ys str str' : List Text}

theorem cString_append (h : '\x00' ∉ s) (t : Text) : cString (s ++ t) = s ++ cString t :=
  List.takeWhile_append_of_pos fun _ hc => decide_eq_true fun heq => h (heq ▸ hc)

theorem cString_of_not_mem (h : '\x00' ∉ s) : cString s = s := by
  have happend := cString_append h []
  have hnil : cString [] = [] := rfl
  rwa [hnil, List.append_nil] at happend

theorem formatArg_of_not_mem (h : '\x00' ∉ s) : formatArg s = s := by
  rw [formatArg, cString_of_not_mem h, ite_self]

def SlashFree (xs : List Text) : Prop := ∀ x ∈ xs, '/' ∉ x

theorem slashFree_cons : SlashFree (k :: xs) ↔ '/' ∉ k ∧ SlashFree xs := List.forall_mem_cons

theorem splitLoop_append (h : '/' ∉ a) : splitLoop cap (a ++ s) = splitLoop (cap ++ a) s := by
  induction a generalizing cap with
  | nil => rw [List.nil_append, List.append_nil]
  | cons c a ih =>
    obtain ⟨hc, ha⟩ := not_or.mp (fun hmem => h (List.mem_cons.mpr hmem))
    rw [List.cons_append, splitLoop, if_neg (Ne.symm hc), ih ha, List.append_assoc, List.singleton_append]

theorem getLast?_ne_slash (h : '/' ∉ k) : k.getLast? ≠ some '/' := fun hlast =>
  h (List.mem_of_getLast? hlast)

/-- What `split` gives, before the text `cap` is put in front of it. -/
theorem splitLoop_concat (h : SlashFree (k :: xs)) (hne : cap ++ concat (k :: xs) ≠ []) :
    (splitLoop cap (concat (k :: xs)) ++ if (concat (k :: xs)).getLast? = some '/' then [[]] else []) =
      (cap ++ k) :: xs := by
  induction xs generalizing cap k with
  | nil =>
    obtain ⟨hk, -⟩ := slashFree_cons.mp h
    simp only [concat, List.flatMap_nil, List.append_nil] at hne ⊢
    have hloop := @splitLoop_append [] k cap hk
    rw [List.append_nil] at hloop
    rw [if_neg (getLast?_ne_slash hk), List.append_nil, hloop, splitLoop, if_neg hne]
  | cons y ys ih =>
    obtain ⟨hk, hys⟩ := slashFree_cons.mp h
    have hconcat : concat (k :: y :: ys) = k ++ '/' :: concat (y :: ys) := by
      simp only [concat, List.flatMap_cons, List.cons_append]
    rw [hconcat, splitLoop_append hk, splitLoop, if_pos rfl, List.cons_append]
    by_cases hnil : concat (y :: ys) = []
    · obtain ⟨rfl, hflat⟩ := List.append_eq_nil_iff.mp hnil
      cases ys with
      | nil => rw [hnil, List.getLast?_append, splitLoop]; rfl
      | cons z zs => cases hflat
    · have hlast : (k ++ '/' :: concat (y :: ys)).getLast? = (concat (y :: ys)).getLast? := by
        rw [List.getLast?_append, List.getLast?_cons, List.getLast?_eq_some_getLast hnil]
        rfl
      rw [hlast, ih hys hnil, List.nil_append]

theorem split_concat (h : SlashFree (k :: xs)) (hne : concat (k :: xs) ≠ []) :
    split (concat (k :: xs)) = k :: xs := splitLoop_concat h hne

theorem exists_concat (s : Text) : ∃ k xs, s = concat (k :: xs) ∧ SlashFree (k :: xs) := by
  induction s with
  | nil => exact ⟨[], [], rfl, by simp [SlashFree]⟩
  | cons c s ih =>
    obtain ⟨k, xs, rfl, h⟩ := ih
    by_cases hc : c = '/'
    · subst hc
      exact ⟨[], k :: xs, by simp [concat], slashFree_cons.mpr ⟨List.not_mem_nil, h⟩⟩
    · obtain ⟨hk, hxs⟩ := slashFree_cons.mp h
      refine ⟨c :: k, xs, rfl, slashFree_cons.mpr ⟨fun hmem => ?_, hxs⟩⟩
      rcases List.mem_cons.mp hmem with heq | hmem
      · exact hc heq.symm
      · exact hk hmem

theorem names_concat (h : SlashFree (k :: xs)) : names (concat (k :: xs)) = named (k :: xs) := by
  by_cases hne : concat (k :: xs) = []
  · obtain ⟨rfl, hflat⟩ := List.append_eq_nil_iff.mp hne
    cases xs with
    | nil => rfl
    | cons z zs => cases hflat
  · rw [names, split_concat h hne]

theorem split_slashFree (s : Text) : SlashFree (split s) := by
  obtain ⟨k, xs, rfl, h⟩ := exists_concat s
  by_cases hne : concat (k :: xs) = []
  · rw [hne]
    simp [SlashFree, split, splitLoop]
  · rwa [split_concat h hne]

theorem concat_append (h : xs ≠ []) : concat (xs ++ ys) = concat xs ++ ys.flatMap ('/' :: ·) := by
  cases xs with
  | nil => exact absurd rfl h
  | cons k xs => simp only [concat, List.cons_append, List.flatMap_append, List.append_assoc]

-- ---------------------------------------------------------------------------
-- Squeezing
-- ---------------------------------------------------------------------------

/-- Without the blank entries, but for a last one. -/
def collapse : List Text → List Text
  | [] => []
  | x :: xs => if x = [] ∧ xs ≠ [] then collapse xs else x :: collapse xs

theorem squeeze_append (h : '/' ∉ a) : squeeze (a ++ s) = a ++ squeeze s := by
  induction a with
  | nil => rfl
  | cons c a ih =>
    obtain ⟨hc, ha⟩ := not_or.mp (fun hmem => h (List.mem_cons.mpr hmem))
    rw [List.cons_append, squeeze, if_neg (fun hand => hc hand.1.symm), ih ha, List.cons_append]

theorem squeeze_flatMap (h : SlashFree xs) :
    squeeze (xs.flatMap ('/' :: ·)) = (collapse xs).flatMap ('/' :: ·) := by
  induction xs with
  | nil => rfl
  | cons x xs ih =>
    obtain ⟨hx, hxs⟩ := slashFree_cons.mp h
    rw [List.flatMap_cons, collapse, List.cons_append, squeeze]
    split
    next hand =>
      cases x with
      | nil =>
        cases xs with
        | nil => exact absurd hand.2 (by simp)
        | cons y ys => rw [if_pos ⟨rfl, List.cons_ne_nil _ _⟩, List.nil_append, ih hxs]
      | cons c x => exact absurd (Option.some.inj hand.2).symm (List.ne_of_not_mem_cons hx)
    next hand =>
      rw [squeeze_append hx, ih hxs, if_neg, List.flatMap_cons, List.cons_append]
      rintro ⟨rfl, hne⟩
      obtain ⟨y, ys, rfl⟩ := List.exists_cons_of_ne_nil hne
      exact hand ⟨rfl, rfl⟩

theorem squeeze_concat (h : SlashFree (k :: xs)) : squeeze (concat (k :: xs)) = concat (k :: collapse xs) := by
  obtain ⟨hk, hxs⟩ := slashFree_cons.mp h
  rw [concat, squeeze_append hk, squeeze_flatMap hxs, concat]

theorem named_collapse (xs : List Text) : named (collapse xs) = named xs := by
  induction xs with
  | nil => rfl
  | cons x xs ih =>
    rw [collapse]
    split
    next hand => rw [ih, hand.1]; rfl
    next => simp only [named, List.filter_cons] at ih ⊢; rw [ih]

theorem collapse_slashFree (h : SlashFree xs) : SlashFree (collapse xs) := by
  induction xs with
  | nil => exact h
  | cons x xs ih =>
    obtain ⟨hx, hxs⟩ := slashFree_cons.mp h
    rw [collapse]
    split
    · exact ih hxs
    · exact slashFree_cons.mpr ⟨hx, ih hxs⟩

theorem collapse_append_singleton (hk : k ≠ []) : collapse (xs ++ [k]) = named (xs ++ [k]) := by
  induction xs with
  | nil => simp [collapse, named, hk]
  | cons x xs ih =>
    rw [List.cons_append, collapse]
    by_cases hx : x = []
    · rw [if_pos ⟨hx, by simp⟩, ih, hx]
      rfl
    · rw [if_neg (fun hand => hx hand.1), ih]
      simp [named, hx]

theorem names_squeeze (s : Text) : names (squeeze s) = names s := by
  obtain ⟨k, xs, rfl, h⟩ := exists_concat s
  obtain ⟨hk, hxs⟩ := slashFree_cons.mp h
  rw [squeeze_concat h, names_concat (slashFree_cons.mpr ⟨hk, collapse_slashFree hxs⟩), names_concat h]
  have hcollapse := named_collapse xs
  simp only [named, List.filter_cons] at hcollapse ⊢
  rw [hcollapse]

-- ---------------------------------------------------------------------------
-- Normalisation of names
-- ---------------------------------------------------------------------------

def Surplus (str : List Text) : Prop := ∀ k ∈ str, k = [] ∨ k = dotDot

/-- Nothing but `..` is in front of a `..`, and no entry is a single dot. -/
def Settled : List Text → Prop
  | [] => True
  | k :: str => (k = dotDot → Surplus str) ∧ k ≠ dot ∧ Settled str

theorem surplus_cons : Surplus (k :: str) ↔ (k = [] ∨ k = dotDot) ∧ Surplus str := List.forall_mem_cons

/-- A search either runs over blanks and `..` only, or blanks the first name,
behind blanks. -/
theorem cancel_cases (h : Settled str) :
    cancel str = none ∧ Surplus str ∨
      ∃ pre k post, str = pre ++ k :: post ∧ (∀ x ∈ pre, x = []) ∧ k ≠ [] ∧ k ≠ dotDot ∧
        cancel str = some (pre ++ [] :: post) := by
  induction str with
  | nil => exact .inl ⟨rfl, by simp [Surplus]⟩
  | cons k str ih =>
    obtain ⟨hdots, -, hstr⟩ := h
    by_cases hk : k = [] ∨ k = dotDot
    · rcases ih hstr with ⟨hnone, hsurplus⟩ | ⟨pre, x, post, rfl, hpre, hx, hxdots, hsome⟩
      · exact .inl ⟨by rw [cancel, if_pos hk, hnone]; rfl, surplus_cons.mpr ⟨hk, hsurplus⟩⟩
      · have hblank : k = [] := hk.resolve_right fun hdot =>
          (hdots hdot x (List.mem_append_right _ List.mem_cons_self)).elim hx hxdots
        refine .inr ⟨k :: pre, x, post, rfl, List.forall_mem_cons.mpr ⟨hblank, hpre⟩, hx, hxdots, ?_⟩
        rw [cancel, if_pos hk, hsome]
        rfl
    · obtain ⟨hne, hnotdots⟩ := not_or.mp hk
      exact .inr ⟨[], k, str, rfl, by simp, hne, hnotdots, by rw [cancel, if_neg hk]; rfl⟩

theorem settled_append {pre post : List Text} (h : Settled (pre ++ post)) : Settled post := by
  induction pre with
  | nil => exact h
  | cons k pre ih => exact ih h.2.2

theorem settled_blank (h : Settled str) : Settled ([] :: str) := ⟨nofun, nofun, h⟩

theorem settled_blanks {pre post : List Text} (hpre : ∀ x ∈ pre, x = []) (h : Settled post) :
    Settled (pre ++ post) := by
  induction pre with
  | nil => exact h
  | cons k pre ih =>
    obtain ⟨rfl, hmore⟩ := List.forall_mem_cons.mp hpre
    exact settled_blank (ih hmore)

theorem Settled.normStep (h : Settled str) (k : Text) : Settled (normStep str k) := by
  rw [Path.normStep]
  split
  next hk =>
    rcases cancel_cases h with ⟨hnone, hsurplus⟩ | ⟨pre, x, post, rfl, hpre, -, -, hsome⟩
    · rw [hnone]
      exact ⟨fun _ => hsurplus, by decide, h⟩
    · rw [hsome]
      exact settled_blank (settled_blanks hpre (settled_blank (settled_append h).2.2))
  next hdots =>
    split
    next => exact settled_blank h
    next hdot => exact ⟨fun heq => absurd heq hdots, hdot, h⟩

/-- The same turn on the names alone. -/
def nameStep (ns : List Text) (k : Text) : List Text :=
  if k = dotDot then
    match ns with
    | [] => [dotDot]
    | n :: rest => if n = dotDot then dotDot :: ns else rest
  else if k = dot ∨ k = [] then ns
  else k :: ns

theorem named_append : named (xs ++ ys) = named xs ++ named ys := List.filter_append _ _

theorem named_cons_of_ne (h : k ≠ []) : named (k :: str) = k :: named str := by
  simp [named, h]

theorem named_blank : named ([] :: str) = named str := rfl

theorem named_blanks (h : ∀ x ∈ xs, x = []) : named xs = [] :=
  List.filter_eq_nil_iff.mpr fun x hx => by simp [h x hx]

theorem named_surplus (h : Surplus str) : ∀ n ∈ named str, n = dotDot := fun n hn => by
  obtain ⟨hmem, hne⟩ := List.mem_filter.mp hn
  exact (h n hmem).resolve_left (by simpa using hne)

theorem named_normStep (h : Settled str) (k : Text) : named (normStep str k) = nameStep (named str) k := by
  unfold normStep nameStep
  split
  next hk =>
    rcases cancel_cases h with ⟨hnone, hsurplus⟩ | ⟨pre, x, post, rfl, hpre, hx, hxdots, hsome⟩
    · have hall := named_surplus hsurplus
      rw [hnone]
      dsimp only
      rw [named_cons_of_ne (by decide)]
      cases hnamed : named str with
      | nil => rfl
      | cons n rest =>
        rw [hnamed] at hall
        show dotDot :: n :: rest = if n = dotDot then dotDot :: n :: rest else rest
        rw [if_pos (hall n List.mem_cons_self)]
    · rw [hsome]
      dsimp only
      rw [named_append, named_blanks hpre, named_cons_of_ne hx, List.nil_append]
      dsimp only
      rw [if_neg hxdots, named_blank, named_append, named_blanks hpre, named_blank, List.nil_append]
  next hdots =>
    split
    next hdot => rw [if_pos (.inl hdot), named_blank]
    next hdot =>
      by_cases hk : k = []
      · rw [if_pos (.inr hk), hk, named_blank]
      · rw [if_neg (not_or.mpr ⟨hdot, hk⟩), named_cons_of_ne hk]

theorem settled_foldl (h : Settled str) (xs : List Text) : Settled (xs.foldl normStep str) := by
  induction xs generalizing str with
  | nil => exact h
  | cons x xs ih => exact ih (h.normStep x)

theorem named_foldl (h : Settled str) (xs : List Text) :
    named (xs.foldl normStep str) = xs.foldl nameStep (named str) := by
  induction xs generalizing str with
  | nil => rfl
  | cons x xs ih => rw [List.foldl_cons, List.foldl_cons, ih (h.normStep x), named_normStep h]

theorem settled_named (h : Settled str) : Settled (named str) := by
  induction str with
  | nil => exact h
  | cons k str ih =>
    by_cases hk : k = []
    · rw [hk, named_blank]
      exact ih h.2.2
    · rw [named_cons_of_ne hk]
      refine ⟨fun hdots n hn => h.1 hdots n (List.mem_filter.mp hn).1, h.2.1, ih h.2.2⟩

theorem normStep_slashFree (hstr : SlashFree str) (hk : '/' ∉ k) : SlashFree (normStep str k) := by
  have hcancel : ∀ str', cancel str = some str' → SlashFree str' := by
    clear hk
    induction str with
    | nil => exact nofun
    | cons x str ih =>
      obtain ⟨hx, hstr⟩ := slashFree_cons.mp hstr
      intro str' h
      rw [cancel] at h
      split at h
      · obtain ⟨str'', hsome, rfl⟩ := Option.map_eq_some_iff.mp h
        exact slashFree_cons.mpr ⟨hx, ih hstr _ hsome⟩
      · cases h
        exact slashFree_cons.mpr ⟨List.not_mem_nil, hstr⟩
  rw [normStep]
  split
  · split
    next hsome => exact slashFree_cons.mpr ⟨List.not_mem_nil, hcancel _ hsome⟩
    next => exact slashFree_cons.mpr ⟨by decide, hstr⟩
  · split
    · exact slashFree_cons.mpr ⟨List.not_mem_nil, hstr⟩
    · exact slashFree_cons.mpr ⟨hk, hstr⟩

theorem foldl_slashFree (hstr : SlashFree str) (hxs : SlashFree xs) : SlashFree (xs.foldl normStep str) := by
  induction xs generalizing str with
  | nil => exact hstr
  | cons x xs ih =>
    obtain ⟨hx, hxs⟩ := slashFree_cons.mp hxs
    exact ih (normStep_slashFree hstr hx) hxs

/-- The names of a normal path. -/
theorem names_normPath (s : Text) : names (normPath s) = ((split s).foldl nameStep []).reverse := by
  have hfree : SlashFree ((split s).foldl normStep []).reverse := fun x hx =>
    foldl_slashFree (by simp [SlashFree]) (split_slashFree s) x (List.mem_reverse.mp hx)
  rw [normPath, names_squeeze]
  have hnamed := @named_foldl [] trivial (split s)
  cases hfold : ((split s).foldl normStep []).reverse with
  | nil =>
    have hnil := List.reverse_eq_nil_iff.mp hfold
    rw [hnil] at hnamed
    rw [← show named [] = [] from rfl, ← hnamed]
    rfl
  | cons k xs =>
    rw [hfold] at hfree
    rw [names_concat hfree, ← hfold, ← show named [] = [] from rfl, ← hnamed]
    exact List.filter_reverse

theorem settled_normPath (s : Text) : Settled (names (normPath s)).reverse := by
  have hnamed := @named_foldl [] trivial (split s)
  rw [names_normPath, List.reverse_reverse, ← show named [] = [] from rfl, ← hnamed]
  exact settled_named (@settled_foldl [] trivial _)

theorem cancel_append : cancel (xs ++ ys) = ((cancel xs).map (· ++ ys)).or ((cancel ys).map (xs ++ ·)) := by
  induction xs with
  | nil => cases h : cancel ys <;> simp [cancel, h]
  | cons x xs ih =>
    rw [List.cons_append, cancel, cancel, ih]
    split
    · cases cancel xs <;> cases cancel ys <;> rfl
    · rfl

theorem cancel_append_surplus (hk : k = [] ∨ k = dotDot) :
    cancel (str ++ [k]) = (cancel str).map (· ++ [k]) := by
  have hnone : cancel [k] = none := by simp only [cancel, if_pos hk, Option.map_none]
  rw [cancel_append, hnone, Option.map_none, Option.or_none]

theorem foldl_append_surplus (hk : k = [] ∨ k = dotDot) :
    xs.foldl normStep (str ++ [k]) = xs.foldl normStep str ++ [k] := by
  induction xs generalizing str with
  | nil => rfl
  | cons x xs ih =>
    have hstep : normStep (str ++ [k]) x = normStep str x ++ [k] := by
      rw [normStep, normStep, cancel_append_surplus hk]
      split
      · cases cancel str <;> rfl
      · split <;> rfl
    rw [List.foldl_cons, List.foldl_cons, hstep, ih]

/-- The text of a normal path that begins with a slash and ends in a name. -/
theorem normPath_absolute (h : SlashFree (xs ++ [k])) (hk : k ≠ []) (hdot : k ≠ dot) (hdots : k ≠ dotDot) :
    normPath ((xs ++ [k]).flatMap ('/' :: ·)) = ((xs ++ [k]).foldl nameStep []).reverse.flatMap ('/' :: ·) := by
  have hconcat : concat ([] :: (xs ++ [k])) = (xs ++ [k]).flatMap ('/' :: ·) := rfl
  have hblank : SlashFree ([] :: (xs ++ [k])) := slashFree_cons.mpr ⟨List.not_mem_nil, h⟩
  have hsplit : split ((xs ++ [k]).flatMap ('/' :: ·)) = [] :: (xs ++ [k]) :=
    split_concat hblank (by simp [concat])
  have hfold : ([] :: (xs ++ [k])).foldl normStep [] = (xs ++ [k]).foldl normStep [] ++ [[]] :=
    @foldl_append_surplus [] (xs ++ [k]) [] (.inl rfl)
  have hlast : (xs ++ [k]).foldl normStep [] = k :: xs.foldl normStep [] := by
    rw [List.foldl_append, List.foldl_cons, List.foldl_nil, normStep, if_neg hdots, if_neg hdot]
  have hnamed := @named_foldl [] trivial (xs ++ [k])
  have hfree : SlashFree ([] :: ((xs ++ [k]).foldl normStep []).reverse) :=
    slashFree_cons.mpr ⟨List.not_mem_nil, fun x hx => foldl_slashFree (by simp [SlashFree]) h x (List.mem_reverse.mp hx)⟩
  rw [normPath, hsplit, hfold, List.reverse_append, List.reverse_singleton, List.singleton_append,
    squeeze_concat hfree, hlast, List.reverse_cons, collapse_append_singleton hk, concat, List.nil_append,
    ← List.reverse_cons, ← hlast]
  rw [show named [] = [] from rfl] at hnamed
  rw [← hnamed]
  exact congrArg _ List.filter_reverse

-- ---------------------------------------------------------------------------
-- Patterns
-- ---------------------------------------------------------------------------

/-- What a character of the directory's name stands for in the pattern. -/
def classOf (c : Char) : LuaPattern.Class := if c = '.' then fun _ => true else fun x => x = c

def legalSet : Text := ['[', '%', 'w', '-', '_', '/', '.', ']', '+']

theorem illegal_of_mem {c : Char} (h : c ∈ ['%', '[', '(', ')', '*', '+', '?', '$', '\x00']) : legalChar c = false := by
  have hall : ∀ c ∈ ['%', '[', '(', ')', '*', '+', '?', '$', '\x00'], legalChar c = false := by decide
  exact hall c h

theorem counted_pattern {pre : Text} (h : ∀ c ∈ pre, legalChar c = true) :
    LuaPattern.counted (escapeDashes pre ++ legalSet) = (.once, escapeDashes pre ++ legalSet) := by
  refine LuaPattern.counted_once fun x hx hhead => ?_
  cases pre with
  | nil =>
    cases hhead
    exact absurd hx (by decide)
  | cons c pre =>
    have hc := h c List.mem_cons_self
    rw [escapeDashes, List.flatMap_cons] at hhead
    split at hhead
    · cases hhead
      exact absurd hx (by decide)
    next hdash =>
      obtain rfl : c = x := Option.some.inj hhead
      have hmem : c ∈ ['%', '[', '(', ')', '*', '+', '?', '$', '\x00'] := by
        simp only [List.mem_cons, List.not_mem_nil, or_false] at hx ⊢
        rcases hx with rfl | rfl | rfl | rfl
        · simp
        · simp
        · exact absurd rfl hdash
        · simp
      rw [illegal_of_mem hmem] at hc
      cases hc

theorem parse_legalSet (fuel : Nat) : ∃ cls, LuaPattern.parse (fuel + 1) legalSet = some [⟨cls, .plus⟩] ∧
    ∀ c, cls c = legalChar c := by
  refine ⟨fun c => c.isAlphanum || (c = '-' || (c = '_' || (c = '/' || (c = '.' || false)))), ?_, fun c => ?_⟩
  · cases fuel <;> rfl
  · simp only [legalChar, Bool.or_assoc, Bool.or_false]

/-- The pattern takes the name character by character, and then a legal one. -/
theorem parse_pattern {pre : Text} (h : ∀ c ∈ pre, legalChar c = true) {fuel : Nat}
    (hfuel : (escapeDashes pre ++ legalSet).length ≤ fuel) :
    ∃ cls, LuaPattern.parse fuel (escapeDashes pre ++ legalSet) =
        some ((pre.map classOf).map (fun cls => ⟨cls, .once⟩) ++ [⟨cls, .plus⟩]) ∧ ∀ c, cls c = legalChar c := by
  induction pre generalizing fuel with
  | nil =>
    obtain ⟨fuel, rfl⟩ : ∃ n, fuel = n + 1 := ⟨fuel - 1, by simp [escapeDashes, legalSet] at hfuel; omega⟩
    exact parse_legalSet fuel
  | cons c pre ih =>
    obtain ⟨hc, hpre⟩ := List.forall_mem_cons.mp h
    have hcounted := counted_pattern hpre
    have hrest (n : Nat) (hn : (escapeDashes pre ++ legalSet).length ≤ n) (p : Text)
        (hsingle : LuaPattern.single p = some (classOf c, escapeDashes pre ++ legalSet)) (hne : p ≠ [])
        (hend : p ≠ ['$']) : ∃ cls, LuaPattern.parse (n + 1) p =
          some (((c :: pre).map classOf).map (fun cls => ⟨cls, .once⟩) ++ [⟨cls, .plus⟩]) ∧
          ∀ c, cls c = legalChar c := by
      obtain ⟨cls, hparse, hcls⟩ := ih hpre hn
      exact ⟨cls, by rw [LuaPattern.parse_once hsingle hcounted hend hne, hparse]; rfl, hcls⟩
    rw [escapeDashes, List.flatMap_cons, ← escapeDashes] at hfuel ⊢
    by_cases hdash : c = '-'
    · rw [if_pos hdash] at hfuel ⊢
      simp only [List.cons_append, List.length_cons, List.nil_append] at hfuel ⊢
      obtain ⟨fuel, rfl⟩ : ∃ n, fuel = n + 1 := ⟨fuel - 1, by omega⟩
      exact hrest fuel (by omega) _ (by rw [hdash]; rfl) (List.cons_ne_nil _ _) (by simp)
    · rw [if_neg hdash] at hfuel ⊢
      simp only [List.cons_append, List.length_cons, List.nil_append] at hfuel ⊢
      obtain ⟨fuel, rfl⟩ : ∃ n, fuel = n + 1 := ⟨fuel - 1, by omega⟩
      refine hrest fuel (by omega) _ ?_ (List.cons_ne_nil _ _) fun heq => ?_
      · by_cases hdot : c = '.'
        · rw [classOf, if_pos hdot, hdot]
          rfl
        · rw [classOf, if_neg hdot]
          refine LuaPattern.single_char (fun hmem => ?_) _
          have hillegal : c ∈ ['%', '[', '(', ')', '*', '+', '?', '$', '\x00'] := by
            simp only [List.mem_cons, List.not_mem_nil, or_false] at hmem ⊢
            tauto
          rw [illegal_of_mem hillegal] at hc
          cases hc
      · have hillegal : c = '$' := (List.cons.inj heq).1
        rw [illegal_of_mem (by simp [hillegal])] at hc
        cases hc

theorem isPrefixOf_legal {pre : Text} (h : ∀ c ∈ pre, legalChar c = true) (s : Text) :
    ∃ b, isPrefixOf s pre = some b ∧ (b = true ↔
      ∃ a c r, s = a ++ c :: r ∧ List.Forall₂ (fun p x => p = '.' ∨ x = p) pre a ∧ legalChar c = true) := by
  obtain ⟨cls, hparse, hcls⟩ := parse_pattern h (Nat.le_refl _)
  have hset : "[%w-_/.]+".toList = legalSet := rfl
  refine ⟨_, by rw [isPrefixOf, LuaPattern.isMatch, hset, hparse]; rfl, ?_⟩
  rw [LuaPattern.matchItems_once]
  have hclass (a : Text) : List.Forall₂ (fun cls x => cls x = true) (pre.map classOf) a ↔
      List.Forall₂ (fun p x => p = '.' ∨ x = p) pre a := by
    have hone : (fun p x => classOf p x = true) = fun p x => p = '.' ∨ x = p := by
      funext p x
      by_cases hp : p = '.'
      · simp [classOf, hp]
      · simp [classOf, hp]
    rw [List.forall₂_map_left_iff, hone]
  constructor
  · rintro ⟨a, r, rfl, hall, hplus⟩
    obtain ⟨c, r, rfl, hc⟩ := (LuaPattern.matchItems_plus _ _).mp hplus
    exact ⟨a, c, r, rfl, (hclass a).mp hall, hcls c ▸ hc⟩
  · rintro ⟨a, c, r, rfl, hall, hc⟩
    exact ⟨a, c :: r, rfl, (hclass a).mpr hall, (LuaPattern.matchItems_plus _ _).mpr ⟨c, r, rfl, by rw [hcls]; exact hc⟩⟩

end GalaLua.Modules.Path
