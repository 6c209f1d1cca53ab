import GalaLua.Library.Routes
import GalaLua.Modules.NormPath
import Mathlib.Data.List.Induction

/-!
# Absolute paths

`abs_path` puts the working directory in front of every path, also of one that is
absolute already. What that does to the place, to a second application and to
`same_file` is `absPath_iff`.
-/

namespace GalaLua.Modules.Path

open Library (Move Route)
open Library.LuaPattern (Text)

/-- A path as the system takes it. -/
structure PathString where
  text : Text
  noNul : '\x00' ∉ text

inductive Kind
  | file
  | directory
  deriving DecidableEq, Repr

/-- A file system without links; a place has its last name first. -/
structure Tree where
  kind : List Text → Option Kind
  root : kind [] = some .directory
  parent : ∀ n loc, kind (n :: loc) ≠ none → kind loc = some .directory

def Tree.enter (tree : Tree) (loc : List Text) (k : Text) : Option (List Text) :=
  if tree.kind loc = some .directory ∧ tree.kind (walk loc k) ≠ none then some (walk loc k) else none

/-- The place that a path leads to, if something is there. -/
def Tree.find (tree : Tree) (start : List Text) (s : Text) : Option (List Text) :=
  if s = [] then none else (split s).foldlM tree.enter (if Absolute s then [] else start)

/-- `same_file`; `exists` opens the first of the two paths. -/
def sameFile (tree : Tree) (pwd : Option Text) (s p : Text) : Except String Bool := do
  let p1 ← absPath pwd s
  let p2 ← absPath pwd p
  .ok (p1 = p2 && (tree.find [] p1).isSome)

-- ---------------------------------------------------------------------------
-- What is expected
-- ---------------------------------------------------------------------------

/-- The absolute path is the place of `p`, and the normal form of a `p` that is absolute. -/
def Located (pwd p : PathString) : Prop :=
  ∃ t, absPath (some pwd.text) p.text = .ok t ∧ Absolute t ∧
    (∀ start, locate start t = locate (locate [] pwd.text) p.text) ∧ (Absolute p.text → t = normPath p.text)

def Idempotent (pwd p : PathString) : Prop :=
  ∃ t, absPath (some pwd.text) p.text = .ok t ∧ absPath (some pwd.text) t = .ok t

/-- `same_file` compares the places of two files. -/
def Compares (tree : Tree) (pwd s p : PathString) : Prop :=
  sameFile tree (some pwd.text) s.text p.text = .ok true ↔
    locate (locate [] pwd.text) s.text = locate (locate [] pwd.text) p.text

-- ---------------------------------------------------------------------------
-- Routes of paths
-- ---------------------------------------------------------------------------

def move (k : Text) : Move Text :=
  if k = [] ∨ k = dot then .stay else if k = dotDot then .up else .enter k

def route (xs : List Text) : Route Text := Route.of (xs.map move)

/-- The components of a path; the empty path has an empty one. -/
def parts (s : Text) : List Text := if s = [] then [[]] else split s

/-- The last component is none that a normal path ends with. -/
def Trails (xs : List Text) : Prop :=
  match xs.reverse with
  | [] => False
  | k :: pre => k = [] ∨ k = dot ∨ k = dotDot ∧ (route pre.reverse).names ≠ []

instance (xs : List Text) : Decidable (Trails xs) := by
  unfold Trails
  split <;> infer_instance

/-- The entries of the normal form. -/
def entries (r : Route Text) : List Text := List.replicate r.ups dotDot ++ r.names.reverse

/-- The text of an absolute normal path. -/
def render (r : Route Text) (trails : Prop) [Decidable trails] : Text :=
  concat ([] :: (entries r ++ if trails then [[]] else []))

def Real (n : Text) : Prop := n ≠ [] ∧ n ≠ dot ∧ n ≠ dotDot

variable {s k n : Text} {xs ys pre str loc : List Text} {r q : Route Text} {tree : Tree} {pwd p : PathString}

theorem walk_eq (loc : List Text) (k : Text) : walk loc k = (move k).run loc := by
  unfold walk move
  split
  · rfl
  · split <;> rfl

theorem move_eq_up (h : move k = .up) : k = dotDot := by
  unfold move at h
  split at h
  · cases h
  · split at h
    next hup => exact hup
    next => cases h

theorem move_real (h : Real n) : move n = .enter n := by
  rw [move, if_neg (not_or.mpr ⟨h.1, h.2.1⟩), if_neg h.2.2]

theorem foldl_walk_route (xs loc : List Text) : xs.foldl walk loc = (route xs).apply loc := by
  rw [route, ← Route.foldl_run, List.foldl_map]
  simp only [← walk_eq]

theorem route_append (xs ys : List Text) : route (xs ++ ys) = (route xs).comp (route ys) := by
  rw [route, List.map_append, Route.of_append, route, route]

theorem route_concat (xs : List Text) (k : Text) : route (xs ++ [k]) = (route xs).step (move k) := by
  rw [route, List.map_append, List.map_singleton, Route.of_concat, route]

theorem route_blank (xs : List Text) : route ([] :: xs) = route xs := by
  rw [← List.singleton_append, route_append]
  exact Route.here_comp

theorem trails_concat : Trails (pre ++ [k]) ↔ k = [] ∨ k = dot ∨ k = dotDot ∧ (route pre).names ≠ [] := by
  rw [Trails, List.reverse_append, List.reverse_singleton, List.singleton_append]
  simp only [List.reverse_reverse]

/-- One entry more, on the names and on the route. -/
theorem nameStep_entries (h : ∀ n ∈ r.names, Real n) (k : Text) :
    nameStep (entries r).reverse k = (entries (r.step (move k))).reverse ∧
      ∀ n ∈ (r.step (move k)).names, n ∈ r.names ∨ n = k ∧ Real k := by
  obtain ⟨ups, names⟩ := r
  simp only [entries, List.reverse_append, List.reverse_reverse, List.reverse_replicate]
  unfold nameStep
  by_cases hup : k = dotDot
  · have hmove : move k = .up := by rw [hup]; rfl
    rw [if_pos hup, hmove]
    cases names with
    | nil => cases ups <;> exact ⟨rfl, fun _ hn => .inl hn⟩
    | cons n names =>
      refine ⟨?_, fun m hm => .inl (List.mem_cons_of_mem _ hm)⟩
      rw [List.cons_append]
      exact if_neg (h n List.mem_cons_self).2.2
  rw [if_neg hup]
  by_cases hstay : k = dot ∨ k = []
  · have hmove : move k = .stay := by rw [move, if_pos hstay.symm]
    rw [if_pos hstay, hmove]
    exact ⟨rfl, fun _ hn => .inl hn⟩
  · have hreal : Real k := ⟨fun hk => hstay (.inr hk), fun hk => hstay (.inl hk), hup⟩
    rw [if_neg hstay, move_real hreal]
    exact ⟨rfl, fun m hm => (List.mem_cons.mp hm).elim (fun heq => .inr ⟨heq, hreal⟩) .inl⟩

theorem foldl_nameStep (xs : List Text) : xs.foldl nameStep [] = (entries (route xs)).reverse ∧
    ∀ n ∈ (route xs).names, n ∈ xs ∧ Real n := by
  induction xs using List.reverseRecOn with
  | nil => exact ⟨rfl, fun n hn => absurd hn List.not_mem_nil⟩
  | append_singleton xs k ih =>
    obtain ⟨hfold, hnames⟩ := ih
    obtain ⟨hstep, hmem⟩ := nameStep_entries (fun n hn => (hnames n hn).2) k
    rw [List.foldl_append, List.foldl_cons, List.foldl_nil, hfold, hstep, route_concat]
    refine ⟨rfl, fun n hn => ?_⟩
    rcases hmem n hn with hold | ⟨rfl, hreal⟩
    · exact ⟨List.mem_append_left _ (hnames n hold).1, (hnames n hold).2⟩
    · exact ⟨List.mem_append_right _ (List.mem_singleton_self _), hreal⟩

theorem real_names {xs : List Text} : ∀ n ∈ (route xs).names, Real n := fun n hn => ((foldl_nameStep xs).2 n hn).2

theorem named_fold (xs : List Text) : named (xs.foldl normStep []).reverse = entries (route xs) := by
  have hnamed := @named_foldl [] trivial xs
  rw [named, List.filter_reverse, ← named, hnamed, show named [] = [] from rfl, (foldl_nameStep xs).1,
    List.reverse_reverse]

/-- The last entry is blank where the last component trails. -/
theorem head_fold (xs : List Text) : (xs.foldl normStep []).head? = some [] ↔ Trails xs := by
  rcases List.eq_nil_or_concat' xs with rfl | ⟨pre, k, rfl⟩
  · exact iff_of_false (by simp) id
  rw [trails_concat, List.foldl_append, List.foldl_cons, List.foldl_nil]
  have hset : Settled (pre.foldl normStep []) := @settled_foldl [] trivial _
  have hnamed := named_fold pre
  rw [named, List.filter_reverse, ← named, List.reverse_eq_iff] at hnamed
  generalize pre.foldl normStep [] = str at hset hnamed
  rw [normStep]
  by_cases hup : k = dotDot
  · subst hup
    rw [if_pos rfl, or_iff_right (by decide), or_iff_right (by decide), and_iff_right rfl]
    rcases cancel_cases hset with ⟨hnone, hsurplus⟩ | ⟨a, x, b, rfl, ha, hx, hdots, hsome⟩
    · rw [hnone]
      refine iff_of_false (by simp [dotDot]) fun hne => ?_
      obtain ⟨n, hn⟩ := List.exists_mem_of_ne_nil _ hne
      have hmem : n ∈ named str := by
        rw [hnamed, List.mem_reverse]
        exact List.mem_append_right _ (List.mem_reverse.mpr hn)
      exact (real_names n hn).2.2 (named_surplus hsurplus n hmem)
    · rw [hsome]
      refine iff_of_true rfl fun hnil => ?_
      have hmem : x ∈ named (a ++ x :: b) := by
        rw [named_append, named_cons_of_ne hx]
        exact List.mem_append_right _ List.mem_cons_self
      rw [hnamed, List.mem_reverse, entries, hnil, List.reverse_nil, List.append_nil, List.mem_replicate] at hmem
      exact hdots hmem.2
  rw [if_neg hup]
  by_cases hdot : k = dot
  · rw [if_pos hdot]
    exact iff_of_true rfl (.inr (.inl hdot))
  · rw [if_neg hdot, List.head?_cons, Option.some.injEq]
    simp [hup, hdot]

theorem collapse_eq (xs : List Text) : collapse xs = named xs ++ if xs.getLast? = some [] then [[]] else [] := by
  induction xs with
  | nil => rfl
  | cons x xs ih =>
    rw [collapse]
    cases xs with
    | nil => by_cases hx : x = [] <;> simp [collapse, named, hx]
    | cons y ys =>
      rw [List.getLast?_cons_cons, ih]
      by_cases hx : x = []
      · rw [if_pos ⟨hx, List.cons_ne_nil _ _⟩, hx, named_blank]
      · rw [if_neg (fun h => hx h.1), named_cons_of_ne hx, List.cons_append]

/-- The text of the normal form of an absolute path. -/
theorem normPath_render (h : Absolute s) : normPath s = render (route (split s)) (Trails (split s)) := by
  obtain ⟨xs, hs, hne⟩ : ∃ xs, split s = [] :: xs ∧ xs ≠ [] := by
    rcases hs : split s with _ | ⟨k, xs⟩
    · rw [split_eq_nil.mp hs] at h
      cases h
    · obtain ⟨rfl, hne⟩ := (absolute_iff hs).mp h
      exact ⟨xs, rfl, hne⟩
  have hfold : (split s).foldl normStep [] = xs.foldl normStep [] ++ [[]] := by
    rw [hs]
    exact @foldl_append_surplus _ xs [] (.inl rfl)
  have hfree : SlashFree ([] :: (xs.foldl normStep []).reverse) := by
    refine slashFree_cons.mpr ⟨List.not_mem_nil, fun x hx => ?_⟩
    have hxs := split_slashFree s
    rw [hs] at hxs
    exact foldl_slashFree (by simp [SlashFree]) (slashFree_cons.mp hxs).2 x (List.mem_reverse.mp hx)
  have hnamed := named_fold (split s)
  have hhead := head_fold (split s)
  have hlen := @length_foldl xs []
  rw [normPath, hfold] at *
  generalize xs.foldl normStep [] = top at *
  rw [List.reverse_append, List.reverse_singleton, List.singleton_append, named_blank] at hnamed
  rw [List.reverse_append, List.reverse_singleton, List.singleton_append, squeeze_concat hfree, collapse_eq, hnamed,
    List.getLast?_reverse, render]
  cases top with
  | nil =>
    rw [List.length_nil, Nat.zero_add] at hlen
    exact absurd (List.eq_nil_of_length_eq_zero hlen.symm) hne
  | cons x top =>
    rw [List.cons_append, List.head?_cons] at hhead
    by_cases htrails : Trails (split s)
    · rw [if_pos htrails, List.head?_cons, if_pos (hhead.mpr htrails)]
    · rw [if_neg htrails, List.head?_cons, if_neg fun heq => htrails (hhead.mp heq)]

-- ---------------------------------------------------------------------------
-- Absolute paths
-- ---------------------------------------------------------------------------

theorem parts_concat (h : SlashFree (k :: xs)) : parts (concat (k :: xs)) = k :: xs := by
  rw [parts]
  split
  next hnil =>
    obtain ⟨rfl, hflat⟩ := List.append_eq_nil_iff.mp hnil
    cases xs with
    | nil => rfl
    | cons z zs => cases hflat
  next hne => exact split_concat h hne

theorem exists_parts (s : Text) : ∃ k xs, parts s = k :: xs ∧ s = concat (k :: xs) ∧ SlashFree (k :: xs) := by
  obtain ⟨k, xs, rfl, hfree⟩ := exists_concat s
  exact ⟨k, xs, parts_concat hfree, rfl, hfree⟩

theorem parts_of_ne (h : s ≠ []) : parts s = split s := if_neg h

theorem split_join (s t : Text) : split (s ++ '/' :: t) = parts s ++ parts t := by
  obtain ⟨k, xs, hs, rfl, hfree⟩ := exists_parts s
  obtain ⟨k', xs', ht, rfl, hfree'⟩ := exists_parts t
  have hjoin : concat (k :: xs) ++ '/' :: concat (k' :: xs') = concat (k :: (xs ++ k' :: xs')) := by
    rw [← List.cons_append, concat_append (List.cons_ne_nil _ _), List.flatMap_cons]
    rfl
  rw [hs, ht, hjoin, split_concat, List.cons_append]
  · refine fun x hx => ?_
    rw [← List.cons_append, List.mem_append] at hx
    exact hx.elim (hfree x) (hfree' x)
  · rw [← hjoin]
    simp

theorem absolute_append (h : Absolute s) (t : Text) : Absolute (s ++ t) := by
  cases s with
  | nil => cases h
  | cons c s => exact h

theorem absPath_eq (hpwd : '\x00' ∉ s) (habs : Absolute s) {t : Text} (ht : '\x00' ∉ t) :
    absPath (some s) t = .ok (normPath (s ++ '/' :: t)) ∧
      normPath (s ++ '/' :: t) = render ((route (parts s)).comp (route (parts t))) (Trails (parts s ++ parts t)) := by
  refine ⟨by rw [absPath, join, formatArg_of_not_mem hpwd, formatArg_of_not_mem ht], ?_⟩
  rw [normPath_render (absolute_append habs _)]
  simp only [split_join, route_append]

theorem parts_render {b : Prop} [Decidable b] (h : SlashFree r.names) :
    parts (render r b) = [] :: (entries r ++ if b then [[]] else []) := by
  refine parts_concat (slashFree_cons.mpr ⟨List.not_mem_nil, fun x hx => ?_⟩)
  rw [entries, List.append_assoc, List.mem_append, List.mem_append] at hx
  rcases hx with hx | hx | hx
  · rw [(List.mem_replicate.mp hx).2]
    decide
  · exact h x (List.mem_reverse.mp hx)
  · split at hx
    · rw [List.mem_singleton.mp hx]
      exact List.not_mem_nil
    · exact absurd hx List.not_mem_nil

theorem route_entries (h : ∀ n ∈ r.names, Real n) : route (entries r) = r := by
  rw [route, entries, List.map_append, List.map_replicate, List.map_congr_left fun n hn =>
    move_real (h n (List.mem_reverse.mp hn))]
  exact Route.of_moves r

theorem route_render {b : Prop} [Decidable b] (hfree : SlashFree r.names) (h : ∀ n ∈ r.names, Real n) :
    route (parts (render r b)) = r := by
  rw [parts_render hfree, route_blank, route_append, route_entries h]
  split <;> exact Route.comp_here

theorem render_inj {b c : Prop} [Decidable b] [Decidable c] (hr : SlashFree r.names) (hr' : ∀ n ∈ r.names, Real n)
    (hq : SlashFree q.names) (hq' : ∀ n ∈ q.names, Real n) (h : render r b = render q c) : r = q ∧ (b ↔ c) := by
  have hroute : r = q := by rw [← @route_render r b _ hr hr', h, route_render hq hq']
  refine ⟨hroute, ?_⟩
  have hparts : parts (render r b) = parts (render q c) := by rw [h]
  rw [parts_render hr, parts_render hq, hroute, List.cons_inj_right, List.append_cancel_left_eq] at hparts
  by_cases hb : b <;> by_cases hc : c <;> simp_all

theorem render_congr {b c : Prop} [Decidable b] [Decidable c] (hrq : r = q) (hbc : b ↔ c) :
    render r b = render q c := by
  unfold render
  rw [hrq]
  by_cases hb : b
  · rw [if_pos hb, if_pos (hbc.mp hb)]
  · rw [if_neg hb, if_neg fun hc => hb (hbc.mpr hc)]

theorem mem_concat {c : Char} : c ∈ concat xs → c = '/' ∨ ∃ x ∈ xs, c ∈ x := by
  cases xs with
  | nil => exact fun h => absurd h List.not_mem_nil
  | cons k xs =>
    intro h
    rcases List.mem_append.mp h with hk | hrest
    · exact .inr ⟨k, List.mem_cons_self, hk⟩
    · obtain ⟨x, hx, hc⟩ := List.mem_flatMap.mp hrest
      exact (List.mem_cons.mp hc).imp id fun hc => ⟨x, List.mem_cons_of_mem _ hx, hc⟩

theorem mem_of_parts {c : Char} {x : Text} (hx : x ∈ parts s) (hc : c ∈ x) : c ∈ s := by
  obtain ⟨k, xs, hs, rfl, -⟩ := exists_parts s
  rw [hs] at hx
  rcases List.mem_cons.mp hx with rfl | hx
  · exact List.mem_append_left _ hc
  · exact List.mem_append_right _ (List.mem_flatMap.mpr ⟨x, hx, List.mem_cons_of_mem _ hc⟩)

theorem nul_render {b : Prop} [Decidable b] (h : ∀ n ∈ r.names, '\x00' ∉ n) : '\x00' ∉ render r b := by
  intro hmem
  rcases mem_concat hmem with heq | ⟨x, hx, hc⟩
  · exact absurd heq (by decide)
  rw [entries, List.append_assoc, List.mem_cons, List.mem_append, List.mem_append] at hx
  rcases hx with rfl | hx | hx | hx
  · exact absurd hc List.not_mem_nil
  · rw [(List.mem_replicate.mp hx).2] at hc
    exact absurd hc (by decide)
  · exact h x (List.mem_reverse.mp hx) hc
  · split at hx
    · rw [List.mem_singleton.mp hx] at hc
      exact absurd hc List.not_mem_nil
    · exact absurd hx List.not_mem_nil

/-- The route of a path that is put below the working directory. -/
def below (pwd p : PathString) : Route Text := (route (parts pwd.text)).comp (route (parts p.text))

def TrailsBelow (pwd p : PathString) : Prop := Trails (parts pwd.text ++ parts p.text)

instance (pwd p : PathString) : Decidable (TrailsBelow pwd p) := inferInstanceAs (Decidable (Trails _))

/-- What the working directory and a path give. -/
structure Joined (pwd p : PathString) (t : Text) : Prop where
  result : absPath (some pwd.text) p.text = .ok t
  text : t = render (below pwd p) (TrailsBelow pwd p)
  slashFree : SlashFree (below pwd p).names
  real : ∀ n ∈ (below pwd p).names, Real n
  noNul : '\x00' ∉ t
  absolute : Absolute t
  location : ∀ start, locate start t = (below pwd p).names

theorem keeps_of_absolute (h : Absolute s) : Keeps s := by
  rw [normPath_iff]
  intro k xs hs _
  obtain ⟨rfl, -⟩ := (absolute_iff hs).mp h
  exact ⟨by decide, .inl rfl⟩

theorem exists_joined (h : Absolute pwd.text) (p : PathString) : ∃ t, Joined pwd p t := by
  obtain ⟨hresult, htext⟩ := absPath_eq pwd.noNul h p.noNul
  have hroute : below pwd p = route (parts pwd.text ++ parts p.text) := (route_append _ _).symm
  have hmem : ∀ n ∈ (below pwd p).names, n ∈ parts pwd.text ++ parts p.text ∧ Real n := by
    rw [hroute]
    exact (foldl_nameStep _).2
  have hjoin := absolute_append h ('/' :: p.text)
  have hkeeps := keeps_of_absolute hjoin
  refine ⟨_, hresult, htext, fun n hn => ?_, fun n hn => (hmem n hn).2, ?_, hkeeps.absolute.mpr hjoin, fun start => ?_⟩
  · refine split_slashFree (pwd.text ++ '/' :: p.text) n ?_
    rw [split_join]
    exact (hmem n hn).1
  · rw [htext]
    refine nul_render fun n hn hc => ?_
    rcases List.mem_append.mp (hmem n hn).1 with hn | hn
    · exact pwd.noNul (mem_of_parts hn hc)
    · exact p.noNul (mem_of_parts hn hc)
  · rw [hkeeps.location, locate, if_pos hjoin, foldl_walk_route, split_join, ← hroute, Route.apply, List.drop_nil,
      List.append_nil]

theorem route_parts (s : Text) : route (parts s) = route (split s) := by
  rw [parts]
  split
  next hnil => rw [hnil]; rfl
  next => rfl

theorem locate_pwd (h : Absolute s) : locate [] s = (route (parts s)).names := by
  rw [locate, if_pos h, foldl_walk_route, route_parts, Route.apply, List.drop_nil, List.append_nil]

theorem locate_path (start : List Text) (s : Text) :
    locate start s = (route (parts s)).apply (if Absolute s then [] else start) := by
  rw [locate, foldl_walk_route, route_parts]

/-- A last `..` that leaves the last name of the working directory. -/
theorem trails_append (xs pre : List Text) (k : Text)
    (h : (route xs).names.length ≤ (route pre).ups) : Trails (xs ++ (pre ++ [k])) ↔ Trails (pre ++ [k]) := by
  rw [← List.append_assoc, trails_concat, trails_concat, route_append, Route.comp, List.drop_eq_nil_of_le h,
    List.append_nil]

theorem exists_concat_parts (s : Text) : ∃ pre k, parts s = pre ++ [k] ∧ (parts s).dropLast = pre := by
  obtain ⟨k, xs, hs, -, -⟩ := exists_parts s
  rcases List.eq_nil_or_concat' (parts s) with hnil | ⟨pre, k, hcons⟩
  · rw [hs] at hnil
    cases hnil
  · exact ⟨pre, k, hcons, by rw [hcons, List.dropLast_concat]⟩

theorem parts_slashFree (s : Text) : SlashFree (parts s) := by
  obtain ⟨k, xs, hs, -, hfree⟩ := exists_parts s
  exact hs ▸ hfree

theorem names_slashFree (h : SlashFree xs) : SlashFree (route xs).names := fun n hn =>
  h n ((foldl_nameStep xs).2 n hn).1

theorem located_iff (h : Absolute pwd.text) (p : PathString) : Located pwd p ↔
    (Absolute p.text → (route (parts pwd.text)).ups = (route (parts pwd.text)).names.length ∧
      (route (parts pwd.text)).names.length ≤ (route (parts p.text).dropLast).ups) := by
  obtain ⟨t, hjoin⟩ := exists_joined h p
  obtain ⟨pre, k, hparts, hpre⟩ := exists_concat_parts p.text
  have hstep : route (parts p.text) = (route pre).step (move k) := by rw [hparts, route_concat]
  have hnormal (habs : Absolute p.text) : normPath p.text = render (route (parts p.text)) (Trails (parts p.text)) := by
    have hne : p.text ≠ [] := fun hnil => by rw [hnil] at habs; cases habs
    simp only [parts_of_ne hne]
    exact normPath_render habs
  have hfree := names_slashFree (parts_slashFree p.text)
  rw [hpre]
  constructor
  · rintro ⟨t', ht', -, -, heq⟩ habs
    obtain rfl : t' = t := Except.ok.inj (ht'.symm.trans hjoin.result)
    have hrender := hjoin.text.symm.trans ((heq habs).trans (hnormal habs))
    obtain ⟨hcomp, htrails⟩ := render_inj hjoin.slashFree hjoin.real hfree real_names hrender
    obtain ⟨hle, hups⟩ := Route.comp_eq_right.mp hcomp
    refine ⟨hups, ?_⟩
    by_contra hlt
    have hmore := @Route.step_ups _ (route pre) (move k)
    rw [← hstep] at hmore
    rcases hmore with heq | ⟨hmove, hnil, -⟩
    · omega
    · -- the last `..` leaves a name of the working directory
      rw [TrailsBelow, hparts, ← List.append_assoc, trails_concat, trails_concat, route_append, hnil,
        move_eq_up hmove] at htrails
      have hdrop : (route (parts pwd.text)).names.drop (route pre).ups ≠ [] := fun hd =>
        hlt (List.drop_eq_nil_iff.mp hd)
      rcases htrails.mp (.inr (.inr ⟨rfl, by rwa [Route.comp, hnil]⟩)) with h | h | h
      · exact absurd h (by decide)
      · exact absurd h (by decide)
      · exact h.2 rfl
  · intro hcond
    have hle : (route pre).ups ≤ (route (parts p.text)).ups := by
      have := @Route.step_ups _ (route pre) (move k)
      rw [← hstep] at this
      omega
    refine ⟨t, hjoin.result, hjoin.absolute, fun start => ?_, fun habs => ?_⟩
    · rw [hjoin.location, locate_pwd h, locate_path]
      by_cases habs : Absolute p.text
      · rw [if_pos habs, below, Route.comp, Route.apply, List.drop_nil,
          List.drop_eq_nil_of_le (Nat.le_trans (hcond habs).2 hle)]
      · rw [if_neg habs]
        rfl
    · obtain ⟨hups, hlen⟩ := hcond habs
      rw [hjoin.text, hnormal habs]
      refine render_congr (Route.comp_eq_right.mpr ⟨Nat.le_trans hlen hle, hups⟩) ?_
      rw [TrailsBelow, hparts]
      exact trails_append _ pre k hlen

/-- Without names, the last component of a path that does not trail is a `..` that leaves
nothing. -/
theorem ups_of_nil (hnames : (below pwd p).names = []) (h : ¬ TrailsBelow pwd p) :
    ∃ u, (below pwd p).ups = u + 1 ∧ (route (parts pwd.text)).ups ≤ u := by
  obtain ⟨pre, k, hparts, -⟩ := exists_concat_parts p.text
  have hstep : below pwd p = ((route (parts pwd.text)).comp (route pre)).step (move k) := by
    rw [below, hparts, route_concat, Route.comp_step]
  rw [TrailsBelow, hparts, ← List.append_assoc, trails_concat, route_append, not_or, not_or] at h
  obtain ⟨hblank, hdot, hdots⟩ := h
  rw [hstep] at hnames ⊢
  by_cases hup : k = dotDot
  · have hnil : ((route (parts pwd.text)).comp (route pre)).names = [] := by
      by_contra hne
      exact hdots ⟨hup, hne⟩
    have hmove : move k = .up := by rw [hup]; rfl
    refine ⟨((route (parts pwd.text)).comp (route pre)).ups, ?_, Nat.le_add_right ..⟩
    rw [hmove, Route.step, hnil]
  · rw [move_real ⟨hblank, hdot, hup⟩] at hnames
    cases hnames

theorem idempotent_iff (h : Absolute pwd.text) (p : PathString) : Idempotent pwd p ↔
    (route (parts pwd.text)).ups = (route (parts pwd.text)).names.length := by
  obtain ⟨t, hjoin⟩ := exists_joined h p
  obtain ⟨hagain, htext⟩ := absPath_eq pwd.noNul h hjoin.noNul
  have hparts := @parts_render _ (TrailsBelow pwd p) _ hjoin.slashFree
  have hroute := @route_render _ (TrailsBelow pwd p) _ hjoin.slashFree hjoin.real
  rw [← hjoin.text] at hparts hroute
  rw [hroute] at htext
  have hidem : Idempotent pwd p ↔ render ((route (parts pwd.text)).comp (below pwd p))
      (Trails (parts pwd.text ++ parts t)) = t := by
    constructor
    · rintro ⟨t', ht', hagain'⟩
      obtain rfl : t' = t := Except.ok.inj (ht'.symm.trans hjoin.result)
      rw [← htext]
      exact Except.ok.inj (hagain.symm.trans hagain')
    · exact fun heq => ⟨t, hjoin.result, by rw [hagain, htext, heq]⟩
  rw [hidem]
  have hfree : SlashFree (route (parts pwd.text ++ parts t)).names :=
    names_slashFree (List.forall_mem_append.mpr ⟨parts_slashFree _, parts_slashFree _⟩)
  have hreal := @real_names (parts pwd.text ++ parts t)
  rw [route_append, hroute] at hfree hreal
  constructor
  · intro heq
    exact (Route.comp_eq_right.mp (render_inj hfree hreal hjoin.slashFree hjoin.real (heq.trans hjoin.text)).1).2
  · intro hups
    refine (render_congr (Route.comp_eq_right.mpr ⟨?_, hups⟩) ?_).trans hjoin.text.symm
    · rw [← hups]
      exact Nat.le_add_right ..
    by_cases htrails : TrailsBelow pwd p
    · rw [if_pos htrails, ← List.cons_append] at hparts
      rw [hparts, ← List.append_assoc, trails_concat]
      exact iff_of_true (.inl rfl) htrails
    rw [if_neg htrails, List.append_nil] at hparts
    refine iff_of_false (fun htrails' => ?_) htrails
    rw [hparts] at htrails'
    cases hnames : (below pwd p).names with
    | cons n names =>
      obtain ⟨hne, hdot, hdots⟩ := hjoin.real n (by rw [hnames]; exact List.mem_cons_self)
      rw [entries, hnames, List.reverse_cons, ← List.append_assoc, ← List.cons_append, ← List.append_assoc,
        trails_concat] at htrails'
      rcases htrails' with h | h | h
      · exact hne h
      · exact hdot h
      · exact hdots h.1
    | nil =>
      obtain ⟨u, hu, hlen⟩ := ups_of_nil hnames htrails
      have hentries : entries (below pwd p) = entries ⟨u, []⟩ ++ [dotDot] := by
        rw [entries, entries, hnames, hu, List.replicate_succ', List.reverse_nil, List.append_nil, List.append_nil]
      rw [hentries, ← List.cons_append, ← List.append_assoc, trails_concat, route_append, route_blank,
        route_entries (r := ⟨u, []⟩) (fun n hn => absurd hn List.not_mem_nil)] at htrails'
      have hdrop : (route (parts pwd.text)).names.drop u = [] := List.drop_eq_nil_of_le (by omega)
      rcases htrails' with h | h | h
      · exact absurd h (by decide)
      · exact absurd h (by decide)
      · exact h.2 (by rw [Route.comp, hdrop]; rfl)

-- ---------------------------------------------------------------------------
-- Files
-- ---------------------------------------------------------------------------

theorem Tree.enter_eq_some {loc' : List Text} : tree.enter loc k = some loc' ↔
    tree.kind loc = some .directory ∧ tree.kind loc' ≠ none ∧ loc' = walk loc k := by
  rw [Tree.enter]
  split
  next h => exact ⟨fun heq => ⟨h.1, Option.some.inj heq ▸ h.2, (Option.some.inj heq).symm⟩, fun heq => by rw [heq.2.2]⟩
  next h => exact ⟨nofun, fun heq => absurd ⟨heq.1, heq.2.2 ▸ heq.2.1⟩ h⟩

theorem Tree.kind_tail (h : tree.kind loc ≠ none) : loc = [] ∨ tree.kind loc.tail = some .directory := by
  cases loc with
  | nil => exact .inl rfl
  | cons n loc => exact .inr (tree.parent n loc h)

theorem walk_real (h : Real n) (loc : List Text) : walk loc n = n :: loc := by
  rw [walk_eq, move_real h, Move.run]

theorem Tree.foldlM_names (h : ∀ n ∈ loc, Real n) :
    loc.reverse.foldlM tree.enter [] = if tree.kind loc ≠ none then some loc else none := by
  induction loc with
  | nil => rw [if_pos (by rw [tree.root]; exact Option.some_ne_none _)]; rfl
  | cons n loc ih =>
    obtain ⟨hn, hloc⟩ := List.forall_mem_cons.mp h
    rw [List.reverse_cons, List.foldlM_append, ih hloc]
    by_cases hkind : tree.kind (n :: loc) ≠ none
    · have hdir := tree.parent n loc hkind
      rw [if_pos hkind, if_pos (by rw [hdir]; exact Option.some_ne_none _)]
      exact (bind_pure _).trans (Tree.enter_eq_some.mpr ⟨hdir, hkind, (walk_real hn loc).symm⟩)
    · rw [if_neg hkind]
      split
      · refine (bind_pure _).trans (Option.eq_none_iff_forall_ne_some.mpr fun loc' heq => ?_)
        obtain ⟨-, hkind', rfl⟩ := Tree.enter_eq_some.mp heq
        rw [walk_real hn] at hkind'
        exact hkind hkind'
      · rfl

theorem Tree.foldlM_surplus (tree : Tree) (m : Nat) : (List.replicate m dotDot).foldlM tree.enter [] = some [] := by
  induction m with
  | zero => rfl
  | succ m ih =>
    have hup : tree.enter [] dotDot = some [] :=
      Tree.enter_eq_some.mpr ⟨tree.root, by rw [tree.root]; exact Option.some_ne_none _, rfl⟩
    rw [List.replicate_succ, List.foldlM_cons, hup]
    exact ih

/-- What opening an absolute normal path needs. -/
theorem find_render {b : Prop} [Decidable b] (hfree : SlashFree r.names) (h : ∀ n ∈ r.names, Real n)
    (habs : Absolute (render r b)) : (tree.find [] (render r b)).isSome = true ↔
      tree.kind r.names ≠ none ∧ (b → tree.kind r.names = some .directory) := by
  have hne : render r b ≠ [] := fun hnil => by rw [hnil] at habs; cases habs
  have hroot : tree.enter [] [] = some [] :=
    Tree.enter_eq_some.mpr ⟨tree.root, by rw [tree.root]; exact Option.some_ne_none _, rfl⟩
  rw [Tree.find, if_neg hne, if_pos habs, ← parts_of_ne hne, parts_render hfree, List.foldlM_cons, hroot, entries,
    List.append_assoc]
  simp only [Option.bind_eq_bind, Option.bind_some, List.foldlM_append, tree.foldlM_surplus, Tree.foldlM_names h]
  by_cases hkind : tree.kind r.names ≠ none
  · rw [if_pos hkind, and_iff_right hkind]
    by_cases hb : b
    · rw [if_pos hb, forall_prop_of_true hb]
      rw [Option.bind_some, List.foldlM_cons, Option.isSome_iff_exists]
      constructor
      · rintro ⟨loc', heq⟩
        obtain ⟨m, hm, -⟩ := Option.bind_eq_some_iff.mp heq
        exact (Tree.enter_eq_some.mp hm).1
      · intro hdir
        rw [Tree.enter_eq_some.mpr ⟨hdir, hkind, rfl⟩]
        exact ⟨_, rfl⟩
    · rw [if_neg hb]
      exact iff_of_true rfl fun hb' => absurd hb' hb
  · rw [if_neg hkind]
    exact iff_of_false (by simp) fun h => hkind h.1

theorem Tree.foldlM_walk {start loc' : List Text} (h : xs.foldlM tree.enter start = some loc') :
    loc' = xs.foldl walk start := by
  induction xs generalizing start with
  | nil => exact (Option.some.inj h).symm
  | cons x xs ih =>
    rw [List.foldlM_cons] at h
    obtain ⟨m, hm, hrest⟩ := Option.bind_eq_some_iff.mp h
    obtain ⟨-, -, rfl⟩ := Tree.enter_eq_some.mp hm
    exact ih hrest

/-- A path that is found leads to something, and to a directory if it trails. -/
theorem find_path {start loc' : List Text} (h : tree.find start s = some loc') : loc' = locate start s ∧
    tree.kind loc' ≠ none ∧ (Trails (xs ++ parts s) → tree.kind loc' = some .directory) := by
  rw [Tree.find] at h
  split at h
  next => cases h
  next hne =>
    refine ⟨Tree.foldlM_walk h, ?_⟩
    obtain ⟨pre, k, hparts, -⟩ := exists_concat_parts s
    rw [← parts_of_ne hne, hparts, List.foldlM_append] at h
    obtain ⟨m, -, hm⟩ := Option.bind_eq_some_iff.mp h
    rw [List.foldlM_cons] at hm
    obtain ⟨m', hm', hpure⟩ := Option.bind_eq_some_iff.mp hm
    obtain rfl : m' = loc' := Option.some.inj hpure
    obtain ⟨hdir, hkind, hwalk⟩ := Tree.enter_eq_some.mp hm'
    refine ⟨hkind, fun htrails => ?_⟩
    rw [hparts, ← List.append_assoc, trails_concat] at htrails
    by_cases hstay : k = [] ∨ k = dot
    · rw [walk, if_pos hstay] at hwalk
      rwa [hwalk]
    · obtain ⟨hup, -⟩ := htrails.resolve_left (fun h => hstay (.inl h)) |>.resolve_left fun h => hstay (.inr h)
      rw [walk, if_neg hstay, if_pos hup] at hwalk
      rcases Tree.kind_tail (by rw [hdir]; exact Option.some_ne_none _ : tree.kind m ≠ none) with hnil | htail
      · rw [hwalk, hnil]
        exact tree.root
      · rwa [hwalk]

/-- The two paths below the working directory are written in the same way, and something is there. -/
def Alike (tree : Tree) (pwd s p : PathString) : Prop :=
  below pwd s = below pwd p ∧ (TrailsBelow pwd s ↔ TrailsBelow pwd p) ∧ tree.kind (below pwd s).names ≠ none ∧
    (TrailsBelow pwd s → tree.kind (below pwd s).names = some .directory)

theorem sameFile_iff (h : Absolute pwd.text) (s p : PathString) :
    sameFile tree (some pwd.text) s.text p.text = .ok true ↔ Alike tree pwd s p := by
  obtain ⟨t₁, h₁⟩ := exists_joined h s
  obtain ⟨t₂, h₂⟩ := exists_joined h p
  have hfile : sameFile tree (some pwd.text) s.text p.text = .ok (t₁ = t₂ && (tree.find [] t₁).isSome) := by
    rw [sameFile, h₁.result, h₂.result]
    rfl
  have habs := h₁.absolute
  rw [h₁.text] at habs
  rw [hfile, Except.ok.injEq, Bool.and_eq_true, decide_eq_true_eq, h₁.text, h₂.text,
    find_render h₁.slashFree h₁.real habs, Alike]
  constructor
  · rintro ⟨heq, hkind, hdir⟩
    obtain ⟨hbelow, htrails⟩ := render_inj h₁.slashFree h₁.real h₂.slashFree h₂.real heq
    exact ⟨hbelow, htrails, hkind, hdir⟩
  · rintro ⟨hbelow, htrails, hkind, hdir⟩
    exact ⟨render_congr hbelow htrails, hkind, hdir⟩

def Found (tree : Tree) (pwd p : PathString) : Prop := (tree.find (locate [] pwd.text) p.text).isSome = true

/-- Two relative paths of files are compared by how they are written below the working directory. -/
theorem compares_relative {s : PathString} (h : Absolute pwd.text) (hs : ¬ Absolute s.text) (hp : ¬ Absolute p.text)
    (hfound : Found tree pwd s) : Compares tree pwd s p ↔
      (locate (locate [] pwd.text) s.text = locate (locate [] pwd.text) p.text →
        (below pwd s).ups = (below pwd p).ups ∧ (TrailsBelow pwd s ↔ TrailsBelow pwd p)) := by
  have hplace {q : PathString} (hq : ¬ Absolute q.text) :
      locate (locate [] pwd.text) q.text = (below pwd q).names := by
    rw [locate_path, if_neg hq, locate_pwd h]
    rfl
  obtain ⟨loc', hloc'⟩ := Option.isSome_iff_exists.mp hfound
  obtain ⟨rfl, hkind, hdir⟩ := @find_path _ (parts pwd.text) _ _ _ hloc'
  rw [hplace hs] at hkind hdir
  rw [Compares, sameFile_iff h, Alike, hplace hs, hplace hp, Route.ext_iff]
  constructor
  · rintro hiff hnames
    obtain ⟨⟨hups, -⟩, htrails, -⟩ := hiff.mpr hnames
    exact ⟨hups, htrails⟩
  · intro hsame
    exact ⟨fun h => h.1.2, fun hnames => ⟨⟨(hsame hnames).1, hnames⟩, (hsame hnames).2, hkind, hdir⟩⟩

/-- The absolute path of `s`, its second application, and the comparison of `s` and `p`. -/
theorem absPath_iff (tree : Tree) (pwd s p : PathString) (h : Absolute pwd.text) :
    (Located pwd s ↔ (Absolute s.text →
      (route (parts pwd.text)).ups = (route (parts pwd.text)).names.length ∧
        (route (parts pwd.text)).names.length ≤ (route (parts s.text).dropLast).ups)) ∧
    (Idempotent pwd s ↔ (route (parts pwd.text)).ups = (route (parts pwd.text)).names.length) ∧
    (Found tree pwd s → Found tree pwd p → (Compares tree pwd s p ↔
      (locate (locate [] pwd.text) s.text = locate (locate [] pwd.text) p.text ↔ Alike tree pwd s p))) ∧
    (Found tree pwd s → Found tree pwd p → ¬ Absolute s.text → ¬ Absolute p.text → (Compares tree pwd s p ↔
      (locate (locate [] pwd.text) s.text = locate (locate [] pwd.text) p.text →
        (below pwd s).ups = (below pwd p).ups ∧ (TrailsBelow pwd s ↔ TrailsBelow pwd p)))) := by
  refine ⟨located_iff h s, idempotent_iff h s, fun _ _ => ?_, fun hs _ habs habs' => compares_relative h habs habs' hs⟩
  rw [Compares, sameFile_iff h]
  exact Iff.comm

/-- A directory with one file. -/
def workTree : Tree where
  kind loc := if loc = [] ∨ loc = [['w']] then some .directory else if loc = [['a'], ['w']] then some .file else none
  root := rfl
  parent n loc h := by
    split at h
    next hdir =>
      rw [(List.cons.inj (hdir.resolve_left (List.cons_ne_nil _ _))).2]
      rfl
    next =>
      split at h
      next hfile =>
        rw [(List.cons.inj hfile).2]
        rfl
      next => exact absurd rfl h

def workDir : PathString := ⟨['/', 'w'], by decide⟩

def fileA : PathString := ⟨['a'], by decide⟩

def dotFileA : PathString := ⟨['.', '/', 'a'], by decide⟩

def absoluteA : PathString := ⟨['/', 'w', '/', 'a'], by decide⟩

/-- Relative paths work, but not a second time. -/
theorem fileA_located :
    Located workDir fileA ∧ ¬ Idempotent workDir fileA ∧ Compares workTree workDir fileA dotFileA := by
  obtain ⟨hlocated, hidem, -, hcompares⟩ := absPath_iff workTree workDir fileA dotFileA (by decide)
  refine ⟨hlocated.mpr fun habs => absurd habs (by decide), fun h => absurd (hidem.mp h) (by decide), ?_⟩
  rw [hcompares (by rw [Found]; decide) (by rw [Found]; decide) (by decide) (by decide)]
  exact fun _ => ⟨by decide, by decide⟩

/-- The absolute path of `/w/a` in the directory `/w` is `/w/w/a`. -/
theorem absoluteA_not_located :
    Absolute workDir.text ∧ ¬ (Located workDir absoluteA ∧ Idempotent workDir absoluteA) := by
  have habs : Absolute workDir.text := by decide
  refine ⟨habs, fun h => ?_⟩
  rw [located_iff habs] at h
  exact absurd (h.1 (by decide)) (by decide)

end GalaLua.Modules.Path
