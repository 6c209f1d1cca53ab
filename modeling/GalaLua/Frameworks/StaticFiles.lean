import GalaLua.Modules.Path

/-!
# Static files

The server joins the path of a request to its static directory, normalises it
and compares it with the directory by a pattern that is built from the
directory's own name. Only then is the file opened. The three opens of a
request see the disk at three times.
-/

namespace GalaLua.Frameworks.StaticFiles

open Library
open Library.LuaPattern (Text)
open Modules.Path

def contentTypes : List (String × String) :=
  [("jpg", "image/jpg"), ("js", "application/x-javascript"), ("png", "image/png"), ("html", "text/html"),
    ("css", "text/css"), ("txt", "text/plain")]

def contentTypeOf (name : Text) : Option String := contentTypes.lookup (String.ofList name)

/-- `string.match(uri, "%.(%w+)$")` -/
def extension (uri : Text) : Option Text :=
  let name := uri.reverse.takeWhile Char.isAlphanum
  if name ≠ [] ∧ (uri.reverse.drop name.length).head? = some '.' then some name.reverse else none

/-- `content` is empty where reading failed, as of a directory. -/
inductive Response
  | notFound
  | found (content : Option Text) (contentType : Option String)
  deriving DecidableEq, Repr

/-- What a request came to, and the path of the file that was read for it. -/
structure Handled where
  read : Option Text
  response : Except String Response

def isFileVaild (disk : Nat → Disk) (pwd : Option Text) (staticPath path : Text) : Except String Bool :=
  match isPrefixOf path staticPath with
  | none => .error "malformed pattern"
  | some false => .ok false
  | some true => (isFile (disk 0) pwd path).map fun file => file && ((disk 1).open path).isSome

/-- The response to a path that was opened. -/
def respond (uri path : Text) (entry : Entry) : Handled :=
  let content := match entry with
    | .file content => some content
    | .directory => none
  { read := content.map fun _ => cString path
    response := match extension uri with
      | none => .error "bad argument #1 to 'lower' (string expected, got nil)"
      | some name => .ok (.found content (contentTypeOf (name.map Char.toLower))) }

def staticHandle (disk : Nat → Disk) (pwd : Option Text) (staticPath : Text) : Text → Handled
  | '/' :: fname =>
    let fullPath := normPath (staticPath ++ fname)
    match isFileVaild disk pwd staticPath fullPath with
    | .error text => ⟨none, .error text⟩
    | .ok false => ⟨none, .ok .notFound⟩
    | .ok true =>
      match (disk 2).open fullPath with
      | none => ⟨none, .error "No such file or directory"⟩
      | some entry => respond ('/' :: fname) fullPath entry
  | _ => ⟨none, .error "assertion failed!"⟩

-- ---------------------------------------------------------------------------
-- Directories
-- ---------------------------------------------------------------------------

/-- The names of a normal absolute path; a legal name has no other characters
than `is_legal` allows. -/
structure Directory where
  names : List Text
  legal : ∀ n ∈ names, n ≠ [] ∧ n ≠ dot ∧ n ≠ dotDot ∧ ∀ c ∈ n, legalChar c = true ∧ c ≠ '/'

namespace Directory

/-- The path, with a slash at its end. -/
def path (d : Directory) : Text := (d.names ++ [[]]).flatMap ('/' :: ·)

end Directory

/-- The location of `s` lies below that of the directory. -/
def Inside (d : Directory) (s : Text) : Prop := ∃ n rest, resolve s = d.names ++ n :: rest

-- ---------------------------------------------------------------------------
-- What is read
-- ---------------------------------------------------------------------------

variable {d : Directory} {disk : Nat → Disk} {pwd : Option Text} {staticPath uri path s : Text} {xs ys : List Text}
  {k : Text}

/-- The conditions under which a file is read. -/
theorem read_of_staticHandle (h : (staticHandle disk pwd staticPath uri).read = some s) :
    ∃ fname content, isPrefixOf (normPath (staticPath ++ fname)) staticPath = some true ∧
      s = cString (normPath (staticPath ++ fname)) ∧ (disk 2).find s = some (.file content) := by
  unfold staticHandle at h
  split at h
  next fname =>
    generalize hpath : normPath (staticPath ++ fname) = path at h ⊢
    dsimp only at h
    split at h
    next => cases h
    next => cases h
    next hvalid =>
      have hmatch : isPrefixOf path staticPath = some true := by
        rw [isFileVaild] at hvalid
        split at hvalid
        next => cases hvalid
        next => cases hvalid
        next hsome => exact hsome
      split at h
      next => cases h
      next entry hopen =>
        cases entry with
        | directory => cases h
        | file content =>
          cases h
          exact ⟨fname, content, hpath ▸ hmatch, by rw [hpath], hopen⟩
  next => cases h

theorem foldl_walk (h : ∀ k ∈ xs, k ≠ [] ∧ k ≠ dot ∧ k ≠ dotDot) :
    xs.foldl walk ys = xs.reverse ++ ys := by
  induction xs generalizing ys with
  | nil => rfl
  | cons x xs ih =>
    obtain ⟨⟨hne, hdot, hdots⟩, hxs⟩ := List.forall_mem_cons.mp h
    rw [List.foldl_cons, walk, if_neg (not_or.mpr ⟨hne, hdot⟩), if_neg hdots, ih hxs, List.reverse_cons,
      List.append_assoc, List.singleton_append]

/-- A text up to its first NUL has whole entries of the text and the front of another one. -/
theorem cString_concat (k : Text) (xs : List Text) :
    ∃ pre x post, k :: xs = pre ++ x :: post ∧ cString (concat (k :: xs)) = concat (pre ++ [cString x]) := by
  induction xs generalizing k with
  | nil => exact ⟨[], k, [], rfl, by simp [concat]⟩
  | cons y ys ih =>
    have hconcat : concat (k :: y :: ys) = k ++ '/' :: concat (y :: ys) := by
      simp only [concat, List.flatMap_cons, List.cons_append]
    by_cases hk : '\x00' ∈ k
    · refine ⟨[], k, y :: ys, rfl, ?_⟩
      obtain ⟨a, b, rfl⟩ := List.append_of_mem hk
      rw [hconcat, List.append_assoc, List.cons_append, cString, cString, List.takeWhile_append, List.takeWhile_append,
        List.takeWhile_cons_of_neg (by decide), List.takeWhile_cons_of_neg (by decide)]
      simp [concat]
    · obtain ⟨pre, x, post, hsplit, hcString⟩ := ih y
      refine ⟨k :: pre, x, post, by rw [hsplit]; rfl, ?_⟩
      have hslash : cString ('/' :: concat (y :: ys)) = '/' :: cString (concat (y :: ys)) :=
        List.takeWhile_cons_of_pos (by decide)
      have hpre : pre ++ [cString x] ≠ [] := by simp
      rw [hconcat, cString_append hk, hslash, hcString]
      obtain ⟨z, zs, hzs⟩ := List.exists_cons_of_ne_nil hpre
      rw [List.cons_append, hzs]
      simp only [concat, List.flatMap_cons, List.cons_append]

namespace Directory

theorem slashFree (d : Directory) : SlashFree d.names := fun n hn hslash =>
  ((d.legal n hn).2.2.2 '/' hslash).2 rfl

theorem path_append (d : Directory) (k : Text) (xs : List Text) :
    d.path ++ concat (k :: xs) = concat ([] :: d.names ++ k :: xs) := by
  simp only [path, concat, List.cons_append, List.nil_append, List.flatMap_append, List.flatMap_cons,
    List.flatMap_nil, List.append_nil, List.append_assoc]

theorem legal_path (d : Directory) : ∀ c ∈ d.path, legalChar c = true := by
  intro c hc
  obtain ⟨n, hn, hmem⟩ := List.mem_flatMap.mp hc
  rcases List.mem_cons.mp hmem with rfl | hmem
  · decide
  · rcases List.mem_append.mp hn with hn | hn
    · exact ((d.legal n hn).2.2.2 c hmem).1
    · rw [List.mem_singleton.mp hn] at hmem
      cases hmem

theorem real (d : Directory) : ∀ n ∈ d.names, n ≠ [] ∧ n ≠ dot ∧ n ≠ dotDot := fun n hn =>
  let ⟨hne, hdot, hdots, _⟩ := d.legal n hn
  ⟨hne, hdot, hdots⟩

theorem named_names (d : Directory) : named d.names = d.names :=
  List.filter_eq_self.mpr fun n hn => by simpa using (d.real n hn).1

end Directory

theorem nul_not_legal (h : ∀ c ∈ s, legalChar c = true) : '\x00' ∉ s := fun hmem => by
  have hlegal := h _ hmem
  rw [illegal_of_mem (by simp)] at hlegal
  cases hlegal

/-- Behind a name that is not `..` there is no `..` in a normal path. -/
theorem settled_reverse {n : Text} (h : Settled (n :: xs).reverse) (hn : n ≠ [] ∧ n ≠ dotDot) :
    ∀ k ∈ xs, k ≠ dotDot := by
  rintro k hk rfl
  obtain ⟨a, b, rfl⟩ := List.append_of_mem hk
  have hreverse : (n :: (a ++ dotDot :: b)).reverse = b.reverse ++ dotDot :: (a.reverse ++ [n]) := by simp
  rw [hreverse] at h
  exact ((settled_append h).1 rfl n (by simp)).elim hn.1 hn.2

theorem not_dot_of_settled (h : Settled xs) : ∀ k ∈ xs, k ≠ dot := by
  induction xs with
  | nil => exact nofun
  | cons x xs ih => exact List.forall_mem_cons.mpr ⟨h.2.1, ih h.2.2⟩

/-- A file below the directory's own path lies in the directory. -/
theorem inside_of_append (d : Directory) (t : Text) (hnormal : Settled (names (d.path ++ t)).reverse)
    {disk : Disk} {content : Text} (hfile : disk.find (cString (d.path ++ t)) = some (.file content)) :
    Inside d (cString (d.path ++ t)) := by
  obtain ⟨k, xs, rfl, hfree⟩ := exists_concat t
  obtain ⟨pre, x, post, hsplit, hcString⟩ := cString_concat k xs
  have hpath : cString (d.path ++ concat (k :: xs)) = concat (([] :: d.names ++ pre) ++ [cString x]) := by
    rw [cString_append (nul_not_legal d.legal_path), hcString]
    cases pre with
    | nil => rw [List.append_nil]; exact d.path_append _ _
    | cons y ys => rw [List.cons_append, d.path_append, ← List.cons_append, List.append_assoc]
  have hx : '/' ∉ cString x := fun hmem => hfree x (by rw [hsplit]; simp) ((List.takeWhile_prefix _).subset hmem)
  have hpreFree : SlashFree pre := fun y hy => hfree y (by rw [hsplit]; simp [hy])
  have hall : SlashFree (([] :: d.names ++ pre) ++ [cString x]) := by
    intro y hy
    simp only [List.mem_append, List.mem_cons, List.not_mem_nil, or_false] at hy
    rcases hy with ((rfl | hy) | hy) | rfl
    · exact List.not_mem_nil
    · exact d.slashFree y hy
    · exact hpreFree y hy
    · exact hx
  generalize hl : cString x = l at *
  have hne : concat (([] :: d.names ++ pre) ++ [l]) ≠ [] := by
    simp only [concat, List.cons_append, List.nil_append, List.flatMap_append, List.flatMap_cons]
    simp
  have hsplitted : split (concat (([] :: d.names ++ pre) ++ [l])) = ([] :: d.names ++ pre) ++ [l] :=
    split_concat hall hne
  have hreal : l ≠ [] ∧ l ≠ dot ∧ l ≠ dotDot := by
    have hends := disk.ends _ _ hfile
    rw [hpath, hsplitted, List.getLast?_append, List.getLast?_singleton, Option.some_or] at hends
    simpa using hends
  have hnames : names (concat (([] :: d.names ++ pre) ++ [l])) = d.names ++ (named pre ++ [l]) := by
    rw [names, hsplitted, named_append, List.cons_append, named_blank, named_append, d.named_names,
      named_cons_of_ne hreal.1, List.append_assoc]
    rfl
  have hwhole : names (d.path ++ concat (k :: xs)) = d.names ++ (named pre ++ named (x :: post)) := by
    have hpathFree : SlashFree ([] :: d.names ++ k :: xs) := by
      intro y hy
      rcases List.mem_append.mp hy with hy | hy
      · rcases List.mem_cons.mp hy with rfl | hy
        · exact List.not_mem_nil
        · exact d.slashFree y hy
      · exact hfree y hy
    have hnamed : names (concat ([] :: d.names ++ k :: xs)) = named ([] :: d.names ++ k :: xs) :=
      names_concat hpathFree
    rw [d.path_append, hnamed, List.cons_append, named_blank, named_append, d.named_names, hsplit, named_append]
  rw [hwhole] at hnormal
  obtain ⟨m, rest, hrest⟩ := List.exists_cons_of_ne_nil (show named pre ++ [l] ≠ [] by simp)
  rw [Inside, hpath, resolve, hnames]
  cases hd : d.names with
  | nil =>
    rw [List.nil_append, List.foldl_append, List.foldl_cons, List.foldl_nil, walk,
      if_neg (not_or.mpr ⟨hreal.1, hreal.2.1⟩), if_neg hreal.2.2]
    obtain ⟨m, rest, hrest⟩ := List.exists_cons_of_ne_nil
      (show (l :: (named pre).foldl walk []).reverse ≠ [] by simp)
    exact ⟨m, rest, hrest⟩
  | cons n ns =>
    rw [hd] at hnormal
    have hn := d.real n (by rw [hd]; exact List.mem_cons_self)
    have hdots := settled_reverse hnormal ⟨hn.1, hn.2.2⟩
    have hdot := not_dot_of_settled hnormal
    have hwalk : ∀ y ∈ (n :: ns) ++ (named pre ++ [l]), y ≠ [] ∧ y ≠ dot ∧ y ≠ dotDot := by
      intro y hy
      simp only [List.mem_append, List.mem_singleton] at hy
      rcases hy with hy | hy | rfl
      · exact d.real y (by rw [hd]; exact hy)
      · refine ⟨?_, hdot y ?_, hdots y ?_⟩
        · simpa using (List.mem_filter.mp hy).2
        · simp [hy]
        · simp [hy]
      · exact hreal
    refine ⟨m, rest, ?_⟩
    rw [foldl_walk hwalk, List.append_nil, List.reverse_reverse, hrest]

/-- A directory without a dot in its path is not left. -/
theorem inside_of_read (hdot : '.' ∉ d.path) (h : (staticHandle disk pwd d.path uri).read = some s) : Inside d s := by
  obtain ⟨fname, content, hmatch, rfl, hfile⟩ := read_of_staticHandle h
  obtain ⟨b, hb, hiff⟩ := isPrefixOf_legal d.legal_path (normPath (d.path ++ fname))
  rw [hmatch] at hb
  obtain ⟨a, c, r, hpath, hall, -⟩ := hiff.mp (Option.some.inj hb).symm
  have ha : d.path = a := by
    generalize d.path = pre at hdot hall
    clear hfile hmatch hiff hpath hb
    induction hall with
    | nil => rfl
    | @cons p x pre a hone hall ih =>
      obtain ⟨hp, hpre⟩ := not_or.mp (fun hmem => hdot (List.mem_cons.mpr hmem))
      rw [ih hpre, hone.resolve_left (Ne.symm hp)]
  have hnormal := settled_normPath (d.path ++ fname)
  rw [hpath, ← ha] at hnormal hfile ⊢
  exact inside_of_append d (c :: r) hnormal hfile

-- ---------------------------------------------------------------------------
-- Leaving a directory
-- ---------------------------------------------------------------------------

/-- A name in which the pattern's dots stand for another character. -/
def undotted (n : Text) : Text := n.map fun c => if c = '.' then 'a' else c

def script : Text := ['f', '.', 'j', 's']

theorem foldl_nameStep (h : ∀ k ∈ xs, k ≠ [] ∧ k ≠ dot ∧ k ≠ dotDot) :
    xs.foldl nameStep ys = xs.reverse ++ ys := by
  induction xs generalizing ys with
  | nil => rfl
  | cons x xs ih =>
    obtain ⟨⟨hne, hdot, hdots⟩, hxs⟩ := List.forall_mem_cons.mp h
    have hstep : nameStep ys x = x :: ys := by
      unfold nameStep
      rw [if_neg hdots, if_neg (not_or.mpr ⟨hdot, hne⟩)]
    rw [List.foldl_cons, hstep, ih hxs, List.reverse_cons, List.append_assoc, List.singleton_append]

theorem foldl_nameStep_dotDots (h : ∀ k ∈ xs, k ≠ dotDot) :
    (List.replicate xs.length dotDot).foldl nameStep xs = [] := by
  induction xs with
  | nil => rfl
  | cons x xs ih =>
    obtain ⟨hx, hxs⟩ := List.forall_mem_cons.mp h
    have hstep : nameStep (x :: xs) dotDot = xs := by
      unfold nameStep
      rw [if_pos rfl]
      exact if_neg hx
    rw [List.length_cons, List.replicate_succ, List.foldl_cons, hstep, ih hxs]

theorem undotted_real {n : Text} (h : n ≠ []) :
    undotted n ≠ [] ∧ undotted n ≠ dot ∧ undotted n ≠ dotDot := by
  have hnot : '.' ∉ undotted n := fun hmem => by
    obtain ⟨c, -, hc⟩ := List.mem_map.mp hmem
    split at hc
    · cases hc
    next hne => exact hne hc
  refine ⟨fun hnil => h (List.map_eq_nil_iff.mp hnil), fun heq => hnot ?_, fun heq => hnot ?_⟩
  · rw [heq]
    exact List.mem_cons_self
  · rw [heq]
    exact List.mem_cons_self

/-- The disk that has one file. -/
def diskOf (s : Text) (h : (split s).getLast? ∉ [none, some [], some dot, some dotDot]) : Disk where
  find t := if t = s then some (.file []) else none
  ends t content ht := by
    split at ht
    next heq => exact heq ▸ h
    next => cases ht

/-- A request for a file of the directory's sibling. -/
def leaving (d : Directory) : Text :=
  '/' :: concat (List.replicate d.names.length dotDot ++ d.names.map undotted ++ [script])

def siblingNames (d : Directory) : List Text := d.names.map undotted ++ [script]

def sibling (d : Directory) : Text := (siblingNames d).flatMap ('/' :: ·)

theorem siblingNames_real (d : Directory) : ∀ k ∈ siblingNames d, k ≠ [] ∧ k ≠ dot ∧ k ≠ dotDot := by
  intro k hk
  rcases List.mem_append.mp hk with hk | hk
  · obtain ⟨n, hn, rfl⟩ := List.mem_map.mp hk
    exact undotted_real (d.legal n hn).1
  · rw [List.mem_singleton.mp hk]
    decide

theorem siblingNames_legal (d : Directory) : ∀ k ∈ siblingNames d, ∀ c ∈ k, legalChar c = true ∧ c ≠ '/' := by
  intro k hk c hc
  rcases List.mem_append.mp hk with hk | hk
  · obtain ⟨n, hn, rfl⟩ := List.mem_map.mp hk
    obtain ⟨x, hx, rfl⟩ := List.mem_map.mp hc
    split
    · decide
    · exact (d.legal n hn).2.2.2 x hx
  · rw [List.mem_singleton.mp hk] at hc
    have hall : ∀ c ∈ script, legalChar c = true ∧ c ≠ '/' := by decide
    exact hall c hc

theorem siblingNames_slashFree (d : Directory) : SlashFree (siblingNames d) := fun k hk hslash =>
  (siblingNames_legal d k hk _ hslash).2 rfl

theorem nul_not_mem_sibling (d : Directory) : '\x00' ∉ sibling d := by
  refine nul_not_legal fun c hc => ?_
  obtain ⟨k, hk, hmem⟩ := List.mem_flatMap.mp hc
  rcases List.mem_cons.mp hmem with rfl | hmem
  · decide
  · exact (siblingNames_legal d k hk c hmem).1

theorem split_sibling (d : Directory) : split (sibling d) = [] :: siblingNames d :=
  @split_concat [] (siblingNames d) (slashFree_cons.mpr ⟨List.not_mem_nil, siblingNames_slashFree d⟩)
    (by simp [concat, siblingNames])

/-- Names that lead back to the root are left out before the sibling's. -/
theorem normPath_sibling (d : Directory) (hfree : SlashFree xs) (hback : xs.foldl nameStep [] = []) :
    normPath ((xs ++ siblingNames d).flatMap ('/' :: ·)) = sibling d := by
  have hall : SlashFree ((xs ++ d.names.map undotted) ++ [script]) := by
    intro k hk
    rw [List.append_assoc] at hk
    exact (List.mem_append.mp hk).elim (hfree k) (siblingNames_slashFree d k)
  rw [siblingNames, ← List.append_assoc, normPath_absolute hall (by decide) (by decide) (by decide),
    List.append_assoc, ← siblingNames, List.foldl_append, hback, foldl_nameStep (siblingNames_real d),
    List.append_nil, List.reverse_reverse, sibling]

theorem leaving_normPath (d : Directory) :
    normPath (d.path ++ concat (List.replicate d.names.length dotDot ++ d.names.map undotted ++ [script])) =
      sibling d := by
  have hback : (d.names ++ List.replicate d.names.length dotDot).foldl nameStep [] = [] := by
    rw [List.foldl_append, foldl_nameStep d.real, List.append_nil, ← List.length_reverse]
    exact foldl_nameStep_dotDots fun k hk => (d.real k (List.mem_reverse.mp hk)).2.2
  have hfree : SlashFree (d.names ++ List.replicate d.names.length dotDot) := by
    intro k hk
    rcases List.mem_append.mp hk with hk | hk
    · exact d.slashFree k hk
    · rw [List.eq_of_mem_replicate hk]
      decide
  obtain ⟨z, zs, hzs⟩ := List.exists_cons_of_ne_nil
    (show List.replicate d.names.length dotDot ++ d.names.map undotted ++ [script] ≠ [] by simp)
  rw [hzs, d.path_append, ← hzs, List.append_assoc, ← siblingNames, List.cons_append, concat, List.nil_append,
    ← List.append_assoc]
  exact normPath_sibling d hfree hback

theorem isPrefixOf_sibling (d : Directory) : isPrefixOf (sibling d) d.path = some true := by
  obtain ⟨b, hb, hiff⟩ := isPrefixOf_legal d.legal_path (sibling d)
  rw [hb, hiff.mpr ?_]
  refine ⟨undotted d.path, 'f', ['.', 'j', 's'], ?_, ?_, by decide⟩
  · have hundotted : undotted d.path = (d.names.map undotted ++ [[]]).flatMap ('/' :: ·) := by
      simp only [undotted, Directory.path, List.flatMap_append, List.map_append, List.map_flatMap, List.flatMap_map]
      rfl
    rw [hundotted, sibling, siblingNames, List.flatMap_append, List.flatMap_append, List.append_assoc]
    rfl
  · rw [undotted, List.forall₂_map_right_iff, List.forall₂_same]
    intro c _
    by_cases hc : c = '.'
    · exact .inl hc
    · exact .inr (if_neg hc)

theorem sibling_not_inside (hdot : '.' ∈ d.path) : ¬Inside d (sibling d) := by
  rintro ⟨n, rest, hresolve⟩
  have hnamed : named (siblingNames d) = siblingNames d :=
    List.filter_eq_self.mpr fun k hk => by simpa using (siblingNames_real d k hk).1
  rw [resolve, names, split_sibling, named_blank, hnamed, foldl_walk (siblingNames_real d), List.append_nil,
    List.reverse_reverse, siblingNames] at hresolve
  obtain ⟨heq, -⟩ := List.append_inj hresolve (List.length_map _)
  obtain ⟨k, hk, hmem⟩ := List.mem_flatMap.mp hdot
  have hname : k ∈ d.names := by
    rcases List.mem_append.mp hk with hk | hk
    · exact hk
    · rw [List.mem_singleton.mp hk] at hmem
      exact absurd hmem (by decide)
  have hdotted : '.' ∈ k := (List.mem_cons.mp hmem).resolve_left (by decide)
  rw [← heq] at hname
  obtain ⟨m, -, rfl⟩ := List.mem_map.mp hname
  obtain ⟨c, -, hc⟩ := List.mem_map.mp hdotted
  split at hc
  · cases hc
  next hne => exact hne hc

/-- With a dot in its path, the directory can be left. -/
theorem exists_outside (hdot : '.' ∈ d.path) :
    ∃ disk pwd s, (staticHandle disk pwd d.path (leaving d)).read = some s ∧ ¬Inside d s := by
  have hends : (split (sibling d)).getLast? ∉ [none, some [], some dot, some dotDot] := by
    rw [split_sibling, siblingNames, ← List.cons_append, List.getLast?_append, List.getLast?_singleton,
      Option.some_or]
    decide
  have hopen : (diskOf (sibling d) hends).open (sibling d) = some (.file []) := by
    rw [Disk.open, cString_of_not_mem (nul_not_mem_sibling d)]
    exact if_pos rfl
  have habs : absPath (some ['/']) (sibling d) = .ok (sibling d) := by
    have hjoin : join ['/'] (sibling d) = (([] :: [[]]) ++ siblingNames d).flatMap ('/' :: ·) := by
      rw [join, formatArg_of_not_mem (nul_not_mem_sibling d), formatArg_of_not_mem (by decide), sibling]
      rfl
    have hblanks : SlashFree ([] :: [[]]) := by simp [SlashFree]
    rw [absPath, hjoin, normPath_sibling d hblanks rfl]
  have hlast : (sibling d).getLast? = some 's' := by
    rw [sibling, siblingNames, List.flatMap_append, List.getLast?_append]
    rfl
  have hvalid : isFileVaild (fun _ => diskOf (sibling d) hends) (some ['/']) d.path (sibling d) = .ok true := by
    rw [isFileVaild, isPrefixOf_sibling]
    dsimp only
    rw [isFile, habs, Except.map, Except.map, hlast, hopen]
    rfl
  refine ⟨fun _ => diskOf (sibling d) hends, some ['/'], sibling d, ?_, sibling_not_inside hdot⟩
  rw [leaving, staticHandle, leaving_normPath, hvalid]
  dsimp only
  rw [hopen]
  exact congrArg some (cString_of_not_mem (nul_not_mem_sibling d))

/-- The static directory is left by no request if and only if there is no dot in its path. -/
theorem inside_iff (d : Directory) :
    (∀ disk pwd uri s, (staticHandle disk pwd d.path uri).read = some s → Inside d s) ↔ '.' ∉ d.path := by
  refine ⟨fun h hdot => ?_, fun hdot disk pwd uri s h => inside_of_read hdot h⟩
  obtain ⟨disk, pwd, s, hread, hout⟩ := exists_outside hdot
  exact hout (h disk pwd _ s hread)

/-- The directory `/srv/a.b`. -/
def dotted : Directory where
  names := [['s', 'r', 'v'], ['a', '.', 'b']]
  legal := by decide

theorem dotted_left :
    ¬∀ (d : Directory) disk pwd uri s, (staticHandle disk pwd d.path uri).read = some s → Inside d s := by
  intro h
  obtain ⟨disk, pwd, s, hread, hout⟩ := @exists_outside dotted (by decide)
  exact hout (h dotted disk pwd _ s hread)

end GalaLua.Frameworks.StaticFiles
