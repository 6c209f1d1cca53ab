import GalaLua.Library.LongString

/-!
# Templates

`parse` turns a view into the text of a Lua chunk, by positions. A view is also a list of
pieces, each a tag with the text before it, and `parse` generates a line for each of them
in their order (`parse_eq`). A text stands between long brackets in its line, so the line
appends it if and only if the brackets leave it as it is (`texts_kept_iff`): a newline
right after a tag is lost. Without such texts the chunk returns what the view says
(`chunk_renders`), where a page shows an escaped value as it is (`escape_shown_iff`).
-/

namespace GalaLua.Modules.Template

open Library.LongString

abbrev Text := List Char

-- ---------------------------------------------------------------------------
-- Escaping
-- ---------------------------------------------------------------------------

/-- `HTML_ENTITIES`, and the characters of the pattern. -/
def htmlEntities : Char → Option Text
  | '&' => some "&amp;".toList
  | '<' => some "&lt;".toList
  | '>' => some "&gt;".toList
  | '"' => some "&quot;".toList
  | '\'' => some "&#39;".toList
  | '/' => some "&#47;".toList
  | _ => none

def codeEntities : Char → Option Text
  | '{' => some "&#123;".toList
  | '}' => some "&#125;".toList
  | _ => none

def gsub (entities : Char → Option Text) (s : Text) : Text := s.flatMap fun ch => (entities ch).getD [ch]

/-- What an expression evaluates to: a string, or something that is shown. -/
inductive Value where
  | string (s : Text)
  | other (shown : Text)

def output : Value → Text
  | .string s => s
  | .other shown => shown

def escape (c : Bool) : Value → Text
  | .string s => gsub htmlEntities (if c then gsub codeEntities s else s)
  | .other shown => output (.other shown)

-- ---------------------------------------------------------------------------
-- The chunk of a view
-- ---------------------------------------------------------------------------

inductive Tag where
  | escape
  | output
  | code
  | compile
  deriving DecidableEq

def tagOf : Text → Option Tag
  | ['{', '{'] => some .escape
  | ['{', '*'] => some .output
  | ['{', '%'] => some .code
  | ['{', '('] => some .compile
  | _ => none

def Tag.closing : Tag → Text
  | .escape => ['}', '}']
  | .output => ['*', '}']
  | .code => ['%', '}']
  | .compile => [')', '}']

def literalOpen : Text := "___[#___+1]=[=[".toList
def escapeOpen : Text := "___[#___+1]=template.escape(".toList
def outputOpen : Text := "___[#___+1]=template.output(".toList
def compileOpen : Text := "___[#___+1]=template.compile([=[".toList
def compileClose : Text := ")(context)".toList

def literal (t : Text) : Text := literalOpen ++ t ++ closer 1

def Tag.line : Tag → Text → Text
  | .escape, inside => escapeOpen ++ inside ++ [')']
  | .output, inside => outputOpen ++ inside ++ [')']
  | .code, inside => inside
  | .compile, inside => compileOpen ++ inside ++ closer 1 ++ compileClose

/-- The first place from the `n`th character on where the pattern stands. -/
def findFrom (pattern : Text) : Nat → Text → Option Nat
  | _, [] => none
  | n, c :: s => if pattern.isPrefixOf (c :: s) then some n else findFrom pattern (n + 1) s

/-- `view:find(pattern, init, true)` -/
def find (view pattern : Text) (init : Nat) : Option Nat := findFrom pattern (max init 1) (view.drop (init - 1))

/-- `view:sub(i, j)` -/
def sub (view : Text) (i j : Nat) : Text := (view.take j).drop (i - 1)

/-- The indexes `i` and `j` and the lines of `c`. -/
structure State where
  i : Nat
  j : Nat
  c : List Text
  deriving DecidableEq

/-- What `parse` does at the brace that it has found at `s`. -/
def brace (view : Text) (s : Nat) (st : State) : State :=
  match tagOf (sub view s (s + 1)) with
  | none => st
  | some tag =>
    match find view tag.closing (s + 2) with
    | none => st
    | some x =>
      let c := if st.j ≠ s then st.c ++ [literal (sub view st.j (s - 1))] else st.c
      let c := c ++ [tag.line (sub view (s + 2) (x - 1))]
      if tag = .code ∧ sub view (x + 2) (x + 2) = ['\n'] then ⟨x + 2, x + 3, c⟩ else ⟨x + 1, x + 2, c⟩

theorem findFrom_bounds {p : Text} {n m : Nat} {s : Text} (h : findFrom p n s = some m) : n ≤ m ∧ m < n + s.length := by
  induction s generalizing n with
  | nil => cases h
  | cons c s ih =>
    rw [findFrom] at h
    split at h
    · cases h
      simp
    · have := ih h
      rw [List.length_cons]
      omega

theorem find_bounds {view p : Text} {init x : Nat} (h : find view p init = some x) :
    init ≤ x ∧ 0 < x ∧ x ≤ view.length := by
  obtain ⟨hle, hlt⟩ := findFrom_bounds h
  rw [List.length_drop] at hlt
  omega

theorem brace_i {view : Text} {s : Nat} {st : State} (hs : st.i ≤ s) : st.i ≤ (brace view s st).i := by
  unfold brace
  split
  · exact Nat.le_refl _
  · split
    · exact Nat.le_refl _
    · next x hx =>
      have := (find_bounds hx).1
      dsimp only
      split
      · dsimp only
        omega
      · dsimp only
        omega

theorem loop_decreasing {view : Text} {s : Nat} {st : State} (h : find view ['{'] st.i = some s) :
    view.length + 1 - ((brace view s st).i + 1) < view.length + 1 - st.i := by
  have := find_bounds h
  have := @brace_i view s st this.1
  omega

def loop (view : Text) (st : State) : State :=
  match _h : find view ['{'] st.i with
  | none => st
  | some s =>
    let st' := brace view s st
    loop view ⟨st'.i + 1, st'.j, st'.c⟩
termination_by view.length + 1 - st.i
decreasing_by exact loop_decreasing _h

def header : List Text := ["context=... or {}".toList, "local ___={}".toList]

def footer : Text := "return template.concat(___)".toList

/-- `table.concat(c, "\n")` -/
def concat (c : List Text) : Text := ['\n'].intercalate c

/-- `template.parse`, of a view that is there. -/
def parse (view : Text) : Text :=
  if view.head? = some '\x1b' then view
  else
    let st := loop view ⟨0, 0, header⟩
    concat (st.c ++ [literal (view.drop (st.j - 1)), footer])

-- ---------------------------------------------------------------------------
-- A view as its pieces
-- ---------------------------------------------------------------------------

/-- A tag, the text before it and, for a tag of code, whether a newline follows it. -/
structure Piece where
  before : Text
  tag : Tag
  inside : Text
  newline : Bool
  deriving DecidableEq

/-- What stands before the pattern and what stands after it. -/
def cut (pattern : Text) : Text → Option (Text × Text)
  | [] => none
  | c :: s =>
    if pattern.isPrefixOf (c :: s) then some ([], (c :: s).drop pattern.length)
    else (cut pattern s).map fun r => (c :: r.1, r.2)

/-- The tag that stands here, if it is closed, and what follows it. -/
def opens (before s : Text) : Option (Piece × Text) :=
  match tagOf (s.take 2) with
  | none => none
  | some tag =>
    match cut tag.closing (s.drop 2) with
    | none => none
    | some (inside, rest) =>
      if tag = .code ∧ rest.head? = some '\n' then some (⟨before, tag, inside, true⟩, rest.tail)
      else some (⟨before, tag, inside, false⟩, rest)

theorem cut_length {p s t rest : Text} (h : cut p s = some (t, rest)) : rest.length ≤ s.length := by
  induction s generalizing t with
  | nil => cases h
  | cons c s ih =>
    rw [cut] at h
    split at h
    · cases h
      rw [List.length_drop]
      omega
    · obtain ⟨r, hr, heq⟩ := Option.map_eq_some_iff.1 h
      cases heq
      exact Nat.le_succ_of_le (ih hr)

theorem opens_length {before s rest : Text} {c : Char} {p : Piece} (h : opens before (c :: s) = some (p, rest)) :
    rest.length < (c :: s).length := by
  unfold opens at h
  split at h
  · cases h
  · split at h
    · cases h
    · next inside rest' hcut =>
      have hlen := cut_length hcut
      split at h <;> cases h <;> simp at hlen ⊢ <;> omega

/-- The pieces of a view and the text after the last of them. -/
def pieces (before : Text) : Text → List Piece × Text
  | [] => ([], before)
  | c :: s =>
    match _h : opens before (c :: s) with
    | some (p, rest) => (p :: (pieces [] rest).1, (pieces [] rest).2)
    | none => pieces (before ++ [c]) s
termination_by s => s.length
decreasing_by
  · exact opens_length _h
  · exact Nat.lt_succ_self _

def Tag.opening : Tag → Text
  | .escape => ['{', '{']
  | .output => ['{', '*']
  | .code => ['{', '%']
  | .compile => ['{', '(']

def Piece.source (p : Piece) : Text :=
  p.before ++ p.tag.opening ++ p.inside ++ p.tag.closing ++ if p.newline then ['\n'] else []

/-- The lines of a piece; the first line of all is there even for no text. -/
def Piece.lines (first : Bool) (p : Piece) : List Text :=
  (if first ∨ p.before ≠ [] then [literal p.before] else []) ++ [p.tag.line p.inside]

def body (first : Bool) : List Piece → List Text
  | [] => []
  | p :: ps => p.lines first ++ body false ps

def chunk (v : List Piece × Text) : Text := concat (header ++ body true v.1 ++ [literal v.2, footer])

-- ---------------------------------------------------------------------------
-- Positions and what stands there
-- ---------------------------------------------------------------------------

variable {view before s t rest pattern : Text} {c : Char} {i j n x : Nat} {tag : Tag} {p : Piece} {ps : List Piece}
  {st : State}

theorem cut_eq (h : cut pattern s = some (t, rest)) : s = t ++ (pattern ++ rest) := by
  induction s generalizing t with
  | nil => cases h
  | cons c s ih =>
    rw [cut] at h
    split at h
    · next hprefix =>
      obtain ⟨rest', hrest⟩ := List.isPrefixOf_iff_prefix.1 hprefix
      cases h
      rw [← hrest, List.drop_left, List.nil_append]
    · obtain ⟨r, hr, heq⟩ := Option.map_eq_some_iff.1 h
      cases heq
      rw [List.cons_append, ← ih hr]

theorem findFrom_eq (pattern : Text) (n : Nat) (s : Text) :
    findFrom pattern n s = (cut pattern s).map fun r => n + r.1.length := by
  induction s generalizing n with
  | nil => rfl
  | cons c s ih =>
    rw [findFrom, cut]
    split
    · rfl
    · rw [ih, Option.map_map]
      congr 1
      funext r
      exact Nat.add_right_comm n 1 _

theorem find_eq (hn : 0 < n) (view pattern : Text) :
    find view pattern n = (cut pattern (view.drop (n - 1))).map fun r => n + r.1.length := by
  rw [find, findFrom_eq, Nat.max_eq_left hn]

theorem sub_eq (view : Text) (i j : Nat) : sub view i j = (view.drop (i - 1)).take (j - (i - 1)) := by
  rw [sub, List.drop_take]

theorem sub_append (hi : i ≤ n) (hj : n ≤ j) (hn : n - 1 ≤ view.length) :
    sub view i (n - 1) ++ sub view n (j - 1) = sub view i (j - 1) := by
  have hlen : (view.take (n - 1)).length = n - 1 := List.length_take_of_le hn
  rw [sub, sub_eq, sub, ← List.drop_append_of_le_length (by omega), ← List.take_add]
  congr 2
  omega

theorem sub_drop (hi : i ≤ n) (hn : n - 1 ≤ view.length) :
    sub view i (n - 1) ++ view.drop (n - 1) = view.drop (i - 1) := by
  have hlen : (view.take (n - 1)).length = n - 1 := List.length_take_of_le hn
  rw [sub, ← List.drop_append_of_le_length (by omega), List.take_append_drop]

theorem cut_free {b : Char} (h : cut [b] s = some (t, rest)) : b ∉ t := by
  induction s generalizing t with
  | nil => cases h
  | cons c s ih =>
    rw [cut] at h
    split at h
    · cases h
      exact List.not_mem_nil
    · next hc =>
      obtain ⟨r, hr, heq⟩ := Option.map_eq_some_iff.1 h
      cases heq
      have hne : b ≠ c := by simpa using hc
      exact List.not_mem_cons_of_ne_of_not_mem hne (ih hr)

theorem cut_none {b : Char} (h : cut [b] s = none) : b ∉ s := by
  induction s with
  | nil => exact List.not_mem_nil
  | cons c s ih =>
    rw [cut] at h
    split at h
    · cases h
    · next hc =>
      have hne : b ≠ c := by simpa using hc
      exact List.not_mem_cons_of_ne_of_not_mem hne (ih (Option.map_eq_none_iff.1 h))

theorem opens_of_ne (hc : c ≠ '{') : opens before (c :: s) = none := by
  have htag : tagOf ((c :: s).take 2) = none := by
    unfold tagOf
    split <;> simp_all
  rw [opens, htag]

theorem pieces_none (h : opens before (c :: s) = none) : pieces before (c :: s) = pieces (before ++ [c]) s := by
  rw [pieces]
  split
  · simp_all
  · rfl

theorem pieces_some (h : opens before (c :: s) = some (p, rest)) :
    pieces before (c :: s) = (p :: (pieces [] rest).1, (pieces [] rest).2) := by
  rw [pieces]
  split
  · simp_all
  · simp_all

/-- A text without a brace belongs to the text before the next tag. -/
theorem pieces_append (ht : '{' ∉ t) : pieces before (t ++ s) = pieces (before ++ t) s := by
  induction t generalizing before with
  | nil => rw [List.append_nil, List.nil_append]
  | cons c t ih =>
    rw [List.mem_cons, not_or] at ht
    rw [List.cons_append, pieces_none (opens_of_ne (Ne.symm ht.1)), ih ht.2, List.append_assoc, List.singleton_append]

theorem pieces_free (ht : '{' ∉ t) : pieces before t = ([], before ++ t) := by
  have h := @pieces_append before [] t ht
  rwa [List.append_nil, pieces] at h

-- ---------------------------------------------------------------------------
-- The brace that was found
-- ---------------------------------------------------------------------------

theorem tagOf_sub (hs : 0 < i) (view : Text) : sub view i (i + 1) = (view.drop (i - 1)).take 2 := by
  rw [sub_eq]
  congr 1
  omega

theorem find_closing (hs : 0 < i) (view pattern : Text) :
    find view pattern (i + 2) = (cut pattern ((view.drop (i - 1)).drop 2)).map fun r => i + 2 + r.1.length := by
  rw [find_eq (Nat.succ_pos _), List.drop_drop]
  congr 3
  omega

theorem brace_none (hs : 0 < i) (h : opens before (view.drop (i - 1)) = none) : brace view i st = st := by
  rw [opens] at h
  rw [brace, tagOf_sub hs]
  cases htag : tagOf ((view.drop (i - 1)).take 2) with
  | none => rfl
  | some tag =>
    simp only [htag] at h
    simp only [find_closing hs]
    cases hcut : cut tag.closing ((view.drop (i - 1)).drop 2) with
    | none => rfl
    | some r =>
      simp only [hcut] at h
      split at h <;> cases h

/-- Where a tag ends, the positions tell what stands in it and after it. -/
theorem closed_at (hs : 0 < i) (hcut : cut tag.closing ((view.drop (i - 1)).drop 2) = some (t, rest)) :
    sub view (i + 2) (i + 2 + t.length - 1) = t ∧ view.drop (i + 2 + t.length + 1) = rest ∧
      i + 2 + t.length + 1 + rest.length = view.length := by
  have hclosing : tag.closing.length = 2 := by cases tag <;> rfl
  have hview : view.drop (i + 1) = t ++ (tag.closing ++ rest) := by
    rw [← cut_eq hcut, List.drop_drop]
    congr 1
    omega
  refine ⟨?_, ?_, ?_⟩
  · have hnum : i + 2 + t.length - 1 - (i + 2 - 1) = t.length := by omega
    rw [sub_eq, hnum, Nat.add_succ_sub_one, hview, List.take_left]
  · have hnum : i + 2 + t.length + 1 = i + 1 + (t.length + tag.closing.length) := by omega
    rw [hnum, ← List.drop_drop, hview, ← List.append_assoc, ← List.length_append, List.drop_left]
  · have hlen := congrArg List.length hview
    simp only [List.length_drop, List.length_append] at hlen
    omega

theorem newline_iff (h : view.drop n = rest) : sub view (n + 1) (n + 1) = ['\n'] ↔ rest.head? = some '\n' := by
  rw [sub_eq, Nat.add_sub_cancel, h, Nat.add_sub_cancel_left]
  cases rest <;> simp

/-- A tag takes `parse` past its end, with the text before it and its own line. -/
theorem brace_some (st : State) (hs : 0 < i) (h : opens before (view.drop (i - 1)) = some (p, rest)) :
    ∃ m, i ≤ m ∧ m ≤ view.length ∧ rest = view.drop m ∧ p.before = before ∧
      brace view i st = ⟨m, m + 1,
        st.c ++ (if st.j ≠ i then [literal (sub view st.j (i - 1))] else []) ++ [p.tag.line p.inside]⟩ := by
  have hlines : (if st.j ≠ i then st.c ++ [literal (sub view st.j (i - 1))] else st.c) =
      st.c ++ if st.j ≠ i then [literal (sub view st.j (i - 1))] else [] := by
    split
    · rfl
    · rw [List.append_nil]
  rw [opens] at h
  rw [brace, tagOf_sub hs]
  cases htag : tagOf ((view.drop (i - 1)).take 2) with
  | none =>
    simp only [htag] at h
    cases h
  | some tag =>
    simp only [htag] at h
    simp only [find_closing hs]
    cases hcut : cut tag.closing ((view.drop (i - 1)).drop 2) with
    | none =>
      simp only [hcut] at h
      cases h
    | some r =>
      obtain ⟨inside, after⟩ := r
      obtain ⟨hinside, hafter, hlen⟩ := closed_at hs hcut
      simp only [hcut] at h
      simp only [Option.map_some, hinside, newline_iff hafter]
      split at h
      · next hnl =>
        cases h
        obtain ⟨after, rfl⟩ := List.head?_eq_some_iff.1 hnl.2
        rw [if_pos hnl, hlines]
        rw [List.length_cons] at hlen
        refine ⟨i + 2 + inside.length + 2, by omega, by omega, ?_, rfl, rfl⟩
        have htail := congrArg List.tail hafter
        rw [List.tail_drop] at htail
        exact htail.symm
      · next hnl =>
        cases h
        rw [if_neg hnl, hlines]
        exact ⟨i + 2 + inside.length + 1, by omega, by omega, hafter.symm, rfl, rfl⟩

-- ---------------------------------------------------------------------------
-- The loop
-- ---------------------------------------------------------------------------

theorem sub_self (view : Text) (i : Nat) : sub view (i + 1) i = [] := by
  rw [sub_eq, Nat.add_sub_cancel, Nat.sub_self, List.take_zero]

/-- The first brace from `i` on, and the text before it. -/
theorem found (h : find view ['{'] i = some n) : ∃ t, '{' ∉ t ∧ view.drop (i - 1) = t ++ view.drop (n - 1) ∧
    n = max i 1 + t.length ∧ t = sub view (max i 1) (n - 1) ∧ (view.drop (n - 1)).head? = some '{' := by
  rw [find, findFrom_eq] at h
  obtain ⟨⟨t, rest⟩, hcut, rfl⟩ := Option.map_eq_some_iff.1 h
  have hview := cut_eq hcut
  have hi : i - 1 = max i 1 - 1 := by omega
  have hrest : view.drop (max i 1 + t.length - 1) = '{' :: rest := by
    have hnum : max i 1 + t.length - 1 = (i - 1) + t.length := by omega
    rw [hnum, ← List.drop_drop, hview, List.drop_left]
    rfl
  refine ⟨t, cut_free hcut, ?_, rfl, ?_, congrArg List.head? hrest⟩
  · rw [hrest, hview]
    rfl
  · have hnum : max i 1 + t.length - 1 - (max i 1 - 1) = t.length := by omega
    rw [sub_eq, hnum, ← hi, hview, List.take_left]

/-- No tag begins at a place, so its character belongs to the text. -/
theorem pieces_step (hi : 0 < i) (hle : i ≤ view.length) (hj : j ≤ i)
    (h : opens (sub view j (i - 1)) (view.drop (i - 1)) = none) :
    pieces (sub view j (i - 1)) (view.drop (i - 1)) = pieces (sub view j i) (view.drop i) := by
  have hdrop : view.drop (i - 1) = view[i - 1] :: view.drop i := by
    rw [List.drop_eq_getElem_cons (by omega), Nat.sub_add_cancel hi]
  have hsub : sub view j (i - 1) ++ [view[i - 1]] = sub view j i := by
    have hone : sub view i (i + 1 - 1) = [view[i - 1]] := by
      have hnum : i + 1 - 1 - (i - 1) = 1 := by omega
      rw [sub_eq, hdrop, hnum]
      rfl
    rw [← hone, sub_append hj (Nat.le_succ i) (by omega)]
    rfl
  rw [hdrop] at h
  rw [hdrop, pieces_none h, hsub]

/-- One place further before a brace that opens no tag, the pieces are the same. -/
theorem pieces_next (hj : j ≤ i) (hfound : find view ['{'] i = some n)
    (h : opens (sub view j (n - 1)) (view.drop (n - 1)) = none) :
    pieces (sub view j (max i 1 - 1)) (view.drop (i - 1)) = pieces (sub view j i) (view.drop i) := by
  obtain ⟨hle, -, hlen⟩ := find_bounds hfound
  obtain ⟨t, hfree, hview, hn, -, -⟩ := found hfound
  rcases Nat.eq_zero_or_pos i with rfl | hpos
  · rfl
  · rw [Nat.max_eq_left hpos] at hn ⊢
    refine pieces_step hpos (hle.trans hlen) hj ?_
    cases t with
    | nil =>
      rw [List.length_nil, Nat.add_zero] at hn
      rwa [hn] at h
    | cons c t =>
      rw [List.mem_cons, not_or] at hfree
      rw [hview, List.cons_append]
      exact opens_of_ne (Ne.symm hfree.1)

/-- There is a line for the text before a tag unless the tag stands right behind the last one. -/
theorem first_iff (hi : 0 < i) (hj : j ≤ i) (hn : i - 1 ≤ view.length) :
    (decide (j = 0) = true ∨ sub view j (i - 1) ≠ []) ↔ j ≠ i := by
  have hlen : (sub view j (i - 1)).length = i - 1 - (j - 1) := by
    rw [sub, List.length_drop, List.length_take_of_le hn]
  rw [decide_eq_true_iff, ← List.length_pos_iff, hlen]
  omega

theorem loop_eq (hj : st.j ≤ st.i) (hi : st.i ≤ view.length + 1) :
    let v := pieces (sub view st.j (max st.i 1 - 1)) (view.drop (st.i - 1))
    (loop view st).c = st.c ++ body (decide (st.j = 0)) v.1 ∧ view.drop ((loop view st).j - 1) = v.2 := by
  fun_induction loop view st with
  | case1 st hnone =>
    have hfree : '{' ∉ view.drop (st.i - 1) := by
      rw [find, findFrom_eq, Option.map_eq_none_iff] at hnone
      exact cut_none hnone
    have hnum : st.i - 1 = max st.i 1 - 1 := by omega
    rw [pieces_free hfree, hnum, sub_drop (by omega) (by omega)]
    exact ⟨(List.append_nil _).symm, rfl⟩
  | case2 st s hs st' ih =>
    obtain ⟨hle, hpos, hlen⟩ := find_bounds hs
    cases hopens : opens (sub view st.j (s - 1)) (view.drop (s - 1)) with
    | none =>
      have hst' : st' = st := brace_none hpos hopens
      rw [hst'] at ih ⊢
      have hih := ih (Nat.le_succ_of_le hj) (by dsimp only; omega)
      have hmax : max (st.i + 1) 1 = st.i + 1 := by omega
      rw [pieces_next hj hs hopens]
      simpa only [hmax, Nat.add_sub_cancel] using hih
    | some r =>
      obtain ⟨p, rest⟩ := r
      obtain ⟨t, hfree, hview, -, ht, hhead⟩ := found hs
      obtain ⟨m, hsm, hm, rfl, hp, hbrace⟩ := brace_some st hpos hopens
      have hpieces : pieces (sub view st.j (max st.i 1 - 1)) (view.drop (st.i - 1)) =
          (p :: (pieces [] (view.drop m)).1, (pieces [] (view.drop m)).2) := by
        obtain ⟨s', hdrop⟩ := List.head?_eq_some_iff.1 hhead
        rw [hview, pieces_append hfree, ht, sub_append (by omega) (by omega) (by omega), hdrop]
        rw [hdrop] at hopens
        exact pieces_some hopens
      have hfirst : (decide (st.j = 0) = true ∨ sub view st.j (s - 1) ≠ []) ↔ st.j ≠ s :=
        first_iff hpos (hj.trans hle) (by omega)
      have hst' : st' = _ := hbrace
      rw [hst'] at ih ⊢
      have hih := ih (Nat.le_refl _) (by dsimp only; omega)
      have hmax : max (m + 1) 1 = m + 1 := by omega
      simp only [hmax, Nat.add_sub_cancel, sub_self] at hih
      rw [hpieces]
      refine ⟨?_, hih.2⟩
      rw [hih.1, body, Piece.lines, hp]
      simp only [hfirst, List.append_assoc, Nat.add_one_ne_zero, decide_false]

theorem parse_chunk (h : view.head? ≠ some '\x1b') : parse view = chunk (pieces [] view) := by
  obtain ⟨hc, hlast⟩ := @loop_eq view ⟨0, 0, header⟩ (Nat.le_refl _) (Nat.zero_le _)
  rw [parse, if_neg h, chunk]
  simp only [hc, hlast]
  rfl

theorem tagOf_eq (h : tagOf t = some tag) : t = tag.opening := by
  unfold tagOf at h
  split at h <;> cases h <;> rfl

theorem opens_source (h : opens before s = some (p, rest)) : before ++ s = p.source ++ rest := by
  rw [opens] at h
  cases htag : tagOf (s.take 2) with
  | none =>
    simp only [htag] at h
    cases h
  | some tag =>
    simp only [htag] at h
    cases hcut : cut tag.closing (s.drop 2) with
    | none =>
      simp only [hcut] at h
      cases h
    | some r =>
      obtain ⟨inside, after⟩ := r
      simp only [hcut] at h
      have hs : s = tag.opening ++ (inside ++ (tag.closing ++ after)) := by
        rw [← cut_eq hcut, ← tagOf_eq htag, List.take_append_drop]
      split at h
      · next hnl =>
        cases h
        obtain ⟨after, rfl⟩ := List.head?_eq_some_iff.1 hnl.2
        simp [Piece.source, hs]
      · cases h
        simp [Piece.source, hs]

theorem pieces_source (before s : Text) :
    (pieces before s).1.flatMap Piece.source ++ (pieces before s).2 = before ++ s := by
  fun_induction pieces before s with
  | case1 before => simp
  | case2 before c s p rest h ih =>
    rw [List.flatMap_cons, List.append_assoc, ih, List.nil_append, opens_source h]
  | case3 before c s h ih => rw [ih, List.append_assoc, List.singleton_append]

/-- The lines are those of the pieces in their order, and nothing of the view is lost. -/
theorem parse_eq (h : view.head? ≠ some '\x1b') :
    parse view = chunk (pieces [] view) ∧ (pieces [] view).1.flatMap Piece.source ++ (pieces [] view).2 = view :=
  ⟨parse_chunk h, pieces_source [] view⟩

def someView : Text := "{% while x do %}".toList ++ '\n' :: "{{y}}{% end %}".toList

theorem someView_parsed : parse someView = chunk (pieces [] someView) ∧
    (pieces [] someView).1.flatMap Piece.source ++ (pieces [] someView).2 = someView :=
  parse_eq (by decide)

-- ---------------------------------------------------------------------------
-- What a chunk does
-- ---------------------------------------------------------------------------

/-- Lua around a chunk: how the expression in front of a text is read, what it evaluates
to, and what the template of a name renders to. -/
structure Env where
  expr : Text → Option (Value × Text)
  value : Text → Value
  compiled : Text → Text

/-- What was read, if it ends with `close`. -/
def ended {α : Type} (close : Text) (r : Option (α × Text)) : Option (α × Text) :=
  r.bind fun r => (r.2.dropPrefix? close).map fun s => (r.1, s)

/-- What the statement appends to `___`, and what follows its line. -/
def statement (env : Env) (s : Text) : Option (Text × Text) :=
  match s.dropPrefix? literalOpen with
  | some s => ended ['\n'] (longString 1 s)
  | none =>
    match s.dropPrefix? escapeOpen with
    | some s => (ended [')', '\n'] (env.expr s)).map fun r => (escape false r.1, r.2)
    | none =>
      match s.dropPrefix? outputOpen with
      | some s => (ended [')', '\n'] (env.expr s)).map fun r => (output r.1, r.2)
      | none => (s.dropPrefix? compileOpen).bind fun s =>
        (ended (compileClose ++ ['\n']) (longString 1 s)).map fun r => (env.compiled r.1, r.2)

/-- The statements after the header return this text. -/
inductive Runs (env : Env) : Text → Text → Prop where
  | footer : Runs env footer []
  | statement {s rest v out : Text} : statement env s = some (v, rest) → Runs env rest out → Runs env s (v ++ out)

def Returns (env : Env) (code out : Text) : Prop := ∃ s, code = concat header ++ '\n' :: s ∧ Runs env s out

/-- What a piece adds to the text of the view. -/
def Piece.rendered (env : Env) (p : Piece) : Text :=
  p.before ++ match p.tag with
    | .escape => escape false (env.value p.inside)
    | .output => output (env.value p.inside)
    | .code => []
    | .compile => env.compiled p.inside

def render (env : Env) (v : List Piece × Text) : Text := v.1.flatMap (Piece.rendered env) ++ v.2

/-- A tag that is one expression, and is read as it stands. -/
def Piece.Readable (env : Env) (p : Piece) : Prop :=
  match p.tag with
  | .escape | .output => ∀ s, env.expr (p.inside ++ ')' :: s) = some (env.value p.inside, ')' :: s)
  | .code => False
  | .compile => Plain 1 p.inside

variable {env : Env} {out : Text}

theorem dropPrefix_append (p s : Text) : (p ++ s).dropPrefix? p = some s :=
  List.dropPrefix?_append_of_beq s (beq_self_eq_true p)

theorem ended_eq_iff {α : Type} {close : Text} {r : Option (α × Text)} {v : α} :
    ended close r = some (v, s) ↔ r = some (v, close ++ s) := by
  constructor
  · intro h
    obtain ⟨⟨v', rest⟩, rfl, hrest⟩ := Option.bind_eq_some_iff.1 h
    obtain ⟨s', hdrop, heq⟩ := Option.map_eq_some_iff.1 hrest
    cases heq
    obtain ⟨p, hp, hbeq⟩ := List.dropPrefix?_eq_some_iff.1 hdrop
    dsimp only at hp
    rw [hp, eq_of_beq hbeq]
  · rintro rfl
    simp [ended, dropPrefix_append]

theorem statement_literal (env : Env) (t s : Text) :
    statement env (literal t ++ s) = ended ['\n'] (longString 1 (t ++ (closer 1 ++ s))) := by
  rw [literal, List.append_assoc, List.append_assoc, statement, dropPrefix_append]

/-- A line for a text appends the text if and only if the brackets leave it as it is. -/
theorem statement_literal_iff (env : Env) (t : Text) :
    (∀ s, statement env (literal t ++ '\n' :: s) = some (t, s)) ↔ Plain 1 t := by
  simp only [statement_literal, ended_eq_iff]
  constructor
  · intro h
    exact longString_eq_iff.1 (h [])
  · intro h s
    exact longString_eq_iff.2 h

theorem statement_line (h : p.Readable env) (s : Text) :
    ∃ v, statement env (p.tag.line p.inside ++ '\n' :: s) = some (v, s) ∧ p.rendered env = p.before ++ v := by
  obtain ⟨before, tag, inside, newline⟩ := p
  cases tag with
  | escape =>
    refine ⟨_, ?_, rfl⟩
    have hliteral : (escapeOpen ++ (inside ++ ')' :: '\n' :: s)).dropPrefix? literalOpen = none := rfl
    have hended : ended [')', '\n'] (env.expr (inside ++ ')' :: '\n' :: s)) = some (env.value inside, s) :=
      ended_eq_iff.2 (h ('\n' :: s))
    simp [Tag.line, statement, hliteral, dropPrefix_append, hended]
  | output =>
    refine ⟨_, ?_, rfl⟩
    have hliteral : (outputOpen ++ (inside ++ ')' :: '\n' :: s)).dropPrefix? literalOpen = none := rfl
    have hescape : (outputOpen ++ (inside ++ ')' :: '\n' :: s)).dropPrefix? escapeOpen = none := rfl
    have hended : ended [')', '\n'] (env.expr (inside ++ ')' :: '\n' :: s)) = some (env.value inside, s) :=
      ended_eq_iff.2 (h ('\n' :: s))
    simp [Tag.line, statement, hliteral, hescape, dropPrefix_append, hended]
  | code => exact absurd h id
  | compile =>
    refine ⟨_, ?_, rfl⟩
    have hended : ended (compileClose ++ ['\n'])
        (longString 1 (inside ++ (closer 1 ++ (compileClose ++ ['\n'] ++ s)))) = some (inside, s) :=
      ended_eq_iff.2 (longString_eq_iff.2 h)
    have htail : inside ++ (closer 1 ++ (compileClose ++ '\n' :: s)) =
        inside ++ (closer 1 ++ (compileClose ++ ['\n'] ++ s)) := by simp
    generalize inside ++ (closer 1 ++ (compileClose ++ ['\n'] ++ s)) = tail at hended htail
    have hliteral : (compileOpen ++ tail).dropPrefix? literalOpen = none := rfl
    have hescape : (compileOpen ++ tail).dropPrefix? escapeOpen = none := rfl
    have houtput : (compileOpen ++ tail).dropPrefix? outputOpen = none := rfl
    simp [Tag.line, statement, htail, hliteral, hescape, houtput, dropPrefix_append, hended]

/-- The texts between the tags of a view. -/
def texts (v : List Piece × Text) : List Text := v.1.map Piece.before ++ [v.2]

/-- The lines for the texts of a view append these texts if and only if the brackets leave them as they are. -/
theorem texts_kept_iff (env : Env) (view : Text) :
    (∀ t ∈ texts (pieces [] view), ∀ s, statement env (literal t ++ '\n' :: s) = some (t, s)) ↔
    ∀ t ∈ texts (pieces [] view), '\r' ∉ t ∧ t.head? ≠ some '\n' ∧ ¬ closer 1 <:+: t ++ [']'] := by
  refine forall₂_congr fun t _ => (statement_literal_iff env t).trans ?_
  exact ⟨fun h => ⟨h.1, h.2, h.3⟩, fun h => ⟨h.1, h.2.1, h.2.2⟩⟩

-- ---------------------------------------------------------------------------
-- Runs of a chunk
-- ---------------------------------------------------------------------------

theorem statement_footer (env : Env) : statement env footer = none := rfl

theorem runs_footer : Runs env footer out ↔ out = [] := by
  constructor
  · intro h
    generalize hs : footer = s at h
    cases h with
    | footer => rfl
    | statement hstatement _ =>
      rw [← hs, statement_footer] at hstatement
      exact absurd hstatement (Option.some_ne_none _).symm
  · rintro rfl
    exact .footer

theorem runs_line {v o : Text} (h : statement env s = some (v, rest)) (hrest : ∀ out, Runs env rest out ↔ out = o) :
    Runs env s out ↔ out = v ++ o := by
  constructor
  · intro hruns
    cases hruns with
    | footer =>
      rw [statement_footer] at h
      exact absurd h (Option.some_ne_none _).symm
    | statement hstatement hruns =>
      obtain ⟨rfl, rfl⟩ := Prod.mk.inj (Option.some.inj (h.symm.trans hstatement))
      rw [(hrest _).1 hruns]
  · rintro rfl
    exact .statement h ((hrest o).2 rfl)

theorem concat_cons (t : Text) {c : List Text} (h : c ≠ []) : concat (t :: c) = t ++ '\n' :: concat c := by
  obtain ⟨t', c, rfl⟩ := List.exists_cons_of_ne_nil h
  simp [concat, List.intercalate]

theorem concat_header {c : List Text} (h : c ≠ []) : concat (header ++ c) = concat header ++ '\n' :: concat c := by
  have hheader : header = ["context=... or {}".toList, "local ___={}".toList] := rfl
  have hone : concat ["local ___={}".toList] = "local ___={}".toList := by simp [concat, List.intercalate]
  rw [hheader, List.cons_append, List.singleton_append, concat_cons _ (List.cons_ne_nil _ _), concat_cons _ h,
    concat_cons _ (List.cons_ne_nil _ _), hone, List.append_assoc, List.cons_append]

/-- The lines of the pieces, and then the last text and the footer. -/
theorem runs_body (hpieces : ∀ p ∈ ps, Plain 1 p.before ∧ p.Readable env) (hlast : Plain 1 t) (first : Bool) :
    Runs env (concat (body first ps ++ [literal t, footer])) out ↔ out = render env (ps, t) := by
  induction ps generalizing first out with
  | nil =>
    have hfooter : concat [footer] = footer := by simp [concat, List.intercalate]
    have hrender : render env ([], t) = t ++ [] := by simp [render]
    rw [hrender, body, List.nil_append, concat_cons _ (List.cons_ne_nil _ _)]
    exact runs_line ((statement_literal_iff env t).2 hlast _) fun out => by rw [hfooter, runs_footer]
  | cons p ps ih =>
    rw [List.forall_mem_cons] at hpieces
    obtain ⟨⟨hbefore, hreadable⟩, hpieces⟩ := hpieces
    have hne : body false ps ++ [literal t, footer] ≠ [] := by simp
    obtain ⟨v, hline, hrendered⟩ := statement_line hreadable (concat (body false ps ++ [literal t, footer]))
    have htag : ∀ out, Runs env (concat (p.tag.line p.inside :: (body false ps ++ [literal t, footer]))) out ↔
        out = v ++ render env (ps, t) := by
      intro out
      rw [concat_cons _ hne]
      exact runs_line hline fun out => ih hpieces false
    have hrender : render env (p :: ps, t) = p.before ++ (v ++ render env (ps, t)) := by
      simp [render, hrendered]
    rw [hrender, body, Piece.lines]
    split
    · rw [List.append_assoc, List.append_assoc, List.singleton_append, List.singleton_append,
        concat_cons _ (List.cons_ne_nil _ _)]
      exact runs_line ((statement_literal_iff env p.before).2 hbefore _) htag
    · next hempty =>
      rw [not_or, not_not] at hempty
      rw [hempty.2, List.nil_append, List.nil_append]
      exact htag out

/-- What the template says is what the chunk of it returns. -/
theorem chunk_renders (hview : view.head? ≠ some '\x1b')
    (hpieces : ∀ p ∈ (pieces [] view).1, Plain 1 p.before ∧ p.Readable env) (hlast : Plain 1 (pieces [] view).2) :
    Returns env (parse view) out ↔ out = render env (pieces [] view) := by
  have hchunk : parse view = concat header ++ '\n' :: concat (body true (pieces [] view).1 ++
      [literal (pieces [] view).2, footer]) := by
    rw [parse_chunk hview, chunk, List.append_assoc]
    exact concat_header (List.append_ne_nil_of_right_ne_nil _ (List.cons_ne_nil _ _))
  rw [Returns, hchunk]
  constructor
  · rintro ⟨s, hs, hruns⟩
    rw [List.append_cancel_left_eq, List.cons_inj_right] at hs
    subst hs
    exact (runs_body hpieces hlast true).1 hruns
  · intro hout
    exact ⟨_, rfl, (runs_body hpieces hlast true).2 hout⟩

/-- A context where `x` is text that has to be escaped. -/
def someEnv : Env where
  expr
    | 'x' :: s => some (.string "<b>".toList, s)
    | _ => none
  value _ := .string "<b>".toList
  compiled _ := []

theorem hello_renders :
    Returns someEnv (parse "Hello {{x}}".toList) "Hello &lt;b&gt;".toList := by
  have hpieces : pieces [] "Hello {{x}}".toList =
      ([⟨"Hello ".toList, .escape, ['x'], false⟩], []) := by decide +kernel
  refine (chunk_renders (by decide) ?_ ?_).2 ?_
  · rw [hpieces]
    intro p hp
    rw [List.mem_singleton.1 hp]
    exact ⟨⟨by decide, by decide, by decide⟩, fun s => rfl⟩
  · rw [hpieces]
    exact ⟨by decide, by decide, by decide⟩
  · rw [hpieces]
    decide

-- ---------------------------------------------------------------------------
-- What a page shows of an escaped text
-- ---------------------------------------------------------------------------

/-- The character references that `escape` writes, as a page reads them. -/
def references : List (Text × Char) :=
  [("&amp;".toList, '&'), ("&lt;".toList, '<'), ("&gt;".toList, '>'), ("&quot;".toList, '"'), ("&#39;".toList, '\''),
    ("&#47;".toList, '/'), ("&#123;".toList, '{'), ("&#125;".toList, '}')]

def reference (s : Text) : Option (Text × Char) := references.find? fun r => r.1.isPrefixOf s

def unescape : Text → Text
  | [] => []
  | c :: s =>
    match reference (c :: s) with
    | some r => r.2 :: unescape (s.drop (r.1.length - 1))
    | none => c :: unescape s
termination_by s => s.length
decreasing_by
  · exact Nat.lt_succ_of_le (List.drop_sublist _ _).length_le
  · exact Nat.lt_succ_self _

theorem unescape_none (h : reference (c :: s) = none) : unescape (c :: s) = c :: unescape s := by
  rw [unescape, h]

theorem unescape_some {r : Text × Char} (h : reference (c :: s) = some r) :
    unescape (c :: s) = r.2 :: unescape (s.drop (r.1.length - 1)) := by
  rw [unescape, h]

theorem unescape_reference {r : Text × Char} (hr : r ∈ references) (s : Text) :
    unescape (r.1 ++ s) = r.2 :: unescape s := by
  simp only [references, List.mem_cons, List.not_mem_nil, or_false] at hr
  rcases hr with rfl | rfl | rfl | rfl | rfl | rfl | rfl | rfl
  all_goals exact unescape_some rfl

theorem reference_none (hc : c ≠ '&') (s : Text) : reference (c :: s) = none := by
  refine List.find?_eq_none.2 fun r hr => ?_
  simp only [references, List.mem_cons, List.not_mem_nil, or_false] at hr
  rcases hr with rfl | rfl | rfl | rfl | rfl | rfl | rfl | rfl
  all_goals
    intro h
    obtain ⟨_, h⟩ := List.isPrefixOf_iff_prefix.1 h
    exact hc (List.cons.inj h).1.symm

theorem gsub_cons (entities : Char → Option Text) (c : Char) (s : Text) :
    gsub entities (c :: s) = (entities c).getD [c] ++ gsub entities s := List.flatMap_cons

theorem unescape_html (s : Text) : unescape (gsub htmlEntities s) = s := by
  induction s with
  | nil => rw [gsub, List.flatMap_nil, unescape]
  | cons c s ih =>
    rw [gsub_cons]
    cases hc : htmlEntities c with
    | none =>
      have hne : c ≠ '&' := by
        rintro rfl
        cases hc
      rw [Option.getD_none, List.singleton_append, unescape_none (reference_none hne _), ih]
    | some t =>
      have hr : (t, c) ∈ references := by
        unfold htmlEntities at hc
        split at hc <;> cases hc <;> decide
      rw [Option.getD_some, unescape_reference hr, ih]

/-- The characters that begin or end tags and their attributes. -/
def markup : Text := ['<', '>', '"', '\'', '/']

theorem mem_html (h : c ∈ gsub htmlEntities s) : c ∉ markup := by
  obtain ⟨ch, -, hch⟩ := List.mem_flatMap.1 h
  cases hentity : htmlEntities ch with
  | none =>
    rw [hentity, Option.getD_none, List.mem_singleton] at hch
    subst hch
    intro hc
    simp only [markup, List.mem_cons, List.not_mem_nil, or_false] at hc
    rcases hc with rfl | rfl | rfl | rfl | rfl <;> cases hentity
  | some t =>
    rw [hentity, Option.getD_some] at hch
    have ht : (t.all fun c => !markup.contains c) = true := by
      unfold htmlEntities at hentity
      split at hentity <;> cases hentity <;> decide
    simpa using List.all_eq_true.1 ht c hch

theorem codeEntities_none (h : c ≠ '{' ∧ c ≠ '}') : codeEntities c = none := by
  unfold codeEntities
  split <;> simp_all

theorem code_length (s : Text) : s.length ≤ (gsub codeEntities s).length := by
  induction s with
  | nil => exact Nat.zero_le _
  | cons c s ih =>
    have hone : 0 < ((codeEntities c).getD [c]).length := by
      unfold codeEntities
      split
      · decide
      · decide
      · exact Nat.one_pos
    rw [gsub_cons, List.length_append, List.length_cons]
    omega

theorem code_eq_iff (s : Text) : gsub codeEntities s = s ↔ '{' ∉ s ∧ '}' ∉ s := by
  induction s with
  | nil => simp [gsub]
  | cons c s ih =>
    by_cases hc : c ≠ '{' ∧ c ≠ '}'
    · rw [gsub_cons, codeEntities_none hc, Option.getD_none, List.singleton_append, List.cons_inj_right, ih]
      simp [Ne.symm hc.1, Ne.symm hc.2]
    · refine iff_of_false (fun h => ?_) fun h => ?_
      · have hlong : 1 < ((codeEntities c).getD [c]).length := by
          rw [not_and_or, not_not, not_not] at hc
          rcases hc with rfl | rfl <;> decide
        have hlen := congrArg List.length h
        have := code_length s
        rw [gsub_cons, List.length_append, List.length_cons] at hlen
        omega
      · refine hc ⟨?_, ?_⟩
        · rintro rfl
          exact h.1 List.mem_cons_self
        · rintro rfl
          exact h.2 List.mem_cons_self

/-- A page shows an escaped text as it is, unless its braces were replaced too: their references
are escaped once more. -/
theorem escape_shown_iff (c : Bool) (s : Text) :
    (∀ ch ∈ escape c (.string s), ch ∉ markup) ∧
    (unescape (escape c (.string s)) = s ↔ (c = true → '{' ∉ s ∧ '}' ∉ s)) := by
  refine ⟨fun ch hch => mem_html hch, ?_⟩
  rw [escape, unescape_html]
  cases c with
  | false => simp
  | true => simp [code_eq_iff]

end GalaLua.Modules.Template
