import GalaLua.Runtime.ReadBack

/-!
# The nesting of an accepted text

What a well nested text is, as a grammar: each judgement relates a text to the
rest that lies behind the part it describes. The parser passes over characters
of a key that are not allowed there, over end tags of other elements, and over
whatever follows the root element. An accepted text is well nested exactly when
the run did none of this (`nested_iff`). Every text is accepted or refused
(`parseDocument_ne_fuel`).
-/

namespace GalaLua.Runtime.XML

-- ---------------------------------------------------------------------------
-- Well nested texts
-- ---------------------------------------------------------------------------

def Blanks (s t : Text) : Prop := ∃ b : Text, (∀ ch ∈ b, isSpaceChar ch = true) ∧ s = b ++ t

/-- From behind `<!--` to behind the first `-->`. -/
inductive CommentEnd : Text → Text → Prop
  | close {t : Text} : CommentEnd ('-' :: '-' :: '>' :: t) t
  | char {ch : Char} {s t : Text} (nul : ch ≠ '\x00') (more : ¬['-', '-', '>'] <+: ch :: s)
      (comment : CommentEnd s t) : CommentEnd (ch :: s) t

/-- A key, `=`, and a value in quotes. -/
structure Attribute (s t : Text) : Prop where
  parts : ∃ (k v w x : Text) (quote : Char), Name k ∧ Blanks w ('=' :: x) ∧ Blanks x (quote :: (v ++ quote :: t)) ∧
    (quote = '"' ∨ quote = '\'') ∧ (∀ ch ∈ v, ch ≠ '\x00' ∧ ch ≠ '>' ∧ ch ≠ quote) ∧ s = k ++ w

inductive Attributes : Text → Text → Prop
  | nil {t : Text} : Attributes ('>' :: t) ('>' :: t)
  | cons {s u v t : Text} (first : Attribute s u) (blanks : Blanks u v) (more : Attributes v t) : Attributes s t

/-- A key ends at a blank or at `>`. -/
def KeyEnds (s : Text) : Prop := ∃ ch r, s = ch :: r ∧ (isSpaceChar ch = true ∨ ch = '>')

mutual

/-- An element: `<key/>`, or a start tag, its content and an end tag of the same key. -/
inductive Nested : Text → Text → Prop
  | empty {k t : Text} (name : Name k) : Nested ('<' :: (k ++ '/' :: '>' :: t)) t
  | node {k s v u c w t : Text} (name : Name k) (ends : KeyEnds s) (blanks : Blanks s v)
      (attributes : Attributes v ('>' :: u)) (content : Content u ('<' :: '/' :: c)) (before : Blanks c (k ++ w))
      (behind : Blanks w ('>' :: t)) : Nested ('<' :: (k ++ s)) t

/-- Characters, comments and elements. A `<` that begins neither a tag nor a
comment is a character. -/
inductive Content : Text → Text → Prop
  | nil {t : Text} : Content t t
  | char {ch : Char} {s t : Text} (tag : ch ≠ '<') (more : Content s t) : Content (ch :: s) t
  | alone {s t : Text} (end_ : getChar s 0 ≠ '/') (comment : getChar s 0 ≠ '!')
      (start : isAllowedKeyStartChar (getChar s 0) = false) (more : Content s t) : Content ('<' :: s) t
  | comment {s u t : Text} (comment : CommentEnd s u) (more : Content u t) :
      Content ('<' :: '!' :: '-' :: '-' :: s) t
  | child {s u t : Text} (child : Nested s u) (more : Content u t) : Content s t

end

/-- Blanks and comments up to the end. -/
inductive Misc : Text → Prop
  | nil : Misc []
  | blank {ch : Char} {s : Text} (blank : isSpaceChar ch = true) (more : Misc s) : Misc (ch :: s)
  | comment {s t : Text} (comment : CommentEnd s t) (more : Misc t) : Misc ('<' :: '!' :: '-' :: '-' :: s)

/-- Blanks, with a comment between them or without. -/
inductive Prolog : Text → Text → Prop
  | blanks {s t : Text} (blanks : Blanks s t) : Prolog s t
  | comment {s u v t : Text} (before : Blanks s ('<' :: '!' :: '-' :: '-' :: u)) (comment : CommentEnd u v)
      (behind : Blanks v t) : Prolog s t

/-- Behind the declaration there is one element, and only blanks and comments follow it. -/
def WellNested (s : Text) : Prop :=
  ∃ d s₁ s₂ s₃, parseDeclaration s = .ok (d, s₁) ∧ Prolog s₁ s₂ ∧ Nested s₂ s₃ ∧ Misc s₃

-- ---------------------------------------------------------------------------
-- Regular runs
-- ---------------------------------------------------------------------------

mutual

/-- The run of `parseEnumElement` takes nothing into a key that is not allowed
there, and passes over no end tag. -/
def regularElement : Nat → Text → Bool
  | 0, _ => true
  | fuel + 1, s =>
    match parseKey s with
    | .error _ => true
    | .ok (key, ended, s) =>
      key.all isAllowedKeyChar && (ended ||
        match parseProperties fuel s with
        | .error _ => true
        | .ok (_, s) => regularValue fuel key (firstNoSpaceChar (step 1 s)))

def regularValue : Nat → Text → Text → Bool
  | 0, _, _ => true
  | fuel + 1, key, s =>
    if getChar s 0 = '\x00' then true
    else
      let s := firstNoSpaceChar s
      if getChar s 0 ≠ '<' then regularValue fuel key (step 1 s)
      else if getChar s 1 = '/' then
        match matchKeyword key (firstNoSpaceChar (step 2 s)) with
        | none => false
        | some t => getChar (firstNoSpaceChar t) 0 = '>'
      else if getChar s 1 = '!' then
        match parseIgnoreComment s with
        | .error _ => true
        | .ok t => regularValue fuel key (step 1 t)
      else if isAllowedKeyStartChar (getChar s 1) then
        match parseEnumElement fuel s with
        | .error _ => true
        | .ok (_, t) => regularElement fuel s && regularValue fuel key (step 1 t)
      else regularValue fuel key (step 1 s)

end

/-- The run of `parseRest` passes over blanks and comments only. -/
def regularRest : Nat → Text → Bool
  | 0, _ => true
  | fuel + 1, s =>
    if s = [] then true
    else if getChar s 0 ≠ '<' then isSpaceChar (getChar s 0) && regularRest fuel (step 1 s)
    else
      match parseIgnoreComment s with
      | .error _ => true
      | .ok t => regularRest fuel (step 1 t)

def regularRoot (s : Text) : Bool :=
  regularElement (s.length + 2) s &&
    match parseEnumElement (s.length + 2) s with
    | .error _ => true
    | .ok (_, t) => regularRest (s.length + 1) (firstNoSpaceChar (step 1 t))

/-- The text at which `parseRootElement` begins with the root element. -/
def rootText (s : Text) : Result Text :=
  let s := firstNoSpaceChar s
  if getChar s 0 = '<' ∧ getChar s 1 = '!' then
    (parseIgnoreComment s).bind fun t => .ok (firstNoSpaceChar (step 1 t))
  else .ok s

def regularDocument (s : Text) : Bool :=
  match (parseDeclaration s).bind fun (_, s) => rootText s with
  | .error _ => true
  | .ok s => regularRoot s

-- ---------------------------------------------------------------------------
-- Blanks and comments
-- ---------------------------------------------------------------------------

variable {s t u v : Text} {ch : Char}

theorem bind_eq_ok {α β : Type} {x : Result α} {f : α → Result β} {b : β} :
    x.bind f = .ok b ↔ ∃ a, x = .ok a ∧ f a = .ok b := by
  cases x with
  | error err => exact iff_of_false nofun fun ⟨_, h, _⟩ => by cases h
  | ok a => exact ⟨fun h => ⟨a, rfl, h⟩, fun ⟨_, h, hb⟩ => by cases h; exact hb⟩

theorem getChar_zero (h : getChar s 0 = ch) (hne : ch ≠ '\x00') : ∃ r, s = ch :: r := by
  cases s with
  | nil => exact absurd h.symm hne
  | cons c r => exact ⟨r, by rw [← h]; rfl⟩

theorem getChar_cons_one_eq (ch : Char) (s : Text) : getChar (ch :: s) 1 = getChar s 0 := by
  cases s <;> rfl

theorem blanks_refl (s : Text) : Blanks s s := ⟨[], nofun, rfl⟩

theorem blanks_firstNoSpaceChar (s : Text) : Blanks s (firstNoSpaceChar s) :=
  ⟨s.takeWhile isSpaceChar, fun _ h => List.mem_takeWhile_imp h, List.takeWhile_append_dropWhile.symm⟩

theorem Blanks.firstNoSpaceChar_eq (h : Blanks s (ch :: t)) (hch : isSpaceChar ch = false) :
    firstNoSpaceChar s = ch :: t := by
  obtain ⟨b, hb, rfl⟩ := h
  rw [firstNoSpaceChar_append hb, firstNoSpaceChar_cons hch]

theorem isSpaceChar_plain (h : isSpaceChar ch = true) : ch ≠ '\x00' ∧ ch ≠ '<' ∧ ch ≠ '>' := by
  simp only [isSpaceChar, Bool.or_eq_true, decide_eq_true_eq] at h
  rcases h with ((rfl | rfl) | rfl) | rfl <;> decide

theorem scanComment_eq_ok : scanComment s = .ok t ↔ ∃ u, t = '>' :: u ∧ CommentEnd s u := by
  constructor
  · intro h
    induction s with
    | nil => cases h
    | cons ch s ih =>
      rw [scanComment] at h
      split at h
      next => cases h
      next hnul =>
        split at h
        next hend =>
          obtain ⟨rfl, h0, h1⟩ := hend
          obtain ⟨r, rfl⟩ := getChar_zero h0 (by decide)
          rw [getChar_cons_one_eq] at h1
          obtain ⟨u, rfl⟩ := getChar_zero h1 (by decide)
          cases h
          exact ⟨u, step_two_cons _ _ _, .close⟩
        next hmore =>
          obtain ⟨u, hu, hcomment⟩ := ih h
          refine ⟨u, hu, .char hnul (fun hprefix => hmore ?_) hcomment⟩
          obtain ⟨r, hr⟩ := hprefix
          cases hr
          exact ⟨rfl, rfl, rfl⟩
  · rintro ⟨u, rfl, h⟩
    induction h with
    | close => rfl
    | @char ch s t hnul hmore _ ih =>
      rw [scanComment, if_neg hnul, if_neg, ih]
      rintro ⟨rfl, h0, h1⟩
      obtain ⟨r, rfl⟩ := getChar_zero h0 (by decide)
      rw [getChar_cons_one_eq] at h1
      obtain ⟨x, rfl⟩ := getChar_zero h1 (by decide)
      exact hmore ⟨x, rfl⟩

theorem parseIgnoreComment_eq_ok {r : Text} : parseIgnoreComment ('<' :: '!' :: r) = .ok t ↔
    ∃ x u, r = '-' :: '-' :: x ∧ t = '>' :: u ∧ CommentEnd x u := by
  have hlt : isSpaceChar '<' = false := rfl
  simp only [parseIgnoreComment, firstNoSpaceChar_cons hlt, getChar_cons_zero, getChar_cons_one, and_self, if_true]
  constructor
  · intro h
    split at h
    next => cases h
    next x hx =>
      rw [matchKeyword] at hx
      split at hx
      next hprefix =>
        obtain ⟨y, hy⟩ := hprefix
        cases hy
        cases hx
        obtain ⟨u, rfl, hcomment⟩ := scanComment_eq_ok.mp h
        exact ⟨y, u, rfl, rfl, hcomment⟩
      next => cases hx
  · rintro ⟨x, u, rfl, rfl, hcomment⟩
    have hmatch : matchKeyword ['<', '!', '-', '-'] ('<' :: '!' :: '-' :: '-' :: x) = some x :=
      matchKeyword_append ['<', '!', '-', '-'] x
    rw [hmatch]
    exact scanComment_eq_ok.mpr ⟨u, rfl, hcomment⟩

-- ---------------------------------------------------------------------------
-- Keys
-- ---------------------------------------------------------------------------

variable {key : Text} {ended : Bool} {fuel : Nat}

def endsKey (ch : Char) : Bool := isSpaceChar ch || ch = '>' || ch = '/'

structure KeyText (k : Text) : Prop where
  start : ∃ c k', k = c :: k' ∧ isAllowedKeyStartChar c = true
  plain : ∀ ch ∈ k, ch ≠ '\x00' ∧ endsKey ch = false

theorem endsKey_of_allowed (h : isAllowedKeyChar ch = true) : endsKey ch = false := by
  obtain ⟨-, hspace, hgt, hslash, -⟩ := isAllowedKeyChar_plain h
  simp [endsKey, hspace, hgt, hslash]

theorem isSpaceChar_of_endsKey (h : endsKey ch = false) : isSpaceChar ch = false := by
  simp only [endsKey, Bool.or_eq_false_iff] at h
  exact h.1.1

theorem Name.keyText {k : Text} (h : Name k) : KeyText k where
  start := h.start
  plain ch hch := ⟨(isAllowedKeyChar_plain (h.chars ch hch)).1, endsKey_of_allowed (h.chars ch hch)⟩

theorem KeyText.name {k : Text} (h : KeyText k) (hall : k.all isAllowedKeyChar = true) : Name k :=
  ⟨h.start, List.all_eq_true.mp hall⟩

/-- A key ends where a blank, `>` or `/` stands for the first time. -/
theorem KeyText.append_unique {k k' r r' : Text} {c c' : Char} (hk : KeyText k) (hk' : KeyText k')
    (hc : endsKey c = true) (hc' : endsKey c' = true) (h : k ++ c :: r = k' ++ c' :: r') :
    k = k' ∧ c = c' ∧ r = r' := by
  have htake {x y : Text} {d : Char} (hx : KeyText x) (hd : endsKey d = true) :
      (x ++ d :: y).takeWhile (fun ch => !endsKey ch) = x := by
    have hpos (ch : Char) (hch : ch ∈ x) : (!endsKey ch) = true := by
      rw [(hx.plain ch hch).2]
      rfl
    rw [List.takeWhile_append_of_pos hpos, List.takeWhile_cons_of_neg (by rw [hd]; decide), List.append_nil]
  have heq : k = k' := by rw [← htake (y := r) hk hc, h, htake hk' hc']
  subst heq
  obtain ⟨rfl, rfl⟩ := List.cons.inj (List.append_cancel_left h)
  exact ⟨rfl, rfl, rfl⟩

/-- What a key is made of, and what stops it. -/
theorem scanKey_spec (s : Text) : ∃ k, s = k ++ scanKey s ∧ (∀ ch ∈ k, ch ≠ '\x00' ∧ endsKey ch = false) ∧
    (isAllowedKeyStartChar (getChar s 0) = true → ∃ c k', k = c :: k' ∧ isAllowedKeyStartChar c = true) := by
  induction s with
  | nil => exact ⟨[], rfl, nofun, nofun⟩
  | cons ch s ih =>
    rw [scanKey]
    split
    next hnul =>
      refine ⟨[], rfl, nofun, fun hstart => ?_⟩
      rw [getChar_cons_zero, hnul] at hstart
      exact absurd hstart (by decide)
    next hnul =>
      split
      next hstop =>
        refine ⟨[], rfl, nofun, fun hstart => ?_⟩
        have hkey : isAllowedKeyChar ch = true := by
          rw [getChar_cons_zero] at hstart
          simp [isAllowedKeyChar, hstart]
        rw [hkey] at hstop
        cases hstop
      next hmore =>
        obtain ⟨k, hk, hplain, -⟩ := ih
        refine ⟨ch :: k, by rw [List.cons_append, ← hk], ?_, fun hstart => ⟨ch, k, rfl, hstart⟩⟩
        refine List.forall_mem_cons.mpr ⟨⟨hnul, ?_⟩, hplain⟩
        by_cases hkey : isAllowedKeyChar ch = true
        · exact endsKey_of_allowed hkey
        · simpa [hkey, endsKey] using hmore

theorem parseKey_spec (h : parseKey s = .ok (key, ended, t)) : ∃ k r, firstNoSpaceChar s = '<' :: (k ++ r) ∧
    KeyText k ∧
    ((ended = true ∧ key = k ∧ ∃ u, r = '/' :: '>' :: u ∧ t = '>' :: u) ∨
      (ended = false ∧ key = k ∧ t = r ∧ KeyEnds r) ∨ (ended = false ∧ ¬KeyEnds t)) := by
  rw [parseKey] at h
  split at h
  next => cases h
  next hlt =>
    rw [not_not] at hlt
    obtain ⟨r, hr⟩ := getChar_zero hlt (by decide)
    simp only [hr, step_one_cons] at h
    split at h
    next => cases h
    next hstart =>
      rw [Bool.not_eq_true, Bool.not_eq_false'] at hstart
      obtain ⟨k, hk, hplain, hhead⟩ := scanKey_spec r
      obtain ⟨c, k', rfl, hc⟩ := hhead hstart
      have hskip : firstNoSpaceChar r = r := by
        rw [hk]
        exact firstNoSpaceChar_cons (isSpaceChar_of_endsKey (hplain c List.mem_cons_self).2) _
      have hkey : blader (between r (scanKey r)) = c :: k' := by
        have hbetween := between_append (c :: k') (scanKey r)
        rw [← hk] at hbetween
        rw [hbetween]
        exact blader_of_plain fun ch hch => ⟨(hplain ch hch).1, isSpaceChar_of_endsKey (hplain ch hch).2⟩
      refine ⟨c :: k', scanKey r, by rw [hr, ← hk], ⟨⟨c, k', rfl, hc⟩, hplain⟩, ?_⟩
      rw [hskip, hkey] at h
      split at h
      next hspace =>
        cases h
        obtain ⟨x, hx⟩ : ∃ x, scanKey r = getChar (scanKey r) 0 :: x :=
          getChar_zero rfl (isSpaceChar_plain hspace).1
        exact .inr (.inl ⟨rfl, rfl, rfl, _, x, hx, .inl hspace⟩)
      next hspace =>
        split at h
        next hgt =>
          rw [if_neg (List.cons_ne_nil c k')] at h
          cases h
          obtain ⟨x, hx⟩ := getChar_zero hgt (by decide)
          exact .inr (.inl ⟨rfl, rfl, rfl, _, x, hx, .inr rfl⟩)
        next hgt =>
          split at h
          next hslash =>
            obtain ⟨x, hx⟩ := getChar_zero hslash (by decide)
            split at h
            next => cases h
            next hclose =>
              rw [if_neg (List.cons_ne_nil c k')] at h
              rw [not_not, hx, getChar_cons_one_eq] at hclose
              obtain ⟨y, rfl⟩ := getChar_zero hclose (by decide)
              cases h
              exact .inl ⟨rfl, rfl, y, hx, by rw [hx, step_one_cons]⟩
          next =>
            cases h
            refine .inr (.inr ⟨rfl, ?_⟩)
            rintro ⟨ch, x, hx, hends⟩
            rw [hx] at hspace hgt
            rcases hends with hends | rfl
            · exact hspace hends
            · exact hgt rfl

-- ---------------------------------------------------------------------------
-- Attributes
-- ---------------------------------------------------------------------------

theorem scanAttribKey_spec (h : scanAttribKey s = .ok t) : ∃ k, s = k ++ t ∧ (∀ ch ∈ k, isAllowedKeyChar ch = true) ∧
    (isAllowedKeyStartChar (getChar s 0) = true → ∃ c k', k = c :: k' ∧ isAllowedKeyStartChar c = true) := by
  induction s with
  | nil =>
    cases h
    exact ⟨[], rfl, nofun, nofun⟩
  | cons ch s ih =>
    have hkey (hstart : isAllowedKeyStartChar ch = true) : isAllowedKeyChar ch = true := by
      simp [isAllowedKeyChar, hstart]
    rw [scanAttribKey] at h
    split at h
    next hstop =>
      cases h
      refine ⟨[], rfl, nofun, fun hstart => ?_⟩
      obtain ⟨hnul, -, hgt, -⟩ := isAllowedKeyChar_plain (hkey hstart)
      rcases hstop with hstop | hstop
      · exact absurd hstop hnul
      · exact absurd hstop hgt
    next =>
      split at h
      next hstop =>
        cases h
        refine ⟨[], rfl, nofun, fun hstart => ?_⟩
        obtain ⟨-, hspace, -, -, heq⟩ := isAllowedKeyChar_plain (hkey hstart)
        rw [hspace] at hstop
        exact absurd (by simpa using hstop) heq
      next =>
        split at h
        next => cases h
        next hallowed =>
          rw [Bool.not_eq_true, Bool.not_eq_false'] at hallowed
          obtain ⟨k, rfl, hk, -⟩ := ih h
          exact ⟨ch :: k, rfl, List.forall_mem_cons.mpr ⟨hallowed, hk⟩, fun hstart => ⟨ch, k, rfl, hstart⟩⟩

theorem scanAttribVal_spec (quote : Char) (s : Text) : ∃ v, s = v ++ scanAttribVal quote s ∧
    ∀ ch ∈ v, ch ≠ '\x00' ∧ ch ≠ '>' ∧ ch ≠ quote := by
  refine ⟨_, List.takeWhile_append_dropWhile.symm, fun ch hch => ?_⟩
  have hin := List.mem_takeWhile_imp hch
  exact of_decide_eq_true hin

theorem isSpaceChar_scanAttribVal {quote : Char} (hquote : isSpaceChar quote = false)
    (h : getChar (firstNoSpaceChar (scanAttribVal quote s)) 0 = quote) (hnul : quote ≠ '\x00') :
    ∃ t, scanAttribVal quote s = quote :: t := by
  cases hs : scanAttribVal quote s with
  | nil =>
    rw [hs] at h
    exact absurd h.symm hnul
  | cons ch t =>
    have hstop : ¬(ch ≠ '\x00' ∧ ch ≠ '>' ∧ ch ≠ quote) := by
      have hdrop : s.dropWhile (fun ch => ch ≠ '\x00' ∧ ch ≠ '>' ∧ ch ≠ quote) = ch :: t := hs
      have hhead := List.head_dropWhile_not (fun ch => decide (ch ≠ '\x00' ∧ ch ≠ '>' ∧ ch ≠ quote))
        (hdrop ▸ List.cons_ne_nil ch t)
      simp only [hdrop, List.head_cons] at hhead
      exact of_decide_eq_false hhead
    have hplain : isSpaceChar ch = false := by
      by_contra hspace
      rw [Bool.not_eq_false] at hspace
      obtain ⟨hc, -, hgt⟩ := isSpaceChar_plain hspace
      refine hstop ⟨hc, hgt, ?_⟩
      rintro rfl
      rw [hquote] at hspace
      cases hspace
    rw [hs, firstNoSpaceChar_cons hplain, getChar_cons_zero] at h
    exact ⟨t, by rw [h]⟩

theorem parseAttrib_spec {w : Value} (hstart : isAllowedKeyStartChar (getChar (firstNoSpaceChar s) 0) = true)
    (h : parseAttrib (firstNoSpaceChar s) = .ok (w, t)) :
    ∃ quote u, t = quote :: u ∧ isSpaceChar quote = false ∧ Attribute (firstNoSpaceChar s) u := by
  simp only [parseAttrib, firstNoSpaceChar_idem] at h
  obtain ⟨x, hx, h⟩ := bind_eq_ok.mp h
  obtain ⟨k, hk, hallowed, hhead⟩ := scanAttribKey_spec hx
  split at h
  next => cases h
  next heq =>
    rw [not_not] at heq
    obtain ⟨y, hy⟩ := getChar_zero heq (by decide)
    simp only [hy, step_one_cons] at h
    split at h
    next => cases h
    next hquote =>
      have hquote' : getChar (firstNoSpaceChar y) 0 = '"' ∨ getChar (firstNoSpaceChar y) 0 = '\'' := by
        by_contra hno
        exact hquote (not_or.mp hno)
      have hnul : getChar (firstNoSpaceChar y) 0 ≠ '\x00' := by
        rcases hquote' with heq | heq
        · rw [heq]
          decide
        · rw [heq]
          decide
      have hplain : isSpaceChar (getChar (firstNoSpaceChar y) 0) = false := by
        rcases hquote' with heq | heq
        · rw [heq]
          rfl
        · rw [heq]
          rfl
      obtain ⟨z, hz⟩ := getChar_zero (s := firstNoSpaceChar y) rfl hnul
      generalize getChar (firstNoSpaceChar y) 0 = quote at *
      simp only [hz, step_one_cons] at h
      split at h
      next => cases h
      next hend =>
        rw [not_not] at hend
        obtain ⟨u, hu⟩ := isSpaceChar_scanAttribVal hplain hend hnul
        cases h
        rw [hu, firstNoSpaceChar_cons hplain]
        refine ⟨quote, u, rfl, hplain, ?_⟩
        obtain ⟨v, hv, hvplain⟩ := scanAttribVal_spec quote (firstNoSpaceChar z)
        obtain ⟨b, hb, hbz⟩ := blanks_firstNoSpaceChar z
        have hval : z = (b ++ v) ++ quote :: u := by
          rw [List.append_assoc, ← hu, ← hv, ← hbz]
        refine ⟨k, b ++ v, x, y, quote, ⟨hhead hstart, hallowed⟩, hy ▸ blanks_firstNoSpaceChar x,
          hval ▸ hz ▸ blanks_firstNoSpaceChar y, hquote', fun ch hch => ?_, hk⟩
        rcases List.mem_append.mp hch with hch | hch
        · obtain ⟨hc, -, hgt⟩ := isSpaceChar_plain (hb ch hch)
          refine ⟨hc, hgt, ?_⟩
          rintro rfl
          rw [hb ch hch] at hplain
          cases hplain
        · exact hvplain ch hch

theorem parseEnumAttrib_spec {ps ps' : List Value} (h : parseEnumAttrib fuel ps s = .ok (ps', t)) :
    ∃ u, t = '>' :: u ∧ Attributes (firstNoSpaceChar s) t := by
  induction fuel generalizing ps s with
  | zero => cases h
  | succ fuel ih =>
    rw [parseEnumAttrib] at h
    split at h
    next hgt =>
      obtain ⟨u, hu⟩ := getChar_zero hgt (by decide)
      cases h
      exact ⟨u, hu, hu ▸ .nil⟩
    next =>
      split at h
      next => cases h
      next hstart =>
        rw [Bool.not_eq_true, Bool.not_eq_false'] at hstart
        obtain ⟨⟨w, x⟩, hattrib, h⟩ := bind_eq_ok.mp h
        obtain ⟨quote, y, rfl, -, hfirst⟩ := parseAttrib_spec hstart hattrib
        simp only [step_one_cons] at h
        split at h
        next =>
          obtain ⟨u, hu, hmore⟩ := ih h
          rw [firstNoSpaceChar_idem] at hmore
          exact ⟨u, hu, .cons hfirst (blanks_firstNoSpaceChar y) hmore⟩
        next hgt =>
          rw [not_not] at hgt
          obtain ⟨u, hu⟩ := getChar_zero hgt (by decide)
          cases h
          exact ⟨u, hu, .cons hfirst (blanks_firstNoSpaceChar y) (hu ▸ .nil)⟩

/-- From behind the key to the end of the start tag. -/
theorem parseProperties_spec {ps : List Value} (h : parseProperties fuel s = .ok (ps, t)) (hends : KeyEnds s)
    (ht : getChar t 0 = '>') : ∃ v u, t = '>' :: u ∧ Blanks s v ∧ Attributes v t := by
  obtain ⟨u, rfl⟩ := getChar_zero ht (by decide)
  rw [parseProperties] at h
  split at h
  next =>
    obtain ⟨-, -, hattributes⟩ := parseEnumAttrib_spec h
    rw [firstNoSpaceChar_idem] at hattributes
    exact ⟨_, u, rfl, blanks_firstNoSpaceChar s, hattributes⟩
  next =>
    split at h
    next =>
      obtain ⟨-, heq⟩ := Prod.mk.inj (Except.ok.inj h)
      exact ⟨_, u, rfl, blanks_firstNoSpaceChar s, heq ▸ .nil⟩
    next =>
      cases h
      exact ⟨_, u, rfl, blanks_refl _, .nil⟩

theorem Attribute.gt_not_mem (h : Attribute s t) : ∃ a, s = a ++ t ∧ '>' ∉ a := by
  obtain ⟨k, v, w, x, quote, hname, ⟨b, hb, rfl⟩, ⟨b', hb', rfl⟩, hquote, hv, rfl⟩ := h
  refine ⟨k ++ (b ++ '=' :: (b' ++ quote :: (v ++ [quote]))), by simp, fun hmem => ?_⟩
  have hne : '>' ≠ quote := by
    rcases hquote with rfl | rfl <;> decide
  simp only [List.mem_append, List.mem_cons, List.not_mem_nil, or_false] at hmem
  rcases hmem with hk | hblank | heq | hblank | hq | hval | hq
  · exact (isAllowedKeyChar_plain (hname.chars _ hk)).2.2.1 rfl
  · exact (isSpaceChar_plain (hb _ hblank)).2.2 rfl
  · exact absurd heq (by decide)
  · exact (isSpaceChar_plain (hb' _ hblank)).2.2 rfl
  · exact hne hq
  · exact (hv _ hval).2.1 rfl
  · exact hne hq

theorem Attributes.gt_not_mem (h : Attributes s t) : ∃ a, s = a ++ t ∧ '>' ∉ a := by
  induction h with
  | nil => exact ⟨[], rfl, nofun⟩
  | cons hfirst hblanks _ ih =>
    obtain ⟨a, rfl, ha⟩ := hfirst.gt_not_mem
    obtain ⟨b, hb, rfl⟩ := hblanks
    obtain ⟨c, rfl, hc⟩ := ih
    refine ⟨a ++ (b ++ c), by simp, fun hmem => ?_⟩
    rw [List.mem_append, List.mem_append] at hmem
    rcases hmem with hmem | hmem | hmem
    · exact ha hmem
    · exact (isSpaceChar_plain (hb _ hmem)).2.2 rfl
    · exact hc hmem

theorem startTag_unique {v' u' : Text} (hv : Blanks s v) (ha : Attributes v ('>' :: u)) (hv' : Blanks s v')
    (ha' : Attributes v' ('>' :: u')) : u = u' := by
  have hfirst {w r : Text} (hw : Blanks s w) (ha : Attributes w ('>' :: r)) :
      s.dropWhile (fun ch => decide (ch ≠ '>')) = '>' :: r := by
    obtain ⟨b, hb, rfl⟩ := hw
    obtain ⟨a, rfl, hgt⟩ := ha.gt_not_mem
    rw [← List.append_assoc, List.dropWhile_append_of_pos]
    · exact List.dropWhile_cons_of_neg (by decide)
    · intro ch hch
      refine decide_eq_true ?_
      rintro rfl
      rcases List.mem_append.mp hch with hch | hch
      · exact (isSpaceChar_plain (hb _ hch)).2.2 rfl
      · exact hgt hch
  exact (List.cons.inj ((hfirst hv ha).symm.trans (hfirst hv' ha'))).2

-- ---------------------------------------------------------------------------
-- Elements
-- ---------------------------------------------------------------------------

theorem Content.blanks (h : Blanks s u) (hu : Content u t) : Content s t := by
  obtain ⟨b, hb, rfl⟩ := h
  induction b with
  | nil => exact hu
  | cons ch b ih =>
    obtain ⟨hch, hb⟩ := List.forall_mem_cons.mp hb
    exact .char (isSpaceChar_plain hch).2.1 (ih hb)

theorem Nested.start (h : Nested s t) : ∃ ch r, s = '<' :: ch :: r ∧ isAllowedKeyStartChar ch = true := by
  cases h with
  | empty hname =>
    obtain ⟨ch, r, rfl, hch⟩ := hname.start
    exact ⟨ch, _, rfl, hch⟩
  | node hname =>
    obtain ⟨ch, r, rfl, hch⟩ := hname.start
    exact ⟨ch, _, rfl, hch⟩

/-- Blanks in front of an end tag belong to the content. -/
theorem Content.skip (h : Content s ('<' :: t)) : Content (firstNoSpaceChar s) ('<' :: t) := by
  induction s with
  | nil => exact h
  | cons ch s ih =>
    by_cases hspace : isSpaceChar ch = true
    · have hskip : firstNoSpaceChar (ch :: s) = firstNoSpaceChar s :=
        firstNoSpaceChar_append (t := [ch]) (fun c hc => by rw [List.mem_singleton.mp hc]; exact hspace) s
      have hlt := (isSpaceChar_plain hspace).2.1
      rw [hskip]
      cases h with
      | nil => exact absurd rfl hlt
      | char _ hmore => exact ih hmore
      | alone => exact absurd rfl hlt
      | comment => exact absurd rfl hlt
      | child hchild =>
        obtain ⟨c, r, heq, -⟩ := hchild.start
        exact absurd (List.cons.inj heq).1 hlt
    · rw [firstNoSpaceChar_cons (by simpa using hspace)]
      exact h

theorem parseProperties_of_not_ends (fuel : Nat) (h : ¬KeyEnds s) :
    parseProperties fuel s = .ok ([], s) ∧ getChar s 0 ≠ '>' := by
  have hspace : ¬isSpaceChar (getChar s 0) = true := fun hspace => by
    obtain ⟨r, hr⟩ := getChar_zero (s := s) rfl (isSpaceChar_plain hspace).1
    exact h ⟨_, r, hr, .inl hspace⟩
  refine ⟨?_, fun hgt => ?_⟩
  · rw [parseProperties, if_neg fun hc => hspace hc.1, if_neg hspace]
  · obtain ⟨r, hr⟩ := getChar_zero hgt (by decide)
    exact h ⟨_, r, hr, .inr rfl⟩

theorem matchKeyword_eq_some : matchKeyword u s = some t ↔ s = u ++ t := by
  constructor
  · intro h
    rw [matchKeyword] at h
    split at h
    next hprefix =>
      obtain ⟨r, rfl⟩ := hprefix
      cases h
      simp
    next => cases h
  · rintro rfl
    exact matchKeyword_append u t

theorem parseValue_nil (fuel : Nat) (e : Element) (vb : Text) (r : Element × Text) : parseValue fuel e vb [] ≠ .ok r := by
  cases fuel with
  | zero => exact nofun
  | succ fuel => exact nofun

/-- The two ways in which `parseEnumElement` accepts an element. -/
inductive ElementRun (fuel : Nat) (s : Text) (e : Element) (t : Text) : Prop
  | empty {k u : Text} (tag : firstNoSpaceChar s = '<' :: (k ++ '/' :: '>' :: u))
      (read : KeyText k) (rest : t = '>' :: u)
      (regular : regularElement (fuel + 1) s = k.all isAllowedKeyChar)
  | node {k r v u : Text} {e' : Element} (tag : firstNoSpaceChar s = '<' :: (k ++ r))
      (read : KeyText k) (ends : KeyEnds r) (blanks : Blanks r v)
      (attributes : Attributes v ('>' :: u)) (key : e'.key = k)
      (value : parseValue fuel e' (firstNoSpaceChar u) (firstNoSpaceChar u) = .ok (e, t))
      (regular : regularElement (fuel + 1) s =
        (k.all isAllowedKeyChar && regularValue fuel k (firstNoSpaceChar u)))

theorem parseEnumElement_run {e : Element} (h : parseEnumElement (fuel + 1) s = .ok (e, t)) :
    ElementRun fuel s e t := by
  rw [parseEnumElement] at h
  obtain ⟨⟨key, ended, x⟩, hkey, h⟩ := bind_eq_ok.mp h
  obtain ⟨k, r, hs, hstart, hcase⟩ := parseKey_spec hkey
  rcases hcase with ⟨rfl, rfl, u, rfl, rfl⟩ | ⟨rfl, rfl, rfl, hends⟩ | ⟨rfl, hnot⟩
  · cases h
    exact .empty hs hstart rfl (by simp [regularElement, hkey])
  · obtain ⟨⟨ps, y⟩, hprops, h⟩ := bind_eq_ok.mp h
    dsimp only at h
    split at h
    next hgt =>
      obtain ⟨v, u, rfl, hblanks, hattributes⟩ := parseProperties_spec hprops hends hgt
      rw [step_one_cons] at h
      exact .node hs hstart hends hblanks hattributes rfl h (by simp [regularElement, hkey, hprops])
    next => cases h
  · obtain ⟨hprops, hgt⟩ := parseProperties_of_not_ends fuel hnot
    simp only [hprops, Bool.false_eq_true, if_false, bind_eq_ok, Except.ok.injEq, exists_eq_left',
      if_neg hgt] at h
    cases h

theorem length_firstNoSpaceChar_le (s : Text) : (firstNoSpaceChar s).length ≤ s.length :=
  (List.dropWhile_suffix _).length_le

theorem length_step_le (n : Nat) (s : Text) : (step n s).length ≤ s.length := by
  rw [step]
  split
  · rw [List.length_drop]
    omega
  · exact Nat.le_refl _

theorem length_of_next {r : Text} (h : firstNoSpaceChar s = r) : r.length ≤ s.length :=
  h ▸ length_firstNoSpaceChar_le s

/-- What one round of the loop over the content of `e` can do. -/
inductive ValueRound (fuel : Nat) (e : Element) (vb s : Text) (e' : Element) (t : Text) : Prop
  | char {ch : Char} {r : Text} (next : firstNoSpaceChar s = ch :: r) (tag : ch ≠ '<')
      (more : parseValue fuel e vb r = .ok (e', t))
      (regular : regularValue (fuel + 1) e.key s = regularValue fuel e.key r)
  | endTag {c w u : Text} (next : firstNoSpaceChar s = '<' :: '/' :: c) (key : firstNoSpaceChar c = e.key ++ w)
      (close : firstNoSpaceChar w = '>' :: u) (rest : t = '>' :: u) (regular : regularValue (fuel + 1) e.key s = true)
  | otherTag {c r : Text} (next : firstNoSpaceChar s = '<' :: '/' :: c)
      (other : ∀ w u, firstNoSpaceChar c = e.key ++ w → firstNoSpaceChar w ≠ '>' :: u)
      (le : r.length ≤ c.length) (more : parseValue fuel e vb r = .ok (e', t))
      (regular : regularValue (fuel + 1) e.key s = false)
  | comment {r u : Text} (next : firstNoSpaceChar s = '<' :: '!' :: '-' :: '-' :: r) (comment : CommentEnd r u)
      (more : parseValue fuel e vb u = .ok (e', t))
      (regular : regularValue (fuel + 1) e.key s = regularValue fuel e.key u)
  | child {ch : Char} {r u : Text} {c e₁ : Element} (next : firstNoSpaceChar s = '<' :: ch :: r)
      (start : isAllowedKeyStartChar ch = true)
      (child : parseEnumElement fuel (firstNoSpaceChar s) = .ok (c, u)) (key : e₁.key = e.key)
      (more : parseValue fuel e₁ vb (step 1 u) = .ok (e', t))
      (regular : regularValue (fuel + 1) e.key s =
        (regularElement fuel (firstNoSpaceChar s) && regularValue fuel e.key (step 1 u)))
  | alone {r : Text} (next : firstNoSpaceChar s = '<' :: r) (end_ : getChar r 0 ≠ '/')
      (comment : getChar r 0 ≠ '!') (start : isAllowedKeyStartChar (getChar r 0) = false)
      (more : parseValue fuel e vb r = .ok (e', t))
      (regular : regularValue (fuel + 1) e.key s = regularValue fuel e.key r)

theorem parseValue_round {e e' : Element} {vb : Text} (h : parseValue (fuel + 1) e vb s = .ok (e', t)) :
    ValueRound fuel e vb s e' t := by
  rw [parseValue] at h
  split at h
  next => cases h
  next hnul =>
    dsimp only at h
    split at h
    next hlt =>
      cases hx : firstNoSpaceChar s with
      | nil =>
        rw [hx] at h
        exact absurd h (parseValue_nil fuel e vb _)
      | cons ch r =>
        rw [hx] at h hlt
        exact .char hx hlt h (by simp only [regularValue, if_neg hnul, hx, if_pos hlt, step_one_cons])
    next hlt =>
      rw [not_not] at hlt
      obtain ⟨x, hx⟩ := getChar_zero hlt (by decide)
      simp only [hx, getChar_cons_one_eq, step_one_cons] at h
      split at h
      next hslash =>
        obtain ⟨c, rfl⟩ := getChar_zero hslash (by decide)
        rw [step_two_cons] at h
        split at h
        next hmatch =>
          have hle := (length_step_le 1 (firstNoSpaceChar c)).trans (length_firstNoSpaceChar_le c)
          refine .otherTag hx (fun w u hw _ => ?_) hle h (by simp [regularValue, if_neg hnul, hx, hmatch])
          rw [matchKeyword_eq_some.mpr hw] at hmatch
          cases hmatch
        next w hmatch =>
          split at h
          next hother =>
            have hle : (step 1 (firstNoSpaceChar w)).length ≤ c.length := by
              have hstep := length_step_le 1 (firstNoSpaceChar w)
              have hw := length_firstNoSpaceChar_le w
              have hc := length_of_next (matchKeyword_eq_some.mp hmatch)
              rw [List.length_append] at hc
              omega
            refine .otherTag hx (fun w' u hw hu => ?_) hle h
              (by simp [regularValue, if_neg hnul, hx, hmatch, hother])
            rw [matchKeyword_eq_some.mpr hw] at hmatch
            cases hmatch
            rw [hu] at hother
            exact hother rfl
          next hclose =>
            rw [not_not] at hclose
            obtain ⟨u, hu⟩ := getChar_zero hclose (by decide)
            cases h
            exact .endTag hx (matchKeyword_eq_some.mp hmatch) hu hu
              (by simp [regularValue, hx, hmatch, hclose])
      next hslash =>
        split at h
        next hbang =>
          obtain ⟨r, rfl⟩ := getChar_zero hbang (by decide)
          obtain ⟨y, hy, h⟩ := bind_eq_ok.mp h
          obtain ⟨z, u, rfl, rfl, hcomment⟩ := parseIgnoreComment_eq_ok.mp hy
          rw [step_one_cons] at h
          exact .comment hx hcomment h (by simp [regularValue, if_neg hnul, hx, hy])
        next hbang =>
          split at h
          next hstart =>
            obtain ⟨⟨c, u⟩, hchild, h⟩ := bind_eq_ok.mp h
            obtain ⟨r, hr⟩ := getChar_zero (s := x) rfl (isAllowedKeyStartChar_plain hstart).1
            refine .child (hx.trans (congrArg ('<' :: ·) hr)) hstart (by rw [hx]; exact hchild) ?_ h ?_
            · rfl
            · simp [regularValue, hnul, hx, getChar_cons_one_eq, hslash, hbang, hstart, hchild]
          next hstart =>
            exact .alone hx hslash hbang (by simpa using hstart) h
              (by simp [regularValue, hnul, hx, getChar_cons_one_eq, hslash, hbang, hstart])

/-- A regular run has read a well nested text. -/
theorem nested_of_regular (fuel : Nat) :
    (∀ (s : Text) (e : Element) (t : Text), parseEnumElement fuel s = .ok (e, t) →
      regularElement fuel s = true → ∃ u, t = '>' :: u ∧ Nested (firstNoSpaceChar s) u) ∧
    (∀ (e : Element) (vb s : Text) (e' : Element) (t : Text), parseValue fuel e vb s = .ok (e', t) →
      regularValue fuel e.key s = true → ∃ c w u, t = '>' :: u ∧ Content s ('<' :: '/' :: c) ∧
        Blanks c (e.key ++ w) ∧ Blanks w ('>' :: u)) := by
  induction fuel with
  | zero =>
    refine ⟨fun s e t h => ?_, fun e vb s e' t h => ?_⟩
    · cases h
    · cases h
  | succ fuel ih =>
    obtain ⟨ihElement, ihValue⟩ := ih
    constructor
    · intro s e t h hreg
      cases parseEnumElement_run h with
      | @empty k u htag hstart hrest hregular =>
        rw [hregular] at hreg
        rw [htag]
        exact ⟨u, hrest, .empty (hstart.name hreg)⟩
      | @node k r v u e' htag hstart hends hblanks hattributes hkey hvalue hregular =>
        rw [hregular, Bool.and_eq_true] at hreg
        obtain ⟨hall, hreg⟩ := hreg
        subst hkey
        obtain ⟨c, w, u', hu', hcontent, hbefore, hbehind⟩ := ihValue _ _ _ _ _ hvalue hreg
        rw [htag]
        exact ⟨u', hu', .node (hstart.name hall) hends hblanks hattributes
          (hcontent.blanks (blanks_firstNoSpaceChar u)) hbefore hbehind⟩
    · intro e vb s e' t h hreg
      suffices hnext : ∃ c w u, t = '>' :: u ∧ Content (firstNoSpaceChar s) ('<' :: '/' :: c) ∧
          Blanks c (e.key ++ w) ∧ Blanks w ('>' :: u) by
        obtain ⟨c, w, u, hu, hcontent, hblanks⟩ := hnext
        exact ⟨c, w, u, hu, hcontent.blanks (blanks_firstNoSpaceChar s), hblanks⟩
      cases parseValue_round h with
      | char hx htag hmore hregular =>
        obtain ⟨c, w, u, hu, hcontent, hblanks⟩ := ihValue _ _ _ _ _ hmore (hregular ▸ hreg)
        exact ⟨c, w, u, hu, hx ▸ .char htag hcontent, hblanks⟩
      | @endTag c w u hx hkey hclose hrest =>
        exact ⟨c, w, u, hrest, hx ▸ .nil, hkey ▸ blanks_firstNoSpaceChar c, hclose ▸ blanks_firstNoSpaceChar w⟩
      | otherTag _ _ _ _ hregular =>
        rw [hregular] at hreg
        cases hreg
      | comment hx hcomment hmore hregular =>
        obtain ⟨c, w, u, hu, hcontent, hblanks⟩ := ihValue _ _ _ _ _ hmore (hregular ▸ hreg)
        exact ⟨c, w, u, hu, hx ▸ .comment hcomment hcontent, hblanks⟩
      | child hx hstart hchild hkey hmore hregular =>
        rw [hregular, Bool.and_eq_true] at hreg
        obtain ⟨y, rfl, hnested⟩ := ihElement _ _ _ hchild hreg.1
        rw [step_one_cons] at hmore hreg
        rw [firstNoSpaceChar_idem] at hnested
        rw [← hkey] at hreg ⊢
        obtain ⟨c, w, u, hu, hcontent, hblanks⟩ := ihValue _ _ _ _ _ hmore hreg.2
        exact ⟨c, w, u, hu, .child hnested hcontent, hblanks⟩
      | alone hx hend hcomment hstart hmore hregular =>
        obtain ⟨c, w, u, hu, hcontent, hblanks⟩ := ihValue _ _ _ _ _ hmore (hregular ▸ hreg)
        exact ⟨c, w, u, hu, hx ▸ .alone hend hcomment hstart hcontent, hblanks⟩

-- ---------------------------------------------------------------------------
-- The run over a well nested text
-- ---------------------------------------------------------------------------

theorem CommentEnd.unique (h : CommentEnd s t) (h' : CommentEnd s u) : t = u := by
  have heq := (scanComment_eq_ok.mpr ⟨t, rfl, h⟩).symm.trans (scanComment_eq_ok.mpr ⟨u, rfl, h'⟩)
  exact (List.cons.inj (Except.ok.inj heq)).2

theorem Content.of_char (h : Content (ch :: s) ('<' :: t)) (hch : ch ≠ '<') : Content s ('<' :: t) := by
  cases h with
  | nil => exact absurd rfl hch
  | char _ hmore => exact hmore
  | alone => exact absurd rfl hch
  | comment => exact absurd rfl hch
  | child hchild =>
    obtain ⟨c, r, heq, -⟩ := hchild.start
    exact absurd (List.cons.inj heq).1 hch

theorem Content.of_end (h : Content ('<' :: '/' :: s) ('<' :: '/' :: t)) : s = t := by
  cases h with
  | nil => rfl
  | char htag => exact absurd rfl htag
  | alone hend => exact absurd rfl hend
  | child hchild =>
    obtain ⟨c, r, heq, hc⟩ := hchild.start
    cases heq
    exact absurd hc (by decide)

theorem Content.of_comment (h : Content ('<' :: '!' :: '-' :: '-' :: s) ('<' :: '/' :: t)) (hs : CommentEnd s u) :
    Content u ('<' :: '/' :: t) := by
  cases h with
  | char htag => exact absurd rfl htag
  | alone _ hcomment => exact absurd rfl hcomment
  | comment hcomment hmore => exact hs.unique hcomment ▸ hmore
  | child hchild =>
    obtain ⟨c, r, heq, hc⟩ := hchild.start
    cases heq
    exact absurd hc (by decide)

theorem Content.of_start (h : Content ('<' :: ch :: s) ('<' :: '/' :: t)) (hch : isAllowedKeyStartChar ch = true) :
    ∃ u, Nested ('<' :: ch :: s) u ∧ Content u ('<' :: '/' :: t) := by
  cases h with
  | nil => exact absurd hch (by decide)
  | char htag => exact absurd rfl htag
  | alone _ _ hstart =>
    rw [getChar_cons_zero, hch] at hstart
    cases hstart
  | comment => exact absurd hch (by decide)
  | child hchild hmore => exact ⟨_, hchild, hmore⟩

theorem Content.of_alone (h : Content ('<' :: s) ('<' :: '/' :: t)) (hend : getChar s 0 ≠ '/')
    (hcomment : getChar s 0 ≠ '!') (hstart : isAllowedKeyStartChar (getChar s 0) = false) :
    Content s ('<' :: '/' :: t) := by
  cases h with
  | nil => exact absurd rfl hend
  | char htag => exact absurd rfl htag
  | alone _ _ _ hmore => exact hmore
  | comment => exact absurd rfl hcomment
  | child hchild =>
    obtain ⟨c, r, heq, hc⟩ := hchild.start
    cases heq
    rw [getChar_cons_zero, hc] at hstart
    cases hstart

theorem endsKey_of_ends (h : isSpaceChar ch = true ∨ ch = '>') : endsKey ch = true := by
  rcases h with h | rfl
  · simp [endsKey, h]
  · rfl

/-- The run over a well nested text is regular, and ends where the text does. -/
theorem regular_of_nested (fuel : Nat) :
    (∀ (s : Text) (u : Text) (e : Element) (t : Text), parseEnumElement fuel s = .ok (e, t) →
      Nested (firstNoSpaceChar s) u → regularElement fuel s = true ∧ t = '>' :: u) ∧
    (∀ (e : Element) (vb s : Text) (e' : Element) (t c w u : Text), Name e.key →
      parseValue fuel e vb s = .ok (e', t) → Content s ('<' :: '/' :: c) → Blanks c (e.key ++ w) →
      Blanks w ('>' :: u) → regularValue fuel e.key s = true ∧ t = '>' :: u) := by
  induction fuel with
  | zero =>
    refine ⟨fun s u e t h => ?_, fun e vb s e' t c w u _ h => ?_⟩
    · cases h
    · cases h
  | succ fuel ih =>
    obtain ⟨ihElement, ihValue⟩ := ih
    constructor
    · intro s u e t h hnested
      have hslash : endsKey '/' = true := rfl
      cases parseEnumElement_run h with
      | empty htag hread hrest hregular =>
        rw [htag] at hnested
        generalize heq : '<' :: (_ ++ _) = x at hnested
        cases hnested with
        | empty hname =>
          obtain ⟨rfl, -, hrest'⟩ := hread.append_unique hname.keyText hslash hslash (List.cons.inj heq).2
          cases hrest'
          exact ⟨hregular.trans (List.all_eq_true.mpr hname.chars), hrest⟩
        | node hname hends =>
          obtain ⟨ch, r, rfl, hch⟩ := hends
          obtain ⟨-, rfl, -⟩ := hread.append_unique hname.keyText hslash (endsKey_of_ends hch) (List.cons.inj heq).2
          exact absurd hch (by decide)
      | node htag hread hends hblanks hattributes hkey hvalue hregular =>
        rw [htag] at hnested
        obtain ⟨ch, r, rfl, hch⟩ := hends
        generalize heq : '<' :: (_ ++ _) = x at hnested
        cases hnested with
        | empty hname =>
          obtain ⟨-, rfl, -⟩ := hread.append_unique hname.keyText (endsKey_of_ends hch) hslash (List.cons.inj heq).2
          exact absurd hch (by decide)
        | node hname hends' hblanks' hattributes' hcontent hbefore hbehind =>
          obtain ⟨ch', r', rfl, hch'⟩ := hends'
          obtain ⟨rfl, rfl, rfl⟩ := hread.append_unique hname.keyText (endsKey_of_ends hch) (endsKey_of_ends hch')
            (List.cons.inj heq).2
          obtain rfl := startTag_unique hblanks hattributes hblanks' hattributes'
          subst hkey
          obtain ⟨hcontent', ht⟩ := ihValue _ _ _ _ _ _ _ _ hname hvalue hcontent.skip hbefore hbehind
          rw [hregular, hcontent', List.all_eq_true.mpr hname.chars]
          exact ⟨rfl, ht⟩
    · intro e vb s e' t c w u hname h hcontent hbefore hbehind
      have hskip := hcontent.skip
      have hkey : firstNoSpaceChar c = e.key ++ w := by
        obtain ⟨ch, r, hhead, hspace⟩ := hname.head
        rw [hhead] at hbefore ⊢
        exact hbefore.firstNoSpaceChar_eq hspace
      have hclose : firstNoSpaceChar w = '>' :: u := hbehind.firstNoSpaceChar_eq rfl
      cases parseValue_round h with
      | char hx htag hmore hregular =>
        rw [hx] at hskip
        rw [hregular]
        exact ihValue _ _ _ _ _ _ _ _ hname hmore (hskip.of_char htag) hbefore hbehind
      | endTag hx hkey' hclose' hrest hregular =>
        rw [hx] at hskip
        obtain rfl := hskip.of_end
        rw [hkey] at hkey'
        rw [← List.append_cancel_left hkey', hclose] at hclose'
        exact ⟨hregular, hrest.trans hclose'.symm⟩
      | otherTag hx hother =>
        rw [hx] at hskip
        obtain rfl := hskip.of_end
        exact absurd hclose (hother w u hkey)
      | comment hx hcomment hmore hregular =>
        rw [hx] at hskip
        rw [hregular]
        exact ihValue _ _ _ _ _ _ _ _ hname hmore (hskip.of_comment hcomment) hbefore hbehind
      | child hx hstart hchild hkey' hmore hregular =>
        rw [hx] at hskip
        obtain ⟨y, hnested, hnext⟩ := hskip.of_start hstart
        rw [← hx, ← firstNoSpaceChar_idem] at hnested
        obtain ⟨helement, rfl⟩ := ihElement _ _ _ _ hchild hnested
        rw [step_one_cons] at hmore hregular
        rw [← hkey'] at hname hbefore hregular ⊢
        obtain ⟨hvalue, ht⟩ := ihValue _ _ _ _ _ _ _ _ hname hmore hnext hbefore hbehind
        rw [hregular, helement, hvalue]
        exact ⟨rfl, ht⟩
      | alone hx hend hcomment hstart hmore hregular =>
        rw [hx] at hskip
        rw [hregular]
        exact ihValue _ _ _ _ _ _ _ _ hname hmore (hskip.of_alone hend hcomment hstart) hbefore hbehind

-- ---------------------------------------------------------------------------
-- Documents
-- ---------------------------------------------------------------------------

theorem misc_blank_iff (h : isSpaceChar ch = true) : Misc (ch :: s) ↔ Misc s := by
  refine ⟨fun hm => ?_, .blank h⟩
  cases hm with
  | blank _ hmore => exact hmore
  | comment => exact absurd h (by decide)

theorem misc_firstNoSpaceChar (s : Text) : Misc (firstNoSpaceChar s) ↔ Misc s := by
  induction s with
  | nil => rfl
  | cons ch s ih =>
    by_cases hspace : isSpaceChar ch = true
    · have hskip : firstNoSpaceChar (ch :: s) = firstNoSpaceChar s :=
        firstNoSpaceChar_append (t := [ch]) (fun c hc => by rw [List.mem_singleton.mp hc]; exact hspace) s
      rw [hskip, ih, misc_blank_iff hspace]
    · rw [firstNoSpaceChar_cons (by simpa using hspace)]

/-- Behind the root element the parser accepts what is not a tag, too. -/
theorem regularRest_iff (h : parseRest fuel s = .ok ()) : regularRest fuel s = true ↔ Misc s := by
  induction fuel generalizing s with
  | zero => cases h
  | succ fuel ih =>
    cases s with
    | nil => exact iff_of_true rfl .nil
    | cons ch s =>
      rw [regularRest, if_neg (List.cons_ne_nil ch s)]
      rw [parseRest] at h
      simp only [getChar_cons_zero, step_one_cons] at h ⊢
      split at h
      next hnul =>
        rw [hnul, if_pos (by decide)]
        refine iff_of_false (fun hc => ?_) fun hm => ?_
        · rw [Bool.and_eq_true] at hc
          exact absurd hc.1 (by decide)
        · cases hm with
          | blank hspace => exact absurd hspace (by decide)
      next =>
        split at h
        next hlt =>
          rw [if_pos hlt, Bool.and_eq_true, ih h]
          refine ⟨fun hc => .blank hc.1 hc.2, fun hm => ?_⟩
          cases hm with
          | blank hspace hmore => exact ⟨hspace, hmore⟩
          | comment => exact absurd rfl hlt
        next hlt =>
          rw [if_neg hlt]
          rw [not_not] at hlt
          subst hlt
          split at h
          next => cases h
          next hbang =>
            rw [not_not, getChar_cons_one_eq] at hbang
            obtain ⟨r, rfl⟩ := getChar_zero hbang (by decide)
            obtain ⟨y, hy, h⟩ := bind_eq_ok.mp h
            obtain ⟨z, u, rfl, rfl, hcomment⟩ := parseIgnoreComment_eq_ok.mp hy
            rw [step_one_cons] at h
            simp only [hy, step_one_cons]
            rw [ih h]
            refine ⟨.comment hcomment, fun hm => ?_⟩
            cases hm with
            | blank hspace => exact absurd hspace (by decide)
            | comment hcomment' hmore => exact hcomment.unique hcomment' ▸ hmore

theorem rootText_prolog (h : rootText s = .ok t) : Prolog s t ∧ firstNoSpaceChar t = t := by
  rw [rootText] at h
  split at h
  next hcomment =>
    obtain ⟨y, hy, h⟩ := bind_eq_ok.mp h
    obtain ⟨x, hx⟩ := getChar_zero hcomment.1 (by decide)
    have hbang := hcomment.2
    rw [hx, getChar_cons_one_eq] at hbang
    obtain ⟨r, rfl⟩ := getChar_zero hbang (by decide)
    rw [hx] at hy
    obtain ⟨z, u, rfl, rfl, hend⟩ := parseIgnoreComment_eq_ok.mp hy
    cases h
    rw [step_one_cons]
    exact ⟨.comment (hx ▸ blanks_firstNoSpaceChar s) hend (blanks_firstNoSpaceChar u), firstNoSpaceChar_idem _⟩
  next =>
    cases h
    exact ⟨.blanks (blanks_firstNoSpaceChar s), firstNoSpaceChar_idem _⟩

theorem rootText_of_prolog (h : Prolog s t) (ht : Nested t u) : rootText s = .ok t := by
  obtain ⟨ch, r, rfl, hch⟩ := ht.start
  have hbang := (isAllowedKeyStartChar_plain hch).2.2.2.2.1
  cases h with
  | blanks hblanks =>
    rw [rootText, hblanks.firstNoSpaceChar_eq rfl]
    exact if_neg fun hc => hbang hc.2
  | comment hbefore hcomment hbehind =>
    rw [rootText, hbefore.firstNoSpaceChar_eq rfl]
    simp only [getChar_cons_zero, getChar_cons_one, and_self, if_true,
      parseIgnoreComment_eq_ok.mpr ⟨_, _, rfl, rfl, hcomment⟩, Except.bind, step_one_cons,
      hbehind.firstNoSpaceChar_eq rfl]

-- ---------------------------------------------------------------------------
-- Rounds
-- ---------------------------------------------------------------------------

theorem bind_ne_fuel {α β : Type} {x : Result α} {f : α → Result β} (hx : x ≠ .error .fuel)
    (hf : ∀ a, x = .ok a → f a ≠ .error .fuel) : x.bind f ≠ .error .fuel := by
  cases x with
  | error err =>
    intro h
    cases h
    exact hx rfl
  | ok a => exact hf a rfl

theorem raise_ne_fuel {α : Type} (text : String) : (raise text : Result α) ≠ .error .fuel := nofun

theorem ok_ne_fuel {α : Type} (a : α) : (.ok a : Result α) ≠ .error .fuel := nofun

theorem CommentEnd.length_lt (h : CommentEnd s t) : t.length < s.length := by
  induction h with
  | close => simp only [List.length_cons]; omega
  | char _ _ _ ih => simp only [List.length_cons]; omega

theorem Blanks.length_le (h : Blanks s t) : t.length ≤ s.length := by
  obtain ⟨b, -, rfl⟩ := h
  simp

theorem Attribute.length_lt (h : Attribute s t) : t.length + 1 < s.length := by
  obtain ⟨k, v, w, x, quote, -, hw, hx, -, -, rfl⟩ := h
  have hw' := hw.length_le
  have hx' := hx.length_le
  simp only [List.length_append, List.length_cons] at hw' hx' ⊢
  omega

theorem Attributes.length_le (h : Attributes s t) : t.length ≤ s.length := by
  obtain ⟨a, rfl, -⟩ := h.gt_not_mem
  simp

theorem scanComment_ne_fuel (s : Text) : scanComment s ≠ .error .fuel := by
  induction s with
  | nil => exact raise_ne_fuel _
  | cons ch s ih =>
    rw [scanComment]
    split
    · exact raise_ne_fuel _
    · split
      · exact ok_ne_fuel _
      · exact ih

theorem parseIgnoreComment_ne_fuel (s : Text) : parseIgnoreComment s ≠ .error .fuel := by
  simp only [parseIgnoreComment]
  split
  · split
    · exact raise_ne_fuel _
    · exact scanComment_ne_fuel _
  · exact ok_ne_fuel _

theorem parseKey_ne_fuel (s : Text) : parseKey s ≠ .error .fuel := by
  simp only [parseKey]
  split_ifs <;> first | exact ok_ne_fuel _ | exact raise_ne_fuel _

theorem scanAttribKey_ne_fuel (s : Text) : scanAttribKey s ≠ .error .fuel := by
  induction s with
  | nil => exact ok_ne_fuel _
  | cons ch s ih =>
    rw [scanAttribKey]
    split
    · exact ok_ne_fuel _
    · split
      · exact ok_ne_fuel _
      · split
        · exact raise_ne_fuel _
        · exact ih

theorem parseAttrib_ne_fuel (s : Text) : parseAttrib s ≠ .error .fuel := by
  refine bind_ne_fuel (scanAttribKey_ne_fuel _) fun t _ => ?_
  dsimp only
  split_ifs <;> first | exact ok_ne_fuel _ | exact raise_ne_fuel _

theorem parseEnumAttrib_ne_fuel {ps : List Value} (hfuel : s.length < fuel) :
    parseEnumAttrib fuel ps s ≠ .error .fuel := by
  induction fuel generalizing ps s with
  | zero => exact absurd hfuel (Nat.not_lt_zero _)
  | succ fuel ih =>
    rw [parseEnumAttrib]
    split
    · exact ok_ne_fuel _
    · split
      · exact raise_ne_fuel _
      next hstart =>
        rw [Bool.not_eq_true, Bool.not_eq_false'] at hstart
        refine bind_ne_fuel (parseAttrib_ne_fuel _) ?_
        rintro ⟨w, x⟩ hattrib
        obtain ⟨quote, u, rfl, -, hfirst⟩ := parseAttrib_spec hstart hattrib
        dsimp only
        split
        · have hlength := hfirst.length_lt
          have hle := length_firstNoSpaceChar_le s
          have hle' := length_firstNoSpaceChar_le u
          rw [step_one_cons]
          exact ih (by omega)
        · exact ok_ne_fuel _

theorem parseProperties_ne_fuel (hfuel : s.length < fuel) : parseProperties fuel s ≠ .error .fuel := by
  have hle := length_firstNoSpaceChar_le s
  rw [parseProperties]
  split
  · exact parseEnumAttrib_ne_fuel (by omega)
  · split
    · exact ok_ne_fuel _
    · exact ok_ne_fuel _

/-- What is read is gone from the text. -/
theorem length_lt_of_ok (fuel : Nat) :
    (∀ (s : Text) (e : Element) (t : Text), parseEnumElement fuel s = .ok (e, t) → t.length < s.length) ∧
    (∀ (e : Element) (vb s : Text) (e' : Element) (t : Text), parseValue fuel e vb s = .ok (e', t) →
      t.length < s.length) := by
  induction fuel with
  | zero =>
    refine ⟨fun s e t h => ?_, fun e vb s e' t h => ?_⟩
    · cases h
    · cases h
  | succ fuel ih =>
    obtain ⟨ihElement, ihValue⟩ := ih
    constructor
    · intro s e t h
      cases parseEnumElement_run h with
      | empty htag _ hrest =>
        have hle := length_of_next htag
        simp only [hrest, List.length_cons, List.length_append] at hle ⊢
        omega
      | @node k r v u e' htag _ _ hblanks hattributes _ hvalue =>
        have hle := length_of_next htag
        have hvalue' := ihValue _ _ _ _ _ hvalue
        have hle' := length_firstNoSpaceChar_le u
        have hblanks' := hblanks.length_le
        have hattributes' := hattributes.length_le
        simp only [List.length_cons, List.length_append] at hle hattributes' ⊢
        omega
    · intro e vb s e' t h
      cases parseValue_round h with
      | char hx _ hmore =>
        have hle := length_of_next hx
        have hmore' := ihValue _ _ _ _ _ hmore
        rw [List.length_cons] at hle
        omega
      | endTag hx hkey hclose hrest =>
        have hle := length_of_next hx
        have hkey' := length_of_next hkey
        have hclose' := length_of_next hclose
        simp only [hrest, List.length_cons, List.length_append] at hle hkey' hclose' ⊢
        omega
      | otherTag hx _ hle hmore =>
        have hx' := length_of_next hx
        have hmore' := ihValue _ _ _ _ _ hmore
        simp only [List.length_cons] at hx'
        omega
      | comment hx hcomment hmore =>
        have hle := length_of_next hx
        have hcomment' := hcomment.length_lt
        have hmore' := ihValue _ _ _ _ _ hmore
        simp only [List.length_cons] at hle
        omega
      | @child ch r u c e₁ hx _ hchild _ hmore =>
        have hle := length_firstNoSpaceChar_le s
        have hchild' := ihElement _ _ _ hchild
        have hmore' := ihValue _ _ _ _ _ hmore
        have hstep := length_step_le 1 u
        omega
      | alone hx _ _ _ hmore =>
        have hle := length_of_next hx
        have hmore' := ihValue _ _ _ _ _ hmore
        rw [List.length_cons] at hle
        omega

/-- Every round takes a character, so there are enough of them. -/
theorem ne_fuel_of_length (fuel : Nat) :
    (∀ s : Text, 0 < fuel → s.length ≤ fuel → parseEnumElement fuel s ≠ .error .fuel) ∧
    (∀ (e : Element) (vb s : Text), s.length < fuel → parseValue fuel e vb s ≠ .error .fuel) := by
  induction fuel with
  | zero => exact ⟨fun s h => absurd h (Nat.lt_irrefl 0), fun e vb s h => absurd h (Nat.not_lt_zero _)⟩
  | succ fuel ih =>
    obtain ⟨ihElement, ihValue⟩ := ih
    constructor
    · intro s _ hfuel
      rw [parseEnumElement]
      refine bind_ne_fuel (parseKey_ne_fuel s) ?_
      rintro ⟨key, ended, x⟩ hkey
      obtain ⟨k, r, hs, hread, hcase⟩ := parseKey_spec hkey
      obtain ⟨c, k', rfl, -⟩ := hread.start
      have hle := length_of_next hs
      simp only [List.length_cons, List.length_append] at hle
      rcases hcase with ⟨rfl, -⟩ | ⟨rfl, -, rfl, hends⟩ | ⟨rfl, hnot⟩
      · exact ok_ne_fuel _
      · refine bind_ne_fuel (parseProperties_ne_fuel (by omega)) ?_
        rintro ⟨ps, y⟩ hprops
        dsimp only
        split
        next hgt =>
          obtain ⟨v, u, rfl, hblanks, hattributes⟩ := parseProperties_spec hprops hends hgt
          have hblanks' := hblanks.length_le
          have hattributes' := hattributes.length_le
          have hu := length_firstNoSpaceChar_le u
          rw [List.length_cons] at hattributes'
          rw [step_one_cons]
          exact ihValue _ _ _ (by omega)
        next => exact raise_ne_fuel _
      · obtain ⟨hprops, hgt⟩ := parseProperties_of_not_ends fuel hnot
        simp only [hprops, Except.bind, Bool.false_eq_true, if_false, if_neg hgt]
        exact raise_ne_fuel _
    · intro e vb s hfuel
      rw [parseValue]
      split
      next => exact raise_ne_fuel _
      next hnul =>
        obtain ⟨y, hy⟩ := getChar_zero (s := s) rfl hnul
        have hpos : 0 < s.length := hy ▸ Nat.succ_pos _
        have hskip := length_firstNoSpaceChar_le s
        have hmore (x : Text) (hx : x.length + 1 ≤ s.length) : parseValue fuel e vb x ≠ .error .fuel :=
          ihValue _ _ _ (by omega)
        dsimp only
        split
        next =>
          refine hmore _ ?_
          cases hx : firstNoSpaceChar s with
          | nil => exact hpos
          | cons ch r =>
            rw [step_one_cons]
            exact length_of_next hx
        next hlt =>
          rw [not_not] at hlt
          obtain ⟨x, hx⟩ := getChar_zero hlt (by decide)
          have hle := length_of_next hx
          rw [List.length_cons] at hle
          simp only [hx, getChar_cons_one_eq, step_one_cons]
          split
          next hslash =>
            obtain ⟨c, rfl⟩ := getChar_zero hslash (by decide)
            have hc := length_firstNoSpaceChar_le c
            rw [step_two_cons]
            rw [List.length_cons] at hle
            split
            next =>
              have hstep := length_step_le 1 (firstNoSpaceChar c)
              exact hmore _ (by omega)
            next w hmatch =>
              have hw := congrArg List.length (matchKeyword_eq_some.mp hmatch)
              have hw' := length_firstNoSpaceChar_le w
              have hstep := length_step_le 1 (firstNoSpaceChar w)
              rw [List.length_append] at hw
              split
              · exact hmore _ (by omega)
              · exact ok_ne_fuel _
          next =>
            split
            next hbang =>
              obtain ⟨r, rfl⟩ := getChar_zero hbang (by decide)
              refine bind_ne_fuel (parseIgnoreComment_ne_fuel _) fun z hz => ?_
              obtain ⟨v, u, rfl, rfl, hcomment⟩ := parseIgnoreComment_eq_ok.mp hz
              have hcomment' := hcomment.length_lt
              simp only [List.length_cons] at hle
              rw [step_one_cons]
              exact hmore u (by omega)
            next =>
              split
              next =>
                refine bind_ne_fuel (ihElement _ (by omega) (by rw [List.length_cons]; omega)) ?_
                rintro ⟨c, u⟩ hc
                have hu := (length_lt_of_ok fuel).1 _ _ _ hc
                have hstep := length_step_le 1 u
                rw [List.length_cons] at hu
                dsimp only
                exact ihValue _ _ _ (by omega)
              next => exact hmore _ (by omega)

theorem parseRest_ne_fuel (hfuel : s.length < fuel) : parseRest fuel s ≠ .error .fuel := by
  induction fuel generalizing s with
  | zero => exact absurd hfuel (Nat.not_lt_zero _)
  | succ fuel ih =>
    rw [parseRest]
    split
    next => exact ok_ne_fuel _
    next hnul =>
      obtain ⟨x, hx⟩ := getChar_zero (s := s) rfl hnul
      generalize getChar s 0 = ch at hx ⊢
      subst hx
      rw [List.length_cons] at hfuel
      rw [step_one_cons]
      split
      next => exact ih (by omega)
      next hlt =>
        split
        next => exact raise_ne_fuel _
        next hbang =>
          rw [not_not] at hlt hbang
          subst hlt
          rw [getChar_cons_one_eq] at hbang
          obtain ⟨r, rfl⟩ := getChar_zero hbang (by decide)
          refine bind_ne_fuel (parseIgnoreComment_ne_fuel _) fun z hz => ?_
          obtain ⟨v, u, rfl, rfl, hcomment⟩ := parseIgnoreComment_eq_ok.mp hz
          have hcomment' := hcomment.length_lt
          simp only [List.length_cons] at hfuel
          rw [step_one_cons]
          exact ih (by omega)

theorem parseRootElement_ne_fuel (s : Text) : parseRootElement s ≠ .error .fuel := by
  have hroot : rootText s ≠ .error .fuel := by
    rw [rootText]
    split
    · exact bind_ne_fuel (parseIgnoreComment_ne_fuel _) fun _ _ => ok_ne_fuel _
    · exact ok_ne_fuel _
  refine bind_ne_fuel (x := rootText s) hroot fun x _ => ?_
  refine bind_ne_fuel ((ne_fuel_of_length _).1 x (by omega) (by omega)) ?_
  rintro ⟨e, t⟩ helement
  have ht := (length_lt_of_ok _).1 _ _ _ helement
  have hle := (length_firstNoSpaceChar_le (step 1 t)).trans (length_step_le 1 t)
  exact bind_ne_fuel (parseRest_ne_fuel (by omega)) fun _ _ => ok_ne_fuel _

theorem scanDeclarationVal_spec (quote : Char) (s : Text) : scanDeclarationVal quote s ≠ .error .fuel ∧
    ∀ t, scanDeclarationVal quote s = .ok t → t.length ≤ s.length := by
  induction s with
  | nil => exact ⟨ok_ne_fuel _, fun t h => by cases h; exact Nat.le_refl _⟩
  | cons ch s ih =>
    rw [scanDeclarationVal]
    split
    · exact ⟨ok_ne_fuel _, fun t h => by cases h; exact Nat.le_refl _⟩
    · split
      · exact ⟨raise_ne_fuel _, fun t h => by cases h⟩
      · exact ⟨ih.1, fun t h => (ih.2 t h).trans (Nat.le_succ _)⟩

theorem parseDeclarationGetAttribKeyVal_spec (hkey : key ≠ []) :
    parseDeclarationGetAttribKeyVal key s ≠ .error .fuel ∧
      ∀ w t, parseDeclarationGetAttribKeyVal key s = .ok (w, t) → t.length < s.length := by
  rw [parseDeclarationGetAttribKeyVal]
  split
  next => exact ⟨raise_ne_fuel _, fun w t h => by cases h⟩
  next x hmatch =>
    have hlength := congrArg List.length (matchKeyword_eq_some.mp hmatch)
    have hpos := List.length_pos_iff.mpr hkey
    rw [List.length_append] at hlength
    split
    · exact ⟨raise_ne_fuel _, fun w t h => by cases h⟩
    · dsimp only
      split
      · exact ⟨raise_ne_fuel _, fun w t h => by cases h⟩
      · have h₁ := length_firstNoSpaceChar_le x
        have h₂ := length_step_le 1 (firstNoSpaceChar x)
        have h₃ := length_firstNoSpaceChar_le (step 1 (firstNoSpaceChar x))
        generalize firstNoSpaceChar (step 1 (firstNoSpaceChar x)) = q at *
        have h₄ := length_step_le 1 q
        obtain ⟨hne, hle⟩ := scanDeclarationVal_spec (getChar q 0) (step 1 q)
        constructor
        · refine bind_ne_fuel hne fun u _ => ?_
          split
          · exact raise_ne_fuel _
          · exact ok_ne_fuel _
        · intro w t h
          obtain ⟨u, hu, h⟩ := bind_eq_ok.mp h
          have h₅ := hle u hu
          have h₆ := length_step_le 1 u
          split at h
          next => cases h
          next =>
            cases h
            omega

theorem keywordOf_ne_nil (h : keywordOf ch = some key) : key ≠ [] := by
  unfold keywordOf at h
  split at h <;> cases h <;> exact List.cons_ne_nil _ _

theorem parseDeclarationEnumAttrib_ne_fuel {items : List Value} (hfuel : s.length < fuel) :
    parseDeclarationEnumAttrib fuel items s ≠ .error .fuel := by
  induction fuel generalizing items s with
  | zero => exact absurd hfuel (Nat.not_lt_zero _)
  | succ fuel ih =>
    rw [parseDeclarationEnumAttrib]
    split
    next keyword hkeyword =>
      obtain ⟨hne, hlt⟩ := parseDeclarationGetAttribKeyVal_spec (s := firstNoSpaceChar s)
        (keywordOf_ne_nil hkeyword)
      refine bind_ne_fuel hne ?_
      rintro ⟨w, t⟩ ht
      have hlt' := hlt w t ht
      have hle := length_firstNoSpaceChar_le s
      exact ih (by omega)
    next =>
      split
      · exact ok_ne_fuel _
      · exact raise_ne_fuel _

/-- The parser is total: it gives a document or throws. -/
theorem parseDocument_ne_fuel (s : Text) : parseDocument s ≠ .error .fuel := by
  have hbegin : parseDeclarationGetBegin s ≠ .error .fuel := by
    rw [parseDeclarationGetBegin]
    split
    · exact raise_ne_fuel _
    · split
      · exact raise_ne_fuel _
      · split
        · exact ok_ne_fuel _
        · exact raise_ne_fuel _
  have hend (t : Text) : parseDeclarationGetEnd t ≠ .error .fuel := by
    rw [parseDeclarationGetEnd]
    split
    · exact raise_ne_fuel _
    · split
      · exact raise_ne_fuel _
      · exact ok_ne_fuel _
  refine bind_ne_fuel (bind_ne_fuel hbegin fun x _ => ?_) ?_
  · refine bind_ne_fuel (parseDeclarationEnumAttrib_ne_fuel (Nat.lt_succ_self _)) ?_
    rintro ⟨items, t⟩ _
    exact bind_ne_fuel (hend t) fun _ _ => ok_ne_fuel _
  · rintro ⟨dec, t⟩ _
    exact bind_ne_fuel (parseRootElement_ne_fuel t) fun _ _ => ok_ne_fuel _

/-- The stages of a run that accepts. -/
theorem parseDocument_spec {d : Document} (h : parseDocument s = .ok d) :
    ∃ dec s₁ x e r, parseDeclaration s = .ok (dec, s₁) ∧ rootText s₁ = .ok x ∧
      parseEnumElement (x.length + 2) x = .ok (e, r) ∧
      parseRest (x.length + 1) (firstNoSpaceChar (step 1 r)) = .ok () ∧
      regularDocument s = (regularElement (x.length + 2) x &&
        regularRest (x.length + 1) (firstNoSpaceChar (step 1 r))) := by
  obtain ⟨⟨dec, s₁⟩, hdec, h⟩ := bind_eq_ok.mp h
  obtain ⟨root, hroot, -⟩ := bind_eq_ok.mp h
  obtain ⟨x, hx, hroot⟩ := bind_eq_ok (x := rootText s₁).mp hroot
  obtain ⟨⟨e, r⟩, helement, hroot⟩ := bind_eq_ok.mp hroot
  obtain ⟨⟨⟩, hrest, -⟩ := bind_eq_ok.mp hroot
  refine ⟨dec, s₁, x, e, r, hdec, hx, helement, hrest, ?_⟩
  simp only [regularDocument, hdec, Except.bind, hx, regularRoot, helement]

theorem WellNested.regular {d : Document} (hw : WellNested s) (h : parseDocument s = .ok d) :
    regularDocument s = true := by
  obtain ⟨dec, s₁, x, e, r, hdec, hx, helement, hrest, hregular⟩ := parseDocument_spec h
  obtain ⟨dec', s₁', s₂, s₃, hdec', hprolog, hnested, hmisc⟩ := hw
  rw [hdec] at hdec'
  cases hdec'
  have hx' := rootText_of_prolog hprolog hnested
  rw [hx] at hx'
  cases hx'
  rw [← (rootText_prolog hx).2] at hnested
  obtain ⟨hreg, rfl⟩ := (regular_of_nested _).1 x s₃ e r helement hnested
  rw [step_one_cons] at hrest hregular
  rw [hregular, hreg, (regularRest_iff hrest).mpr ((misc_firstNoSpaceChar s₃).mpr hmisc)]
  rfl

theorem wellNested_of_regular {d : Document} (hreg : regularDocument s = true) (h : parseDocument s = .ok d) :
    WellNested s := by
  obtain ⟨dec, s₁, x, e, r, hdec, hx, helement, hrest, hregular⟩ := parseDocument_spec h
  rw [hregular, Bool.and_eq_true] at hreg
  obtain ⟨hprolog, hskip⟩ := rootText_prolog hx
  obtain ⟨u, rfl, hnested⟩ := (nested_of_regular _).1 x e r helement hreg.1
  have hmisc := (regularRest_iff hrest).mp hreg.2
  rw [step_one_cons, misc_firstNoSpaceChar] at hmisc
  rw [hskip] at hnested
  exact ⟨dec, s₁, x, u, hdec, hprolog, hnested, hmisc⟩

/-- An accepted text is well nested if and only if its run was regular. -/
theorem nested_iff (s : Text) (d : Document) (h : parseDocument s = .ok d) :
    WellNested s ↔ regularDocument s = true :=
  ⟨fun hw => hw.regular h, fun hreg => wellNested_of_regular hreg h⟩

/-- A declaration in front of `s`. -/
def declared (s : String) : Text := "<?xml version=\"1.0\"?>".toList ++ s.toList

theorem exists_of_toBool {α : Type} {x : Result α} (h : x.toBool = true) : ∃ a, x = .ok a := by
  cases x with
  | error err => cases h
  | ok a => exact ⟨a, rfl⟩

theorem nested_accepted : (parseDocument (declared "<a><b c=\"d\">e</b><f/></a>")).toBool = true ∧
    WellNested (declared "<a><b c=\"d\">e</b><f/></a>") := by
  have hok : (parseDocument (declared "<a><b c=\"d\">e</b><f/></a>")).toBool = true := by decide +kernel
  obtain ⟨d, hd⟩ := exists_of_toBool hok
  exact ⟨hok, (nested_iff _ d hd).mpr (by decide +kernel)⟩

/-- The end tag of another element is passed over. -/
theorem other_end_tag_accepted : ¬∀ s d, parseDocument s = .ok d → WellNested s := by
  intro h
  have hok : (parseDocument (declared "<a></b></a>")).toBool = true := by decide +kernel
  have hirregular : regularDocument (declared "<a></b></a>") = false := by decide +kernel
  obtain ⟨d, hd⟩ := exists_of_toBool hok
  have hregular := (h _ d hd).regular hd
  rw [hirregular] at hregular
  cases hregular

end GalaLua.Runtime.XML
