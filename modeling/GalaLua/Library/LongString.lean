import Mathlib.Data.List.Infix

/-!
# Long strings

A Lua string between long brackets: a newline right after the opening bracket is
skipped, every other newline is one `\n` however it was written, and the string ends at
the first closing bracket of its level. So a text comes back from between the brackets
if and only if it has no `\r`, does not begin with a newline and, followed by one more
bracket, holds no closing bracket (`longString_eq_iff`).
-/

namespace GalaLua.Library.LongString

/-- `]`, `sep` signs and `]`. -/
def closer (sep : Nat) : List Char := ']' :: (List.replicate sep '=' ++ [']'])

def isNewline (c : Char) : Bool := c = '\n' || c = '\r'

/-- Past a newline, and past the other character of `\r\n` or `\n\r`. -/
def incLineNumber : List Char → List Char
  | old :: current :: s => if isNewline current && current ≠ old then s else current :: s
  | s => s.tail

def isSign (c : Char) : Bool := c = '='

/-- The signs after a bracket, and what follows them. -/
def skipSep (s : List Char) : List Char × List Char := (s.takeWhile isSign, s.dropWhile isSign)

theorem skipSep_length (c : Char) (s : List Char) : (skipSep s).2.length < (c :: s).length :=
  Nat.lt_succ_of_le (s.dropWhile_suffix isSign).length_le

theorem incLineNumber_length (c : Char) (s : List Char) : (incLineNumber (c :: s)).length < (c :: s).length := by
  cases s with
  | nil => exact Nat.lt_succ_self _
  | cons d s =>
    rw [incLineNumber]
    split
    · exact Nat.lt_add_of_pos_right Nat.two_pos
    · exact Nat.lt_succ_self _

/-- The string up to its closing bracket, and what follows it. -/
def readLongString (sep : Nat) : List Char → Option (List Char × List Char)
  | [] => none
  | c :: s =>
    if c = ']' then
      if (skipSep s).1.length = sep ∧ (skipSep s).2.head? = some ']' then some ([], (skipSep s).2.tail)
      else (readLongString sep (skipSep s).2).map fun r => (c :: ((skipSep s).1 ++ r.1), r.2)
    else if isNewline c then (readLongString sep (incLineNumber (c :: s))).map fun r => ('\n' :: r.1, r.2)
    else (readLongString sep s).map fun r => (c :: r.1, r.2)
termination_by s => s.length
decreasing_by
  · exact skipSep_length c s
  · exact incLineNumber_length c s
  · exact Nat.lt_succ_self _

def longString (sep : Nat) (s : List Char) : Option (List Char × List Char) :=
  readLongString sep (if s.head?.any isNewline then incLineNumber s else s)

/-- A text that the brackets of a level leave as it is. -/
structure Plain (sep : Nat) (t : List Char) : Prop where
  return_ : '\r' ∉ t
  newline : t.head? ≠ some '\n'
  free : ¬ closer sep <:+: t ++ [']']

-- ---------------------------------------------------------------------------
-- The closing bracket
-- ---------------------------------------------------------------------------

variable {sep : Nat} {c : Char} {s t u v rest : List Char}

theorem skipSep_append (s : List Char) : (skipSep s).1 ++ (skipSep s).2 = s := List.takeWhile_append_dropWhile

theorem signs_eq (s : List Char) : (skipSep s).1 = List.replicate (skipSep s).1.length '=' := by
  refine List.eq_replicate_of_mem fun c hc => ?_
  have h := List.all_eq_true.1 (List.all_takeWhile (l := s)) c hc
  simpa only [isSign, decide_eq_true_eq] using h

theorem skipSep_signs : skipSep (List.replicate sep '=' ++ ']' :: rest) = (List.replicate sep '=', ']' :: rest) := by
  rw [skipSep, List.takeWhile_append_of_pos (by simp [isSign]), List.dropWhile_append_of_pos (by simp [isSign])]
  simp [isSign]

/-- The test of the loop is whether the closing bracket stands here. -/
theorem closes_iff : ((skipSep s).1.length = sep ∧ (skipSep s).2.head? = some ']') ↔ closer sep <+: ']' :: s := by
  rw [closer, List.cons_prefix_cons]
  constructor
  · rintro ⟨hlen, hhead⟩
    obtain ⟨rest, hrest⟩ := List.head?_eq_some_iff.1 hhead
    refine ⟨rfl, rest, ?_⟩
    rw [← hlen, ← signs_eq, List.append_assoc, List.singleton_append, ← hrest, skipSep_append]
  · rintro ⟨-, rest, rfl⟩
    rw [List.append_assoc, List.singleton_append, skipSep_signs]
    exact ⟨List.length_replicate, rfl⟩

theorem closer_length : (closer sep).length = sep + 2 := by simp [closer]

/-- Two closing brackets have at most one bracket in common. -/
theorem free_here (hfree : ¬ closer sep <:+: (c :: t) ++ [']']) :
    ¬ closer sep <+: c :: (t ++ (closer sep ++ rest)) := by
  intro h
  have hlonger : t.length + 2 ≤ sep + 1 := by
    by_contra hlen
    refine hfree (List.IsPrefix.isInfix ?_)
    refine List.prefix_of_prefix_length_le h ⟨List.replicate sep '=' ++ ']' :: rest, by simp [closer]⟩ ?_
    simp [closer_length]
    omega
  obtain ⟨v, hv⟩ := h
  have hat := congrArg (·[t.length + 1]?) hv
  have hsign : (closer sep ++ v)[t.length + 1]? = some '=' := by
    simp only [closer, List.cons_append, List.getElem?_cons_succ, List.append_assoc]
    rw [List.getElem?_append_left (by simp; omega), List.getElem?_replicate, if_pos (by omega)]
  have hbracket : (c :: (t ++ (closer sep ++ rest)))[t.length + 1]? = some ']' := by
    simp [closer]
  simp only [hsign, hbracket] at hat
  cases hat

-- ---------------------------------------------------------------------------
-- One step of the reader
-- ---------------------------------------------------------------------------

theorem read_closer : readLongString sep (closer sep ++ rest) = some ([], rest) := by
  rw [closer, List.cons_append, List.append_assoc, List.singleton_append, readLongString, if_pos rfl, skipSep_signs,
    if_pos ⟨List.length_replicate, rfl⟩]
  rfl

theorem read_plain (hc : c ≠ ']') (hnl : isNewline c = false) :
    readLongString sep (c :: s) = (readLongString sep s).map fun r => (c :: r.1, r.2) := by
  rw [readLongString, if_neg hc, if_neg (by simp [hnl])]

theorem read_signs (hs : ∀ c ∈ s, c = '=') :
    readLongString sep (s ++ t) = (readLongString sep t).map fun r => (s ++ r.1, r.2) := by
  induction s with
  | nil => simp
  | cons c s ih =>
    rw [List.forall_mem_cons] at hs
    rw [hs.1, List.cons_append, read_plain (by decide) rfl, ih hs.2, Option.map_map]
    rfl

theorem read_bracket (h : ¬ closer sep <+: ']' :: s) :
    readLongString sep (']' :: s) = (readLongString sep s).map fun r => (']' :: r.1, r.2) := by
  have hsigns : ∀ c ∈ (skipSep s).1, c = '=' := fun c hc => by
    rw [signs_eq] at hc
    exact List.eq_of_mem_replicate hc
  have hread := @read_signs sep (skipSep s).1 (skipSep s).2 hsigns
  rw [skipSep_append] at hread
  rw [readLongString, if_pos rfl, if_neg fun hcloses => h (closes_iff.1 hcloses), hread, Option.map_map]
  rfl

theorem read_newline (hnl : isNewline c = true) :
    readLongString sep (c :: s) = (readLongString sep (incLineNumber (c :: s))).map fun r => ('\n' :: r.1, r.2) := by
  have hc : c ≠ ']' := by
    rintro rfl
    cases hnl
  rw [readLongString, if_neg hc, if_pos hnl]

/-- What one step of the loop does: it ends, or it saves one character and goes on. -/
theorem read_cases (h : readLongString sep (c :: s) = some (t, rest)) :
    (c :: s = closer sep ++ rest ∧ t = []) ∨
    ∃ d t' s', t = d :: t' ∧ d ≠ '\r' ∧ readLongString sep s' = some (t', rest) ∧ ¬ closer sep <+: c :: s ∧
      (s' = s ∨ s' = incLineNumber (c :: s)) := by
  by_cases hcloses : closer sep <+: c :: s
  · obtain ⟨rest', hrest⟩ := hcloses
    rw [← hrest, read_closer] at h
    cases h
    exact .inl ⟨hrest.symm, rfl⟩
  · refine .inr ?_
    cases hnl : isNewline c with
    | true =>
      rw [read_newline hnl, Option.map_eq_some_iff] at h
      obtain ⟨r, hr, heq⟩ := h
      cases heq
      exact ⟨'\n', r.1, _, rfl, by decide, hr, hcloses, .inr rfl⟩
    | false =>
      have hstep : readLongString sep (c :: s) = (readLongString sep s).map fun r => (c :: r.1, r.2) := by
        by_cases hc : c = ']'
        · subst hc
          exact read_bracket hcloses
        · exact read_plain hc hnl
      rw [hstep, Option.map_eq_some_iff] at h
      obtain ⟨r, hr, heq⟩ := h
      cases heq
      refine ⟨c, r.1, s, rfl, ?_, hr, hcloses, .inl rfl⟩
      rintro rfl
      cases hnl

-- ---------------------------------------------------------------------------
-- A whole string
-- ---------------------------------------------------------------------------

/-- What was read and what is left are shorter than the text by the closing bracket. -/
theorem read_length (h : readLongString sep s = some (t, rest)) : t.length + (sep + 2) + rest.length ≤ s.length := by
  induction t generalizing s with
  | nil =>
    cases s with
    | nil =>
      rw [readLongString] at h
      cases h
    | cons c s =>
      obtain ⟨heq, -⟩ | ⟨d, t', s', ht, -⟩ := read_cases h
      · simp [heq, closer_length]
      · cases ht
  | cons d t ih =>
    cases s with
    | nil =>
      rw [readLongString] at h
      cases h
    | cons c s =>
      obtain ⟨-, ht⟩ | ⟨_, _, s', ht, -, hr, -, hs'⟩ := read_cases h
      · cases ht
      · cases ht
        have hshort : s'.length < (c :: s).length := by
          obtain rfl | rfl := hs'
          · exact Nat.lt_succ_self _
          · exact incLineNumber_length c s
        have := ih hr
        simp only [List.length_cons] at hshort ⊢
        omega

theorem incLineNumber_closed (c : Char) (u v : List Char) :
    ∃ u', incLineNumber (c :: (u ++ (closer sep ++ v))) = u' ++ (closer sep ++ v) := by
  cases u with
  | nil => exact ⟨[], by simp [incLineNumber, closer, isNewline]⟩
  | cons d u =>
    rw [List.cons_append, incLineNumber]
    split
    · exact ⟨u, rfl⟩
    · exact ⟨d :: u, rfl⟩

/-- No closing bracket is read past. -/
theorem read_closed (h : readLongString sep (u ++ (closer sep ++ v)) = some (t, rest)) : v.length ≤ rest.length := by
  induction t generalizing u with
  | nil =>
    cases u with
    | nil =>
      rw [List.nil_append, read_closer] at h
      cases h
      exact Nat.le_refl _
    | cons c u =>
      rw [List.cons_append] at h
      obtain ⟨heq, -⟩ | ⟨d, t', s', ht, -⟩ := read_cases h
      · have hlen := congrArg List.length heq
        simp only [List.length_cons, List.length_append] at hlen
        omega
      · cases ht
  | cons d t ih =>
    cases u with
    | nil =>
      rw [List.nil_append, read_closer] at h
      cases h
    | cons c u =>
      rw [List.cons_append] at h
      obtain ⟨-, ht⟩ | ⟨_, _, s', ht, -, hr, -, hs'⟩ := read_cases h
      · cases ht
      · cases ht
        obtain rfl | rfl := hs'
        · exact ih hr
        · obtain ⟨u', hu'⟩ := @incLineNumber_closed sep c u v
          rw [hu'] at hr
          exact ih hr

theorem read_no_return (h : readLongString sep s = some (t, rest)) : '\r' ∉ t := by
  induction t generalizing s with
  | nil => exact List.not_mem_nil
  | cons d t ih =>
    cases s with
    | nil =>
      rw [readLongString] at h
      cases h
    | cons c s =>
      obtain ⟨-, ht⟩ | ⟨_, _, s', ht, hd, hr, -⟩ := read_cases h
      · cases ht
      · cases ht
        rw [List.mem_cons, not_or]
        exact ⟨hd.symm, ih hr⟩

theorem incLineNumber_free (hreturn : '\r' ∉ t) :
    incLineNumber ('\n' :: (t ++ (closer sep ++ rest))) = t ++ (closer sep ++ rest) := by
  cases t with
  | nil => simp [incLineNumber, closer, isNewline]
  | cons d t =>
    rw [List.mem_cons, not_or] at hreturn
    rw [List.cons_append, incLineNumber, if_neg]
    simp [isNewline, Ne.symm hreturn.1]

theorem read_free (hreturn : '\r' ∉ t) (hfree : ¬ closer sep <:+: t ++ [']']) :
    readLongString sep (t ++ (closer sep ++ rest)) = some (t, rest) := by
  induction t with
  | nil => exact read_closer
  | cons c t ih =>
    rw [List.mem_cons, not_or] at hreturn
    have hih := ih hreturn.2 fun h => hfree (h.trans (List.suffix_cons c _).isInfix)
    rw [List.cons_append]
    by_cases hbracket : c = ']'
    · subst hbracket
      rw [read_bracket (free_here hfree), hih]
      rfl
    · by_cases hnl : c = '\n'
      · subst hnl
        rw [read_newline rfl, incLineNumber_free hreturn.2, hih]
        rfl
      · rw [read_plain hbracket (by simp [isNewline, hnl, Ne.symm hreturn.1]), hih]
        rfl

theorem first_newline (hreturn : '\r' ∉ t) (hnewline : t.head? ≠ some '\n') :
    (t ++ (closer sep ++ rest)).head?.any isNewline = false := by
  cases t with
  | nil => rfl
  | cons c t =>
    rw [List.mem_cons, not_or] at hreturn
    have hc : c ≠ '\n' := fun hc => hnewline (congrArg some hc)
    simp [isNewline, hc, Ne.symm hreturn.1]

/-- A text comes back from between the brackets. -/
theorem longString_eq_iff : longString sep (t ++ (closer sep ++ rest)) = some (t, rest) ↔ Plain sep t := by
  rw [longString]
  constructor
  · intro h
    have hreturn := read_no_return h
    have hnewline : t.head? ≠ some '\n' := by
      intro hhead
      obtain ⟨t, rfl⟩ := List.head?_eq_some_iff.1 hhead
      rw [if_pos (by rfl), List.cons_append] at h
      have hlen := read_length h
      have hshort := incLineNumber_length '\n' (t ++ (closer sep ++ rest))
      simp only [List.length_cons, List.length_append, closer_length] at hlen hshort
      omega
    refine ⟨hreturn, hnewline, ?_⟩
    rintro ⟨u, v, huv⟩
    have hsplit : t ++ (closer sep ++ rest) = u ++ (closer sep ++ (v ++ (List.replicate sep '=' ++ ']' :: rest))) :=
      calc t ++ (closer sep ++ rest) = (t ++ [']']) ++ (List.replicate sep '=' ++ ']' :: rest) := by simp [closer]
        _ = _ := by rw [← huv, List.append_assoc, List.append_assoc]
    rw [first_newline hreturn hnewline, if_neg Bool.false_ne_true, hsplit] at h
    have hpast := read_closed h
    simp only [List.length_append, List.length_replicate, List.length_cons] at hpast
    omega
  · rintro ⟨hreturn, hnewline, hfree⟩
    rw [first_newline hreturn hnewline, if_neg Bool.false_ne_true]
    exact read_free hreturn hfree

end GalaLua.Library.LongString
