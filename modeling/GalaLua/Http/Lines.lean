import GalaLua.Http.Client
import GalaLua.Library.LuaString

/-!
# The lines of a request

What `trim`, `recvLine` and `string.split` make of a start line and of a header
line, as the client writes them.
-/

namespace GalaLua.Http

open Library.Lua

variable {s t w l : Str} {c : Char}

-- ---------------------------------------------------------------------------
-- trim
-- ---------------------------------------------------------------------------

theorem trim_concat (h : isspace c = true) : trim (s ++ [c]) = trim s := by
  rw [trim, trim, List.dropWhile_append]
  split
  · next he =>
    rw [List.isEmpty_iff.mp he]
    simp [h]
  · rw [List.rdropWhile_concat_pos _ _ _ h]

theorem trim_cons (h : isspace c = true) : trim (c :: s) = trim s := by
  rw [trim, List.dropWhile_cons_of_pos h, trim]

theorem trim_sep : trim (s ++ sep) = trim s := by
  have hsep : s ++ sep = s ++ ['\r'] ++ ['\n'] := by simp [sep]
  rw [hsep, trim_concat (by decide), trim_concat (by decide)]

/-- A string that begins with no blank is trimmed at its end only. -/
theorem trim_of_head (h : isspace c = false) : trim (c :: s) = (c :: s).rdropWhile isspace := by
  rw [trim, List.dropWhile_cons_of_neg (by simp [h])]

theorem mem_of_mem_trim (h : c ∈ trim s) : c ∈ s :=
  (List.dropWhile_suffix isspace).subset ((List.rdropWhile_prefix isspace _).subset h)

theorem length_trim_le (s : Str) : (trim s).length ≤ s.length :=
  (List.rdropWhile_prefix isspace _).length_le.trans (List.dropWhile_suffix isspace).length_le

theorem head_dropWhile {p : Char → Bool} (h : s.dropWhile p = c :: t) : p c = false := by
  have hne : s.dropWhile p ≠ [] := by simp [h]
  have hhead := List.head_dropWhile_not p hne
  simpa only [h, List.head_cons] using hhead

theorem head_trim (h : trim s = c :: t) : isspace c = false := by
  obtain ⟨w, hw⟩ := List.rdropWhile_prefix isspace (s.dropWhile isspace)
  rw [trim] at h
  rw [h] at hw
  exact head_dropWhile hw.symm

theorem trim_idem (s : Str) : trim (trim s) = trim s := by
  cases hs : trim s with
  | nil => rfl
  | cons c t =>
    rw [trim_of_head (head_trim hs), ← hs, trim, List.rdropWhile_idempotent]

-- ---------------------------------------------------------------------------
-- Lines
-- ---------------------------------------------------------------------------

theorem forall_ne {d : Char} {n : Str} (h : d ∉ n) : ∀ c ∈ n, decide (c ≠ d) = true := by
  rintro c hc
  refine decide_eq_true ?_
  rintro rfl
  exact h hc

theorem recvLine_append (h : '\n' ∉ l) : recvLine (l ++ sep ++ s) = some (l ++ sep, s) := by
  have hall : ∀ c ∈ l ++ ['\r'], decide (c ≠ '\n') = true := forall_ne (by simpa using h)
  have hline : l ++ sep ++ s = (l ++ ['\r']) ++ '\n' :: s := by simp [sep]
  rw [hline, recvLine, if_pos (by simp), List.takeWhile_append_of_pos hall, List.dropWhile_append_of_pos hall]
  simp [sep]

theorem recvLine_line {line : Str} (h : recvLine s = some (line, t)) : ∃ l, '\n' ∉ l ∧ line = l ++ ['\n'] := by
  rw [recvLine] at h
  split at h
  · cases h
    refine ⟨_, fun hmem => ?_, rfl⟩
    simpa using List.mem_takeWhile_imp hmem
  · cases h

theorem recv_append {d : Str} (h : d.length < 2 ^ 31) : recv d.length (d ++ s) = some (d, s) := by
  simp [recv, Library.int32_of_lt h]

-- ---------------------------------------------------------------------------
-- split
-- ---------------------------------------------------------------------------

theorem mem_pieces {sep : Char} {p : Str} (h : p ∈ pieces sep s) : sep ∉ p ∧ p ⊆ s := by
  induction s generalizing p with
  | nil =>
    rw [pieces, List.mem_singleton] at h
    subst h
    exact ⟨List.not_mem_nil, List.nil_subset _⟩
  | cons c s ih =>
    rw [pieces] at h
    split at h
    · rcases List.mem_cons.mp h with rfl | h
      · exact ⟨List.not_mem_nil, List.nil_subset _⟩
      · exact ⟨(ih h).1, fun _ hc => List.mem_cons_of_mem _ ((ih h).2 hc)⟩
    · next hc =>
      split at h
      · rw [List.mem_singleton] at h
        subst h
        exact ⟨by simpa using Ne.symm hc, by simp⟩
      · next q qs hq =>
        rcases List.mem_cons.mp h with rfl | h
        · have hmem := ih (hq ▸ List.mem_cons_self)
          refine ⟨?_, ?_⟩
          · rw [List.mem_cons, not_or]
            exact ⟨Ne.symm hc, hmem.1⟩
          · exact List.cons_subset_cons _ hmem.2
        · have hmem := ih (hq ▸ List.mem_cons_of_mem _ h)
          exact ⟨hmem.1, fun _ hc => List.mem_cons_of_mem _ (hmem.2 hc)⟩

theorem mem_split {sep : Char} {p : Str} (h : p ∈ split sep s) : sep ∉ p ∧ p ⊆ s := by
  refine mem_pieces ?_
  rw [split] at h
  rcases List.mem_append.mp h with h | h
  · refine (List.dropLast_subset _) ?_
    split at h
    · exact List.mem_of_mem_tail h
    · exact h
  · have := (List.mem_filter.mp h).1
    rw [Option.mem_toList] at this
    exact List.mem_of_getLast? this

theorem head_split {sep : Char} (hc : c ≠ sep) : ∃ p ps, split sep (c :: s) = (c :: p) :: ps := by
  obtain ⟨p, ps, hp⟩ : ∃ p ps, pieces sep (c :: s) = (c :: p) :: ps := by
    rw [pieces, if_neg hc]
    split
    · exact ⟨_, _, rfl⟩
    · exact ⟨_, _, rfl⟩
  rw [split, hp]
  cases ps with
  | nil => exact ⟨p, [], by simp⟩
  | cons q qs => exact ⟨p, (q :: qs).dropLast ++ (q :: qs).getLast?.toList.filter (· ≠ []), by simp⟩

-- ---------------------------------------------------------------------------
-- The start line
-- ---------------------------------------------------------------------------

/-- A method that can stand at the head of a start line. -/
structure Token (m : Str) : Prop where
  ne_nil : m ≠ []
  space : ' ' ∉ m
  newline : '\n' ∉ m
  trimmed : trim m = m

/-- Whatever the line is, the method read from it is one. -/
theorem token_of_startLine {line m u v : Str} (hline : '\n' ∉ line)
    (h : (split ' ' (trim line)).map trim = [m, u, v]) : Token m := by
  obtain ⟨p, ps, hsplit, hp, -⟩ := List.map_eq_cons_iff.mp h
  have hmem := mem_split (hsplit ▸ List.mem_cons_self : p ∈ split ' ' (trim line))
  subst hp
  refine ⟨?_, fun hc => hmem.1 (mem_of_mem_trim hc),
    fun hc => hline (mem_of_mem_trim (hmem.2 (mem_of_mem_trim hc))), trim_idem p⟩
  cases hl : trim line with
  | nil => simp [hl, split, pieces] at hsplit
  | cons c t =>
    have hc := head_trim hl
    obtain ⟨p', ps', hhead⟩ := head_split (s := t) (show c ≠ ' ' by rintro rfl; exact absurd hc (by decide))
    rw [hl, hhead] at hsplit
    obtain ⟨rfl, -⟩ := List.cons.inj hsplit
    rw [trim_of_head hc]
    intro hnil
    rw [List.rdropWhile_eq_nil_iff] at hnil
    exact absurd (hnil c List.mem_cons_self) (by simp [hc])

theorem trim_of_ends {d : Char} (hc : isspace c = false) (hd : isspace d = false) :
    trim (c :: (s ++ [d])) = c :: (s ++ [d]) := by
  rw [trim_of_head hc, ← List.cons_append, List.rdropWhile_concat_neg _ _ _ (by simp [hd])]

theorem trim_of_noBlank (h : ∀ c ∈ s, isspace c = false) : trim s = s := by
  rw [trim]
  have hdrop : s.dropWhile isspace = s := by
    cases s with
    | nil => rfl
    | cons c s => exact List.dropWhile_cons_of_neg (by simp [h c List.mem_cons_self])
  rw [hdrop, List.rdropWhile_eq_self_iff]
  intro hne
  simp [h _ (List.getLast_mem hne)]

theorem split_three {a b d : Str} (ha : ' ' ∉ a) (hane : a ≠ []) (hb : ' ' ∉ b) (hd : ' ' ∉ d) (hdne : d ≠ []) :
    split ' ' (a ++ ' ' :: (b ++ ' ' :: d)) = [a, b, d] := by
  rw [split, pieces_append ha, pieces_append hb, pieces_of_notMem hd]
  simp [hane, hdne]

theorem version_eq : version = "HTTP/1.".toList ++ ['1'] := by decide

section

variable {m p : Str} (hp : ∀ c ∈ p, isspace c = false)

include hp

theorem space_notMem : ' ' ∉ p := fun h => absurd (hp _ h) (by decide)

theorem startLine_eq (hm : ' ' ∉ c :: m) (hc : isspace c = false) :
    (split ' ' (trim ((c :: m) ++ ' ' :: (p ++ ' ' :: version) ++ sep))).map trim =
      [trim (c :: m), p, version] := by
  have hends : trim ((c :: m) ++ ' ' :: (p ++ ' ' :: version)) = (c :: m) ++ ' ' :: (p ++ ' ' :: version) := by
    have hassoc : (c :: m) ++ ' ' :: (p ++ ' ' :: version) =
        c :: ((m ++ ' ' :: (p ++ ' ' :: "HTTP/1.".toList)) ++ ['1']) := by
      simp [version_eq]
    rw [hassoc, trim_of_ends hc (by decide)]
  rw [trim_sep, hends, split_three hm (List.cons_ne_nil _ _) (space_notMem hp) (by decide) (by decide)]
  simp only [List.map_cons, List.map_nil, trim_of_noBlank hp]
  rfl

theorem startLine_noMethod (hpne : p ≠ []) :
    (split ' ' (trim ([] ++ ' ' :: (p ++ ' ' :: version) ++ sep))).map trim = [p, version] := by
  obtain ⟨c, p, rfl⟩ := List.exists_cons_of_ne_nil hpne
  have hc := hp c List.mem_cons_self
  have hends : trim (' ' :: ((c :: p) ++ ' ' :: version)) = (c :: p) ++ ' ' :: version := by
    have hassoc : (c :: p) ++ ' ' :: version = c :: ((p ++ ' ' :: "HTTP/1.".toList) ++ ['1']) := by
      simp [version_eq]
    rw [trim_cons (by decide), hassoc, trim_of_ends hc (by decide)]
  rw [List.nil_append, trim_sep, hends, split_two (List.cons_ne_nil _ _) (space_notMem hp) (by decide) (by decide)]
  simp only [List.map_cons, List.map_nil, trim_of_noBlank hp]
  rfl

end

-- ---------------------------------------------------------------------------
-- Header lines
-- ---------------------------------------------------------------------------

/-- A field as the client has it: a name of one word, and a value on one line
without blanks at its ends. Both may be empty. -/
structure Plain (h : Str × Str) : Prop where
  name : ∀ c ∈ h.1, c ≠ ':' ∧ isspace c = false
  trimmed : trim h.2 = h.2
  newline : '\n' ∉ h.2

def headerLine (h : Str × Str) : Str := fmt h.1 ++ ':' :: ' ' :: fmt h.2

theorem fmt_front (s : Str) : fmt s <+: s := by
  rw [fmt]
  split
  · exact List.takeWhile_prefix _
  · exact List.prefix_rfl

theorem Plain.newline_notMem {h : Str × Str} (hh : Plain h) : '\n' ∉ headerLine h := by
  intro hc
  rcases List.mem_append.mp hc with hc | hc
  · exact absurd (hh.name _ ((fmt_front _).subset hc)).2 (by decide)
  · rw [List.mem_cons, List.mem_cons] at hc
    rcases hc with hc | hc | hc
    · exact absurd hc (by decide)
    · exact absurd hc (by decide)
    · exact hh.newline ((fmt_front _).subset hc)

theorem rdropWhile_append_of_ne {p : Char → Bool} (h : t.rdropWhile p ≠ []) :
    (s ++ t).rdropWhile p = s ++ t.rdropWhile p := by
  rw [List.rdropWhile, List.rdropWhile, List.reverse_append, List.dropWhile_append]
  split
  · next he =>
    rw [List.rdropWhile, List.isEmpty_iff.mp he] at h
    exact absurd rfl h
  · rw [List.reverse_append, List.reverse_reverse]

theorem takeWhile_colon {n : Str} (hn : ':' ∉ n) : (n ++ ':' :: s).takeWhile (· ≠ ':') = n := by
  rw [List.takeWhile_append_of_pos (forall_ne hn)]
  simp

theorem dropWhile_colon {n : Str} (hn : ':' ∉ n) : (n ++ ':' :: s).dropWhile (· ≠ ':') = ':' :: s := by
  rw [List.dropWhile_append_of_pos (forall_ne hn)]
  simp

/-- A name and a value with something in them are read back, the value trimmed. -/
theorem header_match {n v : Str} (hn : ∀ c ∈ n, c ≠ ':' ∧ isspace c = false) (hne : n ≠ [])
    (hc : isspace c = false) (hv : v = c :: w) :
    trim (n ++ ':' :: ' ' :: v ++ sep) ≠ [] ∧
      matchHeader (trim (n ++ ':' :: ' ' :: v ++ sep)) = some (n, ' ' :: trim v) := by
  have hcolon : ':' ∉ n := fun h => (hn _ h).1 rfl
  have hvne : v.rdropWhile isspace ≠ [] := by
    rw [ne_eq, List.rdropWhile_eq_nil_iff]
    intro h
    rw [hv] at h
    exact absurd (h c List.mem_cons_self) (by simp [hc])
  have hline : trim (n ++ ':' :: ' ' :: v ++ sep) = n ++ ':' :: ' ' :: trim v := by
    obtain ⟨d, n', rfl⟩ := List.exists_cons_of_ne_nil hne
    have hassoc : (d :: n') ++ ':' :: ' ' :: v = d :: (n' ++ [':', ' '] ++ v) := by simp
    rw [trim_sep, hassoc, trim_of_head (hn d List.mem_cons_self).2, ← List.cons_append,
      rdropWhile_append_of_ne hvne]
    rw [hv, trim_of_head hc]
    simp
  rw [hline]
  refine ⟨by simp, ?_⟩
  rw [matchHeader, takeWhile_colon hcolon, dropWhile_colon hcolon]
  simp [hne]

theorem header_noName (v : Str) :
    trim ([] ++ ':' :: ' ' :: v ++ sep) ≠ [] ∧ matchHeader (trim ([] ++ ':' :: ' ' :: v ++ sep)) = none := by
  have hhead : ∃ t, trim ([] ++ ':' :: ' ' :: v ++ sep) = ':' :: t := by
    rw [List.nil_append, trim_sep, trim_of_head (by decide)]
    have hne : (':' :: ' ' :: v).rdropWhile isspace ≠ [] := by
      rw [ne_eq, List.rdropWhile_eq_nil_iff]
      intro h
      exact absurd (h ':' List.mem_cons_self) (by decide)
    obtain ⟨d, t, ht⟩ := List.exists_cons_of_ne_nil hne
    have hpre := List.rdropWhile_prefix isspace (':' :: ' ' :: v)
    rw [ht] at hpre
    exact ⟨t, by rw [ht, (List.cons_prefix_cons.mp hpre).1]⟩
  obtain ⟨t, ht⟩ := hhead
  rw [ht]
  exact ⟨List.cons_ne_nil _ _, by simp [matchHeader]⟩

theorem header_noValue {n : Str} (hn : ∀ c ∈ n, c ≠ ':' ∧ isspace c = false) (hne : n ≠ []) :
    trim (n ++ ':' :: ' ' :: [] ++ sep) ≠ [] ∧ matchHeader (trim (n ++ ':' :: ' ' :: [] ++ sep)) = none := by
  obtain ⟨d, n', rfl⟩ := List.exists_cons_of_ne_nil hne
  have hcolon : ':' ∉ d :: n' := fun h => (hn _ h).1 rfl
  have hline : trim (d :: n' ++ ':' :: ' ' :: [] ++ sep) = d :: n' ++ [':'] := by
    have hassoc : d :: n' ++ ':' :: ' ' :: [] = d :: n' ++ [':'] ++ [' '] := by simp
    rw [trim_sep, hassoc, trim_concat (by decide)]
    exact trim_of_ends (hn d List.mem_cons_self).2 (by decide)
  rw [hline]
  refine ⟨by simp, ?_⟩
  rw [matchHeader, takeWhile_colon hcolon, dropWhile_colon hcolon]
  simp

/-- The value is trimmed, so what is left of it begins with no blank. -/
theorem Plain.head_value {h : Str × Str} (hh : Plain h) (hv : fmt h.2 = c :: w) : isspace c = false := by
  obtain ⟨t, ht⟩ := fmt_front h.2
  rw [hv] at ht
  have := hh.trimmed
  rw [← ht] at this
  exact head_trim this

-- ---------------------------------------------------------------------------
-- All header lines
-- ---------------------------------------------------------------------------

def headerLines (fields : List (Str × Str)) : Str := fields.flatMap fun h => headerLine h ++ sep

/-- What the server makes of a field. -/
def received (h : Str × Str) : Str × Str := (fmt h.1, trim (fmt h.2))

theorem recvLine_headerLines {h : Str × Str} {fields : List (Str × Str)} (hh : Plain h) :
    recvLine (headerLines (h :: fields) ++ s) = some (headerLine h ++ sep, headerLines fields ++ s) := by
  have hassoc : headerLines (h :: fields) ++ s = headerLine h ++ sep ++ (headerLines fields ++ s) := by
    simp [headerLines]
  rw [hassoc, recvLine_append hh.newline_notMem]

/-- The loop over header lines reads every field, or stops at one that has no
name or no value left. -/
theorem getHeaders_fields {fields acc : List (Str × Str)} {n : Nat} (hplain : ∀ h ∈ fields, Plain h)
    (hn : fields.length < n) :
    (∀ h ∈ fields, fmt h.1 ≠ [] ∧ fmt h.2 ≠ []) ∧
        getHeaders n acc (headerLines fields ++ (sep ++ s)) = .ok (addHeaders acc (fields.map received), s) ∨
      (∃ h ∈ fields, fmt h.1 = [] ∨ fmt h.2 = []) ∧
        ∃ err, getHeaders n acc (headerLines fields ++ (sep ++ s)) = .error err := by
  induction fields generalizing acc n with
  | nil =>
    obtain ⟨n, rfl⟩ : ∃ m, n = m + 1 := ⟨n - 1, by simp at hn; omega⟩
    refine .inl ⟨by simp, ?_⟩
    have hline : recvLine (headerLines [] ++ (sep ++ s)) = some (sep, s) :=
      recvLine_append (l := []) List.not_mem_nil
    simp only [getHeaders, hline]
    rfl
  | cons h fields ih =>
    obtain ⟨n, rfl⟩ : ∃ m, n = m + 1 := ⟨n - 1, by simp at hn; omega⟩
    obtain ⟨hh, hrest⟩ := List.forall_mem_cons.mp hplain
    have hname : ∀ c ∈ fmt h.1, c ≠ ':' ∧ isspace c = false := fun c hc => hh.name c ((fmt_front _).subset hc)
    simp only [getHeaders, recvLine_headerLines hh]
    by_cases hk : fmt h.1 = []
    · refine .inr ⟨⟨h, List.mem_cons_self, .inl hk⟩, ?_⟩
      obtain ⟨hne, hnone⟩ := header_noName (fmt h.2)
      rw [headerLine, hk, if_neg hne, hnone]
      exact ⟨_, rfl⟩
    cases hv : fmt h.2 with
    | nil =>
      refine .inr ⟨⟨h, List.mem_cons_self, .inr hv⟩, ?_⟩
      obtain ⟨hne, hnone⟩ := header_noValue hname hk
      rw [headerLine, hv, if_neg hne, hnone]
      exact ⟨_, rfl⟩
    | cons c w =>
      obtain ⟨hne, hsome⟩ := header_match hname hk (hh.head_value hv) hv
      have hvalue : trim (' ' :: trim (fmt h.2)) = trim (fmt h.2) := by
        rw [trim_cons (by decide), trim_idem]
      have hkey : trim (fmt h.1) = fmt h.1 := trim_of_noBlank fun c hc => (hname c hc).2
      rw [headerLine, if_neg hne, hsome]
      simp only [hvalue, hkey]
      rcases @ih (setKey acc (fmt h.1) (trim (fmt h.2))) _ hrest (by simpa using hn) with
        ⟨hall, hok⟩ | ⟨⟨h', hmem, hbad⟩, err, herr⟩
      · refine .inl ⟨List.forall_mem_cons.mpr ⟨⟨hk, by simp [hv]⟩, hall⟩, ?_⟩
        rw [hok]
        rfl
      · exact .inr ⟨⟨h', List.mem_cons_of_mem _ hmem, hbad⟩, err, herr⟩

end GalaLua.Http
