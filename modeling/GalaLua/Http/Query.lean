import GalaLua.Http.Request
import GalaLua.Library.LuaString

/-!
# Queries and forms

`parse_uri` puts the pieces of a query into a table as they are, and the form unpacker
decodes the values alone. So the query comes back if and only if nothing in it had to be
encoded and no value is empty, and the form if and only if no key had to be encoded
(`decoding_iff`). Neither parser minds what is in a piece as long as there is a key.
-/

namespace GalaLua.Http

open Library.Lua

-- ---------------------------------------------------------------------------
-- What is sent
-- ---------------------------------------------------------------------------

/-- The hexadecimal digits of an encoder, in either case. -/
structure Digits where
  digit : Nat → Char
  hex : ∀ n < 16, isHex (digit n) = true ∧ hexDigit (digit n) = n

def percent (d : Digits) (ch : Char) : Str :=
  if ch.isAlphanum then [ch] else ['%', d.digit (ch.toNat / 16), d.digit (ch.toNat % 16)]

def encodeURI (d : Digits) (s : Str) : Str := s.flatMap (percent d)

def joined : List Str → Str
  | [] => []
  | k :: ks => k ++ ks.flatMap ('&' :: ·)

def encodePair (d : Digits) (p : Str × Str) : Str := encodeURI d p.1 ++ '=' :: encodeURI d p.2

def formText (d : Digits) (pairs : List (Str × Str)) : Str := joined (pairs.map (encodePair d))

def IsBytes (s : Str) : Prop := ∀ ch ∈ s, ch.toNat < 256

def Alnum (s : Str) : Prop := ∀ ch ∈ s, ch.isAlphanum = true

/-- Keys and values, of any bytes. -/
structure FormPairs where
  pairs : List (Str × Str)
  bytes : ∀ p ∈ pairs, IsBytes p.1 ∧ IsBytes p.2
  ne : ∀ p ∈ pairs, p.1 ≠ []
  nodup : (pairs.map Prod.fst).Nodup

/-- A new `HTTP` for a URI that has a query. -/
structure Asked where
  method : Str
  path : Str
  version : Str
  noMark : '?' ∉ path

def Asked.http (a : Asked) (query : Str) : HTTP :=
  { params := [], method := a.method, uri := '/' :: (a.path ++ '?' :: query), version := a.version, path := none,
    headers := [], body := none }

-- ---------------------------------------------------------------------------
-- What is to come back
-- ---------------------------------------------------------------------------

def Maps (pairs t : List (Str × Str)) : Prop := ∀ p ∈ pairs, t.lookup p.1 = some p.2

def QueryReads (a : Asked) (d : Digits) (pairs : List (Str × Str)) : Prop :=
  ∃ req, parseUri (a.http (formText d pairs)) = .ok req ∧ Maps pairs req.params

def FormReads (d : Digits) (pairs : List (Str × Str)) : Prop :=
  ∃ body, unpackForm (formText d pairs) = .ok body ∧ Maps pairs body

-- ---------------------------------------------------------------------------
-- Encoding
-- ---------------------------------------------------------------------------

variable {d : Digits} {s s' k v : Str} {ch : Char} {p : Str × Str} {pairs : List (Str × Str)} {a : Asked}

theorem isHex_ne (h : isHex ch = true) : ch ≠ '%' ∧ ch ≠ '&' ∧ ch ≠ '=' := by
  refine ⟨?_, ?_, ?_⟩ <;> (rintro rfl; exact absurd h (by decide))

theorem isAlphanum_ne (h : ch.isAlphanum = true) : ch ≠ '%' ∧ ch ≠ '&' ∧ ch ≠ '=' := by
  refine ⟨?_, ?_, ?_⟩ <;> (rintro rfl; exact absurd h (by decide))

theorem digits_of_byte (d : Digits) (h : ch.toNat < 256) :
    isHex (d.digit (ch.toNat / 16)) = true ∧ isHex (d.digit (ch.toNat % 16)) = true ∧
      hexChar (d.digit (ch.toNat / 16)) (d.digit (ch.toNat % 16)) = ch := by
  obtain ⟨hhigh, hvalue⟩ := d.hex (ch.toNat / 16) (by omega)
  obtain ⟨hlow, hvalue'⟩ := d.hex (ch.toNat % 16) (Nat.mod_lt _ (by decide))
  refine ⟨hhigh, hlow, ?_⟩
  rw [hexChar, hvalue, hvalue', Nat.div_add_mod, Char.ofNat_toNat]

theorem decodeURI_cons (h : ch ≠ '%') (s : Str) : decodeURI (ch :: s) = ch :: decodeURI s := by
  rw [decodeURI]
  rintro a b s rfl
  exact absurd rfl h

theorem decodeURI_encodeURI (h : IsBytes s) : decodeURI (encodeURI d s) = s := by
  induction s with
  | nil => rfl
  | cons ch s ih =>
    obtain ⟨hch, hs⟩ := List.forall_mem_cons.mp h
    rw [encodeURI, List.flatMap_cons, percent, ← encodeURI]
    split
    · next halnum =>
      rw [List.singleton_append, decodeURI_cons (isAlphanum_ne halnum).1, ih hs]
    · obtain ⟨hhigh, hlow, hchar⟩ := digits_of_byte d hch
      rw [List.cons_append, List.cons_append, List.singleton_append, decodeURI, hhigh, hlow, hchar, ih hs]
      rfl

theorem encodeURI_injective (h : IsBytes s) (h' : IsBytes s') (heq : encodeURI d s = encodeURI d s') : s = s' := by
  rw [← decodeURI_encodeURI (d := d) h, heq, decodeURI_encodeURI h']

theorem encodeURI_of_alnum (h : Alnum s) : encodeURI d s = s := by
  induction s with
  | nil => rfl
  | cons ch s ih =>
    obtain ⟨hch, hs⟩ := List.forall_mem_cons.mp h
    rw [encodeURI, List.flatMap_cons, percent, if_pos hch, ← encodeURI, ih hs]
    rfl

theorem length_le_encodeURI (s : Str) : s.length ≤ (encodeURI d s).length := by
  induction s with
  | nil => exact Nat.zero_le _
  | cons ch s ih =>
    rw [encodeURI, List.flatMap_cons, ← encodeURI, List.length_append, List.length_cons, percent]
    split
    · simp only [List.length_singleton]
      omega
    · simp only [List.length_cons, List.length_nil]
      omega

theorem length_lt_encodeURI (h : ¬ Alnum s) : s.length < (encodeURI d s).length := by
  induction s with
  | nil => exact absurd nofun h
  | cons ch s ih =>
    rw [encodeURI, List.flatMap_cons, ← encodeURI, List.length_append, List.length_cons, percent]
    split
    · next hch =>
      have := ih fun hs => h (List.forall_mem_cons.mpr ⟨hch, hs⟩)
      simp only [List.length_singleton]
      omega
    · have := length_le_encodeURI (d := d) s
      simp only [List.length_cons, List.length_nil]
      omega

theorem encodeURI_ne_nil (h : s ≠ []) : encodeURI d s ≠ [] := by
  intro hnil
  have := length_le_encodeURI (d := d) s
  rw [hnil] at this
  exact h (List.length_eq_zero_iff.mp (Nat.le_zero.mp this))

theorem notMem_encodeURI (h : IsBytes s) : '&' ∉ encodeURI d s ∧ '=' ∉ encodeURI d s := by
  have hchar : ∀ ch ∈ encodeURI d s, ch ≠ '&' ∧ ch ≠ '=' := by
    intro ch hch
    obtain ⟨c, hc, hch⟩ := List.mem_flatMap.mp hch
    rw [percent] at hch
    split at hch
    · next halnum =>
      rw [List.mem_singleton.mp hch]
      exact (isAlphanum_ne halnum).2
    · obtain ⟨hhigh, hlow, -⟩ := digits_of_byte d (h c hc)
      simp only [List.mem_cons, List.not_mem_nil, or_false] at hch
      rcases hch with rfl | rfl | rfl
      · exact ⟨by decide, by decide⟩
      · exact (isHex_ne hhigh).2
      · exact (isHex_ne hlow).2
  exact ⟨fun hmem => (hchar _ hmem).1 rfl, fun hmem => (hchar _ hmem).2 rfl⟩

-- ---------------------------------------------------------------------------
-- Splitting
-- ---------------------------------------------------------------------------

theorem pieces_joined {k : Str} {ks : List Str} (h : ∀ p ∈ k :: ks, '&' ∉ p) :
    pieces '&' (joined (k :: ks)) = k :: ks := by
  induction ks generalizing k with
  | nil => rw [joined, List.flatMap_nil, List.append_nil, pieces_of_notMem (h k List.mem_cons_self)]
  | cons k' ks ih =>
    obtain ⟨hk, h⟩ := List.forall_mem_cons.mp h
    rw [joined, List.flatMap_cons, List.cons_append, pieces_append hk]
    exact congrArg (k :: ·) (ih h)

theorem split_joined {ks : List Str} (h : ∀ p ∈ ks, '&' ∉ p ∧ p ≠ []) : split '&' (joined ks) = ks := by
  cases ks with
  | nil => rfl
  | cons k ks =>
    rw [split, pieces_joined fun p hp => (h p hp).1]
    have hhead : (k :: ks).dropLast.head? ≠ some [] := by
      intro hnil
      exact (h [] (List.dropLast_subset _ (List.mem_of_mem_head? hnil))).2 rfl
    have hlast : (k :: ks).getLast (List.cons_ne_nil _ _) ≠ [] := (h _ (List.getLast_mem _)).2
    rw [if_neg hhead, List.getLast?_eq_some_getLast (List.cons_ne_nil k ks), Option.toList_some,
      List.filter_cons_of_pos (by simpa using hlast), List.filter_nil, List.dropLast_concat_getLast]

theorem split_pair {c c' : Str} (hne : c ≠ []) (hc : '=' ∉ c) (hc' : '=' ∉ c') :
    split '=' (c ++ '=' :: c') = c :: if c' = [] then [] else [c'] := by
  rw [split, pieces_append hc, pieces_of_notMem hc']
  by_cases hnil : c' = [] <;> simp [hne, hnil]

theorem matchForm_pair {c c' : Str} (hne : c ≠ []) (hc' : '=' ∉ c') : matchForm (c ++ '=' :: c') = some (c, c') := by
  have hall : ∀ ch ∈ c'.reverse, decide (ch ≠ '=') = true := fun ch hch =>
    decide_eq_true fun heq => hc' (heq ▸ List.mem_reverse.mp hch)
  have hkey : ((c ++ '=' :: c').rdropWhile (· ≠ '=')).dropLast = c := by
    rw [List.rdropWhile, List.reverse_append, List.reverse_cons, List.append_assoc,
      List.dropWhile_append_of_pos hall]
    simp
  have hvalue : (c ++ '=' :: c').rtakeWhile (· ≠ '=') = c' := by
    rw [List.rtakeWhile, List.reverse_append, List.reverse_cons, List.append_assoc,
      List.takeWhile_append_of_pos hall]
    simp
  rw [matchForm, hkey, hvalue, if_pos hne]

theorem pieces_cons {sep ch : Char} (h : ch ≠ sep) (s : Str) :
    ∃ p ps, pieces sep (ch :: s) = (ch :: p) :: ps := by
  rw [pieces, if_neg h]
  split
  · exact ⟨[], [], rfl⟩
  · exact ⟨_, _, rfl⟩

theorem pieces_ne_nil (sep : Char) (s : Str) : pieces sep s ≠ [] := by
  cases s with
  | nil => exact List.cons_ne_nil _ _
  | cons ch s =>
    by_cases h : ch = sep
    · rw [pieces, if_pos h]
      exact List.cons_ne_nil _ _
    · obtain ⟨p, ps, heq⟩ := pieces_cons h s
      rw [heq]
      exact List.cons_ne_nil _ _

/-- The pieces of a string are lost when the string is the separator, or nothing. -/
theorem split_eq_nil_iff (k : Str) : split '=' k = [] ↔ k = [] ∨ k = ['='] := by
  constructor
  · intro hnil
    cases k with
    | nil => exact .inl rfl
    | cons ch s =>
      by_cases h : ch = '='
      · subst h
        have hps := pieces_ne_nil '=' s
        rw [split, pieces, if_pos rfl, List.dropLast_cons_of_ne_nil hps, List.head?_cons, if_pos rfl, List.tail_cons,
          List.append_eq_nil_iff] at hnil
        cases s with
        | nil => exact .inr rfl
        | cons ch s =>
          by_cases h : ch = '='
          · rw [pieces, if_pos h, List.dropLast_cons_of_ne_nil (pieces_ne_nil '=' s)] at hnil
            exact absurd hnil.1 (List.cons_ne_nil _ _)
          · obtain ⟨p, ps, heq⟩ := pieces_cons h s
            rw [heq] at hnil
            cases ps with
            | nil => simp at hnil
            | cons p' ps => simp at hnil
      · obtain ⟨p, ps, heq⟩ := pieces_cons h s
        rw [split, heq] at hnil
        cases ps with
        | nil => simp at hnil
        | cons p' ps => simp at hnil
  · rintro (rfl | rfl) <;> rfl

-- ---------------------------------------------------------------------------
-- The tables
-- ---------------------------------------------------------------------------

theorem lookup_assign (t : List (Str × Str)) (k k' : Str) (v : Option Str) :
    (assign t k v).lookup k' = if k' = k then v else t.lookup k' := by
  cases v with
  | some v => exact lookup_setKey t k k' v
  | none =>
    rw [assign]
    induction t with
    | nil => simp
    | cons e t ih =>
      obtain ⟨k₁, v₁⟩ := e
      by_cases h₁ : k₁ = k
      · subst h₁
        rw [List.filter_cons_of_neg (by simp), ih, List.lookup_cons]
        by_cases hk : k' = k₁
        · simp [hk]
        · simp [hk, beq_false_of_ne hk]
      · rw [List.filter_cons_of_pos (by simpa using h₁), List.lookup_cons, List.lookup_cons, ih]
        by_cases hk : k' = k₁
        · subst hk
          simp [h₁]
        · simp [beq_false_of_ne hk]

def assigned (t : List (Str × Str)) (ps : List (Str × Option Str)) : List (Str × Str) :=
  ps.foldl (fun t p => assign t p.1 p.2) t

theorem lookup_assigned_of_notMem {t : List (Str × Str)} {ps : List (Str × Option Str)} (h : k ∉ ps.map Prod.fst) :
    (assigned t ps).lookup k = t.lookup k := by
  induction ps generalizing t with
  | nil => rfl
  | cons p ps ih =>
    rw [List.map_cons, List.mem_cons, not_or] at h
    rw [assigned, List.foldl_cons, ← assigned, ih h.2, lookup_assign, if_neg h.1]

theorem lookup_assigned {t : List (Str × Str)} {ps : List (Str × Option Str)} {v : Option Str}
    (hnodup : (ps.map Prod.fst).Nodup) (hmem : (k, v) ∈ ps) : (assigned t ps).lookup k = v := by
  induction ps generalizing t with
  | nil => exact absurd hmem List.not_mem_nil
  | cons p ps ih =>
    obtain ⟨hp, hnodup⟩ := List.nodup_cons.mp hnodup
    rw [assigned, List.foldl_cons, ← assigned]
    rcases List.mem_cons.mp hmem with rfl | hmem
    · rw [lookup_assigned_of_notMem hp, lookup_assign, if_pos rfl]
    · exact ih hnodup hmem

-- ---------------------------------------------------------------------------
-- The parsers
-- ---------------------------------------------------------------------------

theorem addParam_ok_iff (params : List (Str × Str)) (k : Str) :
    (∃ p, addParam params k = .ok p) ↔ split '=' k ≠ [] := by
  rw [addParam]
  cases split '=' k with
  | nil => simp
  | cons a t => simp

theorem unpackForm_ok (content : Str) :
    (∃ b, unpackForm content = .ok b) ↔ ∀ k ∈ split '&' content, (matchForm k).isSome := by
  refine foldlM_ok_iff (fun b k => ?_) _ _
  cases matchForm k with
  | none => simp
  | some kv => simp

theorem parseUri_http (a : Asked) (query : Str) : parseUri (a.http query) =
    ((split '&' query).foldlM addParam []).map fun params =>
      { a.http query with path := some ('/' :: a.path), params := params } := by
  have hall : ∀ ch ∈ a.path, decide (ch ≠ '?') = true := fun ch hch =>
    decide_eq_true fun heq => a.noMark (heq ▸ hch)
  have hmatch : matchUri (a.http query).uri = some ('/' :: a.path, query) := by
    rw [Asked.http, matchUri, List.takeWhile_append_of_pos hall, List.dropWhile_append_of_pos hall]
    simp
  rw [parseUri, hmatch]
  rfl

theorem matchForm_isSome_iff (k : Str) : (matchForm k).isSome ↔ ∃ c c', c ≠ [] ∧ k = c ++ '=' :: c' := by
  by_cases hmem : '=' ∈ k
  · obtain ⟨r, r', hr, hnot⟩ := List.eq_append_cons_of_mem (List.mem_reverse.mpr hmem)
    -- what is behind the last sign
    obtain ⟨c, c', rfl, hc'⟩ : ∃ c c', k = c ++ '=' :: c' ∧ '=' ∉ c' := by
      refine ⟨r'.reverse, r.reverse, ?_, fun h => hnot (List.mem_reverse.mp h)⟩
      rw [← List.reverse_reverse k, hr, List.reverse_append, List.reverse_cons, List.append_assoc]
      rfl
    by_cases hne : c = []
    · subst hne
      refine iff_of_false ?_ ?_
      · have hkey : ((([] : Str) ++ '=' :: c').rdropWhile (· ≠ '=')).dropLast = [] := by
          have hall : ∀ ch ∈ c'.reverse, decide (ch ≠ '=') = true := fun ch hch =>
            decide_eq_true fun heq => hc' (heq ▸ List.mem_reverse.mp hch)
          rw [List.nil_append, List.rdropWhile, List.reverse_cons, List.dropWhile_append_of_pos hall]
          simp
        rw [matchForm, hkey]
        exact nofun
      · rintro ⟨a, a', ha, heq⟩
        obtain ⟨ch, a, rfl⟩ := List.exists_cons_of_ne_nil ha
        refine hc' ?_
        rw [(List.cons.inj heq).2]
        exact List.mem_append_right _ List.mem_cons_self
    · rw [matchForm_pair hne hc']
      exact iff_of_true rfl ⟨c, c', hne, rfl⟩
  · refine iff_of_false ?_ ?_
    · have hall : ∀ ch ∈ k, decide (ch ≠ '=') = true := fun ch hch =>
        decide_eq_true fun heq => hmem (heq ▸ hch)
      rw [matchForm, List.rdropWhile_eq_nil_iff.mpr hall]
      exact nofun
    · rintro ⟨c, c', -, rfl⟩
      exact hmem (List.mem_append_right _ List.mem_cons_self)

namespace FormPairs

variable (P : FormPairs) (d : Digits)

theorem split_formText : split '&' (formText d P.pairs) = P.pairs.map (encodePair d) := by
  refine split_joined (List.forall_mem_map.mpr fun p hp => ⟨?_, ?_⟩)
  · rw [encodePair, List.mem_append, List.mem_cons, not_or, not_or]
    exact ⟨(notMem_encodeURI (P.bytes p hp).1).1, by decide, (notMem_encodeURI (P.bytes p hp).2).1⟩
  · exact List.append_ne_nil_of_right_ne_nil _ (List.cons_ne_nil _ _)

theorem nodup_keys : (P.pairs.map fun p => encodeURI d p.1).Nodup := by
  have hmap : (P.pairs.map fun p => encodeURI d p.1) = (P.pairs.map Prod.fst).map (encodeURI d) := by
    rw [List.map_map]
    rfl
  rw [hmap]
  refine P.nodup.map_on fun k hk k' hk' heq => ?_
  obtain ⟨p, hp, rfl⟩ := List.mem_map.mp hk
  obtain ⟨p', hp', rfl⟩ := List.mem_map.mp hk'
  exact encodeURI_injective (P.bytes p hp).1 (P.bytes p' hp').1 heq

/-- What `parse_uri` makes of a value. -/
def queryValue (v : Str) : Option Str := if v = [] then none else some (encodeURI d v)

theorem addParam_foldlM : (P.pairs.map (encodePair d)).foldlM addParam [] =
    .ok (assigned [] (P.pairs.map fun p => (encodeURI d p.1, queryValue d p.2))) := by
  have hfold (ps : List (Str × Str)) (hps : ∀ p ∈ ps, p ∈ P.pairs) (t : List (Str × Str)) :
      (ps.map (encodePair d)).foldlM addParam t =
        .ok (assigned t (ps.map fun p => (encodeURI d p.1, queryValue d p.2))) := by
    induction ps generalizing t with
    | nil => rfl
    | cons p ps ih =>
      obtain ⟨hp, hps⟩ := List.forall_mem_cons.mp hps
      obtain ⟨hkey, hvalue⟩ := P.bytes p hp
      have hadd : addParam t (encodePair d p) = .ok (assign t (encodeURI d p.1) (queryValue d p.2)) := by
        rw [addParam, encodePair, split_pair (encodeURI_ne_nil (P.ne p hp)) (notMem_encodeURI hkey).2
          (notMem_encodeURI hvalue).2]
        by_cases hnil : p.2 = []
        · simp [hnil, queryValue, encodeURI]
        · simp [hnil, queryValue, encodeURI_ne_nil hnil]
      rw [List.map_cons, List.foldlM_cons, hadd]
      exact ih hps _
  exact hfold P.pairs (fun _ hp => hp) []

theorem unpackForm_formText : unpackForm (formText d P.pairs) =
    .ok (assigned [] (P.pairs.map fun p => (encodeURI d p.1, some p.2))) := by
  have hfold (f : List (Str × Str) → Str → Res (List (Str × Str)))
      (hf : ∀ t, ∀ p ∈ P.pairs, f t (encodePair d p) = .ok (setKey t (encodeURI d p.1) p.2))
      (ps : List (Str × Str)) (hps : ∀ p ∈ ps, p ∈ P.pairs) (t : List (Str × Str)) :
      (ps.map (encodePair d)).foldlM f t = .ok (assigned t (ps.map fun p => (encodeURI d p.1, some p.2))) := by
    induction ps generalizing t with
    | nil => rfl
    | cons p ps ih =>
      obtain ⟨hp, hps⟩ := List.forall_mem_cons.mp hps
      rw [List.map_cons, List.foldlM_cons, hf t p hp]
      exact ih hps _
  rw [unpackForm, P.split_formText]
  refine hfold _ (fun t p hp => ?_) P.pairs (fun _ hp => hp) []
  obtain ⟨-, hvalue⟩ := P.bytes p hp
  rw [encodePair, matchForm_pair (encodeURI_ne_nil (P.ne p hp)) (notMem_encodeURI hvalue).2]
  dsimp only
  rw [decodeURI_encodeURI hvalue]

end FormPairs

/-- Among keys that are all there in their encoded form, none had to be encoded: the
shortest of those would not be there. -/
theorem alnum_of_encoded {ks : List Str} (h : ∀ k ∈ ks, ∃ k' ∈ ks, k = encodeURI d k') (hk : k ∈ ks) : Alnum k := by
  induction hn : k.length using Nat.strong_induction_on generalizing k with
  | _ n ih =>
    obtain ⟨k', hk', heq⟩ := h k hk
    by_cases halnum : Alnum k'
    · rwa [heq, encodeURI_of_alnum halnum]
    · have hlt := length_lt_encodeURI (d := d) halnum
      rw [← heq, hn] at hlt
      exact absurd (ih _ hlt hk' rfl) halnum

/-- The table that a parser leaves has the keys as they were encoded. -/
theorem maps_assigned_iff (P : FormPairs) (d : Digits) (f : Str → Option Str) :
    Maps P.pairs (assigned [] (P.pairs.map fun p => (encodeURI d p.1, f p.2))) ↔
      ∀ p ∈ P.pairs, Alnum p.1 ∧ f p.2 = some p.2 := by
  have hkeys : (P.pairs.map fun p => (encodeURI d p.1, f p.2)).map Prod.fst = P.pairs.map fun p => encodeURI d p.1 := by
    rw [List.map_map]
    rfl
  have hfound {p : Str × Str} (hp : p ∈ P.pairs) :
      (assigned [] (P.pairs.map fun p => (encodeURI d p.1, f p.2))).lookup (encodeURI d p.1) = f p.2 :=
    lookup_assigned (hkeys ▸ P.nodup_keys d) (List.mem_map_of_mem hp)
  constructor
  · intro h p hp
    have halnum : Alnum p.1 := by
      refine @alnum_of_encoded d p.1 (P.pairs.map Prod.fst) ?_ (List.mem_map_of_mem hp)
      refine List.forall_mem_map.mpr fun q hq => ?_
      by_contra hnot
      have hno : q.1 ∉ (P.pairs.map fun p => (encodeURI d p.1, f p.2)).map Prod.fst := by
        rw [hkeys]
        intro hmem
        obtain ⟨q', hq', heq⟩ := List.mem_map.mp hmem
        exact hnot ⟨q'.1, List.mem_map_of_mem hq', heq.symm⟩
      have hlookup := h q hq
      rw [lookup_assigned_of_notMem hno] at hlookup
      cases hlookup
    refine ⟨halnum, ?_⟩
    rw [← hfound hp, encodeURI_of_alnum halnum]
    exact h p hp
  · intro h p hp
    obtain ⟨halnum, hvalue⟩ := h p hp
    rw [← hvalue, ← hfound hp, encodeURI_of_alnum halnum]

/-- What comes back through each of the parsers, and what they take without an error. -/
theorem decoding_iff (a : Asked) (d : Digits) (P : FormPairs) :
    (QueryReads a d P.pairs ↔ ∀ p ∈ P.pairs, Alnum p.1 ∧ Alnum p.2 ∧ p.2 ≠ []) ∧
      (FormReads d P.pairs ↔ ∀ p ∈ P.pairs, Alnum p.1) ∧
      (∀ query, (∃ req, parseUri (a.http query) = .ok req) ↔ ∀ k ∈ split '&' query, k ≠ [] ∧ k ≠ ['=']) ∧
      ∀ content, (∃ body, unpackForm content = .ok body) ↔
        ∀ k ∈ split '&' content, ∃ c c', c ≠ [] ∧ k = c ++ '=' :: c' := by
  refine ⟨?_, ?_, fun query => ?_, fun content => ?_⟩
  · have hvalue (v : Str) : FormPairs.queryValue d v = some v ↔ Alnum v ∧ v ≠ [] := by
      rw [FormPairs.queryValue]
      split
      · next hnil => exact iff_of_false nofun fun h => h.2 hnil
      · next hne =>
        rw [Option.some.injEq, and_iff_left hne]
        refine ⟨fun heq => ?_, encodeURI_of_alnum⟩
        by_contra hnot
        have := length_lt_encodeURI (d := d) hnot
        rw [heq] at this
        exact absurd this (Nat.lt_irrefl _)
    have hiff := maps_assigned_iff P d (FormPairs.queryValue d)
    simp only [hvalue] at hiff
    rw [← hiff, QueryReads, parseUri_http, P.split_formText, P.addParam_foldlM]
    constructor
    · rintro ⟨req, hreq, hmaps⟩
      cases hreq
      exact hmaps
    · exact fun hmaps => ⟨_, rfl, hmaps⟩
  · have hiff := maps_assigned_iff P d some
    simp only [and_true] at hiff
    rw [← hiff, FormReads, P.unpackForm_formText]
    constructor
    · rintro ⟨body, hbody, hmaps⟩
      cases hbody
      exact hmaps
    · exact fun hmaps => ⟨_, rfl, hmaps⟩
  · simp only [ne_eq, ← not_or, ← split_eq_nil_iff]
    refine Iff.trans ?_ (foldlM_ok_iff addParam_ok_iff (split '&' query) [])
    rw [parseUri_http]
    constructor
    · rintro ⟨req, hreq⟩
      obtain ⟨params, hparams, -⟩ := map_eq_ok hreq
      exact ⟨params, hparams⟩
    · rintro ⟨params, hparams⟩
      rw [hparams]
      exact ⟨_, rfl⟩
  · simp only [← matchForm_isSome_iff]
    exact unpackForm_ok content

def digitChars : Digits := ⟨Nat.digitChar, by decide⟩

def sampleAsked : Asked := ⟨['G', 'E', 'T'], ['x'], ['1'], by decide⟩

def onePair (k v : Char) (hk : k.toNat < 256) (hv : v.toNat < 256) : FormPairs where
  pairs := [([k], [v])]
  bytes := List.forall_mem_singleton.mpr ⟨List.forall_mem_singleton.mpr hk, List.forall_mem_singleton.mpr hv⟩
  ne := List.forall_mem_singleton.mpr (List.cons_ne_nil _ _)
  nodup := List.nodup_singleton _

/-- A query keeps the encoding of the value, a form that of the key, and a piece without a
key is an error for both. -/
theorem not_decoded :
    ¬ QueryReads sampleAsked digitChars (onePair 'k' ' ' (by decide) (by decide)).pairs ∧
      ¬ FormReads digitChars (onePair ' ' 'v' (by decide) (by decide)).pairs ∧
      (¬ ∃ req, parseUri (sampleAsked.http ['a', '&', '&', 'b']) = .ok req) ∧
      ¬ ∃ body, unpackForm ['a'] = .ok body := by
  refine ⟨?_, ?_, ?_, ?_⟩
  · rintro ⟨req, hreq, hmaps⟩
    have hparams : req.params = [(['k'], ['%', '2', '0'])] := by
      cases hreq
      decide
    have hk := hmaps _ List.mem_cons_self
    rw [hparams] at hk
    exact absurd hk (by decide)
  · rintro ⟨body, hbody, hmaps⟩
    have hfields : body = [(['%', '2', '0'], ['v'])] := by
      cases hbody
      decide
    have hk := hmaps _ List.mem_cons_self
    rw [hfields] at hk
    exact absurd hk (by decide)
  · rintro ⟨req, hreq⟩
    cases hreq
  · rintro ⟨body, hbody⟩
    cases hbody

end GalaLua.Http
