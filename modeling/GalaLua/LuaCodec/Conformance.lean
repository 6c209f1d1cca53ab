import GalaLua.LuaCodec.Utf8

/-!
# UTF-8 as it is written and read

The codec against the encoding of characters that Lean itself has: `encode` writes one
byte for the characters from U+0080 to U+00BF and is right on all others, and `decode`
reads every character as long as what is left of the string has a length that is
positive as an `int` (`conforms_iff`).
-/

namespace GalaLua.LuaCodec

open Library (Byte int32)

def charBytes (c : Char) : List Byte := (String.utf8EncodeChar c).map UInt8.toBitVec

/-- The UTF-8 text of the characters. -/
def standard (cs : List Char) : List Byte := cs.flatMap charBytes

/-- `encode` into any buffer that is large enough. -/
def Encodes (cs : List Char) : Prop :=
  ∃ n, ∀ sLen ≥ n, utf8Codec.encode (cs.map Char.toNat) sLen = standard cs

/-- `decode` into any buffer that is large enough. -/
def Decodes (cs : List Char) : Prop :=
  ∃ n, ∀ uLen ≥ n, utf8Codec.decode (standard cs) uLen = cs.map Char.toNat

/-- What is left of the text in front of each longer character, as an `int`, is long enough
for the character. -/
def Measured (cs : List Char) : Prop :=
  ∀ c post, (c :: post) <:+ cs → 0x80 ≤ c.toNat → (charBytes c).length ≤ int32 (standard (c :: post)).length

variable {c : Char} {cs : List Char} {uLen sLen v : Nat}

-- ---------------------------------------------------------------------------
-- One character
-- ---------------------------------------------------------------------------

theorem tag_or : ∀ x < 64, 0x80 ||| x = x + 0x80 ∧ (x < 32 → 0xc0 ||| x = x + 0xc0) ∧
    (x < 16 → 0xe0 ||| x = x + 0xe0) ∧ (x < 8 → 0xf0 ||| x = x + 0xf0) := by
  decide

theorem tail_digit (v k : Nat) : char (0x80 ||| (v >>> (6 * k) &&& 0x3f)) = char (v / 64 ^ k % 64 + 0x80) := by
  have hdigit : v >>> (6 * k) &&& 0x3f = v / 64 ^ k % 64 := by
    rw [Nat.shiftRight_eq_div_pow, pow_mul]
    exact Nat.and_two_pow_sub_one_eq_mod _ 6
  rw [hdigit, (tag_or _ (Nat.mod_lt _ (by decide))).1]

theorem lt_scalar (c : Char) : c.toNat < 0x110000 := by
  rcases c.valid with h | ⟨-, h⟩
  · exact Nat.lt_of_lt_of_le h (by decide)
  · exact h

/-- The bytes of a longer character, in the way in which the encoder computes them. -/
theorem charBytes_eq (h : 0x80 ≤ c.toNat) : charBytes c =
    if c.toNat < 0x800 then char (0xc0 ||| c.toNat >>> 6) :: tailBytes c.toNat 1
    else if c.toNat < 0x10000 then char (0xe0 ||| c.toNat >>> 12) :: tailBytes c.toNat 2
    else char (0xf0 ||| c.toNat >>> 18) :: tailBytes c.toNat 3 := by
  have hv := lt_scalar c
  have hval : c.val.toNat = c.toNat := rfl
  rw [charBytes, String.utf8EncodeChar]
  simp only [hval]
  generalize c.toNat = v at hv h
  simp only [tailBytes, tail_digit]
  rw [if_neg (by omega)]
  simp only [Nat.shiftRight_eq_div_pow]
  by_cases h₂ : v < 0x800
  · have hlead := (tag_or (v / 2 ^ 6) (by omega)).2.1 (by omega)
    have hmod : v / 64 % 0x20 = v / 2 ^ 6 := Nat.mod_eq_of_lt (by omega)
    rw [if_pos (show v ≤ 0x7ff by omega), if_pos h₂, hlead, hmod, pow_zero, Nat.div_one]
    rfl
  by_cases h₃ : v < 0x10000
  · have hlead := (tag_or (v / 2 ^ 12) (by omega)).2.2.1 (by omega)
    have hmod : v / 4096 % 0x10 = v / 2 ^ 12 := Nat.mod_eq_of_lt (by omega)
    rw [if_neg (show ¬ v ≤ 0x7ff by omega), if_pos (show v ≤ 0xffff by omega), if_neg h₂, if_pos h₃, hlead, hmod,
      pow_zero, Nat.div_one]
    rfl
  · have hlead := (tag_or (v / 2 ^ 18) (by omega)).2.2.2 (by omega)
    have hmod : v / 262144 % 0x08 = v / 2 ^ 18 := Nat.mod_eq_of_lt (by omega)
    rw [if_neg (show ¬ v ≤ 0x7ff by omega), if_neg (show ¬ v ≤ 0xffff by omega), if_neg h₂, if_neg h₃, hlead, hmod,
      pow_zero, Nat.div_one]
    rfl

theorem charBytes_cases (c : Char) :
    c.toNat < 0x80 ∧ charBytes c = [char c.toNat] ∨
      0x80 ≤ c.toNat ∧ ∃ b k, k ≤ 3 ∧ lead b.toNat = some (k + 1, c.toNat >>> (6 * k)) ∧
        charBytes c = b :: tailBytes c.toNat k := by
  have hshift : ∀ {k m : Nat}, c.toNat < m * 2 ^ k → c.toNat >>> k < m := fun h => by
    rw [Nat.shiftRight_eq_div_pow]
    exact Nat.div_lt_of_lt_mul (by rwa [Nat.mul_comm])
  by_cases h : c.toNat < 0x80
  · refine .inl ⟨h, ?_⟩
    have hval : c.val.toNat = c.toNat := rfl
    rw [charBytes, String.utf8EncodeChar]
    simp only [hval]
    rw [if_pos (by omega)]
    rfl
  · rw [Nat.not_lt] at h
    refine .inr ⟨h, ?_⟩
    rw [charBytes_eq h]
    have hv := lt_scalar c
    split
    · exact ⟨_, 1, by decide, lead_two (hshift (by omega)), rfl⟩
    split
    · exact ⟨_, 2, by decide, lead_three (hshift (by omega)), rfl⟩
    · exact ⟨_, 3, by decide, lead_four (hshift (by omega)), rfl⟩

theorem length_charBytes_pos (c : Char) : 0 < (charBytes c).length := by
  rcases charBytes_cases c with ⟨-, heq⟩ | ⟨-, b, k, -, -, heq⟩ <;> rw [heq, List.length_cons] <;> omega

/-- The encoder is right on all characters but those it takes for single bytes. -/
theorem cpUTF8Encode_charBytes (h : ¬ (0x80 ≤ c.toNat ∧ c.toNat < 0xC0)) : cpUTF8Encode c.toNat = charBytes c := by
  have hv := lt_scalar c
  by_cases hlong : 0x80 ≤ c.toNat
  · have hge : ¬ c.toNat < 0xC0 := fun hlt => h ⟨hlong, hlt⟩
    rw [charBytes_eq hlong, cpUTF8Encode, if_neg hge]
    by_cases h₂ : c.toNat < 0x800
    · rw [if_pos h₂, if_pos h₂]
      rfl
    by_cases h₃ : c.toNat < 0x10000
    · rw [if_neg h₂, if_neg h₂, if_pos h₃, if_pos h₃]
      rfl
    · rw [if_neg h₂, if_neg h₂, if_neg h₃, if_neg h₃, if_pos (show c.toNat < 0x200000 by omega)]
      rfl
  · rcases charBytes_cases c with ⟨-, heq⟩ | ⟨hge, -⟩
    · rw [heq, cpUTF8Encode, if_pos (by omega)]
    · exact absurd hge hlong

theorem length_gap (h : 0x80 ≤ c.toNat ∧ c.toNat < 0xC0) :
    (cpUTF8Encode c.toNat).length < (charBytes c).length := by
  rw [charBytes_eq h.1, if_pos (by omega), cpUTF8Encode, if_pos h.2]
  simp only [List.length_cons, List.length_nil, length_tailBytes]
  omega

/-- A character is read from its bytes unless these seem to be too few. -/
theorem cpUTF8Decode_charBytes (c : Char) (rest : List Byte) (len : Int) :
    cpUTF8Decode (charBytes c ++ rest) len =
      if 0x80 ≤ c.toNat ∧ len < (charBytes c).length then none else some (c.toNat, (charBytes c).length) := by
  rcases charBytes_cases c with ⟨hlt, heq⟩ | ⟨hge, b, k, -, hlead, heq⟩
  · have hb : (char c.toNat).toNat = c.toNat := by
      rw [char, BitVec.toNat_ofNat]
      omega
    have hsmall : ¬ c.toNat ≥ 0xC0 := by omega
    simp [cpUTF8Decode, heq, hb, hsmall, Nat.not_le.mpr hlt]
  · have hb : b.toNat ≥ 0xC0 := lead_ge (by simp [hlead])
    simp only [heq, cpUTF8Decode, List.cons_append, List.headD_cons, hb, if_true, hlead, List.tail_cons,
      Nat.add_sub_cancel, continued_tailBytes, List.length_cons, length_tailBytes, hge, true_and]

-- ---------------------------------------------------------------------------
-- Texts
-- ---------------------------------------------------------------------------

theorem standard_cons (c : Char) (cs : List Char) : standard (c :: cs) = charBytes c ++ standard cs := List.flatMap_cons

theorem encoded_le (cs : List Char) : (encoded (cs.map Char.toNat)).length ≤ (standard cs).length ∧
    ((∃ c ∈ cs, 0x80 ≤ c.toNat ∧ c.toNat < 0xC0) → (encoded (cs.map Char.toNat)).length < (standard cs).length) := by
  induction cs with
  | nil => exact ⟨Nat.le_refl _, fun ⟨_, hc, _⟩ => absurd hc List.not_mem_nil⟩
  | cons c cs ih =>
    rw [List.map_cons, encoded, List.flatMap_cons, ← encoded, standard_cons, List.length_append, List.length_append]
    by_cases hgap : 0x80 ≤ c.toNat ∧ c.toNat < 0xC0
    · have := length_gap hgap
      exact ⟨by omega, fun _ => by omega⟩
    · rw [cpUTF8Encode_charBytes hgap]
      refine ⟨by omega, ?_⟩
      rintro ⟨c', hc', hgap'⟩
      rcases List.mem_cons.mp hc' with rfl | hc'
      · exact absurd hgap' hgap
      · have := ih.2 ⟨c', hc', hgap'⟩
        omega

theorem encoded_eq_iff (cs : List Char) :
    encoded (cs.map Char.toNat) = standard cs ↔ ∀ c ∈ cs, ¬ (0x80 ≤ c.toNat ∧ c.toNat < 0xC0) := by
  constructor
  · intro heq c hc hgap
    have := (encoded_le cs).2 ⟨c, hc, hgap⟩
    rw [heq] at this
    exact absurd this (Nat.lt_irrefl _)
  · intro h
    rw [encoded, List.flatMap_map]
    exact List.flatMap_congr fun c hc => cpUTF8Encode_charBytes (h c hc)

theorem encodes_iff (cs : List Char) : Encodes cs ↔ ∀ c ∈ cs, ¬ (0x80 ≤ c.toNat ∧ c.toNat < 0xC0) := by
  have hlarge : ∀ sLen ≥ 6 * cs.length, utf8Codec.encode (cs.map Char.toNat) sLen = encoded (cs.map Char.toNat) := by
    intro sLen hsLen
    obtain ⟨k, hk, henc, hiff⟩ := @encodeLoop_spec sLen (cs.map Char.toNat) []
    have hall : k = (cs.map Char.toNat).length := by
      rw [hiff]
      rcases List.eq_nil_or_concat' cs with rfl | ⟨init, c, rfl⟩
      · exact .inl rfl
      · refine .inr ?_
        have hlen (ds : List Char) : (encoded (ds.map Char.toNat)).length ≤ 6 * ds.length := by
          induction ds with
          | nil => exact Nat.le_refl _
          | cons d ds ih =>
            have hd := (length_cpUTF8Encode (show d.toNat < 2 ^ 31 from Nat.lt_trans (lt_scalar d) (by decide))).2
            rw [List.map_cons, encoded, List.flatMap_cons, ← encoded, List.length_append, List.length_cons]
            omega
        have := hlen init
        rw [List.length_append, List.length_singleton] at hsLen
        rw [List.map_append, List.map_singleton, List.dropLast_concat, List.length_nil]
        omega
    rw [utf8_encode, henc, hall, List.take_length, List.nil_append]
  rw [← encoded_eq_iff]
  constructor
  · rintro ⟨n, hn⟩
    rw [← hlarge (max n (6 * cs.length)) (Nat.le_max_right ..), hn _ (Nat.le_max_left ..)]
  · intro heq
    exact ⟨6 * cs.length, fun sLen hsLen => by rw [hlarge sLen hsLen, heq]⟩

/-- The decoder takes one character, or stops. -/
theorem decodeLoop_standard (c : Char) (cs : List Char) (uLen : Nat) : decodeLoop (uLen + 1) (standard (c :: cs)) =
    if 0x80 ≤ c.toNat ∧ int32 (standard (c :: cs)).length < (charBytes c).length then []
    else c.toNat :: decodeLoop uLen (standard cs) := by
  have hne : charBytes c ++ standard cs ≠ [] := by
    refine List.append_ne_nil_of_left_ne_nil (fun hnil => ?_) _
    have := length_charBytes_pos c
    rw [hnil] at this
    exact absurd this (Nat.lt_irrefl 0)
  rw [standard_cons, decodeLoop, if_neg hne, cpUTF8Decode_charBytes]
  by_cases hstop : 0x80 ≤ c.toNat ∧ int32 (charBytes c ++ standard cs).length < (charBytes c).length
  · rw [if_pos hstop, if_pos hstop]
  · rw [if_neg hstop, if_neg hstop]
    show c.toNat :: decodeLoop uLen ((charBytes c ++ standard cs).drop (charBytes c).length) = _
    rw [List.drop_left]

theorem decodeLoop_eq_iff (hle : cs.length ≤ uLen) :
    decodeLoop uLen (standard cs) = cs.map Char.toNat ↔ Measured cs := by
  induction cs generalizing uLen with
  | nil =>
    refine iff_of_true (by cases uLen <;> rfl) fun c post hsuffix _ => ?_
    exact absurd (List.suffix_nil.mp hsuffix) (List.cons_ne_nil _ _)
  | cons c cs ih =>
    obtain ⟨n, rfl⟩ : ∃ n, uLen = n + 1 := ⟨uLen - 1, by rw [List.length_cons] at hle; omega⟩
    have hsplit : Measured (c :: cs) ↔
        (0x80 ≤ c.toNat → (charBytes c).length ≤ int32 (standard (c :: cs)).length) ∧ Measured cs := by
      constructor
      · intro h
        exact ⟨h c cs (List.suffix_refl _), fun c' post hsuffix => h c' post (hsuffix.trans (List.suffix_cons ..))⟩
      · rintro ⟨hc, hcs⟩ c' post hsuffix
        rcases List.suffix_cons_iff.mp hsuffix with heq | hsuffix
        · obtain ⟨rfl, rfl⟩ := List.cons.inj heq
          exact hc
        · exact hcs c' post hsuffix
    rw [decodeLoop_standard, hsplit, ← ih (Nat.le_of_succ_le_succ hle)]
    split
    · next hstop =>
      refine iff_of_false (fun hnil => absurd hnil.symm (List.cons_ne_nil _ _)) fun h => ?_
      have := h.1 hstop.1
      omega
    · next hgo =>
      rw [List.map_cons, List.cons.injEq, and_iff_right rfl, and_iff_right]
      intro hlong
      by_contra hnot
      exact hgo ⟨hlong, Int.not_le.mp hnot⟩

/-- Both directions of the codec, for every text. -/
theorem conforms_iff (cs : List Char) :
    (Encodes cs ↔ ∀ c ∈ cs, ¬ (0x80 ≤ c.toNat ∧ c.toNat < 0xC0)) ∧ (Decodes cs ↔ Measured cs) := by
  refine ⟨encodes_iff cs, ?_⟩
  constructor
  · rintro ⟨n, hn⟩
    exact (decodeLoop_eq_iff (Nat.le_max_right n cs.length)).mp (hn _ (Nat.le_max_left ..))
  · exact fun h => ⟨cs.length, fun uLen hle => (decodeLoop_eq_iff hle).mpr h⟩

/-- The copyright sign becomes the byte A9. -/
theorem copyright_not_encoded : ¬ Encodes ['\u00a9'] := by
  rw [encodes_iff]
  exact fun h => h _ List.mem_cons_self (by decide)

end GalaLua.LuaCodec
