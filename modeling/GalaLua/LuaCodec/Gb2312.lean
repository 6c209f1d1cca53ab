import GalaLua.LuaCodec.Conformance

/-!
# The GB 2312 codec

`CPGBKEncode` leaves `chr` as the stack has it where no branch sets it, `CPGBKDecode`
leaves `*u` as the buffer has it, so both take the old content as an argument. Of the
code points of the GB 2312 set all but U+2015 and U+30FB come back, and outside the set
the code points of the rows of `gbcommon_encmap` are encoded always in the same way
(`gb2312_iff`).
-/

namespace GalaLua.LuaCodec

open Library (Byte)

-- ---------------------------------------------------------------------------
-- codec.hpp, gb_mappings.h
-- ---------------------------------------------------------------------------

/-- A row of a table: what lies at each distance from `map`, and the bytes the row is for. -/
structure Index where
  map : Option (Int → Nat)
  bottom : Nat
  top : Nat

def UNIINV : Nat := 0xFFFE

/-- `map[c - bottom]` for a byte of the row. -/
def Index.get? (index : Index) (c : Nat) : Option Nat :=
  index.map.bind fun map => if c ≥ index.bottom ∧ c ≤ index.top then some (map (c - index.bottom)) else none

structure Tables where
  gb2312Decmap : Byte → Index
  gbkextDecmap : Byte → Index
  gbcommonEncmap : Byte → Index

/-- The code that `gbcommon_encmap` has for `c`; the table has 256 rows. -/
def Tables.code (t : Tables) (c : Nat) : Option Nat :=
  if c >>> 8 < 256 then (t.gbcommonEncmap (char (c >>> 8))).get? (c &&& 0xff) else none

/-- The character that `gb2312_decmap` has for a code. -/
def Tables.unicode (t : Tables) (c1 c2 : Byte) : Option Nat :=
  ((t.gb2312Decmap c1).get? c2.toNat).filter (· ≠ UNIINV)

/-- What the codec needs to know of the tables of `gb_mappings.h`. -/
structure Mappings extends Tables where
  inverse : ∀ c (c1 c2 : Byte), c1.toNat < 0x80 → c2.toNat < 0x80 →
    (toTables.code c = some (c1.toNat * 256 + c2.toNat) ↔ toTables.unicode c1 c2 = some c)
  sevenBits : ∀ c1 c2 c, toTables.unicode c1 c2 = some c → c1.toNat < 0x80 ∧ c2.toNat < 0x80
  ext : ∀ c1 : Byte, c1.toNat < 0x80 → (gbkextDecmap c1).map = none
  bar : toTables.code 0x2015 = some 0x212a
  dot : toTables.code 0x30fb = some 0x2124
  gap : (gb2312Decmap 0x28).get? 0x44 = some UNIINV

-- ---------------------------------------------------------------------------
-- codec_cn.cpp
-- ---------------------------------------------------------------------------

def out (chr : Nat) : List Byte := [char (chr >>> 8 ||| 0x80), char (chr &&& 0xFF ||| 0x80)]

/-- `none` where the row lies behind the table. -/
def cpGBKEncode (t : Tables) (chr c : Nat) : Option (List Byte) :=
  if c = 0x2014 then some (out 0xa1aa)
  else if c = 0x2015 then some (out 0xa844)
  else if c = 0x00b7 then some (out 0xa1a4)
  else if c ≠ 0x30fb then
    if c >>> 8 < 256 then some (out ((t.code c).getD chr)) else none
  else some (out chr)

/-- `none` where `map` is `NULL`. -/
def cpGBKDecode (t : Tables) (dc1 dc2 : Byte) (u : Nat) : Option Nat :=
  if dc1 = 0xa1 ∧ dc2 = 0xaa then some 0x2014
  else if dc1 = 0xa8 ∧ dc2 = 0x44 then some 0x2015
  else if dc1 = 0xa1 ∧ dc2 = 0xa4 then some 0x00b7
  else
    let c1 := dc1 ^^^ 0x80
    let c2 := dc2 ^^^ 0x80
    let u := ((t.gb2312Decmap c1).get? c2.toNat).getD u
    if u = UNIINV then
      let index := t.gbkextDecmap c1
      index.map.map fun map => map (c2.toNat - index.bottom)
    else some u

/-- `stack` is what `chr` holds before it is set, for each position of the output. -/
def gbEncodeLoop (t : Tables) (stack : Nat → Nat) (sLen : Nat) : List Nat → List Byte → Option (List Byte)
  | [], str => some str
  | c :: uStr, str =>
    if str.length + 2 < sLen then
      if c < 0x80 then gbEncodeLoop t stack sLen uStr (str ++ [char c])
      else (cpGBKEncode t (stack str.length) c).bind fun s => gbEncodeLoop t stack sLen uStr (str ++ s)
    else some str

/-- `old` is what the buffer holds before. A byte that a second one misses has the zero
byte behind the string instead. -/
def gbDecodeLoop (t : Tables) (old : Nat → Nat) (uLen : Nat) : List Byte → List Nat → Option (List Nat)
  | [], uStr => some uStr
  | [b], uStr =>
    if uStr.length ≤ uLen then
      if b.toNat < 0x80 then some (uStr ++ [b.toNat])
      else (cpGBKDecode t b 0 (old uStr.length)).map fun u => uStr ++ [u]
    else some uStr
  | b :: b' :: str, uStr =>
    if uStr.length ≤ uLen then
      if b.toNat < 0x80 then gbDecodeLoop t old uLen (b' :: str) (uStr ++ [b.toNat])
      else (cpGBKDecode t b b' (old uStr.length)).bind fun u => gbDecodeLoop t old uLen str (uStr ++ [u])
    else some uStr

def gbEncode (t : Tables) (stack : Nat → Nat) (uStr : List Nat) (sLen : Nat) : Option (List Byte) :=
  gbEncodeLoop t stack sLen uStr []

def gbDecode (t : Tables) (old : Nat → Nat) (str : List Byte) (uLen : Nat) : Option (List Nat) :=
  gbDecodeLoop t old uLen str []

-- ---------------------------------------------------------------------------
-- What the codec is to do
-- ---------------------------------------------------------------------------

/-- One byte, treated specially, or in the table with an inverse. -/
def Gb (t : Tables) (c : Nat) : Prop :=
  c < 0x80 ∨ c = 0x2014 ∨ c = 0x2015 ∨ c = 0x00b7 ∨
    ∃ c1 c2 : Byte, t.code c = some (c1.toNat * 256 + c2.toNat) ∧ t.unicode c1 c2 = some c

/-- The code points come back through buffers that are large enough. -/
def ComesBack (t : Tables) (uStr : List Nat) : Prop :=
  ∃ n, ∀ sLen ≥ n, ∀ uLen ≥ n, ∀ stack old,
    ((gbEncode t stack uStr sLen).bind fun str => gbDecode t old str uLen) = some uStr

/-- Whatever stands in front of it and on the stack, the code point adds the same bytes. -/
def Fixed (t : Tables) (c : Nat) : Prop :=
  ∃ s, ∀ stack uStr sLen str, 2 * uStr.length + 2 < sLen → gbEncode t stack uStr sLen = some str →
    gbEncode t stack (uStr ++ [c]) sLen = some (str ++ s)

variable {t : Tables} {m : Mappings} {stack old : Nat → Nat} {chr c sLen uLen : Nat}
variable {b b' : Byte} {str r' : List Byte} {us acc r : List Nat}

-- ---------------------------------------------------------------------------
-- One code point
-- ---------------------------------------------------------------------------

theorem high_bit : ∀ b : Byte, 0x80 ≤ (b ||| 0x80).toNat ∧ (b.toNat < 0x80 → (b ||| 0x80) ^^^ 0x80 = b) := by
  decide

theorem out_eq (chr : Nat) : out chr = [char (chr >>> 8) ||| 0x80, char (chr &&& 0xFF) ||| 0x80] := by
  rw [out, char, char, BitVec.ofNat_or, BitVec.ofNat_or]
  rfl

theorem out_code (c1 c2 : Byte) : out (c1.toNat * 256 + c2.toNat) = [c1 ||| 0x80, c2 ||| 0x80] := by
  have hlow : (c1.toNat * 256 + c2.toNat) &&& 0xFF = c2.toNat := by
    rw [show 0xFF = 2 ^ 8 - 1 from rfl, Nat.and_two_pow_sub_one_eq_mod]
    omega
  have hhigh : (c1.toNat * 256 + c2.toNat) >>> 8 = c1.toNat := by
    rw [Nat.shiftRight_eq_div_pow]
    omega
  rw [out_eq, hlow, hhigh]
  simp only [char, BitVec.ofNat_toNat, BitVec.setWidth_eq]

theorem length_cpGBKEncode {s : List Byte} (h : cpGBKEncode t chr c = some s) : s.length = 2 := by
  unfold cpGBKEncode at h
  split_ifs at h <;> cases h <;> rfl

/-- The characters that have an entry of their own in the decoder are not in the table
under the code that the encoder gives them. -/
theorem unicode_special (m : Mappings) :
    m.unicode 0x21 0x2a = some 0x2015 ∧ m.unicode 0x21 0x24 = some 0x30fb :=
  ⟨(m.inverse 0x2015 0x21 0x2a (by decide) (by decide)).mp m.bar,
    (m.inverse 0x30fb 0x21 0x24 (by decide) (by decide)).mp m.dot⟩

/-- A character of the table is decoded from its code unless it is one of the two whose
code is taken by another one. -/
theorem cpGBKDecode_table {c1 c2 : Byte} (huni : m.unicode c1 c2 = some c) (hbar : c ≠ 0x2015) (hdot : c ≠ 0x30fb)
    (u : Nat) : cpGBKDecode m.toTables (c1 ||| 0x80) (c2 ||| 0x80) u = some c := by
  obtain ⟨h1, h2⟩ := m.sevenBits c1 c2 c huni
  have hc1 := (high_bit c1).2 h1
  have hc2 := (high_bit c2).2 h2
  obtain ⟨hbar', hdot'⟩ := unicode_special m
  have hcode {x y : Byte} (hx : c1 ||| 0x80 = x) (hy : c2 ||| 0x80 = y) :
      m.unicode (x ^^^ 0x80) (y ^^^ 0x80) = some c := by
    rw [← hx, ← hy, hc1, hc2]
    exact huni
  have hne₁ : ¬ (c1 ||| 0x80 = 0xa1 ∧ c2 ||| 0x80 = 0xaa) := fun h =>
    hbar (Option.some.inj ((hcode h.1 h.2).symm.trans hbar'))
  have hne₂ : ¬ (c1 ||| 0x80 = 0xa8 ∧ c2 ||| 0x80 = 0x44) := fun h => by
    have := (high_bit c2).1
    rw [h.2] at this
    exact absurd this (by decide)
  have hne₃ : ¬ (c1 ||| 0x80 = 0xa1 ∧ c2 ||| 0x80 = 0xa4) := fun h =>
    hdot (Option.some.inj ((hcode h.1 h.2).symm.trans hdot'))
  obtain ⟨hget, hinv⟩ := Option.filter_eq_some_iff.mp huni
  have hinv : c ≠ UNIINV := by simpa using hinv
  simp only [cpGBKDecode, if_neg hne₁, if_neg hne₂, if_neg hne₃, hc1, hc2, hget, Option.getD_some, if_neg hinv]

theorem cpGBKDecode_bar (m : Mappings) (u : Nat) : cpGBKDecode m.toTables 0xa8 0xc4 u = none := by
  have hget : (m.gb2312Decmap (0xa8 ^^^ 0x80)).get? (0xc4 ^^^ 0x80 : Byte).toNat = some UNIINV := m.gap
  have hext : (m.gbkextDecmap (0xa8 ^^^ 0x80)).map = none := m.ext _ (by decide)
  rw [cpGBKDecode, if_neg (by decide), if_neg (by decide), if_neg (by decide)]
  simp only [hget, Option.getD_some, if_true, hext, Option.map_none]

/-- What a code point of the set becomes, and what is read from that. -/
theorem gb_step (h : Gb m.toTables c) (hlong : 0x80 ≤ c) (chr : Nat) :
    ∃ b b', cpGBKEncode m.toTables chr c = some [b, b'] ∧ 0x80 ≤ b.toNat ∧
      (c ≠ 0x2015 ∧ c ≠ 0x30fb → ∀ u, cpGBKDecode m.toTables b b' u = some c) ∧
      (c = 0x2015 ∨ c = 0x30fb → chr = 0xa1aa → ∀ u, cpGBKDecode m.toTables b b' u ≠ some c) := by
  by_cases hdash : c = 0x2014
  · subst hdash
    exact ⟨0xa1, 0xaa, rfl, by decide, fun _ _ => rfl, fun h => absurd h (by decide)⟩
  by_cases hbar : c = 0x2015
  · subst hbar
    refine ⟨0xa8, 0xc4, rfl, by decide, fun h => absurd rfl h.1, fun _ _ u => ?_⟩
    rw [cpGBKDecode_bar]
    exact (Option.some_ne_none _).symm
  by_cases hmiddle : c = 0x00b7
  · subst hmiddle
    exact ⟨0xa1, 0xa4, rfl, by decide, fun _ _ => rfl, fun h => absurd h (by decide)⟩
  by_cases hdot : c = 0x30fb
  · subst hdot
    refine ⟨_, _, congrArg some (out_eq chr), (high_bit _).1, fun h => absurd rfl h.2, fun _ hchr u => ?_⟩
    subst hchr
    exact (by decide : some 0x2014 ≠ some 0x30fb)
  obtain ⟨c1, c2, hcode, huni⟩ : ∃ c1 c2 : Byte, m.code c = some (c1.toNat * 256 + c2.toNat) ∧
      m.unicode c1 c2 = some c := by
    rcases h with hlt | h | h | h | h
    · omega
    · exact absurd h hdash
    · exact absurd h hbar
    · exact absurd h hmiddle
    · exact h
  have hrow : c >>> 8 < 256 := by
    by_contra hnot
    rw [Tables.code, if_neg hnot] at hcode
    cases hcode
  refine ⟨c1 ||| 0x80, c2 ||| 0x80, ?_, (high_bit c1).1, fun _ => cpGBKDecode_table huni hbar hdot,
    fun h => absurd h (by simp only [hbar, hdot, or_self, not_false_eq_true])⟩
  rw [cpGBKEncode, if_neg hdash, if_neg hbar, if_neg hmiddle, if_pos hdot, if_pos hrow, hcode, Option.getD_some,
    out_code]

-- ---------------------------------------------------------------------------
-- The loops
-- ---------------------------------------------------------------------------

theorem gbEncodeLoop_cons_lt (hroom : str.length + 2 < sLen) (hc : c < 0x80) :
    gbEncodeLoop t stack sLen (c :: us) str = gbEncodeLoop t stack sLen us (str ++ [char c]) := by
  rw [gbEncodeLoop, if_pos hroom, if_pos hc]

theorem gbEncodeLoop_cons (hroom : str.length + 2 < sLen) (hc : 0x80 ≤ c) : gbEncodeLoop t stack sLen (c :: us) str =
    (cpGBKEncode t (stack str.length) c).bind fun s => gbEncodeLoop t stack sLen us (str ++ s) := by
  rw [gbEncodeLoop, if_pos hroom, if_neg (Nat.not_lt.mpr hc)]

theorem gbDecodeLoop_cons_lt (hroom : acc.length ≤ uLen) (hb : b.toNat < 0x80) :
    gbDecodeLoop t old uLen (b :: str) acc = gbDecodeLoop t old uLen str (acc ++ [b.toNat]) := by
  cases str with
  | nil => simp only [gbDecodeLoop, if_pos hroom, if_pos hb]
  | cons b' str => rw [gbDecodeLoop, if_pos hroom, if_pos hb]

theorem gbDecodeLoop_cons (hroom : acc.length ≤ uLen) (hb : 0x80 ≤ b.toNat) :
    gbDecodeLoop t old uLen (b :: b' :: str) acc =
      (cpGBKDecode t b b' (old acc.length)).bind fun u => gbDecodeLoop t old uLen str (acc ++ [u]) := by
  rw [gbDecodeLoop, if_pos hroom, if_neg (Nat.not_lt.mpr hb)]

/-- What is decoded stays. -/
theorem prefix_gbDecodeLoop (h : gbDecodeLoop t old uLen str acc = some r) : acc <+: r := by
  fun_induction gbDecodeLoop t old uLen str acc with
  | case1 uStr => exact Option.some.inj h ▸ List.prefix_rfl
  | case2 b uStr hroom hb => exact Option.some.inj h ▸ List.prefix_append ..
  | case3 b uStr hroom hb =>
    obtain ⟨u, -, rfl⟩ := Option.map_eq_some_iff.mp h
    exact List.prefix_append ..
  | case4 b uStr hroom => exact Option.some.inj h ▸ List.prefix_rfl
  | case5 uStr b b' str hroom hb ih => exact (List.prefix_append ..).trans (ih h)
  | case6 uStr b b' str hroom hb ih =>
    obtain ⟨u, -, h⟩ := Option.bind_eq_some_iff.mp h
    exact (List.prefix_append ..).trans (ih u h)
  | case7 uStr b b' str hroom => exact Option.some.inj h ▸ List.prefix_rfl

/-- Code points of the set, encoded and decoded: the text comes back if all of them are
good, and for one content of the stack only then. -/
theorem gb_loops (h : ∀ c ∈ us, Gb m.toTables c) (hroom : str.length + 2 * us.length + 2 ≤ sLen) :
    ∃ s, gbEncodeLoop m.toTables stack sLen us str = some (str ++ s) ∧
      ∀ old uLen acc, acc.length + us.length ≤ uLen + 1 →
        ((∀ c ∈ us, c ≠ 0x2015 ∧ c ≠ 0x30fb) → gbDecodeLoop m.toTables old uLen s acc = some (acc ++ us)) ∧
        ((∀ i, stack i = 0xa1aa) → gbDecodeLoop m.toTables old uLen s acc = some (acc ++ us) →
          ∀ c ∈ us, c ≠ 0x2015 ∧ c ≠ 0x30fb) := by
  induction us generalizing str with
  | nil =>
    refine ⟨[], ?_, fun old uLen acc _ => ⟨fun _ => ?_, fun _ _ c hc => absurd hc List.not_mem_nil⟩⟩
    · rw [gbEncodeLoop, List.append_nil]
    · rw [gbDecodeLoop, List.append_nil]
  | cons c us ih =>
    obtain ⟨hc, hus⟩ := List.forall_mem_cons.mp h
    rw [List.length_cons] at hroom
    simp only [List.forall_mem_cons]
    by_cases hshort : c < 0x80
    · have hchar : (char c).toNat = c := by
        rw [char, BitVec.toNat_ofNat]
        omega
      obtain ⟨s, henc, hdec⟩ := @ih (str ++ [char c]) hus
        (by rw [List.length_append, List.length_singleton]; omega)
      refine ⟨char c :: s, ?_, fun old uLen acc hacc => ?_⟩
      · rw [gbEncodeLoop_cons_lt (by omega) hshort, henc, List.append_assoc, List.singleton_append]
      rw [List.length_cons] at hacc
      have hdec := hdec old uLen (acc ++ [c]) (by rw [List.length_append, List.length_singleton]; omega)
      rw [List.append_assoc, List.singleton_append] at hdec
      rw [gbDecodeLoop_cons_lt (by omega) (by rw [hchar]; exact hshort), hchar]
      exact ⟨fun hgood => hdec.1 hgood.2, fun hst heq => ⟨⟨by omega, by omega⟩, hdec.2 hst heq⟩⟩
    · have hlong : 0x80 ≤ c := Nat.not_lt.mp hshort
      obtain ⟨b, b', hb, hhigh, hgood, hbad⟩ := gb_step hc hlong (stack str.length)
      obtain ⟨s, henc, hdec⟩ := @ih (str ++ [b, b']) hus
        (by rw [List.length_append, List.length_cons, List.length_singleton]; omega)
      refine ⟨b :: b' :: s, ?_, fun old uLen acc hacc => ?_⟩
      · rw [gbEncodeLoop_cons (by omega) hlong, hb, Option.bind_some, henc, List.append_assoc]
        rfl
      rw [List.length_cons] at hacc
      have hdec := hdec old uLen (acc ++ [c]) (by rw [List.length_append, List.length_singleton]; omega)
      rw [List.append_assoc, List.singleton_append] at hdec
      rw [gbDecodeLoop_cons (by omega) hhigh]
      constructor
      · rintro ⟨hgc, hgus⟩
        rw [hgood hgc, Option.bind_some]
        exact hdec.1 hgus
      · intro hst heq
        obtain ⟨u, hu, hrest⟩ := Option.bind_eq_some_iff.mp heq
        obtain rfl : u = c := by
          have hpre := prefix_gbDecodeLoop hrest
          rw [List.prefix_append_right_inj, List.cons_prefix_cons] at hpre
          exact hpre.1
        refine ⟨?_, hdec.2 hst hrest⟩
        by_contra hnot
        exact hbad (by omega) (hst _) _ hu

theorem comesBack_iff (h : ∀ c ∈ us, Gb m.toTables c) :
    ComesBack m.toTables us ↔ ∀ c ∈ us, c ≠ 0x2015 ∧ c ≠ 0x30fb := by
  constructor
  · rintro ⟨n, hn⟩
    obtain ⟨k, hnk, hk⟩ : ∃ k ≥ n, 2 * us.length + 2 ≤ k :=
      ⟨max n (2 * us.length + 2), Nat.le_max_left .., Nat.le_max_right ..⟩
    obtain ⟨s, henc, hdec⟩ := @gb_loops m (fun _ => 0xa1aa) k [] us h
      (by rw [List.length_nil]; omega)
    have hback := hn k hnk k hnk (fun _ => 0xa1aa) (fun _ => 0)
    rw [gbEncode, henc, Option.bind_some, List.nil_append, gbDecode] at hback
    exact (hdec (fun _ => 0) k [] (by rw [List.length_nil]; omega)).2 (fun _ => rfl) hback
  · intro hgood
    refine ⟨2 * us.length + 2, fun sLen hsLen uLen huLen stack old => ?_⟩
    obtain ⟨s, henc, hdec⟩ := @gb_loops m stack sLen [] us h
      (by rw [List.length_nil]; omega)
    rw [gbEncode, henc, Option.bind_some, List.nil_append, gbDecode]
    exact (hdec old uLen [] (by rw [List.length_nil]; omega)).1 hgood

-- ---------------------------------------------------------------------------
-- The other code points
-- ---------------------------------------------------------------------------

theorem gbEncodeLoop_concat (hroom : str.length + 2 * us.length + 2 < sLen) :
    gbEncodeLoop t stack sLen (us ++ [c]) str =
      (gbEncodeLoop t stack sLen us str).bind fun s => gbEncodeLoop t stack sLen [c] s := by
  induction us generalizing str with
  | nil => rfl
  | cons d us ih =>
    rw [List.length_cons] at hroom
    rw [List.cons_append]
    by_cases hd : d < 0x80
    · rw [gbEncodeLoop_cons_lt (by omega) hd, gbEncodeLoop_cons_lt (by omega) hd]
      exact ih (by rw [List.length_append, List.length_singleton]; omega)
    · rw [gbEncodeLoop_cons (by omega) (Nat.not_lt.mp hd), gbEncodeLoop_cons (by omega) (Nat.not_lt.mp hd)]
      cases hs : cpGBKEncode t (stack str.length) d with
      | none => rfl
      | some s =>
        rw [Option.bind_some, Option.bind_some]
        exact ih (by rw [List.length_append, length_cpGBKEncode hs]; omega)

theorem length_gbEncodeLoop (h : gbEncodeLoop t stack sLen us str = some r') :
    r'.length ≤ str.length + 2 * us.length := by
  fun_induction gbEncodeLoop t stack sLen us str with
  | case1 str => exact Option.some.inj h ▸ Nat.le_refl _
  | case2 str c us hroom hc ih =>
    have := ih h
    rw [List.length_append, List.length_singleton] at this
    rw [List.length_cons]
    omega
  | case3 str c us hroom hc ih =>
    obtain ⟨s, hs, h⟩ := Option.bind_eq_some_iff.mp h
    have := ih s h
    rw [List.length_append, length_cpGBKEncode hs] at this
    rw [List.length_cons]
    omega
  | case4 str c us hroom => exact Option.some.inj h ▸ Nat.le_add_right ..

/-- A longer code point adds what `CPGBKEncode` makes of it. -/
theorem fixed_iff_encode (hc : 0x80 ≤ c) : Fixed t c ↔ ∃ s, ∀ chr, cpGBKEncode t chr c = some s := by
  have hone (stack sLen) (str : List Byte) (hroom : str.length + 2 < sLen) : gbEncodeLoop t stack sLen [c] str =
      (cpGBKEncode t (stack str.length) c).map (str ++ ·) := by
    rw [gbEncodeLoop_cons hroom hc]
    simp only [gbEncodeLoop, Option.map_eq_bind]
    rfl
  constructor
  · rintro ⟨s, hs⟩
    refine ⟨s, fun chr => ?_⟩
    have h := hs (fun _ => chr) [] 3 [] (by decide) rfl
    rw [List.nil_append, gbEncode, hone _ _ _ (by decide)] at h
    simpa only [List.nil_append, Option.map_id'] using h
  · rintro ⟨s, hs⟩
    refine ⟨s, fun stack uStr sLen str hroom henc => ?_⟩
    have hlen := length_gbEncodeLoop henc
    rw [List.length_nil] at hlen
    rw [gbEncode, gbEncodeLoop_concat (by rw [List.length_nil]; omega), ← gbEncode, henc, Option.bind_some,
      hone _ _ _ (by omega), hs, Option.map_some]

theorem gb_dot (m : Mappings) : Gb m.toTables 0x30fb :=
  .inr (.inr (.inr (.inr ⟨0x21, 0x24, m.dot, (unicode_special m).2⟩)))

theorem fixed_iff (h : ¬ Gb m.toTables c) : Fixed m.toTables c ↔ m.code c ≠ none := by
  have hlong : 0x80 ≤ c := Nat.not_lt.mp fun hlt => h (.inl hlt)
  have hdot : c ≠ 0x30fb := fun heq => h (heq ▸ gb_dot m)
  have henc (chr) : cpGBKEncode m.toTables chr c =
      if c >>> 8 < 256 then some (out ((m.code c).getD chr)) else none := by
    rw [cpGBKEncode, if_neg fun heq => h (.inr (.inl heq)), if_neg fun heq => h (.inr (.inr (.inl heq))),
      if_neg fun heq => h (.inr (.inr (.inr (.inl heq)))), if_pos hdot]
  rw [fixed_iff_encode hlong]
  constructor
  · rintro ⟨s, hs⟩ hnone
    have h₀ := hs 0
    have h₁ := hs 1
    rw [henc, hnone, Option.getD_none] at h₀ h₁
    split_ifs at h₀ h₁
    exact absurd (h₀.trans h₁.symm) (by decide)
  · intro hcode
    obtain ⟨chr, hchr⟩ := Option.ne_none_iff_exists'.mp hcode
    have hrow : c >>> 8 < 256 := by
      by_contra hnot
      exact hcode (if_neg hnot)
    exact ⟨out chr, fun _ => by rw [henc, if_pos hrow, hchr, Option.getD_some]⟩

/-- The round trip of a text of the set, and the encoding of the code points outside it. -/
theorem gb2312_iff (m : Mappings) (uStr : List Nat) :
    ((∀ c ∈ uStr, Gb m.toTables c) → (ComesBack m.toTables uStr ↔ ∀ c ∈ uStr, c ≠ 0x2015 ∧ c ≠ 0x30fb)) ∧
      ∀ c, ¬ Gb m.toTables c → (Fixed m.toTables c ↔ m.code c ≠ none) :=
  ⟨comesBack_iff, fun _ => fixed_iff⟩

-- ---------------------------------------------------------------------------
-- A piece of the tables
-- ---------------------------------------------------------------------------

/-- The rows of the tables for three characters. -/
def piece : Tables where
  gb2312Decmap c1 :=
    if c1 = 0x21 then ⟨some fun i => if i = 9 then 0x2015 else if i = 3 then 0x30fb else UNIINV, 33, 126⟩
    else if c1 = 0x28 then ⟨some fun _ => UNIINV, 33, 105⟩
    else if c1 = 0x3a then ⟨some fun i => if i = 34 then 0x597d else UNIINV, 33, 126⟩
    else ⟨none, 0, 0⟩
  gbkextDecmap _ := ⟨none, 0, 0⟩
  gbcommonEncmap row :=
    if row = 0x01 then ⟨some fun _ => 0xFFFF, 1, 220⟩
    else if row = 0x20 then ⟨some fun i => if i = 4 then 0xa1aa else if i = 5 then 0x212a else 0xFFFF, 16, 59⟩
    else if row = 0x30 then ⟨some fun i => if i = 251 then 0x2124 else 0xFFFF, 0, 254⟩
    else if row = 0x59 then ⟨some fun i => if i = 125 then 0x3a43 else 0xFFFF, 0, 255⟩
    else ⟨none, 0, 0⟩

theorem char_eq_iff {n k : Nat} (hn : n < 256) (hk : k < 256) : char n = BitVec.ofNat 8 k ↔ n = k := by
  rw [char, ← BitVec.toNat_inj, BitVec.toNat_ofNat, BitVec.toNat_ofNat]
  omega

theorem piece_code {x : Nat} (hx : x < 0x8000) : piece.code c = some x ↔
    c = 0x2015 ∧ x = 0x212a ∨ c = 0x30fb ∧ x = 0x2124 ∨ c = 0x597d ∧ x = 0x3a43 := by
  have hlow : c &&& 0xff = c % 256 := Nat.and_two_pow_sub_one_eq_mod c 8
  have hhigh : c >>> 8 = c / 256 := Nat.shiftRight_eq_div_pow c 8
  rw [Tables.code, hlow, hhigh]
  by_cases hrow : c / 256 < 256
  · have h01 : char (c / 256) = 0x01 ↔ c / 256 = 0x01 := char_eq_iff hrow (by decide)
    have h20 : char (c / 256) = 0x20 ↔ c / 256 = 0x20 := char_eq_iff hrow (by decide)
    have h30 : char (c / 256) = 0x30 ↔ c / 256 = 0x30 := char_eq_iff hrow (by decide)
    have h59 : char (c / 256) = 0x59 ↔ c / 256 = 0x59 := char_eq_iff hrow (by decide)
    rw [if_pos hrow]
    simp only [piece, h01, h20, h30, h59, Index.get?]
    grind
  · rw [if_neg hrow]
    simp only [reduceCtorEq, false_iff]
    omega

theorem piece_unicode {c1 c2 : Byte} : piece.unicode c1 c2 = some c ↔
    c1 = 0x21 ∧ c2 = 0x2a ∧ c = 0x2015 ∨ c1 = 0x21 ∧ c2 = 0x24 ∧ c = 0x30fb ∨
      c1 = 0x3a ∧ c2 = 0x43 ∧ c = 0x597d := by
  have h2a : c2 = 0x2a ↔ c2.toNat = 0x2a := BitVec.toNat_inj.symm
  have h24 : c2 = 0x24 ↔ c2.toNat = 0x24 := BitVec.toNat_inj.symm
  have h43 : c2 = 0x43 ↔ c2.toNat = 0x43 := BitVec.toNat_inj.symm
  simp only [Tables.unicode, piece, h2a, h24, h43, Index.get?, UNIINV]
  grind

def pieceMappings : Mappings where
  toTables := piece
  inverse c c1 c2 h1 h2 := by
    rw [piece_code (by omega), piece_unicode]
    bv_omega
  sevenBits c1 c2 c h := by
    rcases piece_unicode.mp h with ⟨rfl, rfl, -⟩ | ⟨rfl, rfl, -⟩ | ⟨rfl, rfl, -⟩ <;> decide
  ext _ _ := rfl
  bar := by decide
  dot := by decide
  gap := by decide

theorem gb_piece : Gb piece 0x2015 ∧ Gb piece 0x30fb ∧ Gb piece 0x61 ∧ Gb piece 0x597d :=
  ⟨.inr (.inr (.inl rfl)), gb_dot pieceMappings, .inl (by decide),
    .inr (.inr (.inr (.inr ⟨0x3a, 0x43, by decide, by decide⟩)))⟩

/-- A letter and a Chinese character come back; U+0100 is in front of the row it belongs to. -/
theorem letters_come_back : ComesBack piece [0x61, 0x597d, 0x61] ∧ ¬ Fixed piece 0x100 := by
  obtain ⟨hback, hfixed⟩ := gb2312_iff pieceMappings [0x61, 0x597d, 0x61]
  constructor
  · refine (hback ?_).mpr (by decide)
    simp only [List.forall_mem_cons, List.not_mem_nil, false_implies, implies_true, and_true]
    exact ⟨gb_piece.2.2.1, gb_piece.2.2.2, gb_piece.2.2.1⟩
  · refine fun h => (hfixed 0x100 ?_).mp h (by decide)
    rintro (h | h | h | h | ⟨c1, c2, hcode, -⟩)
    · exact absurd h (by decide)
    · exact absurd h (by decide)
    · exact absurd h (by decide)
    · exact absurd h (by decide)
    · exact absurd (hcode.symm.trans (by decide : piece.code 0x100 = none)) (Option.some_ne_none _)

/-- The horizontal bar is encoded as A8 C4 and not as A8 44. -/
theorem bar_lost : (∀ c ∈ [0x2015], Gb pieceMappings.toTables c) ∧ ¬ ComesBack pieceMappings.toTables [0x2015] := by
  have hgb : ∀ c ∈ [0x2015], Gb pieceMappings.toTables c := by
    rw [List.forall_mem_singleton]
    exact gb_piece.1
  refine ⟨hgb, ?_⟩
  rw [comesBack_iff hgb]
  exact fun h => (h _ List.mem_cons_self).1 rfl

end GalaLua.LuaCodec
