import GalaLua.Library.Bytes
import Mathlib.Algebra.BigOperators.Group.List.Basic

/-!
# The UTF-8 codec of the Lua binding

`Codec.encode` takes a string of code points of four bytes each, `Codec.decode`
gives such a string back. Both go through a buffer whose size is chosen before
the conversion: `utf8_round_trip_iff` says for which code points the buffer of
`encode` is large enough.
-/

namespace GalaLua.LuaCodec

open Library (Byte Endian int32 int32_of_lt)

-- ---------------------------------------------------------------------------
-- codec_utf8.hpp
-- ---------------------------------------------------------------------------

def char (n : Nat) : Byte := BitVec.ofNat 8 n

def cpUTF8Encode (wchar : Nat) : List Byte :=
  if wchar < 0xC0 then [char wchar]
  else if wchar < 0x800 then [char (0xc0 ||| wchar >>> 6), char (0x80 ||| (wchar &&& 0x3f))]
  else if wchar < 0x10000 then
    [char (0xe0 ||| wchar >>> 12), char (0x80 ||| (wchar >>> 6 &&& 0x3f)), char (0x80 ||| (wchar &&& 0x3f))]
  else if wchar < 0x200000 then
    [char (0xf0 ||| wchar >>> 18), char (0x80 ||| (wchar >>> 12 &&& 0x3f)),
      char (0x80 ||| (wchar >>> 6 &&& 0x3f)), char (0x80 ||| (wchar &&& 0x3f))]
  else if wchar < 0x4000000 then
    [char (0xf8 ||| wchar >>> 24), char (0x80 ||| (wchar >>> 18 &&& 0x3f)),
      char (0x80 ||| (wchar >>> 12 &&& 0x3f)), char (0x80 ||| (wchar >>> 6 &&& 0x3f)),
      char (0x80 ||| (wchar &&& 0x3f))]
  else if wchar < 0x80000000 then
    [char (0xfc ||| wchar >>> 30), char (0x80 ||| (wchar >>> 24 &&& 0x3f)),
      char (0x80 ||| (wchar >>> 18 &&& 0x3f)), char (0x80 ||| (wchar >>> 12 &&& 0x3f)),
      char (0x80 ||| (wchar >>> 6 &&& 0x3f)), char (0x80 ||| (wchar &&& 0x3f))]
  else []

/-- `afters` and the bits of `code` that the first byte of a sequence gives. -/
def lead (firstCh : Nat) : Option (Nat × Nat) :=
  if firstCh &&& 0xE0 = 0xC0 then some (2, firstCh &&& 0x1F)
  else if firstCh &&& 0xF0 = 0xE0 then some (3, firstCh &&& 0xF)
  else if firstCh &&& 0xF8 = 0xF0 then some (4, firstCh &&& 0x7)
  else if firstCh &&& 0xFC = 0xF8 then some (5, firstCh &&& 0x3)
  else if firstCh &&& 0xFE = 0xFC then some (6, firstCh &&& 0x1)
  else none

/-- The loop over the `k` bytes behind the first one. A Lua string ends in a
zero byte, which continues nothing. -/
def continued : Nat → List Byte → Nat → Option Nat
  | 0, _, code => some code
  | _ + 1, [], _ => none
  | k + 1, b :: utf8, code =>
    if b.toNat &&& 0xC0 ≠ 0x80 then none else continued k utf8 (code <<< 6 ||| b.toNat &&& 0x3F)

/-- `*wch` with the number of bytes it took, or `none` for 0. -/
def cpUTF8Decode (utf8 : List Byte) (len : Int) : Option (Nat × Nat) :=
  let firstCh := (utf8.headD 0).toNat
  if firstCh ≥ 0xC0 then
    match lead firstCh with
    | none => some (firstCh, 1)
    | some (afters, code) =>
      if afters > len then none
      else match continued (afters - 1) utf8.tail code with
        | none => some (firstCh, 1)
        | some code => some (code, afters)
  else some (firstCh, 1)

-- ---------------------------------------------------------------------------
-- codec_utf8.cpp
-- ---------------------------------------------------------------------------

/-- What the class `Codec` has: `encode` and `decode` into a buffer of a given size. -/
structure Codec where
  encode : List Nat → Nat → List Byte
  decode : List Byte → Nat → List Nat

/-- `str` is what is written, `cursor` its length. -/
def encodeLoop (sLen : Nat) : List Nat → List Byte → List Byte
  | [], str => str
  | wchar :: uStr, str =>
    if sLen - str.length < 6 then str else encodeLoop sLen uStr (str ++ cpUTF8Encode wchar)

def decodeLoop : Nat → List Byte → List Nat
  | 0, _ => []
  | uLen + 1, str =>
    if str = [] then []
    else match cpUTF8Decode str (int32 str.length) with
      | none => []
      | some (wch, len) => wch :: decodeLoop uLen (str.drop len)

def utf8Codec : Codec := ⟨fun uStr sLen => encodeLoop sLen uStr [], fun str uLen => decodeLoop uLen str⟩

-- ---------------------------------------------------------------------------
-- LuaCodec.cpp
-- ---------------------------------------------------------------------------

inductive Fault
  | luaError (msg : String)
  /-- `lua_pushlstring` with a length that was negative as an `int` -/
  | length
  deriving DecidableEq, Repr

def SIZE : Nat := 1024

def pushlstring (buf : List Byte) (n : Int) : Except Fault (List Byte) :=
  if n < 0 then .error .length else .ok (buf.take n.toNat)

/-- A string as an array of `ucs4_t`, in the byte order of the host. -/
def units (e : Endian) : Nat → List Byte → List Nat
  | 0, _ => []
  | u_len + 1, str => e.decode (str.take 4) :: units e u_len (str.drop 4)

def bytes (e : Endian) (uStr : List Nat) : List Byte := uStr.flatMap (e.encode 4)

def getCodec (gb2312 : Codec) (code : String) : Except Fault Codec :=
  if code = "utf8" then .ok utf8Codec
  else if code = "gb2312" then .ok gb2312
  else .error (.luaError "not support!")

/-- The size of the buffer for `u_len` code points; `out_len` is an `unsigned int`. -/
def outSize (u_len : Nat) : Nat :=
  let out_len := u_len * 4 % 2 ^ 32
  if out_len > SIZE then out_len else SIZE

def encode (e : Endian) (gb2312 : Codec) (code : String) (str : List Byte) : Except Fault (List Byte) := do
  let codec ← getCodec gb2312 code
  let u_len := str.length / 4
  let buffer := codec.encode (units e u_len str) (outSize u_len)
  pushlstring buffer (int32 buffer.length)

def decode (e : Endian) (gb2312 : Codec) (code : String) (str : List Byte) : Except Fault (List Byte) := do
  let codec ← getCodec gb2312 code
  let u_len := str.length * 4 % 2 ^ 64
  let buffer := codec.decode str (if u_len > SIZE then u_len / 4 else SIZE / 4)
  pushlstring (bytes e buffer) ((int32 buffer.length * 4).bmod (2 ^ 32))

variable {wchar x k sLen : Nat} {us : List Nat} {rest str : List Byte} {len : Int} {e : Endian}
variable {gb2312 : Codec}

-- ---------------------------------------------------------------------------
-- One code point
-- ---------------------------------------------------------------------------

theorem lead_two (h : x < 32) : lead (char (0xc0 ||| x)).toNat = some (2, x) := by
  revert x
  decide

theorem lead_three (h : x < 16) : lead (char (0xe0 ||| x)).toNat = some (3, x) := by
  revert x
  decide

theorem lead_four (h : x < 8) : lead (char (0xf0 ||| x)).toNat = some (4, x) := by
  revert x
  decide

theorem lead_five (h : x < 4) : lead (char (0xf8 ||| x)).toNat = some (5, x) := by
  revert x
  decide

theorem lead_six (h : x < 2) : lead (char (0xfc ||| x)).toNat = some (6, x) := by
  revert x
  decide

theorem lead_ge : ∀ {b : Byte}, (lead b.toNat).isSome → b.toNat ≥ 0xC0 := by
  decide

theorem char_tail (h : x < 64) :
    (char (0x80 ||| x)).toNat &&& 0xC0 = 0x80 ∧ (char (0x80 ||| x)).toNat &&& 0x3F = x := by
  revert x
  decide

/-- The bytes behind the first one: the `k` lowest digits of six bits. -/
def tailBytes (wchar : Nat) : Nat → List Byte
  | 0 => []
  | k + 1 => char (0x80 ||| (wchar >>> (6 * k) &&& 0x3f)) :: tailBytes wchar k

@[simp] theorem length_tailBytes : (tailBytes wchar k).length = k := by
  induction k with
  | zero => rfl
  | succ k ih => simp [tailBytes, ih]

theorem continued_tailBytes :
    continued k (tailBytes wchar k ++ rest) (wchar >>> (6 * k)) = some wchar := by
  induction k with
  | zero => rfl
  | succ k ih =>
    have hdigit : wchar >>> (6 * k) &&& 0x3f = (wchar >>> (6 * k)) % 64 :=
      Nat.and_two_pow_sub_one_eq_mod _ 6
    obtain ⟨htag, hbits⟩ := char_tail (x := wchar >>> (6 * k) &&& 0x3f) (by omega)
    have hnext : wchar >>> (6 * (k + 1)) = wchar >>> (6 * k) / 64 := by
      rw [Nat.mul_succ, Nat.shiftRight_add, Nat.shiftRight_eq_div_pow _ 6]
    have hcode : wchar >>> (6 * (k + 1)) <<< 6 ||| (wchar >>> (6 * k) &&& 0x3f) = wchar >>> (6 * k) := by
      rw [← Nat.shiftLeft_add_eq_or_of_lt (show wchar >>> (6 * k) &&& 0x3f < 2 ^ 6 by omega), hdigit,
        Nat.shiftLeft_eq, hnext]
      omega
    simp only [tailBytes, List.cons_append, continued, htag, hbits, hcode, ne_eq, not_true_eq_false,
      if_false, ih]

/-- A code point is one byte, or a first byte that tells its length and its
highest bits, and the others in digits of six bits. -/
theorem cpUTF8Encode_cases (hw : wchar < 2 ^ 31) :
    wchar < 0xC0 ∧ cpUTF8Encode wchar = [char wchar] ∨
      ∃ b k, k ≤ 5 ∧ lead b.toNat = some (k + 1, wchar >>> (6 * k)) ∧
        cpUTF8Encode wchar = b :: tailBytes wchar k := by
  have hshift : ∀ {k m : Nat}, wchar < m * 2 ^ k → wchar >>> k < m := fun h => by
    rw [Nat.shiftRight_eq_div_pow]
    exact Nat.div_lt_of_lt_mul (by rwa [Nat.mul_comm])
  unfold cpUTF8Encode
  split
  · next h => exact .inl ⟨h, rfl⟩
  refine .inr ?_
  split
  · next h => exact ⟨_, 1, by decide, lead_two (hshift (by omega)), rfl⟩
  split
  · next h => exact ⟨_, 2, by decide, lead_three (hshift (by omega)), rfl⟩
  split
  · next h => exact ⟨_, 3, by decide, lead_four (hshift (by omega)), rfl⟩
  split
  · next h => exact ⟨_, 4, by decide, lead_five (hshift (by omega)), rfl⟩
  split
  · next h => exact ⟨_, 5, by decide, lead_six (hshift (by omega)), rfl⟩
  · next h => exact (h hw).elim

/-- What the encoder wrote for a code point is read as this code point. -/
theorem cpUTF8Decode_encode (hw : wchar < 2 ^ 31) (hlen : ((cpUTF8Encode wchar).length : Int) ≤ len) :
    cpUTF8Decode (cpUTF8Encode wchar ++ rest) len = some (wchar, (cpUTF8Encode wchar).length) := by
  rcases cpUTF8Encode_cases hw with ⟨h, henc⟩ | ⟨b, k, -, hlead, henc⟩
  · have hb : (char wchar).toNat = wchar := by
      rw [char, BitVec.toNat_ofNat]
      omega
    simp [cpUTF8Decode, henc, hb, Nat.not_le.mpr h]
  · have hge : b.toNat ≥ 0xC0 := lead_ge (by simp [hlead])
    have hle : ¬((k + 1 : Nat) : Int) > len := by
      simpa [henc] using hlen
    simp only [henc, cpUTF8Decode, List.cons_append, List.headD_cons, hge, if_true, hlead, hle, if_false,
      List.tail_cons, Nat.add_sub_cancel, continued_tailBytes, List.length_cons, length_tailBytes]

theorem length_cpUTF8Encode (hw : wchar < 2 ^ 31) :
    0 < (cpUTF8Encode wchar).length ∧ (cpUTF8Encode wchar).length ≤ 6 := by
  rcases cpUTF8Encode_cases hw with ⟨-, henc⟩ | ⟨b, k, hk, -, henc⟩
  · simp [henc]
  · rw [henc, List.length_cons, length_tailBytes]
    omega

-- ---------------------------------------------------------------------------
-- The loops
-- ---------------------------------------------------------------------------

/-- All code points, each in its own width. -/
def encoded (us : List Nat) : List Byte := us.flatMap cpUTF8Encode

theorem length_le_encoded (hus : ∀ u ∈ us, u < 2 ^ 31) : us.length ≤ (encoded us).length := by
  induction us with
  | nil => exact Nat.le_refl _
  | cons u us ih =>
    obtain ⟨hu, hus⟩ := List.forall_mem_cons.mp hus
    have := (length_cpUTF8Encode hu).1
    have := ih hus
    simp only [encoded, List.flatMap_cons, List.length_append, List.length_cons] at *
    omega

theorem decodeLoop_encoded {uLen : Nat} (hus : ∀ u ∈ us, u < 2 ^ 31) (hle : us.length ≤ uLen)
    (hlt : (encoded us).length < 2 ^ 31) : decodeLoop uLen (encoded us) = us := by
  induction us generalizing uLen with
  | nil => cases uLen <;> simp [decodeLoop, encoded]
  | cons u us ih =>
    obtain ⟨hu, hus⟩ := List.forall_mem_cons.mp hus
    obtain ⟨uLen, rfl⟩ : ∃ n, uLen = n + 1 := ⟨uLen - 1, by simp at hle; omega⟩
    have hcons : encoded (u :: us) = cpUTF8Encode u ++ encoded us := rfl
    rw [hcons, List.length_append] at hlt
    have hpos := (length_cpUTF8Encode hu).1
    have hne : cpUTF8Encode u ++ encoded us ≠ [] := by
      intro h
      simp [(List.append_eq_nil_iff.mp h).1] at hpos
    have hdec := @cpUTF8Decode_encode _ (encoded us) (int32 (cpUTF8Encode u ++ encoded us).length) hu
      (by rw [int32_of_lt (by simpa using hlt), List.length_append]; omega)
    rw [hcons, decodeLoop, if_neg hne, hdec]
    simp only [List.drop_left]
    rw [ih hus (by simpa using hle) (by omega)]

/-- The encoder stops before a code point when fewer than six bytes are left. -/
theorem encodeLoop_spec (us : List Nat) (str : List Byte) :
    ∃ k ≤ us.length, encodeLoop sLen us str = str ++ encoded (us.take k) ∧
      (k = us.length ↔ us = [] ∨ str.length + (encoded us.dropLast).length + 6 ≤ sLen) := by
  induction us generalizing str with
  | nil => exact ⟨0, Nat.le_refl _, by simp [encodeLoop, encoded], by simp⟩
  | cons u us ih =>
    by_cases hstop : sLen - str.length < 6
    · refine ⟨0, Nat.zero_le _, by simp [encodeLoop, hstop, encoded], ?_⟩
      refine iff_of_false (by simp) ?_
      rw [not_or]
      exact ⟨List.cons_ne_nil u us, by omega⟩
    · obtain ⟨k, hk, henc, hiff⟩ := ih (str ++ cpUTF8Encode u)
      refine ⟨k + 1, by simpa using hk, ?_, ?_⟩
      · simp [encodeLoop, hstop, henc, encoded]
      · rw [List.length_cons, Nat.add_right_cancel_iff, hiff]
        cases us with
        | nil =>
          simp only [List.dropLast_singleton, encoded, List.flatMap_nil, List.length_nil, true_or, true_iff]
          omega
        | cons u' us =>
          simp only [reduceCtorEq, false_or, List.dropLast_cons_cons, encoded, List.flatMap_cons,
            List.length_append]
          omega

theorem length_encodeLoop_le (hus : ∀ u ∈ us, u < 2 ^ 31) (hle : str.length ≤ sLen) :
    (encodeLoop sLen us str).length ≤ sLen := by
  induction us generalizing str with
  | nil => exact hle
  | cons u us ih =>
    obtain ⟨hu, hus⟩ := List.forall_mem_cons.mp hus
    have := (length_cpUTF8Encode hu).2
    rw [encodeLoop]
    split
    · exact hle
    · exact ih hus (by rw [List.length_append]; omega)

-- ---------------------------------------------------------------------------
-- The strings of the binding
-- ---------------------------------------------------------------------------

@[simp] theorem length_bytes : (bytes e us).length = 4 * us.length := by
  induction us with
  | nil => rfl
  | cons u us ih =>
    simp only [bytes, List.flatMap_cons, List.length_append, Endian.length_encode, List.length_cons] at *
    omega

theorem units_bytes (hus : ∀ u ∈ us, u < 2 ^ 31) : units e us.length (bytes e us) = us := by
  induction us with
  | nil => rfl
  | cons u us ih =>
    obtain ⟨hu, hus⟩ := List.forall_mem_cons.mp hus
    have hcons : bytes e (u :: us) = e.encode 4 u ++ bytes e us := rfl
    rw [List.length_cons, units, hcons, List.take_left' (Endian.length_encode e 4 u),
      List.drop_left' (Endian.length_encode e 4 u), ih hus, e.decode_encode_four (by omega)]

theorem ok_bind {α β : Type} (a : α) (f : α → Except Fault β) : (Except.ok a >>= f) = f a := rfl

theorem utf8_encode : utf8Codec.encode us sLen = encodeLoop sLen us [] := rfl

theorem utf8_decode : utf8Codec.decode str k = decodeLoop k str := rfl

theorem getCodec_utf8 : getCodec gb2312 "utf8" = .ok utf8Codec := if_pos rfl

theorem encode_utf8 (hus : ∀ u ∈ us, u < 2 ^ 31) : encode e gb2312 "utf8" (bytes e us) =
    pushlstring (encodeLoop (outSize us.length) us []) (int32 (encodeLoop (outSize us.length) us []).length) := by
  have hlen : (bytes e us).length / 4 = us.length := by
    rw [length_bytes]
    omega
  rw [encode, getCodec_utf8, ok_bind]
  dsimp only
  rw [hlen, units_bytes hus, utf8_encode]

theorem pushlstring_all {buf : List Byte} (h : buf.length < 2 ^ 31) :
    pushlstring buf (int32 buf.length) = .ok buf := by
  rw [int32_of_lt h, pushlstring, if_neg (by omega), Int.toNat_natCast, List.take_length]

theorem length_of_pushlstring {buf r : List Byte} {n : Int} (hn : n < (2 ^ 32 + 1) / 2)
    (h : pushlstring buf n = .ok r) : r.length < 2 ^ 31 := by
  unfold pushlstring at h
  split at h
  · cases h
  · cases h
    rw [List.length_take]
    omega

theorem length_of_decode {r : List Byte} {code : String} (h : decode e gb2312 code str = .ok r) :
    r.length < 2 ^ 31 := by
  unfold decode at h
  cases hcodec : getCodec gb2312 code with
  | error f =>
    rw [hcodec] at h
    cases h
  | ok codec =>
    rw [hcodec, ok_bind] at h
    exact length_of_pushlstring (Int.bmod_lt (by decide)) h

theorem decode_utf8 (hus : ∀ u ∈ us, u < 2 ^ 31) (hlen : us.length < 2 ^ 29)
    (hlt : (encoded us).length < 2 ^ 31) :
    decode e gb2312 "utf8" (encoded us) = .ok (bytes e us) := by
  have hsize : (encoded us).length * 4 % 2 ^ 64 = (encoded us).length * 4 := by omega
  have hle := length_le_encoded hus
  have hroom : us.length ≤ if (encoded us).length * 4 > SIZE then (encoded us).length * 4 / 4 else SIZE / 4 := by
    by_cases h : (encoded us).length * 4 > SIZE
    · rw [if_pos h]
      omega
    · rw [if_neg h]
      rw [SIZE] at h ⊢
      omega
  have hfour : (int32 us.length * 4).bmod (2 ^ 32) = int32 (bytes e us).length := by
    have hcast : ((4 * us.length : Nat) : Int) = (us.length : Int) * 4 := by omega
    have h31 : us.length < 2 ^ 31 := by omega
    rw [int32_of_lt h31]
    unfold int32
    rw [length_bytes, hcast]
  rw [decode, getCodec_utf8, ok_bind]
  dsimp only
  rw [hsize, utf8_decode, decodeLoop_encoded hus hroom hlt, hfour]
  exact pushlstring_all (by rw [length_bytes]; omega)

def trip (e : Endian) (gb2312 : Codec) (us : List Nat) : Except Fault (List Byte) := do
  decode e gb2312 "utf8" (← encode e gb2312 "utf8" (bytes e us))

theorem trip_of_encode (h : encode e gb2312 "utf8" (bytes e us) = .ok str) :
    trip e gb2312 us = decode e gb2312 "utf8" str := by
  rw [trip, h, ok_bind]

/-- The buffer of `encode` has six free bytes at the last code point. -/
def Fits (us : List Nat) : Prop :=
  us = [] ∨ (encoded us.dropLast).length + 6 ≤ max 1024 (4 * us.length)

/-- A string that an `int` can count comes back up to the code point at which
`encode` stopped. -/
theorem trip_prefix (e : Endian) (gb2312 : Codec) (hus : ∀ u ∈ us, u < 2 ^ 31) (hlen : us.length < 2 ^ 29) :
    ∃ k ≤ us.length, trip e gb2312 us = .ok (bytes e (us.take k)) ∧ (k = us.length ↔ Fits us) := by
  obtain ⟨k, hk, henc, hiff⟩ := @encodeLoop_spec (outSize us.length) us []
  have hsize : outSize us.length = max 1024 (4 * us.length) := by
    unfold outSize SIZE
    by_cases h : us.length * 4 % 2 ^ 32 > 1024
    · rw [if_pos h]
      omega
    · rw [if_neg h]
      omega
  have hle := @length_encodeLoop_le (outSize us.length) _ [] hus (Nat.zero_le _)
  have hlt : (encodeLoop (outSize us.length) us []).length < 2 ^ 31 := by omega
  refine ⟨k, hk, ?_, ?_⟩
  · have hdone : encode e gb2312 "utf8" (bytes e us) = .ok (encoded (us.take k)) := by
      rw [encode_utf8 hus, pushlstring_all hlt, henc, List.nil_append]
    rw [henc, List.nil_append] at hlt
    rw [trip_of_encode hdone]
    exact decode_utf8 (fun u hu => hus u (List.mem_of_mem_take hu)) (by rw [List.length_take]; omega) hlt
  · rw [hiff, Fits, hsize, List.length_nil, Nat.zero_add]

/-- Encoding and decoding code points below `2 ^ 31` gives them back exactly
when their string is shorter than 2 GiB and the encoder still has six free
bytes when it comes to the last of them. -/
theorem utf8_round_trip_iff (e : Endian) (gb2312 : Codec) (us : List Nat) (hus : ∀ u ∈ us, u < 2 ^ 31) :
    trip e gb2312 us = .ok (bytes e us) ↔ us.length < 2 ^ 29 ∧ Fits us := by
  by_cases hlen : us.length < 2 ^ 29
  · obtain ⟨k, hk, htrip, hiff⟩ := trip_prefix e gb2312 hus hlen
    rw [htrip, ← hiff, and_iff_right hlen, Except.ok.injEq]
    constructor
    · intro h
      have := congrArg List.length h
      simp only [length_bytes, List.length_take] at this
      omega
    · rintro rfl
      rw [List.take_length]
  · refine iff_of_false (fun h => ?_) (fun h => hlen h.1)
    cases henc : encode e gb2312 "utf8" (bytes e us) with
    | error f =>
      rw [trip, henc] at h
      cases h
    | ok x =>
      rw [trip_of_encode henc] at h
      have := length_of_decode h
      rw [length_bytes] at this
      omega

/-- A code point of one byte, one of three and the largest one of six. -/
theorem round_trip_three_widths :
    trip .little ⟨fun _ _ => [], fun _ _ => []⟩ [0x41, 0x20AC, 0x7fffffff] =
      .ok (bytes .little [0x41, 0x20AC, 0x7fffffff]) :=
  (utf8_round_trip_iff .little _ [0x41, 0x20AC, 0x7fffffff] (by decide)).mpr ⟨by decide, .inr (by decide)⟩

theorem length_encoded_replicate (n u : Nat) :
    (encoded (List.replicate n u)).length = n * (cpUTF8Encode u).length := by
  simp [encoded, List.length_flatMap]

/-- 256 times U+10000: when four of the 1024 bytes are left, the encoder stops
before the last one. -/
theorem last_code_point_lost :
    trip .little ⟨fun _ _ => [], fun _ _ => []⟩ (List.replicate 256 0x10000) ≠
      .ok (bytes .little (List.replicate 256 0x10000)) := by
  have hus : ∀ u ∈ List.replicate 256 0x10000, u < 2 ^ 31 := fun u hu => by rw [List.eq_of_mem_replicate hu]; decide
  obtain ⟨k, hk, htrip, hiff⟩ := trip_prefix .little ⟨fun _ _ => [], fun _ _ => []⟩ hus
    (by rw [List.length_replicate]; decide)
  intro h
  rw [htrip, Except.ok.injEq] at h
  have hlen := congrArg List.length h
  simp only [length_bytes, List.length_take, List.length_replicate] at hlen hiff hk
  have hfits := hiff.mp (by omega)
  rcases hfits with hnil | hroom
  · exact absurd hnil (List.cons_ne_nil _ _)
  · rw [List.dropLast_replicate, length_encoded_replicate, List.length_replicate] at hroom
    exact absurd hroom (by decide)

end GalaLua.LuaCodec
