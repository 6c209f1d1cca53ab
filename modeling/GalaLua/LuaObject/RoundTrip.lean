import GalaLua.LuaObject.Streaming
import Mathlib.Tactic.IntervalCases

/-!
# What comes back from MessagePack

`carry` says what `unpack` makes of what `pack` wrote: `unpack_pack`. A value
comes back as it was exactly when it is `Carried`: its numbers stay as they
are, its tables are nested as deep as the format goes, have plain keys, and
none that the array of a table leaves out.
-/

namespace GalaLua.LuaObject

open GLR (LuaValue Entries setEntry)
open Library (LuaNumber Binary Reader)

-- ---------------------------------------------------------------------------
-- Numbers
-- ---------------------------------------------------------------------------

theorem cast_natAbs_eq (z : Int) : |(z : ℚ)| = (z.natAbs : ℚ) := by
  rw [← Int.cast_abs, Int.abs_eq_natAbs]
  rfl

theorem scale_of_le {z : Int} (h : 53 ≤ z.natAbs.log2 + 1) : Binary.double.scale z = z.natAbs.log2 := by
  have hz : (z : ℚ) ≠ 0 := by
    intro hz
    rw [Int.cast_eq_zero.mp hz] at h
    exact absurd h (by decide)
  have hlog : Int.log 2 |(z : ℚ)| = z.natAbs.log2 := by
    rw [cast_natAbs_eq, Int.log_natCast, Nat.log2_eq_log_two]
  have hleast : Binary.double.least = -1022 := rfl
  rw [Binary.scale, if_neg hz, hlog, hleast]
  exact max_eq_left (by omega)

theorem double_of_exact {z : Int} (h : Binary.double.Exact z) : Library.Words.double z = z := by
  refine Library.Words.double_of_dvd ?_
  rcases Nat.lt_or_ge (z.natAbs.log2 + 1) 53 with hlt | hge
  · rw [Nat.sub_eq_zero_of_le hlt.le, pow_zero]
    exact one_dvd _
  · have habs := h.parts.abs_eq
    have hexp : (Binary.double.scale z - Binary.double.fraction : Int) = (z.natAbs.log2 + 1 - 53 : Nat) := by
      have hfraction : Binary.double.fraction = 52 := rfl
      rw [scale_of_le hge, hfraction]
      omega
    rw [cast_natAbs_eq, hexp, zpow_natCast] at habs
    have hnat : z.natAbs = (Binary.double.significand z).num.toNat * 2 ^ (z.natAbs.log2 + 1 - 53) := by
      exact_mod_cast habs
    exact Dvd.intro_left _ hnat.symm

theorem ofBits_bits {F : Binary} {x : ℚ} (h : F.Exact x) : ofBits F (F.bits x) = .finite x := by
  rw [ofBits, if_neg (Binary.biased_bits h), Binary.value_bits h]

def IsDouble : LuaNumber → Prop
  | .finite x => Binary.double.Exact x
  | .infinite _ | .nan => True

/-- What becomes of a number: whole ones go through an `int64_t`. -/
def carriedNumber (n : LuaNumber) : LuaNumber :=
  if isWhole n then .finite (Library.Words.double n.toInteger) else n

/-- Such a number is the same afterwards. -/
def Stays : LuaNumber → Prop
  | .finite x => isWhole (.finite x) → -2 ^ 63 ≤ x ∧ x < 2 ^ 63
  | .infinite _ => False
  | .nan => True

theorem toInteger_bounds (n : LuaNumber) : -2 ^ 63 ≤ n.toInteger ∧ n.toInteger < 2 ^ 63 := by
  unfold LuaNumber.toInteger
  split
  · dsimp only
    split
    · assumption
    · omega
  · omega
  · omega

theorem isWhole_finite {x : ℚ} : isWhole (.finite x) = true ↔ ∃ z : Int, x = z := by
  rw [isWhole, beq_iff_eq]
  constructor
  · exact fun h => ⟨_, h.symm⟩
  · rintro ⟨z, rfl⟩
    rw [Rat.floor_intCast]

theorem toInteger_intCast {z : Int} (h : -2 ^ 63 ≤ z ∧ z < 2 ^ 63) :
    (LuaNumber.finite z).toInteger = z := by
  have hdiv : ((z : ℚ).num.tdiv (z : ℚ).den) = z := by
    rw [Rat.num_intCast, Rat.den_intCast]
    exact Int.tdiv_one z
  simp only [LuaNumber.toInteger, hdiv, if_pos h]

theorem toInteger_out {z : Int} (h : ¬(-2 ^ 63 ≤ z ∧ z < 2 ^ 63)) :
    (LuaNumber.finite z).toInteger = -2 ^ 63 := by
  have hdiv : ((z : ℚ).num.tdiv (z : ℚ).den) = z := by
    rw [Rat.num_intCast, Rat.den_intCast]
    exact Int.tdiv_one z
  simp only [LuaNumber.toInteger, hdiv, if_neg h]

theorem stays_intCast {z : Int} : Stays (.finite z) ↔ -2 ^ 63 ≤ z ∧ z < 2 ^ 63 := by
  have hz : isWhole (.finite z) = true := isWhole_finite.mpr ⟨z, rfl⟩
  simp only [Stays, hz, forall_const]
  norm_cast

theorem carriedNumber_intCast {z : Int} (h : Binary.double.Exact z) :
    carriedNumber (.finite z) = .finite (if -2 ^ 63 ≤ z ∧ z < 2 ^ 63 then z else -2 ^ 63 : Int) := by
  rw [carriedNumber, if_pos (isWhole_finite.mpr ⟨z, rfl⟩)]
  by_cases hz : -2 ^ 63 ≤ z ∧ z < 2 ^ 63
  · rw [toInteger_intCast hz, double_of_exact h, if_pos hz]
  · have hleast : Library.Words.double (-2 ^ 63) = -2 ^ 63 := by decide
    rw [toInteger_out hz, hleast, if_neg hz]

theorem carriedNumber_eq_iff {n : LuaNumber} (h : IsDouble n) : carriedNumber n = n ↔ Stays n := by
  cases n with
  | nan => simp [carriedNumber, isWhole, Stays]
  | infinite negative => simp [carriedNumber, isWhole, Stays]
  | finite x =>
    by_cases hx : isWhole (.finite x) = true
    · obtain ⟨z, rfl⟩ := isWhole_finite.mp hx
      rw [stays_intCast, carriedNumber_intCast h, LuaNumber.finite.injEq, Int.cast_inj]
      split
      · simp only [*, and_self]
      · omega
    · simp only [carriedNumber, Stays, hx]
      simp

/-- What was carried stays. -/
theorem stays_carriedNumber {n : LuaNumber} (h : IsDouble n) : Stays (carriedNumber n) := by
  cases n with
  | nan => trivial
  | infinite negative =>
    have hleast : carriedNumber (.infinite negative) = .finite (-2 ^ 63 : Int) := by
      have hdouble : Library.Words.double (-2 ^ 63) = -2 ^ 63 := by decide
      have hwhole : isWhole (.infinite negative) = true := rfl
      rw [carriedNumber, if_pos hwhole, LuaNumber.toInteger, hdouble]
    rw [hleast, stays_intCast]
    decide
  | finite x =>
    by_cases hx : isWhole (.finite x) = true
    · obtain ⟨z, rfl⟩ := isWhole_finite.mp hx
      rw [carriedNumber_intCast h, stays_intCast]
      split
      · assumption
      · decide
    · rw [carriedNumber, if_neg hx]
      exact fun hwhole => absurd hwhole hx

-- ---------------------------------------------------------------------------
-- One object
-- ---------------------------------------------------------------------------

theorem form_fixnum {n : Nat} (h : n < 128) : form n = .fixnum n := by
  interval_cases n <;> rfl

theorem form_negative {n : Nat} (h : n < 32) : form (224 + n) = .fixnum (n - 32) := by
  interval_cases n <;> rfl

theorem form_raw_byte {n : Nat} (h : n < 32) : form (UInt8.ofNat (0xa0 ||| (n &&& 0xff))).toNat = .fixRaw n := by
  interval_cases n <;> rfl

theorem form_array_byte {n : Nat} (h : n < 16) : form (UInt8.ofNat (0x90 ||| (n &&& 0xf))).toNat = .fixArray n := by
  interval_cases n <;> rfl

theorem form_map_byte {n : Nat} (h : n < 16) : form (UInt8.ofNat (0x80 ||| (n &&& 0xf))).toNat = .fixMap n := by
  interval_cases n <;> rfl

theorem bigEndian_one (v : Nat) : bigEndian 1 v = [UInt8.ofNat v] := rfl

theorem lengthOf_two {n : Nat} (h : n < 2 ^ 16) : lengthOf (bigEndian 2 n) = n := by
  rw [lengthOf, if_pos (length_bigEndian 2 n), ofBigEndian_of_lt h]

theorem lengthOf_four {n : Nat} (h : n < 2 ^ 31) : lengthOf (bigEndian 4 n) = n := by
  rw [lengthOf, if_neg (by simp), extended_of_lt h]

section

variable {fuel : Nat} {c : List UInt8}

theorem take_bigEndian {α : Type} (k v : Nat) (next : List UInt8 → Reader UInt8 Fault α) :
    (takeBytes k).andThen next (bigEndian k v ++ c) = next (bigEndian k v) c :=
  Reader.take_append (length_bigEndian k v) next c

theorem decode_fixnum {b : UInt8} {n : Int} (hb : form b.toNat = .fixnum n) :
    mpDecodeToLuaType (fuel + 1) (b :: c) = .ok (pushnumber n, c) := by
  rw [decode_cons, hb]
  rfl

theorem decode_uint {b : UInt8} {k v : Nat} (hb : form b.toNat = .uint k) (hv : v < 256 ^ k) :
    mpDecodeToLuaType (fuel + 1) (b :: bigEndian k v ++ c) = .ok (pushnumber v, c) := by
  rw [List.cons_append, decode_cons, hb, body, take_bigEndian, ofBigEndian_of_lt hv]
  rfl

theorem decode_signed {b : UInt8} {k : Nat} {n : Int} (hb : form b.toNat = .int k) (hk : 8 * k ≤ 64)
    (hlo : -2 ^ (8 * k) ≤ 2 * n) (hhi : 2 * n < 2 ^ (8 * k)) :
    mpDecodeToLuaType (fuel + 1) (b :: bigEndian k (word n) ++ c) = .ok (pushnumber n, c) := by
  rw [List.cons_append, decode_cons, hb, body, take_bigEndian, signed_bigEndian hk hlo hhi]
  rfl

theorem decode_nonneg {n : Int} (h : 0 ≤ n) (hhi : n < 2 ^ 63) :
    mpDecodeToLuaType (fuel + 1) (mpEncodeInt n ++ c) = .ok (pushnumber n, c) := by
  have hword := word_of_nonneg h (by omega)
  rw [mpEncodeInt, if_pos h]
  conv_rhs => rw [← hword]
  split_ifs
  · rw [bigEndian_one, List.singleton_append]
    refine decode_fixnum ?_
    rw [UInt8.toNat_ofNat', Nat.mod_eq_of_lt (by omega)]
    exact form_fixnum (by omega)
  · exact decode_uint rfl (by omega)
  · exact decode_uint rfl (by omega)
  · exact decode_uint rfl (by omega)
  · exact decode_uint rfl (by omega)

theorem decode_negative {n : Int} (h : n < 0) (hlo : -2 ^ 63 ≤ n) :
    mpDecodeToLuaType (fuel + 1) (mpEncodeInt n ++ c) = .ok (pushnumber n, c) := by
  rw [mpEncodeInt, if_neg (by omega)]
  split_ifs
  · obtain ⟨k, hk, hn⟩ : ∃ k : Nat, k < 32 ∧ n = k - 32 := ⟨(n + 32).toNat, by omega, by omega⟩
    have hbyte : (UInt8.ofNat (word n)).toNat = 224 + k := by
      rw [UInt8.toNat_ofNat', word, BitVec.toNat_ofInt]
      omega
    rw [bigEndian_one, List.singleton_append]
    refine decode_fixnum ?_
    rw [hbyte, form_negative hk, hn]
  · exact decode_signed rfl (by decide) (by omega) (by omega)
  · exact decode_signed rfl (by decide) (by omega) (by omega)
  · exact decode_signed rfl (by decide) (by omega) (by omega)
  · exact decode_signed rfl (by decide) (by omega) (by omega)

theorem decode_int {n : Int} (hlo : -2 ^ 63 ≤ n) (hhi : n < 2 ^ 63) :
    mpDecodeToLuaType (fuel + 1) (mpEncodeInt n ++ c) = .ok (pushnumber n, c) := by
  rcases lt_or_ge n 0 with hneg | hpos
  · exact decode_negative hneg hlo
  · exact decode_nonneg hpos hhi

theorem decode_float {b : UInt8} {F : Binary} {k v : Nat} {d : LuaNumber} (hb : form b.toNat = .float F k)
    (hv : v < 256 ^ k) (hd : ofBits F v = d) :
    mpDecodeToLuaType (fuel + 1) (b :: bigEndian k v ++ c) = .ok (.number d, c) := by
  rw [List.cons_append, decode_cons, hb, body, take_bigEndian, ofBigEndian_of_lt hv, hd]
  rfl

theorem decode_double {d : LuaNumber} (hd : IsDouble d) (hwhole : isWhole d = false) :
    mpDecodeToLuaType (fuel + 1) (mpEncodeDouble d ++ c) = .ok (.number d, c) := by
  cases d with
  | infinite negative => cases hwhole
  | nan => exact decode_float rfl (by decide) (by decide)
  | finite x =>
    unfold mpEncodeDouble
    split
    · rename_i hsingle
      have hexact : Binary.single.Exact x := of_decide_eq_true hsingle
      exact decode_float rfl (Binary.bits_lt hexact) (ofBits_bits hexact)
    · exact decode_float rfl (Binary.bits_lt hd) (ofBits_bits hd)

theorem decode_number {n : LuaNumber} (h : IsDouble n) :
    mpDecodeToLuaType (fuel + 1) (mpEncodeLuaNumber n ++ c) = .ok (.number (carriedNumber n), c) := by
  unfold mpEncodeLuaNumber carriedNumber
  split
  · have hrange := toInteger_bounds n
    rw [decode_int hrange.1 hrange.2]
    rfl
  · rename_i hwhole
    exact decode_double h (Bool.eq_false_iff.mpr hwhole)

theorem decode_string {s : List UInt8} (h : s.length < 2 ^ 31) :
    mpDecodeToLuaType (fuel + 1) (mpEncodeBytes s ++ c) = .ok (.string s, c) := by
  have hbehind : ∀ head ≤ 9, stringBehind head s.length (s ++ c) = .ok (.string s, c) := by
    intro head hhead
    rw [stringBehind_of_lt (by omega)]
    exact Reader.take_append rfl _ c
  simp only [mpEncodeBytes]
  split_ifs with hfix htwo
  · rw [List.append_assoc, List.singleton_append, decode_cons, form_raw_byte hfix]
    exact hbehind 1 (by decide)
  · have hform : form (0xda : UInt8).toNat = .raw 2 := rfl
    rw [List.append_assoc, List.cons_append, decode_cons, hform, body, take_bigEndian, lengthOf_two (by omega)]
    exact hbehind 3 (by decide)
  · have hform : form (0xdb : UInt8).toNat = .raw 4 := rfl
    rw [List.append_assoc, List.cons_append, decode_cons, hform, body, take_bigEndian, lengthOf_four h]
    exact hbehind 5 (by decide)

theorem decode_array {n : Nat} (h : n < 2 ^ 31) : mpDecodeToLuaType (fuel + 1) (mpEncodeArray n ++ c) =
    mpDecodeToLuaArray (mpDecodeToLuaType fuel) n 1 [] c := by
  unfold mpEncodeArray
  split_ifs with hfix htwo
  · rw [List.singleton_append, decode_cons, form_array_byte (by omega)]
    rfl
  · have hform : form (0xdc : UInt8).toNat = .array 2 := rfl
    rw [List.cons_append, decode_cons, hform, body, take_bigEndian, lengthOf_two (by omega)]
  · have hform : form (0xdd : UInt8).toNat = .array 4 := rfl
    rw [List.cons_append, decode_cons, hform, body, take_bigEndian, lengthOf_four h]

theorem decode_map {n : Nat} (h : n < 2 ^ 31) : mpDecodeToLuaType (fuel + 1) (mpEncodeMap n ++ c) =
    mpDecodeToLuaHash (mpDecodeToLuaType fuel) n [] c := by
  unfold mpEncodeMap
  split_ifs with hfix htwo
  · rw [List.singleton_append, decode_cons, form_map_byte (by omega)]
    rfl
  · have hform : form (0xde : UInt8).toNat = .map 2 := rfl
    rw [List.cons_append, decode_cons, hform, body, take_bigEndian, lengthOf_two (by omega)]
  · have hform : form (0xdf : UInt8).toNat = .map 4 := rfl
    rw [List.cons_append, decode_cons, hform, body, take_bigEndian, lengthOf_four h]

end

-- ---------------------------------------------------------------------------
-- What is carried
-- ---------------------------------------------------------------------------

/-- A table from what its array carried. -/
def carryArray : List (Except Fault LuaValue) → Int → Entries → Except Fault LuaValue
  | [], _, entries => .ok (.table entries)
  | x :: xs, idx, entries => do
    let value ← x
    let entries ← settable entries (index idx) value
    carryArray xs (Int.bmod (idx + 1) (2 ^ 32)) entries

/-- A table from what its map carried. -/
def carryMap : List (Except Fault LuaValue × Except Fault LuaValue) → Entries → Except Fault LuaValue
  | [], entries => .ok (.table entries)
  | x :: xs, entries => do
    let key ← x.1
    let value ← x.2
    let entries ← settable entries key value
    carryMap xs entries

section

variable (L : Length)

/-- What `unpack` makes of a value, with the levels that are left. -/
def carry : Nat → LuaValue → Except Fault LuaValue
  | _, .string s => .ok (.string s)
  | _, .boolean b => .ok (.boolean b)
  | _, .number n => .ok (.number (carriedNumber n))
  | left + 1, .table entries =>
    if tableIsAnArray entries then
      carryArray ((List.range' 1 (L.rawlen entries)).map fun j : Nat => carry left (gettable entries (index j))) 1 []
    else carryMap (entries.map fun e => (carry left e.1, carry left e.2)) []
  | _, _ => .ok .nil

end

/-- What the machine can hold: numbers are doubles, strings and tables have
less than 2^31 bytes and entries. -/
inductive Held : LuaValue → Prop
  | nil : Held .nil
  | boolean {b} : Held (.boolean b)
  | number {x} : IsDouble x → Held (.number x)
  | string {s} : s.length < 2 ^ 31 → Held (.string s)
  | table {es : Entries} : es.length < 2 ^ 31 → (∀ e ∈ es, Held e.1) → (∀ e ∈ es, Held e.2) →
      Held (.table es)
  | other {v : LuaValue} : v.supported = false → Held v

theorem Held.gettable {es : Entries} (h : ∀ e ∈ es, Held e.2) (key : LuaValue) : Held (gettable es key) := by
  unfold LuaObject.gettable
  split
  · rename_i e he
    exact h e (List.mem_of_find?_eq_some he)
  · exact .nil

section

variable {L : Length} {decode : Reader UInt8 Fault LuaValue} {c : List UInt8} {α : Type}
  {enc : α → List UInt8} {out : α → Except Fault LuaValue}

theorem array_carried {xs : List α} (h : ∀ x ∈ xs, ∀ c, decode (enc x ++ c) = Reader.lift (out x) c)
    (idx : Int) (entries : Entries) :
    mpDecodeToLuaArray decode xs.length idx entries (xs.flatMap enc ++ c) =
      Reader.lift (carryArray (xs.map out) idx entries) c := by
  induction xs generalizing idx entries with
  | nil => rfl
  | cons x xs ih =>
    have hrest := fun y hy => h y (List.mem_cons_of_mem x hy)
    rw [List.length_cons, List.flatMap_cons, List.append_assoc, array_succ, Reader.andThen,
      h x List.mem_cons_self, List.map_cons, carryArray]
    cases out x with
    | error e => rfl
    | ok value =>
      simp only [Reader.lift, Reader.andThen, bind, Except.bind]
      cases settable entries (index idx) value with
      | error e => rfl
      | ok entries => exact ih hrest _ entries

theorem map_carried {es : List (α × α)}
    (h : ∀ e ∈ es, ∀ c, decode (enc e.1 ++ c) = Reader.lift (out e.1) c ∧
      decode (enc e.2 ++ c) = Reader.lift (out e.2) c) (entries : Entries) :
    mpDecodeToLuaHash decode es.length entries ((es.flatMap fun e => enc e.1 ++ enc e.2) ++ c) =
      Reader.lift (carryMap (es.map fun e => (out e.1, out e.2)) entries) c := by
  induction es generalizing entries with
  | nil => rfl
  | cons e es ih =>
    have hrest := fun y hy => h y (List.mem_cons_of_mem e hy)
    have hfirst := h e List.mem_cons_self
    rw [List.length_cons, List.flatMap_cons, List.append_assoc, List.append_assoc, hash_succ, Reader.andThen,
      (hfirst _).1, List.map_cons, carryMap]
    cases out e.1 with
    | error e => rfl
    | ok key =>
      simp only [Reader.lift, Reader.andThen, bind, Except.bind, (hfirst _).2]
      cases out e.2 with
      | error e => rfl
      | ok value =>
        simp only
        cases settable entries key value with
        | error e => rfl
        | ok entries => exact ih hrest entries

theorem decode_nil {fuel : Nat} (c : List UInt8) : mpDecodeToLuaType (fuel + 1) (0xc0 :: c) = .ok (.nil, c) := by
  have hform : form (0xc0 : UInt8).toNat = .nil := rfl
  rw [decode_cons, hform]
  rfl

theorem decode_leaf {left fuel : Nat} {v : LuaValue} (hv : Held v) (hleaf : ∀ es, v ≠ .table es)
    (c : List UInt8) :
    mpDecodeToLuaType (fuel + 1) (mpEncodeLuaType L left v ++ c) = Reader.lift (carry L left v) c := by
  cases hv with
  | nil => cases left <;> exact decode_nil c
  | boolean =>
    rename_i b
    cases left <;> cases b <;> rfl
  | number hx => cases left <;> exact decode_number hx
  | string hs => cases left <;> exact decode_string hs
  | table => exact absurd rfl (hleaf _)
  | other hother =>
    cases left <;> cases v <;> first | exact decode_nil c | cases hother

theorem decode_encode {left fuel : Nat} {v : LuaValue} (hfuel : left < fuel) (hv : Held v) (c : List UInt8) :
    mpDecodeToLuaType fuel (mpEncodeLuaType L left v ++ c) = Reader.lift (carry L left v) c := by
  induction left generalizing fuel v c with
  | zero =>
    obtain ⟨fuel, rfl⟩ := Nat.exists_eq_succ_of_ne_zero (Nat.ne_of_gt hfuel)
    by_cases hleaf : ∀ es, v ≠ .table es
    · exact decode_leaf hv hleaf c
    · push Not at hleaf
      obtain ⟨es, rfl⟩ := hleaf
      exact decode_nil c
  | succ left ih =>
    obtain ⟨fuel, rfl⟩ := Nat.exists_eq_succ_of_ne_zero (Nat.ne_of_gt (Nat.lt_of_le_of_lt (Nat.zero_le _) hfuel))
    have hless : left < fuel := Nat.lt_of_succ_lt_succ hfuel
    by_cases hleaf : ∀ es, v ≠ .table es
    · exact decode_leaf hv hleaf c
    · push Not at hleaf
      obtain ⟨es, rfl⟩ := hleaf
      cases hv with
      | other hother => cases hother
      | table hlen hkeys hvalues =>
        rw [mpEncodeLuaType, carry]
        split
        · rw [List.append_assoc, decode_array (L.lt es hlen)]
          have hitems := @array_carried _ c _ (fun j : Nat => mpEncodeLuaType L left (gettable es (index j)))
            (fun j => carry L left (gettable es (index j))) (List.range' 1 (L.rawlen es))
            (fun j _ c => ih hless (Held.gettable hvalues _) c) 1 []
          rwa [List.length_range'] at hitems
        · rw [List.append_assoc, decode_map hlen]
          exact map_carried (fun e he c => ⟨ih hless (hkeys e he) c, ih hless (hvalues e he) c⟩) []

theorem settable_fault {es : Entries} {key value : LuaValue} {f : Fault} (h : settable es key value = .error f) :
    ∃ msg, f = .luaError msg := by
  unfold settable at h
  split at h <;> cases h <;> exact ⟨_, rfl⟩

theorem carryArray_fault {xs : List (Except Fault LuaValue)} {idx : Int} {es : Entries} {f : Fault}
    (hxs : ∀ x ∈ xs, ∀ f, x = .error f → ∃ msg, f = .luaError msg) (h : carryArray xs idx es = .error f) :
    ∃ msg, f = .luaError msg := by
  induction xs generalizing idx es with
  | nil => cases h
  | cons x xs ih =>
    cases x with
    | error f' =>
      cases h
      exact hxs _ List.mem_cons_self f rfl
    | ok value =>
      simp only [carryArray, bind, Except.bind] at h
      cases hset : settable es (index idx) value with
      | error f' =>
        rw [hset] at h
        cases h
        exact settable_fault hset
      | ok es' =>
        rw [hset] at h
        exact ih (fun y hy => hxs y (List.mem_cons_of_mem _ hy)) h

theorem carryMap_fault {xs : List (Except Fault LuaValue × Except Fault LuaValue)} {es : Entries} {f : Fault}
    (hxs : ∀ x ∈ xs, ∀ f, x.1 = .error f ∨ x.2 = .error f → ∃ msg, f = .luaError msg)
    (h : carryMap xs es = .error f) : ∃ msg, f = .luaError msg := by
  induction xs generalizing es with
  | nil => cases h
  | cons x xs ih =>
    obtain ⟨k, v⟩ := x
    have hfirst := hxs _ List.mem_cons_self
    cases k with
    | error f' =>
      cases h
      exact hfirst f (.inl rfl)
    | ok key =>
      cases v with
      | error f' =>
        cases h
        exact hfirst f (.inr rfl)
      | ok value =>
        simp only [carryMap, bind, Except.bind] at h
        cases hset : settable es key value with
        | error f' =>
          rw [hset] at h
          cases h
          exact settable_fault hset
        | ok es' =>
          rw [hset] at h
          exact ih (fun y hy => hxs y (List.mem_cons_of_mem _ hy)) h

/-- The only errors are those of Lua about the key of an entry. -/
theorem carry_fault {left : Nat} {v : LuaValue} {f : Fault} (h : carry L left v = .error f) :
    ∃ msg, f = .luaError msg := by
  induction left generalizing v f with
  | zero => cases v <;> cases h
  | succ left ih =>
    cases v with
    | table es =>
      rw [carry] at h
      split at h
      · refine carryArray_fault (fun x hx f hf => ?_) h
        obtain ⟨j, -, rfl⟩ := List.mem_map.mp hx
        exact ih hf
      · refine carryMap_fault (fun x hx f hf => ?_) h
        obtain ⟨e, -, rfl⟩ := List.mem_map.mp hx
        rcases hf with hf | hf <;> exact ih hf
    | _ => cases h

/-- `unpack` of what `pack` wrote. -/
theorem unpack_pack {v : LuaValue} (hv : Held v) (hlen : (mpPack L v).length < 2 ^ 63) :
    mpUnpack (.string (mpPack L v)) = carry L MAX_NESTING v := by
  have hfuel := decode_length (Nat.le_add_right _ (MAX_NESTING + 1)) hlen
  have henc : mpDecodeToLuaType ((mpPack L v).length + (MAX_NESTING + 1)) (mpPack L v) =
      Reader.lift (carry L MAX_NESTING v) [] := by
    have h := @decode_encode L MAX_NESTING ((mpPack L v).length + (MAX_NESTING + 1)) v (by omega) hv []
    rwa [List.append_nil] at h
  rw [mpUnpack, ← hfuel, henc]
  cases hcarry : carry L MAX_NESTING v with
  | ok w => rfl
  | error f =>
    obtain ⟨msg, rfl⟩ := carry_fault hcarry
    rfl

end

-- ---------------------------------------------------------------------------
-- What comes back as it was
-- ---------------------------------------------------------------------------

/-- The keys that another table can have as well. -/
def plain : LuaValue → Bool
  | .boolean _ | .number _ | .string _ => true
  | _ => false

/-- Values that read the same: in whatever order the entries of tables are. -/
inductive Same : LuaValue → LuaValue → Prop
  | leaf {v} : (∀ es, v ≠ .table es) → Same v v
  | table {es es' p : Entries} : p.Perm es' → (∀ e ∈ es, plain e.1) → es.map Prod.fst = p.map Prod.fst →
      List.Forall₂ Same (es.map Prod.snd) (p.map Prod.snd) → Same (.table es) (.table es')

/-- Nothing of the value is lost, with the levels that are left. -/
def Carried (L : Length) : Nat → LuaValue → Prop
  | _, .nil | _, .boolean _ | _, .string _ => True
  | _, .number n => Stays n
  | left + 1, .table es =>
    (∀ e ∈ es, plain e.1 ∧ Carried L left e.1 ∧ Carried L left e.2) ∧
      (tableIsAnArray es → ∀ e ∈ es, ∃ j : Nat, j ≤ L.rawlen es ∧ e.1 = index j)
  | _, _ => False

-- ---------------------------------------------------------------------------
-- Entries
-- ---------------------------------------------------------------------------

section

variable {es : Entries} {key value : LuaValue}

theorem settable_length_le {es' : Entries} (h : settable es key value = .ok es') :
    es'.length ≤ es.length + 1 ∧ (es'.length = es.length + 1 → es' = es ++ [(key, value)]) := by
  unfold settable at h
  split at h
  · cases h
  · cases h
  · cases h
    have hle := List.length_filter_le (fun e : LuaValue × LuaValue => !e.1.sameKey key) es
    exact ⟨by omega, by omega⟩
  · cases h
    exact ⟨GLR.setEntry_length_le .., GLR.setEntry_eq_append⟩

theorem settable_fresh (hnil : key ≠ .nil) (hnan : key ≠ .number .nan) (hvalue : value ≠ .nil)
    (h : ∀ e ∈ es, e.1.sameKey key = false) : settable es key value = .ok (es ++ [(key, value)]) := by
  unfold settable
  split
  · exact absurd rfl hnil
  · exact absurd rfl hnan
  · exact absurd rfl hvalue
  · rw [GLR.setEntry_fresh h]

theorem settable_nil (hnil : key ≠ .nil) (hnan : key ≠ .number .nan)
    (h : ∀ e ∈ es, e.1.sameKey key = false) : settable es key .nil = .ok es := by
  unfold settable
  split
  · exact absurd rfl hnil
  · exact absurd rfl hnan
  · refine congrArg Except.ok (List.filter_eq_self.mpr fun e he => ?_)
    rw [h e he]
    rfl
  · rename_i hvalue
    exact absurd rfl hvalue

theorem sameKey_plain {k k' : LuaValue} (h : plain k = true) : k.sameKey k' = true ↔ k = k' := by
  cases k <;> first | (cases h; done) | (cases k' <;> simp [LuaValue.sameKey])

theorem nodup_keys (hes : es.Pairwise fun e e' => e.1.sameKey e'.1 = false) (hplain : ∀ e ∈ es, plain e.1) :
    (es.map Prod.fst).Nodup := by
  refine List.pairwise_map.mpr (hes.imp_of_mem fun he _ hne heq => ?_)
  rw [(sameKey_plain (hplain _ he)).mpr heq] at hne
  cases hne

theorem gettable_of_mem (hes : es.Pairwise fun e e' => e.1.sameKey e'.1 = false)
    {e : LuaValue × LuaValue} (he : e ∈ es) (hplain : plain e.1) : gettable es e.1 = e.2 := by
  induction es with
  | nil => cases he
  | cons d es ih =>
    obtain ⟨hd, hes⟩ := List.pairwise_cons.mp hes
    unfold gettable
    rw [List.find?_cons]
    rcases List.mem_cons.mp he with rfl | he
    · rw [(sameKey_plain hplain).mpr rfl]
    · rw [hd e he]
      exact ih hes he

theorem mem_of_gettable (h : gettable es key ≠ .nil) : ∃ e ∈ es, e.1.sameKey key = true ∧ e.2 = gettable es key := by
  unfold gettable at h ⊢
  split
  · rename_i e he
    exact ⟨e, List.mem_of_find?_eq_some he, by simpa using List.find?_some he, rfl⟩
  · rename_i hnone
    rw [hnone] at h
    exact absurd rfl h

theorem eq_of_perm_of_keys {p : Entries} (hperm : p.Perm es) (hkeys : p.map Prod.fst = es.map Prod.fst)
    (hnodup : (es.map Prod.fst).Nodup) : p = es := by
  refine List.ext_getElem? fun i => ?_
  have hkey : p[i]?.map Prod.fst = es[i]?.map Prod.fst := by
    rw [← List.getElem?_map, ← List.getElem?_map, hkeys]
  cases hp : p[i]? with
  | none =>
    rw [hp] at hkey
    exact (Option.map_eq_none_iff.mp hkey.symm).symm
  | some d =>
    rw [hp] at hkey
    obtain ⟨e, he, hde⟩ := Option.map_eq_some_iff.mp hkey.symm
    have hd := hperm.subset (List.mem_of_getElem? hp)
    rw [he, List.inj_on_of_nodup_map hnodup (List.mem_of_getElem? he) hd hde]

end

-- ---------------------------------------------------------------------------
-- What the two loops carry
-- ---------------------------------------------------------------------------

theorem carryMap_ok {xs : List (Except Fault LuaValue × Except Fault LuaValue)} {acc : Entries} {w : LuaValue}
    (h : carryMap xs acc = .ok w) : ∃ ps es : Entries, xs = ps.map (fun e => (.ok e.1, .ok e.2)) ∧
      w = .table es ∧ es.length ≤ acc.length + ps.length ∧
        (es.length = acc.length + ps.length → es = acc ++ ps) := by
  induction xs generalizing acc with
  | nil =>
    cases h
    exact ⟨[], acc, rfl, rfl, le_rfl, fun _ => (List.append_nil acc).symm⟩
  | cons x xs ih =>
    obtain ⟨k, v⟩ := x
    cases k with
    | error f => cases h
    | ok key =>
      cases v with
      | error f => cases h
      | ok value =>
        simp only [carryMap, bind, Except.bind] at h
        cases hset : settable acc key value with
        | error f =>
          rw [hset] at h
          cases h
        | ok acc' =>
          rw [hset] at h
          obtain ⟨ps, es, rfl, rfl, hle, hfull⟩ := ih h
          obtain ⟨hstep, happend⟩ := settable_length_le hset
          refine ⟨(key, value) :: ps, es, rfl, rfl, ?_, fun hlen => ?_⟩
          · rw [List.length_cons]
            omega
          · rw [List.length_cons] at hlen
            rw [hfull (by omega), happend (by omega), List.append_assoc, List.singleton_append]

theorem carryMap_fresh {ps acc : Entries} (h : (acc ++ ps).Pairwise fun e e' => e.1.sameKey e'.1 = false)
    (hps : ∀ e ∈ ps, e.1 ≠ .nil ∧ e.1 ≠ .number .nan ∧ e.2 ≠ .nil) :
    carryMap (ps.map fun e => (.ok e.1, .ok e.2)) acc = .ok (.table (acc ++ ps)) := by
  induction ps generalizing acc with
  | nil => rw [List.append_nil]; rfl
  | cons e ps ih =>
    obtain ⟨hnil, hnan, hvalue⟩ := hps e List.mem_cons_self
    have hfresh : settable acc e.1 e.2 = .ok (acc ++ [e]) :=
      settable_fresh hnil hnan hvalue fun e' he' =>
        (List.pairwise_append.mp h).2.2 e' he' e List.mem_cons_self
    have hrest := @ih (acc ++ [e]) (by simpa using h) fun e' he' => hps e' (List.mem_cons_of_mem e he')
    simp only [List.map_cons, carryMap, bind, Except.bind, hfresh]
    rw [hrest, List.append_assoc, List.singleton_append]

/-- The entry that an item of an array makes. -/
def item (j : Nat) : LuaValue → Option (LuaValue × LuaValue)
  | .nil => none
  | w => some (index j, w)

theorem item_eq_some {j : Nat} {w : LuaValue} {e : LuaValue × LuaValue} :
    item j w = some e ↔ w ≠ .nil ∧ e = (index j, w) := by
  cases w <;> simp [item, eq_comm]

theorem carryArray_ok {xs : List (Except Fault LuaValue)} {idx : Int} {acc : Entries} {w : LuaValue}
    (h : carryArray xs idx acc = .ok w) : (∀ x ∈ xs, ∃ v, x = .ok v) ∧ ∃ es, w = .table es := by
  induction xs generalizing idx acc with
  | nil =>
    cases h
    refine ⟨fun x hx => ?_, acc, rfl⟩
    cases hx
  | cons x xs ih =>
    cases x with
    | error f => cases h
    | ok value =>
      simp only [carryArray, bind, Except.bind] at h
      cases hset : settable acc (index idx) value with
      | error f =>
        rw [hset] at h
        cases h
      | ok acc' =>
        rw [hset] at h
        obtain ⟨hxs, hw⟩ := ih h
        refine ⟨fun y hy => ?_, hw⟩
        rcases List.mem_cons.mp hy with rfl | hy
        · exact ⟨value, rfl⟩
        · exact hxs y hy

theorem sameKey_index {i j : Int} : (index i).sameKey (index j) = decide (i = j) := by
  rw [Bool.eq_iff_iff]
  simp [index, LuaValue.sameKey]

theorem carryArray_items {g : Nat → LuaValue} {s n : Nat} {idx : Int} {acc : Entries} (hn : s + n ≤ 2 ^ 31)
    (hidx : n = 0 ∨ idx = s) (hacc : ∀ e ∈ acc, ∃ i : Nat, i < s ∧ e.1 = index i) :
    carryArray ((List.range' s n).map fun j => .ok (g j)) idx acc =
      .ok (.table (acc ++ (List.range' s n).filterMap fun j => item j (g j))) := by
  induction n generalizing s idx acc with
  | zero => simp [carryArray]
  | succ n ih =>
    have hs : idx = s := hidx.resolve_left (Nat.succ_ne_zero n)
    subst hs
    have hfresh : ∀ e ∈ acc, e.1.sameKey (index s) = false := by
      intro e he
      obtain ⟨i, hi, hkey⟩ := hacc e he
      rw [hkey, sameKey_index, decide_eq_false_iff_not]
      omega
    have hnext : n = 0 ∨ Int.bmod (s + 1) (2 ^ 32) = ((s + 1 : Nat) : Int) := by
      rcases Nat.eq_zero_or_pos n with h0 | hpos
      · exact .inl h0
      · refine .inr ?_
        rw [Int.bmod_eq_of_le_mul_two (by omega) (by omega)]
        push_cast
        rfl
    have hset : settable acc (index s) (g s) = .ok (acc ++ (item s (g s)).toList) := by
      by_cases hg : g s = .nil
      · rw [hg, settable_nil (by simp [index]) (by simp [index]) hfresh]
        simp [item]
      · rw [settable_fresh (by simp [index]) (by simp [index]) hg hfresh, item_eq_some.mpr ⟨hg, rfl⟩]
        rfl
    have hgrown : ∀ e ∈ acc ++ (item s (g s)).toList, ∃ i : Nat, i < s + 1 ∧ e.1 = index i := by
      intro e he
      rcases List.mem_append.mp he with he | he
      · obtain ⟨i, hi, hkey⟩ := hacc e he
        exact ⟨i, Nat.lt_succ_of_lt hi, hkey⟩
      · obtain ⟨-, rfl⟩ := item_eq_some.mp (Option.mem_toList.mp he)
        exact ⟨s, Nat.lt_succ_self s, rfl⟩
    rw [List.range'_succ, List.map_cons, carryArray]
    simp only [bind, Except.bind, hset]
    rw [ih (by omega) hnext hgrown, List.filterMap_cons, List.append_assoc]
    cases item s (g s) <;> rfl

theorem scanKeys_index {es : Entries} {count idx : Int} (h : scanKeys es count idx = true) :
    ∀ e ∈ es, ∃ z : Int, 1 ≤ z ∧ e.1 = index z := by
  induction es generalizing count idx with
  | nil => exact fun e he => by cases he
  | cons d es ih =>
    obtain ⟨key, value⟩ := d
    cases key with
    | number n =>
      simp only [scanKeys] at h
      split at h
      · cases h
      · rename_i hok
        push Not at hok
        intro e he
        rcases List.mem_cons.mp he with rfl | he
        · exact ⟨n.toInteger, hok.2, congrArg LuaValue.number hok.1.symm⟩
        · exact ih h e he
    | _ => cases h

-- ---------------------------------------------------------------------------
-- Tables that come back as they were
-- ---------------------------------------------------------------------------

theorem Same.nil_iff {w v : LuaValue} (h : Same w v) : w = .nil ↔ v = .nil := by
  cases h with
  | leaf => exact Iff.rfl
  | table => exact iff_of_false LuaValue.noConfusion LuaValue.noConfusion

/-- Two lists of entries with the same keys, place by place. -/
theorem pairs_of_keys {es p : Entries} (hkeys : es.map Prod.fst = p.map Prod.fst)
    (hvalues : List.Forall₂ Same (es.map Prod.snd) (p.map Prod.snd)) :
    ∀ e ∈ p, ∃ d ∈ es, d.1 = e.1 ∧ Same d.2 e.2 := by
  induction p generalizing es with
  | nil => exact fun e he => by cases he
  | cons e p ih =>
    cases es with
    | nil => cases hkeys
    | cons d es =>
      obtain ⟨hkey, hkeys⟩ := List.cons.inj hkeys
      obtain ⟨hvalue, hvalues⟩ := List.forall₂_cons.mp hvalues
      intro e' he'
      rcases List.mem_cons.mp he' with rfl | he'
      · exact ⟨d, List.mem_cons_self, hkey, hvalue⟩
      · obtain ⟨d', hd', hsame⟩ := ih hkeys hvalues e' he'
        exact ⟨d', List.mem_cons_of_mem d hd', hsame⟩

theorem mem_items {g : Nat → LuaValue} {n : Nat} {e : LuaValue × LuaValue} :
    (e ∈ (List.range' 1 n).filterMap fun j => item j (g j)) ↔
      ∃ j, 1 ≤ j ∧ j ≤ n ∧ g j ≠ .nil ∧ e = (index j, g j) := by
  simp only [List.mem_filterMap, List.mem_range'_1, item_eq_some]
  constructor
  · rintro ⟨j, ⟨h1, hn⟩, hg, rfl⟩
    exact ⟨j, h1, by omega, hg, rfl⟩
  · rintro ⟨j, h1, hn, hg, rfl⟩
    exact ⟨j, ⟨h1, by omega⟩, hg, rfl⟩

theorem nodup_items {g : Nat → LuaValue} {n : Nat} :
    ((List.range' 1 n).filterMap fun j => item j (g j)).Nodup := by
  refine List.Nodup.filterMap (fun i j e hi hj => ?_) List.nodup_range'
  obtain ⟨-, rfl⟩ := item_eq_some.mp hi
  obtain ⟨-, heq⟩ := item_eq_some.mp hj
  have hkey : ((i : Int) : ℚ) = (j : Int) := LuaNumber.finite.inj (LuaValue.number.inj (Prod.mk.inj heq).1)
  exact_mod_cast hkey

/-- Items that read the same make entries that do. -/
theorem items_same {g g' : Nat → LuaValue} (h : ∀ j, Same (g j) (g' j)) (xs : List Nat) :
    (xs.filterMap fun j => item j (g j)).map Prod.fst = (xs.filterMap fun j => item j (g' j)).map Prod.fst ∧
      List.Forall₂ Same ((xs.filterMap fun j => item j (g j)).map Prod.snd)
        ((xs.filterMap fun j => item j (g' j)).map Prod.snd) := by
  induction xs with
  | nil => exact ⟨rfl, .nil⟩
  | cons j xs ih =>
    obtain ⟨hkeys, hvalues⟩ := ih
    by_cases hg : g j = .nil
    · have hg' := (h j).nil_iff.mp hg
      rw [List.filterMap_cons, List.filterMap_cons, hg, hg']
      exact ⟨hkeys, hvalues⟩
    · have hg' := fun h' => hg ((h j).nil_iff.mpr h')
      rw [List.filterMap_cons, List.filterMap_cons, item_eq_some.mpr ⟨hg, rfl⟩, item_eq_some.mpr ⟨hg', rfl⟩]
      exact ⟨congrArg (index j :: ·) hkeys, .cons (h j) hvalues⟩

section

variable {out : LuaValue → Except Fault LuaValue} {es : Entries} {w : LuaValue} {n : Nat}
  (hes : es.Pairwise fun e e' => e.1.sameKey e'.1 = false)
include hes

theorem map_same (hentries : ∀ e ∈ es, e.1 ≠ .nil ∧ e.1 ≠ .number .nan ∧ e.2 ≠ .nil)
    (hkeys : ∀ e ∈ es, plain e.1 ∧ out e.1 = .ok e.1) (hvalues : ∀ e ∈ es, ∃ w, out e.2 = .ok w ∧ Same w e.2) :
    ∃ w, carryMap (es.map fun e => (out e.1, out e.2)) [] = .ok w ∧ Same w (.table es) := by
  have : Nonempty LuaValue := ⟨.nil⟩
  choose! f hf hsame using hvalues
  have hpairs : (es.map fun e => (out e.1, out e.2)) =
      (es.map fun e => (e.1, f e)).map fun e => (.ok e.1, .ok e.2) := by
    rw [List.map_map]
    exact List.map_congr_left fun e he => Prod.ext (hkeys e he).2 (hf e he)
  have hfresh : ([] ++ es.map fun e => (e.1, f e) : Entries).Pairwise
      fun e e' => e.1.sameKey e'.1 = false := by
    rw [List.nil_append]
    exact List.pairwise_map.mpr hes
  have hproper : ∀ e ∈ es.map (fun e => (e.1, f e)), e.1 ≠ .nil ∧ e.1 ≠ .number .nan ∧ e.2 ≠ .nil := by
    intro e he
    obtain ⟨d, hd, rfl⟩ := List.mem_map.mp he
    obtain ⟨hnil, hnan, hvalue⟩ := hentries d hd
    exact ⟨hnil, hnan, fun h => hvalue ((hsame d hd).nil_iff.mp h)⟩
  rw [hpairs]
  refine ⟨_, carryMap_fresh hfresh hproper, .table (List.Perm.refl es) ?_ ?_ ?_⟩
  · intro e he
    obtain ⟨d, hd, rfl⟩ := List.mem_map.mp he
    exact (hkeys d hd).1
  · rw [List.nil_append, List.map_map]
    rfl
  · rw [List.nil_append, List.map_map, List.forall₂_map_left_iff, List.forall₂_map_right_iff, List.forall₂_same]
    exact hsame

theorem map_of_same (h : carryMap (es.map fun e => (out e.1, out e.2)) [] = .ok w) (hs : Same w (.table es))
    (hout : ∀ e ∈ es, ∀ e' ∈ es, out e'.1 = .ok e.1 → plain e.1 → out e.1 = .ok e.1) :
    ∀ e ∈ es, plain e.1 ∧ out e.1 = .ok e.1 ∧ ∃ w, out e.2 = .ok w ∧ Same w e.2 := by
  obtain ⟨ps, res, hxs, rfl, -, hfull⟩ := carryMap_ok h
  cases hs with
  | leaf hleaf => exact absurd rfl (hleaf _)
  | @table _ _ p hperm hplain hkeys hvalues =>
    have hlen : es.length = ps.length := by simpa using congrArg List.length hxs
    have hlen' : res.length = p.length := by simpa using congrArg List.length hkeys
    have hres : res = ps := by
      have := hfull (by rw [hlen', hperm.length_eq, hlen, List.length_nil, Nat.zero_add])
      rwa [List.nil_append] at this
    subst hres
    have hpair : ∀ q ∈ res, ∃ e ∈ es, out e.1 = .ok q.1 ∧ out e.2 = .ok q.2 := by
      intro q hq
      have hmem : ((.ok q.1, .ok q.2) : Except Fault LuaValue × Except Fault LuaValue) ∈
          es.map fun e => (out e.1, out e.2) := hxs ▸ List.mem_map.mpr ⟨q, hq, rfl⟩
      obtain ⟨e, he, heq⟩ := List.mem_map.mp hmem
      exact ⟨e, he, Prod.mk.inj heq⟩
    -- every key is one of the result, and what came out as such a key is carried
    have hkey : ∀ e ∈ es, plain e.1 ∧ out e.1 = .ok e.1 := by
      intro e he
      have hmem : e.1 ∈ res.map Prod.fst := hkeys ▸ List.mem_map.mpr ⟨e, hperm.mem_iff.mpr he, rfl⟩
      obtain ⟨q, hq, hqe⟩ := List.mem_map.mp hmem
      obtain ⟨e', he', hkey, -⟩ := hpair q hq
      rw [hqe] at hkey
      have hp : plain e.1 = true := hqe ▸ hplain q hq
      exact ⟨hp, hout e he e' he' hkey hp⟩
    have hnodup := nodup_keys hes fun e he => (hkey e he).1
    have hsame : res.map Prod.fst = es.map Prod.fst := by
      have hfst : es.map (fun e => out e.1) = res.map fun e => .ok e.1 := by
        have h := congrArg (List.map Prod.fst) hxs
        rw [List.map_map, List.map_map] at h
        exact h
      rw [List.map_congr_left fun e he => (hkey e he).2] at hfst
      have hok := @List.map_injective_iff _ _ (Except.ok : LuaValue → Except Fault LuaValue)
      refine (hok.mpr (fun a b h => Except.ok.inj h) ?_).symm
      rw [List.map_map, List.map_map]
      exact hfst
    have hp : p = es := eq_of_perm_of_keys hperm (hkeys.symm.trans hsame) hnodup
    subst hp
    intro e he
    obtain ⟨d, hd, hde, hvalue⟩ := pairs_of_keys hkeys hvalues e he
    obtain ⟨e', he', hkey', hout'⟩ := hpair d hd
    have hee : e'.1 = e.1 := by
      have := (hkey e' he').2.symm.trans hkey'
      rw [Except.ok.inj this, hde]
    rw [List.inj_on_of_nodup_map hnodup he' he hee] at hout'
    exact ⟨(hkey e he).1, (hkey e he).2, d.2, hout', hvalue⟩

theorem array_same (hn : n < 2 ^ 31) (hnil : out .nil = .ok .nil) (hentries : ∀ e ∈ es, e.2 ≠ .nil)
    (hkeys : ∀ e ∈ es, ∃ j : Nat, 1 ≤ j ∧ j ≤ n ∧ e.1 = index j)
    (hvalues : ∀ e ∈ es, ∃ w, out e.2 = .ok w ∧ Same w e.2) :
    ∃ w, carryArray ((List.range' 1 n).map fun j : Nat => out (gettable es (index j))) 1 [] = .ok w ∧
      Same w (.table es) := by
  have hitem : ∀ j : Nat, ∃ w, out (gettable es (index j)) = .ok w ∧ Same w (gettable es (index j)) := by
    intro j
    by_cases hj : gettable es (index j) = .nil
    · rw [hj]
      exact ⟨.nil, hnil, .leaf fun es h => by cases h⟩
    · obtain ⟨e, he, -, heq⟩ := mem_of_gettable hj
      rw [← heq]
      exact hvalues e he
  choose g hg hsame using hitem
  have hcarry := @carryArray_items g 1 n 1 [] (by omega) (.inr rfl) (fun e he => by cases he)
  refine ⟨_, (by simpa only [hg] using hcarry), ?_⟩
  have hplain : ∀ e ∈ es, plain e.1 := by
    intro e he
    obtain ⟨j, -, -, hkey⟩ := hkeys e he
    rw [hkey]
    rfl
  have hperm : ((List.range' 1 n).filterMap fun j : Nat => item j (gettable es (index j))).Perm es := by
    refine (List.perm_ext_iff_of_nodup nodup_items (nodup_keys hes hplain).of_map).mpr fun e => ?_
    rw [mem_items]
    constructor
    · rintro ⟨j, -, -, hj, rfl⟩
      obtain ⟨e, he, hkey, hvalue⟩ := mem_of_gettable hj
      rw [sameKey_plain (hplain e he)] at hkey
      rwa [← hvalue, ← hkey]
    · intro he
      obtain ⟨j, h1, hjn, hkey⟩ := hkeys e he
      have hget := gettable_of_mem hes he (hplain e he)
      rw [hkey] at hget
      exact ⟨j, h1, hjn, hget ▸ hentries e he, Prod.ext hkey hget.symm⟩
  obtain ⟨hfst, hsnd⟩ := items_same hsame (List.range' 1 n)
  refine .table hperm (fun e he => ?_) hfst hsnd
  obtain ⟨j, -, -, -, rfl⟩ := mem_items.mp he
  rfl

theorem array_of_same (hn : n < 2 ^ 31)
    (h : carryArray ((List.range' 1 n).map fun j : Nat => out (gettable es (index j))) 1 [] = .ok w)
    (hs : Same w (.table es)) :
    ∀ e ∈ es, (∃ j : Nat, j ≤ n ∧ e.1 = index j) ∧ ∃ w, out e.2 = .ok w ∧ Same w e.2 := by
  have hitem : ∀ j ∈ List.range' 1 n, ∃ w, out (gettable es (index j)) = .ok w := fun j hj =>
    (carryArray_ok h).1 _ (List.mem_map.mpr ⟨j, hj, rfl⟩)
  have : Nonempty LuaValue := ⟨.nil⟩
  choose! g hg using hitem
  have hcarry := @carryArray_items g 1 n 1 [] (by omega) (.inr rfl) (fun e he => by cases he)
  rw [List.map_congr_left fun j hj => hg j hj, hcarry] at h
  cases h
  cases hs with
  | leaf hleaf => exact absurd rfl (hleaf _)
  | @table _ _ p hperm hplain hkeys hvalues =>
    intro e he
    obtain ⟨d, hd, hde, hsame⟩ := pairs_of_keys hkeys hvalues e (hperm.mem_iff.mpr he)
    rw [List.nil_append] at hd
    obtain ⟨j, hj1, hjn, -, rfl⟩ := mem_items.mp hd
    have hget : gettable es (index j) = e.2 := by
      have hke : plain e.1 = true := by
        rw [← hde]
        rfl
      have h := gettable_of_mem hes he hke
      rwa [← hde] at h
    have hj : j ∈ List.range' 1 n := List.mem_range'_1.mpr ⟨hj1, by omega⟩
    exact ⟨⟨j, hjn, hde.symm⟩, g j, hget ▸ hg j hj, hsame⟩

end

-- ---------------------------------------------------------------------------
-- Round trips
-- ---------------------------------------------------------------------------

section

variable {L : Length} {left : Nat} {v w : LuaValue}

theorem carry_leaf_iff (hv : Held v) (hleaf : ∀ es, v ≠ .table es) :
    carry L left v = .ok v ↔ Carried L left v := by
  cases hv with
  | nil => cases left <;> exact iff_of_true rfl trivial
  | boolean => cases left <;> exact iff_of_true rfl trivial
  | string => cases left <;> exact iff_of_true rfl trivial
  | number hx => cases left <;> simp [carry, Carried, carriedNumber_eq_iff hx]
  | table => exact absurd rfl (hleaf _)
  | other hother => cases v <;> first | cases hother; done | cases left <;> simp [carry, Carried]

theorem plain_leaf {k : LuaValue} (h : plain k = true) (es : Entries) : k ≠ .table es := by
  rintro rfl
  cases h

theorem carry_table {es : Entries} (h : carry L left (.table es) = .ok w) : plain w = false := by
  cases left with
  | zero =>
    cases h
    rfl
  | succ left =>
    rw [carry] at h
    split at h
    · obtain ⟨-, es, rfl⟩ := carryArray_ok h
      rfl
    · obtain ⟨ps, res, -, rfl, -⟩ := carryMap_ok h
      rfl

theorem carry_carried {k k' : LuaValue} (hk : Held k) (hk' : Held k') (h : carry L left k = .ok k')
    (hplain : plain k') : carry L left k' = .ok k' := by
  rw [carry_leaf_iff hk' (plain_leaf hplain)]
  cases hk with
  | nil => cases left <;> cases h <;> cases hplain
  | boolean => cases left <;> cases h <;> trivial
  | string => cases left <;> cases h <;> trivial
  | number hx => cases left <;> cases h <;> exact stays_carriedNumber hx
  | table =>
    rw [carry_table h] at hplain
    cases hplain
  | other hother => cases k <;> first | cases hother; done | cases left <;> cases h <;> cases hplain

theorem index_inj {i j : Int} (h : index i = index j) : i = j := by
  have hq : (i : ℚ) = j := LuaNumber.finite.inj (LuaValue.number.inj h)
  exact_mod_cast hq

theorem same_of_carried (hw : v.WellFormed) (hv : Held v) (h : Carried L left v) :
    ∃ w, carry L left v = .ok w ∧ Same w v := by
  induction left generalizing v with
  | zero =>
    by_cases hleaf : ∀ es, v ≠ .table es
    · exact ⟨v, (carry_leaf_iff hv hleaf).mpr h, .leaf hleaf⟩
    · push Not at hleaf
      obtain ⟨es, rfl⟩ := hleaf
      exact h.elim
  | succ left ih =>
    by_cases hleaf : ∀ es, v ≠ .table es
    · exact ⟨v, (carry_leaf_iff hv hleaf).mpr h, .leaf hleaf⟩
    · push Not at hleaf
      obtain ⟨es, rfl⟩ := hleaf
      cases hw with
      | other hother => cases hother
      | table hdistinct hentries hwkeys hwvalues =>
        cases hv with
        | other hother => cases hother
        | table hlen hkeys hvalues =>
          obtain ⟨hall, harray⟩ := h
          have hvals : ∀ e ∈ es, ∃ w, carry L left e.2 = .ok w ∧ Same w e.2 := fun e he =>
            ih (hwvalues e he) (hvalues e he) (hall e he).2.2
          rw [carry]
          split
          · rename_i hisarray
            have hnil : carry L left .nil = .ok .nil := by cases left <;> rfl
            refine array_same hdistinct (L.lt es hlen) hnil (fun e he => (hentries e he).2.2) (fun e he => ?_) hvals
            obtain ⟨j, hj, hkey⟩ := harray hisarray e he
            obtain ⟨z, hz, hkey'⟩ := scanKeys_index hisarray e he
            have hjz := index_inj (hkey.symm.trans hkey')
            exact ⟨j, by omega, hj, hkey⟩
          · refine map_same hdistinct hentries (fun e he => ⟨(hall e he).1, ?_⟩) hvals
            exact (carry_leaf_iff (hkeys e he) (plain_leaf (hall e he).1)).mpr (hall e he).2.1

theorem Same.eq_of_leaf (h : Same w v) (hleaf : ∀ es, v ≠ .table es) : w = v := by
  cases h with
  | leaf => rfl
  | table => exact absurd rfl (hleaf _)

theorem carried_of_same (hw : v.WellFormed) (hv : Held v) (h : carry L left v = .ok w) (hs : Same w v) :
    Carried L left v := by
  induction left generalizing v w with
  | zero =>
    by_cases hleaf : ∀ es, v ≠ .table es
    · exact (carry_leaf_iff hv hleaf).mp (hs.eq_of_leaf hleaf ▸ h)
    · push Not at hleaf
      obtain ⟨es, rfl⟩ := hleaf
      cases h
      exact absurd (hs.nil_iff.mp rfl) LuaValue.noConfusion
  | succ left ih =>
    by_cases hleaf : ∀ es, v ≠ .table es
    · exact (carry_leaf_iff hv hleaf).mp (hs.eq_of_leaf hleaf ▸ h)
    · push Not at hleaf
      obtain ⟨es, rfl⟩ := hleaf
      cases hw with
      | other hother => cases hother
      | table hdistinct hentries hwkeys hwvalues =>
        cases hv with
        | other hother => cases hother
        | table hlen hkeys hvalues =>
          have hvals : ∀ e ∈ es, (∃ w, carry L left e.2 = .ok w ∧ Same w e.2) → Carried L left e.2 := by
            rintro e he ⟨w, hout, hsame⟩
            exact ih (hwvalues e he) (hvalues e he) hout hsame
          rw [carry] at h
          split at h
          · rename_i hisarray
            have hitems := array_of_same hdistinct (L.lt es hlen) h hs
            refine ⟨fun e he => ?_, fun _ e he => (hitems e he).1⟩
            obtain ⟨⟨j, hj, hkey⟩, hvalue⟩ := hitems e he
            have hlt := L.lt es hlen
            rw [hkey]
            refine ⟨rfl, ?_, hvals e he hvalue⟩
            cases left <;> exact stays_intCast.mpr (by omega)
          · rename_i hisarray
            have hentry := map_of_same hdistinct h hs fun e he e' he' hout hplain =>
              carry_carried (hkeys e' he') (hkeys e he) hout hplain
            refine ⟨fun e he => ?_, fun h => absurd h hisarray⟩
            obtain ⟨hplain, hkey, hvalue⟩ := hentry e he
            exact ⟨hplain, (carry_leaf_iff (hkeys e he) (plain_leaf hplain)).mp hkey, hvals e he hvalue⟩

/-- A value comes back from `unpack` as it was given to `pack` exactly when
nothing of it is lost. -/
theorem unpack_pack_iff (hw : v.WellFormed) (hv : Held v) (hlen : (mpPack L v).length < 2 ^ 63) :
    (∃ w, mpUnpack (.string (mpPack L v)) = .ok w ∧ Same w v) ↔ Carried L MAX_NESTING v := by
  rw [unpack_pack hv hlen]
  constructor
  · rintro ⟨w, h, hs⟩
    exact carried_of_same hw hv h hs
  · exact same_of_carried hw hv

end

-- ---------------------------------------------------------------------------
-- The first border
-- ---------------------------------------------------------------------------

theorem exists_border (es : Entries) : ∃ n ≤ es.length, gettable es (index (n + 1 : Nat)) = .nil := by
  by_contra hall
  push Not at hall
  have hsub : (List.range (es.length + 1)).map (fun n : Nat => index (n + 1 : Nat)) ⊆ es.map Prod.fst := by
    intro k hk
    obtain ⟨n, hn, rfl⟩ := List.mem_map.mp hk
    obtain ⟨e, he, hkey, -⟩ := mem_of_gettable (hall n (Nat.le_of_lt_succ (List.mem_range.mp hn)))
    refine List.mem_map.mpr ⟨e, he, ?_⟩
    cases he1 : e.1 with
    | number x =>
      rw [he1, sameKey_plain rfl] at hkey
      exact hkey
    | _ =>
      rw [he1] at hkey
      cases hkey
  have hnodup : ((List.range (es.length + 1)).map fun n : Nat => index (n + 1 : Nat)).Nodup := by
    refine List.nodup_range.map fun i j hij => ?_
    have := index_inj hij
    omega
  have hle := (List.subperm_of_subset hnodup hsub).length_le
  rw [List.length_map, List.length_map, List.length_range] at hle
  omega

def isNil : LuaValue → Bool
  | .nil => true
  | _ => false

theorem isNil_iff {v : LuaValue} : isNil v = true ↔ v = .nil := by
  cases v <;> simp [isNil]

theorem exists_border_isNil (es : Entries) : ∃ n : Nat, isNil (gettable es (index (n + 1 : Nat))) = true := by
  obtain ⟨n, -, hn⟩ := exists_border es
  exact ⟨n, isNil_iff.mpr hn⟩

def firstBorder (es : Entries) : Nat := Nat.find (exists_border_isNil es)

theorem firstBorder_isBorder (es : Entries) : IsBorder es (firstBorder es) := by
  have hspec := isNil_iff.mp (Nat.find_spec (exists_border_isNil es))
  refine ⟨?_, by exact_mod_cast hspec⟩
  rcases Nat.eq_zero_or_pos (firstBorder es) with h0 | hpos
  · exact .inl h0
  · obtain ⟨m, hm⟩ := Nat.exists_eq_succ_of_ne_zero hpos.ne'
    have hmin := Nat.find_min (exists_border_isNil es) (hm.symm ▸ Nat.lt_succ_self m : m < firstBorder es)
    rw [hm]
    exact .inr fun h => hmin (isNil_iff.mpr h)

theorem firstBorder_lt (es : Entries) (hlen : es.length < 2 ^ 31) : firstBorder es < 2 ^ 31 := by
  obtain ⟨n, hn, hnil⟩ := exists_border es
  exact Nat.lt_of_le_of_lt ((Nat.find_min' _ (isNil_iff.mpr hnil)).trans hn) hlen

def Length.first : Length := ⟨firstBorder, firstBorder_isBorder, firstBorder_lt⟩

/-- `{k = {x = "a"}}` -/
def nestedTable : LuaValue := .table [(.string [107], .table [(.string [120], .string [97])])]

theorem nestedTable_wellFormed : nestedTable.WellFormed :=
  .table (List.pairwise_singleton ..) (by simp) (by simpa using LuaValue.WellFormed.string)
    (by simpa using .table (List.pairwise_singleton ..) (by simp) (by simpa using .string) (by simpa using .string))

theorem nestedTable_held : Held nestedTable :=
  .table (by simp) (by simpa using Held.string (by simp))
    (by simpa using .table (by simp) (by simpa using .string (by simp)) (by simpa using .string (by simp)))

theorem nested_round_trip : ∃ w, mpUnpack (.string (mpPack .first nestedTable)) = .ok w ∧ Same w nestedTable := by
  refine (unpack_pack_iff nestedTable_wellFormed nestedTable_held (by decide)).mpr ?_
  simp [nestedTable, Carried, MAX_NESTING, plain, tableIsAnArray, scanKeys]

end GalaLua.LuaObject
