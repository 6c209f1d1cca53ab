import GalaLua.GLR.Arguments
import GalaLua.Library.Binary
import GalaLua.Library.Bytes
import GalaLua.Library.Words

/-!
# MessagePack

`pack` writes a value of Lua as the bytes of one object, `unpack` reads such
bytes back. Tables are written as arrays or as maps; what is nested deeper than
`MAX_NESTING` tables is written as nil. Reading is over a cursor, of which the
bytes that are left are kept.
-/

namespace GalaLua.LuaObject

open GLR (LuaValue Entries setEntry)
open Library (LuaNumber Endian Binary int32)

def MAX_NESTING : Nat := 16

-- ---------------------------------------------------------------------------
-- Numbers as bytes
-- ---------------------------------------------------------------------------

/-- The `n` low bytes of a word, highest first. -/
def bigEndian (n v : Nat) : List UInt8 := (Endian.big.encode n v).map UInt8.ofBitVec

def ofBigEndian (bs : List UInt8) : Nat := Endian.big.decode (bs.map UInt8.toBitVec)

/-- An `int64_t` as it lies in a word. -/
def word (n : Int) : Nat := (BitVec.ofInt 64 n).toNat

/-- The bytes of a signed number. -/
def signed (bs : List UInt8) : Int := (BitVec.ofNat (8 * bs.length) (ofBigEndian bs)).toInt

/-- Four bytes that were put together in an `int` and are a `size_t` then. -/
def extended (bs : List UInt8) : Nat := ((BitVec.ofNat 32 (ofBigEndian bs)).signExtend 64).toNat

/-- What is not a number, as an invalid operation gives it. -/
def nanBits (F : Binary) : Nat :=
  2 ^ (F.exponent + F.fraction) + F.special * 2 ^ F.fraction + 2 ^ (F.fraction - 1)

def numberBits (F : Binary) : LuaNumber → Nat
  | .finite x => F.bits x
  | .infinite negative =>
    (if negative then 2 ^ (F.exponent + F.fraction) else 0) + F.special * 2 ^ F.fraction
  | .nan => nanBits F

def ofBits (F : Binary) (b : Nat) : LuaNumber :=
  if F.biased b = F.special then
    if F.rest b = 0 then .infinite (F.negative b) else .nan
  else .finite (F.value b)

-- ---------------------------------------------------------------------------
-- Low level encoding
-- ---------------------------------------------------------------------------

def mpEncodeBytes (s : List UInt8) : List UInt8 :=
  let len := s.length
  let hdr :=
    if len < 32 then [UInt8.ofNat (0xa0 ||| (len &&& 0xff))]
    else if len ≤ 0xffff then 0xda :: bigEndian 2 len
    else 0xdb :: bigEndian 4 len
  hdr ++ s

/-- `d == (double)f`: the number is one of single precision. -/
def isSingle : LuaNumber → Bool
  | .finite x => decide (Binary.single.Exact x)
  | .infinite _ => true
  | .nan => false

def mpEncodeDouble (d : LuaNumber) : List UInt8 :=
  if isSingle d then 0xca :: bigEndian 4 (numberBits .single d)
  else 0xcb :: bigEndian 8 (numberBits .double d)

def mpEncodeInt (n : Int) : List UInt8 :=
  if n ≥ 0 then
    if n ≤ 127 then bigEndian 1 (word n)
    else if n ≤ 0xff then 0xcc :: bigEndian 1 (word n)
    else if n ≤ 0xffff then 0xcd :: bigEndian 2 (word n)
    else if n ≤ 0xffffffff then 0xce :: bigEndian 4 (word n)
    else 0xcf :: bigEndian 8 (word n)
  else
    if n ≥ -32 then bigEndian 1 (word n)
    else if n ≥ -128 then 0xd0 :: bigEndian 1 (word n)
    else if n ≥ -32768 then 0xd1 :: bigEndian 2 (word n)
    else if n ≥ -2147483648 then 0xd2 :: bigEndian 4 (word n)
    else 0xd3 :: bigEndian 8 (word n)

def mpEncodeArray (n : Nat) : List UInt8 :=
  if n ≤ 15 then [UInt8.ofNat (0x90 ||| (n &&& 0xf))]
  else if n ≤ 65535 then 0xdc :: bigEndian 2 n
  else 0xdd :: bigEndian 4 n

def mpEncodeMap (n : Nat) : List UInt8 :=
  if n ≤ 15 then [UInt8.ofNat (0x80 ||| (n &&& 0xf))]
  else if n ≤ 65535 then 0xde :: bigEndian 2 n
  else 0xdf :: bigEndian 4 n

-- ---------------------------------------------------------------------------
-- Tables
-- ---------------------------------------------------------------------------

def index (j : Int) : LuaValue := .number (.finite j)

/-- `lua_gettable` on a table without a metatable. -/
def gettable (entries : Entries) (key : LuaValue) : LuaValue :=
  match entries.find? (·.1.sameKey key) with
  | some e => e.2
  | none => .nil

/-- What the length operator promises: a border of the table. -/
structure IsBorder (entries : Entries) (n : Nat) : Prop where
  last : n = 0 ∨ gettable entries (index n) ≠ .nil
  next : gettable entries (index (n + 1)) = .nil

/-- `lua_rawlen`, which gives any border of the table; it counts in 32 bits. -/
structure Length where
  rawlen : Entries → Nat
  border : ∀ entries, IsBorder entries (rawlen entries)
  lt : ∀ entries : Entries, entries.length < 2 ^ 31 → rawlen entries < 2 ^ 31

/-- The loop of `table_is_an_array`, with the key that it comes from. -/
def scanKeys : Entries → (count idx : Int) → Bool
  | [], count, idx => idx == count
  | (key, _) :: rest, count, _ =>
    match key with
    | .number n =>
      let idx := n.toInteger
      if LuaNumber.finite idx ≠ n ∨ idx < 1 then false else scanKeys rest (count + 1) idx
    | _ => false

def tableIsAnArray (entries : Entries) : Bool := scanKeys entries 0 0

-- ---------------------------------------------------------------------------
-- Encoding of values
-- ---------------------------------------------------------------------------

def isWhole : LuaNumber → Bool
  | .finite x => x.floor == x
  | .infinite _ => true
  | .nan => false

def mpEncodeLuaNumber (n : LuaNumber) : List UInt8 :=
  if isWhole n then mpEncodeInt n.toInteger else mpEncodeDouble n

section

variable (L : Length)

/-- `mp_encode_lua_type`, with the levels that are left instead of the level. -/
def mpEncodeLuaType : Nat → LuaValue → List UInt8
  | _, .string s => mpEncodeBytes s
  | _, .boolean b => [if b then 0xc3 else 0xc2]
  | _, .number n => mpEncodeLuaNumber n
  | left + 1, .table entries =>
    if tableIsAnArray entries then
      let len := L.rawlen entries
      mpEncodeArray len ++
        (List.range' 1 len).flatMap fun j : Nat => mpEncodeLuaType left (gettable entries (index j))
    else
      mpEncodeMap entries.length ++
        entries.flatMap fun e => mpEncodeLuaType left e.1 ++ mpEncodeLuaType left e.2
  | _, _ => [0xc0]

def mpPack (v : LuaValue) : List UInt8 := mpEncodeLuaType L MAX_NESTING v

end

-- ---------------------------------------------------------------------------
-- Decoding
-- ---------------------------------------------------------------------------

inductive Fault
  | eof
  | badFormat
  | luaError (msg : String)
  /-- `lua_pushlstring` of more bytes than there are -/
  | length
  deriving DecidableEq, Repr

/-- What the first byte of an object says. -/
inductive Form
  | uint (size : Nat)
  | int (size : Nat)
  | nil
  | boolean (b : Bool)
  | float (F : Binary) (size : Nat)
  | raw (size : Nat)
  | array (size : Nat)
  | map (size : Nat)
  | fixnum (n : Int)
  | fixRaw (l : Nat)
  | fixArray (l : Nat)
  | fixMap (l : Nat)
  | bad

/-- The `default` of the switch over the first byte. -/
def fixForm (b : Nat) : Form :=
  if b &&& 0x80 = 0 then .fixnum b
  else if b &&& 0xe0 = 0xe0 then .fixnum (BitVec.ofNat 8 b).toInt
  else if b &&& 0xe0 = 0xa0 then .fixRaw (b &&& 0x1f)
  else if b &&& 0xf0 = 0x90 then .fixArray (b &&& 0xf)
  else if b &&& 0xf0 = 0x80 then .fixMap (b &&& 0xf)
  else .bad

def form (b : Nat) : Form :=
  match b with
  | 0xcc => .uint 1
  | 0xd0 => .int 1
  | 0xcd => .uint 2
  | 0xd1 => .int 2
  | 0xce => .uint 4
  | 0xd2 => .int 4
  | 0xcf => .uint 8
  | 0xd3 => .int 8
  | 0xc0 => .nil
  | 0xc3 => .boolean true
  | 0xc2 => .boolean false
  | 0xca => .float .single 4
  | 0xcb => .float .double 8
  | 0xda => .raw 2
  | 0xdb => .raw 4
  | 0xdc => .array 2
  | 0xdd => .array 4
  | 0xde => .map 2
  | 0xdf => .map 4
  | b => fixForm b

def lengthOf (bs : List UInt8) : Nat := if bs.length = 2 then ofBigEndian bs else extended bs

/-- `lua_pushnumber` of an integer. -/
def pushnumber (n : Int) : LuaValue := index (Library.Words.double n)

/-- `mp_cur_need`; the length is a `size_t`. -/
def need (c : List UInt8) (len : Nat) : Except Fault Unit :=
  if c.length < len % 2 ^ 64 then .error .eof else .ok ()

abbrev Decoded := Except Fault (LuaValue × List UInt8)

/-- `lua_pushlstring` behind a head, and the end of the string. -/
def pushlstring (c : List UInt8) (head l : Nat) : Decoded := do
  need c (head + l)
  if head + l ≤ c.length then .ok (.string ((c.drop head).take l), c.drop (head + l))
  else .error .length

/-- `lua_settable` on a table without a metatable. -/
def settable (entries : Entries) (key value : LuaValue) : Except Fault Entries :=
  match key, value with
  | .nil, _ => .error (.luaError "table index is nil")
  | .number .nan, _ => .error (.luaError "table index is NaN")
  | key, .nil => .ok (entries.filter fun e => !e.1.sameKey key)
  | key, value => .ok (setEntry entries (key, value))

section

variable (decode : List UInt8 → Decoded)

def mpDecodeToLuaArray : (len : Nat) → (idx : Int) → Entries → List UInt8 → Decoded
  | 0, _, entries, c => .ok (.table entries, c)
  | len + 1, idx, entries, c => do
    let (value, c) ← decode c
    let entries ← settable entries (index idx) value
    mpDecodeToLuaArray len (Int.bmod (idx + 1) (2 ^ 32)) entries c

def mpDecodeToLuaHash : (len : Nat) → Entries → List UInt8 → Decoded
  | 0, entries, c => .ok (.table entries, c)
  | len + 1, entries, c => do
    let (key, c) ← decode c
    let (value, c) ← decode c
    let entries ← settable entries key value
    mpDecodeToLuaHash len entries c

end

/-- `mp_decode_to_lua_type`; as many objects lie inside one another as there
are bytes at most. -/
def mpDecodeToLuaType : Nat → List UInt8 → Decoded
  | 0, _ => .error .eof
  | _, [] => .error .eof
  | fuel + 1, b :: c =>
    match form b.toNat with
    | .uint size => do
      need (b :: c) (1 + size)
      .ok (pushnumber (ofBigEndian (c.take size)), c.drop size)
    | .int size => do
      need (b :: c) (1 + size)
      .ok (pushnumber (signed (c.take size)), c.drop size)
    | .nil => .ok (.nil, c)
    | .boolean v => .ok (.boolean v, c)
    | .float F size => do
      need (b :: c) (1 + size)
      .ok (.number (ofBits F (ofBigEndian (c.take size))), c.drop size)
    | .raw size => do
      need (b :: c) (1 + size)
      pushlstring (b :: c) (1 + size) (lengthOf (c.take size))
    | .array size => do
      need (b :: c) (1 + size)
      mpDecodeToLuaArray (mpDecodeToLuaType fuel) (lengthOf (c.take size)) 1 [] (c.drop size)
    | .map size => do
      need (b :: c) (1 + size)
      mpDecodeToLuaHash (mpDecodeToLuaType fuel) (lengthOf (c.take size)) [] (c.drop size)
    | .fixnum n => .ok (pushnumber n, c)
    | .fixRaw l => pushlstring (b :: c) 1 l
    | .fixArray l => mpDecodeToLuaArray (mpDecodeToLuaType fuel) l 1 [] c
    | .fixMap l => mpDecodeToLuaHash (mpDecodeToLuaType fuel) l [] c
    | .bad => .error .badFormat

/-- `mp_unpack` of what is on the stack. A number counts as a string there;
its text is not one that is read here. -/
def mpUnpack : LuaValue → Except Fault LuaValue
  | .string s =>
    match mpDecodeToLuaType s.length s with
    | .error .eof => .error (.luaError "Missing bytes in input.")
    | .error .badFormat => .error (.luaError "Bad data format in input.")
    | .error f => .error f
    | .ok (v, c) => if c.length ≠ 0 then .error (.luaError "Extra bytes in input.") else .ok v
  | _ => .error (.luaError "MessagePack decoding needs a string as input.")

-- ---------------------------------------------------------------------------
-- Numbers as bytes and back
-- ---------------------------------------------------------------------------

@[simp] theorem length_bigEndian (n v : Nat) : (bigEndian n v).length = n := by
  rw [bigEndian, List.length_map, Endian.length_encode]

theorem ofBigEndian_bigEndian (n v : Nat) : ofBigEndian (bigEndian n v) = v % 256 ^ n := by
  have hbytes : UInt8.toBitVec ∘ UInt8.ofBitVec = id := rfl
  rw [ofBigEndian, bigEndian, List.map_map, hbytes, List.map_id, Endian.decode_encode]

theorem ofBigEndian_of_lt {n v : Nat} (h : v < 256 ^ n) : ofBigEndian (bigEndian n v) = v := by
  rw [ofBigEndian_bigEndian, Nat.mod_eq_of_lt h]

theorem ofBigEndian_lt (bs : List UInt8) : ofBigEndian bs < 256 ^ bs.length := by
  have h := Endian.big.decode_lt (bs.map UInt8.toBitVec)
  rwa [List.length_map] at h

theorem extended_eq (bs : List UInt8) :
    extended bs = if ofBigEndian bs % 2 ^ 32 < 2 ^ 31 then ofBigEndian bs % 2 ^ 32
      else 2 ^ 64 - 2 ^ 32 + ofBigEndian bs % 2 ^ 32 := by
  rw [extended, BitVec.toNat_signExtend, BitVec.toNat_setWidth, BitVec.msb_eq_decide, BitVec.toNat_ofNat,
    Nat.mod_eq_of_lt (b := 2 ^ 64) (by omega)]
  by_cases h : ofBigEndian bs % 2 ^ 32 < 2 ^ 31
  · rw [if_pos h, if_neg (by simpa using h), Nat.add_zero]
  · rw [if_neg h, if_pos (by simpa using h)]
    omega

theorem extended_of_lt {l : Nat} (h : l < 2 ^ 31) : extended (bigEndian 4 l) = l := by
  rw [extended_eq, ofBigEndian_of_lt (by omega), Nat.mod_eq_of_lt (by omega), if_pos h]

theorem signed_bigEndian {k : Nat} {n : Int} (hk : 8 * k ≤ 64) (hlo : -2 ^ (8 * k) ≤ 2 * n)
    (hhi : 2 * n < 2 ^ (8 * k)) : signed (bigEndian k (word n)) = n := by
  have hbytes : 256 ^ k = 2 ^ (8 * k) := (pow_mul 2 8 k).symm
  have hlow : BitVec.ofNat (8 * k) (word n % 2 ^ (8 * k)) = (BitVec.ofInt 64 n).setWidth (8 * k) := by
    apply BitVec.eq_of_toNat_eq
    rw [BitVec.toNat_ofNat, BitVec.toNat_setWidth, Nat.mod_mod, word]
  rw [signed, length_bigEndian, ofBigEndian_bigEndian, hbytes, hlow, Library.Words.toInt_ofInt_setWidth hk]
  have hcast : ((2 ^ (8 * k) : Nat) : Int) = 2 ^ (8 * k) := by push_cast; rfl
  exact Int.bmod_eq_of_le_mul_two (by omega) (by omega)

theorem word_of_nonneg {n : Int} (h : 0 ≤ n) (hlt : n < 2 ^ 64) : (word n : Int) = n := by
  rw [word, BitVec.toNat_ofInt, Int.toNat_of_nonneg (Int.emod_nonneg _ (by decide))]
  exact Int.emod_eq_of_lt h hlt

end GalaLua.LuaObject
