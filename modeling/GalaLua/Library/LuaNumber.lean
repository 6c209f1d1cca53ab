import GalaLua.Library.Binary
import GalaLua.Library.LuaString

/-!
# Numbers of Lua

A number is a double: finite, an infinity or what is not a number. `tonumber`
reads one from a string as LuaJIT scans it: blanks around it, a sign, decimal or
hexadecimal digits with a point and an exponent, rounded to the nearest double.
-/

namespace GalaLua.Library

/-- A `lua_Number`; the finite ones are rational numbers. -/
inductive LuaNumber
  | finite (x : ℚ)
  | infinite (negative : Bool)
  | nan
  deriving DecidableEq

namespace LuaNumber

/-- `luaL_checkinteger`: the conversion of C, which gives the least
`lua_Integer` for what is out of its range. -/
def toInteger : LuaNumber → Int
  | finite x =>
    let i := x.num.tdiv x.den
    if -2 ^ 63 ≤ i ∧ i < 2 ^ 63 then i else -2 ^ 63
  | infinite _ | nan => -2 ^ 63

/-- The number that comes back from a `lua_Integer`. -/
def moved (x : LuaNumber) : LuaNumber :=
  let len : BitVec 64 := BitVec.ofInt 64 x.toInteger
  finite len.toInt

/-- The number is a `lua_Integer`. -/
def Whole (x : LuaNumber) : Prop := ∃ i : Int, -2 ^ 63 ≤ i ∧ i < 2 ^ 63 ∧ x = finite i

theorem toInteger_intCast {z : Int} (h : -2 ^ 63 ≤ z ∧ z < 2 ^ 63) : (finite z).toInteger = z := by
  have hdiv : ((z : ℚ).num.tdiv (z : ℚ).den) = z := by
    rw [Rat.num_intCast, Rat.den_intCast]
    exact Int.tdiv_one z
  simp only [toInteger, hdiv, if_pos h]

theorem moved_eq_iff (x : LuaNumber) : x.moved = x ↔ x.Whole := by
  constructor
  · intro h
    refine ⟨(BitVec.ofInt 64 x.toInteger).toInt, ?_, ?_, h.symm⟩
    · exact BitVec.le_toInt _
    · exact BitVec.toInt_lt
  · rintro ⟨i, hlow, hhigh, rfl⟩
    rw [moved, toInteger_intCast ⟨hlow, hhigh⟩, BitVec.toInt_ofInt_eq_self (by decide) hlow hhigh]

def ofRat (q : ℚ) : LuaNumber :=
  match Binary.double.nearest q with
  | some x => finite x
  | none => infinite (decide (q < 0))

theorem ofRat_natCast {n : Nat} (h : n < 2 ^ 53) : ofRat n = finite (n : Int) := by
  have hexact : Binary.double.Exact n := Binary.exact_natCast h (by decide)
  rw [ofRat, Binary.nearest_of_exact hexact]
  rfl

end LuaNumber

namespace Lua

-- ---------------------------------------------------------------------------
-- Reading a number
-- ---------------------------------------------------------------------------

/-- The sign in front of a number. -/
def sign : Str → Bool × Str
  | '-' :: s => (true, s)
  | '+' :: s => (false, s)
  | s => (false, s)

def ofDigits (base : Nat) (ds : Str) : Nat := ds.foldl (fun n c => base * n + hexDigit c) 0

/-- Digits that may have a point among them, how many are behind it, and the rest. -/
def digits (isDigit : Char → Bool) (s : Str) : Str × Nat × Str :=
  match s.dropWhile isDigit with
  | '.' :: t => (s.takeWhile isDigit ++ t.takeWhile isDigit, (t.takeWhile isDigit).length, t.dropWhile isDigit)
  | t => (s.takeWhile isDigit, 0, t)

/-- The exponent behind its mark, with the rest; there is none without digits. From
65536 on further digits do not count. -/
def exponent (mark : Char) : Str → Option (Int × Str)
  | [] => some (0, [])
  | c :: s =>
    if c.toLower = mark then
      let (neg, s) := sign s
      let ds := s.takeWhile Char.isDigit
      let x := ds.foldl (fun x c => if x < 65536 then 10 * x + hexDigit c else x) 0
      if ds = [] then none else some (if neg then -(x : Int) else x, s.dropWhile Char.isDigit)
    else some (0, c :: s)

/-- Digits of a base, and a power of `scale`; behind it there are blanks only. -/
def scanDigits (base : Nat) (isDigit : Char → Bool) (mark : Char) (scale : Nat) (s : Str) : Option ℚ :=
  let (ds, behind, s) := digits isDigit s
  if ds = [] then none
  else
    match exponent mark s with
    | none => none
    | some (ex, s) =>
      if s.all isspace then some (ofDigits base ds / (base : ℚ) ^ behind * (scale : ℚ) ^ ex) else none

def scanNumber : Str → Option ℚ
  | '0' :: x :: s =>
    if x.toLower = 'x' then scanDigits 16 isHex 'p' 2 s else scanDigits 10 Char.isDigit 'e' 10 ('0' :: x :: s)
  | s => scanDigits 10 Char.isDigit 'e' 10 s

/-- The word `word` in either case at the front of a string, and what is behind it. -/
def afterWord (word : String) (s : Str) : Option Str :=
  if (s.take word.length).map Char.toLower = word.toList then some (s.drop word.length) else none

/-- "inf", "infinity" and "nan". -/
def scanWord (neg : Bool) (s : Str) : Option LuaNumber :=
  match afterWord "inf" s with
  | some t => if ((afterWord "inity" t).getD t).all isspace then some (.infinite neg) else none
  | none =>
    match afterWord "nan" s with
    | some t => if t.all isspace then some .nan else none
    | none => none

/-- `tonumber`; C ends a string at its NUL. -/
def tonumber (s : Str) : Option LuaNumber :=
  let (neg, s) := sign ((s.takeWhile (· ≠ '\x00')).dropWhile isspace)
  if 'A' ≤ s.head?.getD '\x00' then scanWord neg s
  else (scanNumber s).map fun q => LuaNumber.ofRat (if neg then -q else q)

example : tonumber " 0x2 ".toList = some (.finite 2) := by decide +kernel
example : tonumber "1e0".toList = some (.finite 1) := by decide +kernel
example : tonumber "-.5".toList = some (.finite (-1 / 2)) := by decide +kernel
example : tonumber "5,0".toList = none := by decide +kernel

/-- The `0x` in front of a number. -/
def hexMark : Str → Str
  | '0' :: x :: c :: s => if (x = 'x' ∨ x = 'X') ∧ isHex c then c :: s else '0' :: x :: c :: s
  | s => s

/-- `strtoul` in base 16, with what it leaves; `none` if there are no digits. -/
def strtoul (s : Str) : Option (Nat × Str) :=
  let (neg, s) := sign (s.dropWhile isspace)
  let s := hexMark s
  let digits := s.takeWhile isHex
  let n := ofDigits 16 digits
  let value := if 2 ^ 64 ≤ n then 2 ^ 64 - 1 else if neg then (2 ^ 64 - n) % 2 ^ 64 else n
  if digits = [] then none else some (value, s.dropWhile isHex)

/-- `tonumber(s, 16)`, before it becomes a double: blanks may follow the digits, and
a zero byte ends the string. -/
def tonumberHex (s : Str) : Option Nat :=
  match strtoul s with
  | none => none
  | some (n, s) => if (s.dropWhile isspace).head?.getD '\x00' = '\x00' then some n else none

-- ---------------------------------------------------------------------------
-- Digits
-- ---------------------------------------------------------------------------

theorem hexDigit_digitChar : ∀ d < 16, isHex d.digitChar = true ∧ hexDigit d.digitChar = d := by
  decide

theorem sign_digit {c : Char} (h : isHex c = true) (s : Str) : sign (c :: s) = (false, c :: s) := by
  obtain ⟨-, hminus, hplus, -⟩ := isHex_sound h
  unfold sign
  split
  · next heq => exact absurd (List.cons.inj heq).1 hminus
  · next heq => exact absurd (List.cons.inj heq).1 hplus
  · rfl

theorem ofDigits_toDigits {base : Nat} (hlow : 1 < base) (hhigh : base ≤ 16) (n : Nat) :
    ofDigits base (Nat.toDigits base n) = n := by
  unfold ofDigits
  induction n using Nat.strongRecOn with
  | ind n ih =>
    by_cases h : n < base
    · rw [Nat.toDigits_of_lt_base h, List.foldl_cons, List.foldl_nil, (hexDigit_digitChar n (by omega)).2,
        Nat.mul_zero, Nat.zero_add]
    · have hmod : n % base < base := Nat.mod_lt n (by omega)
      rw [Nat.toDigits_of_base_le hlow (by omega), List.foldl_append, ih _ (Nat.div_lt_self (by omega) hlow)]
      rw [List.foldl_cons, List.foldl_nil, (hexDigit_digitChar _ (by omega)).2]
      exact Nat.div_add_mod n base

/-- What `tostring` writes is read as the double next to it. -/
theorem tonumber_tostring (n : Nat) : tonumber (tostring n) = some (LuaNumber.ofRat n) := by
  have hdigit : ∀ c ∈ tostring n, c.isDigit = true := fun _ => isDigit_tostring
  obtain ⟨d, ds, hcons⟩ := List.exists_cons_of_ne_nil (show tostring n ≠ [] from Nat.toDigits_ne_nil)
  have hvalue : ofDigits 10 (d :: ds) = n := by
    rw [← hcons]
    exact ofDigits_toDigits (by decide) (by decide) n
  rw [hcons] at hdigit ⊢
  have hd := hdigit d List.mem_cons_self
  have hplain := plain_of_isDigit hd
  have hnul : (d :: ds).takeWhile (· ≠ '\x00') = d :: ds :=
    List.takeWhile_eq_self_iff.mpr fun c hc => by simpa using (plain_of_isDigit (hdigit c hc)).nul
  have hscan : scanDigits 10 Char.isDigit 'e' 10 (d :: ds) = some (n : ℚ) := by
    have hdrop : (d :: ds).dropWhile Char.isDigit = [] := List.dropWhile_eq_nil_iff.mpr hdigit
    have htake : (d :: ds).takeWhile Char.isDigit = d :: ds := List.takeWhile_eq_self_iff.mpr hdigit
    simp only [scanDigits, digits, hdrop, htake, exponent, hvalue]
    simp
  have hnumber : scanNumber (d :: ds) = some (n : ℚ) := by
    unfold scanNumber
    split
    · next x s heq =>
      have hx := plain_of_isDigit (hdigit x (by rw [heq]; simp))
      rw [if_neg hx.hex, ← heq, hscan]
    · exact hscan
  have hsign : sign (d :: ds) = (false, d :: ds) := sign_digit (by simp [isHex, hd]) ds
  unfold tonumber
  rw [hnul, List.dropWhile_cons_of_neg (by simp [hplain.space]), hsign]
  simp [hplain.word, hnumber]

end Lua

end GalaLua.Library
