import GalaLua.Library.Bytes
import GalaLua.Library.MerkleDamgard
import Mathlib.Data.BitVec

/-!
# MD5

`md5` goes over a string in blocks of 64 bytes. Behind the last byte it puts
`0x80` and zeros, and at the end of the last block the length in bits, of which
the upper word is given three bits (`put_length`). `rfc1321` is the algorithm
as it is published: 64 operations on a block, 64 bits of length.
-/

namespace GalaLua.Encryption

open Library

abbrev Word := BitVec 32

-- ---------------------------------------------------------------------------
-- The passes
-- ---------------------------------------------------------------------------

def rotate (d : Word) (num : Nat) : Word := d <<< num ||| d >>> (32 - num)

def F (x y z : Word) : Word := (x &&& y) ||| (~~~x &&& z)
def G (x y z : Word) : Word := (x &&& z) ||| (y &&& ~~~z)
def H (x y z : Word) : Word := x ^^^ y ^^^ z
def I (x y z : Word) : Word := y ^^^ (x ||| ~~~z)

def table : List Word :=
  [0xd76aa478, 0xe8c7b756, 0x242070db, 0xc1bdceee,
   0xf57c0faf, 0x4787c62a, 0xa8304613, 0xfd469501, 0x698098d8, 0x8b44f7af,
   0xffff5bb1, 0x895cd7be, 0x6b901122, 0xfd987193, 0xa679438e, 0x49b40821,
   0xf61e2562, 0xc040b340, 0x265e5a51, 0xe9b6c7aa, 0xd62f105d, 0x02441453,
   0xd8a1e681, 0xe7d3fbc8, 0x21e1cde6, 0xc33707d6, 0xf4d50d87, 0x455a14ed,
   0xa9e3e905, 0xfcefa3f8, 0x676f02d9, 0x8d2a4c8a, 0xfffa3942, 0x8771f681,
   0x6d9d6122, 0xfde5380c, 0xa4beea44, 0x4bdecfa9, 0xf6bb4b60, 0xbebfbc70,
   0x289b7ec6, 0xeaa127fa, 0xd4ef3085, 0x04881d05, 0xd9d4d039, 0xe6db99e5,
   0x1fa27cf8, 0xc4ac5665, 0xf4292244, 0x432aff97, 0xab9423a7, 0xfc93a039,
   0x655b59c3, 0x8f0ccc92, 0xffeff47d, 0x85845dd1, 0x6fa87e4f, 0xfe2ce6e0,
   0xa3014314, 0x4e0811a1, 0xf7537e82, 0xbd3af235, 0x2ad7d2bb, 0xeb86d391]

def T (j : Nat) : Word := table.getD j 0

/-- The words `d[0]` to `d[3]`. -/
structure Digest where
  d0 : Word
  d1 : Word
  d2 : Word
  d3 : Word
  deriving DecidableEq, Repr

def Digest.add (d e : Digest) : Digest := ⟨d.d0 + e.d0, d.d1 + e.d1, d.d2 + e.d2, d.d3 + e.d3⟩

def inicDigest : Digest := ⟨0x67452301, 0xEFCDAB89, 0x98BADCFE, 0x10325476⟩

def word (m : List Word) (j : Nat) : Word := m.getD j 0

/-- One statement pair of a pass: `a = rotate(a + f + x + t, s); a += b`. -/
def mix (a f x t : Word) (s : Nat) (b : Word) : Word := rotate (a + f + x + t) s + b

/-- The body of a pass's loop, with the function, the word and the constant of each turn. -/
def passo (f : Word → Word → Word → Word) (index : Nat → Nat) (t s₀ s₃ s₂ s₁ : Nat) (m : List Word)
    (d : Digest) (j : Nat) : Digest :=
  let d0 := mix d.d0 (f d.d1 d.d2 d.d3) (word m (index j)) (T (j + t)) s₀ d.d1
  let d3 := mix d.d3 (f d0 d.d1 d.d2) (word m (index (j + 1))) (T (j + 1 + t)) s₃ d0
  let d2 := mix d.d2 (f d3 d0 d.d1) (word m (index (j + 2))) (T (j + 2 + t)) s₂ d3
  let d1 := mix d.d1 (f d2 d3 d0) (word m (index (j + 3))) (T (j + 3 + t)) s₁ d2
  ⟨d0, d1, d2, d3⟩

def passo1 : List Word → Digest → Nat → Digest := passo F (fun j => j) 0 7 12 17 22

def passo2 : List Word → Digest → Nat → Digest := passo G (fun j => (5 * j + 1) &&& 0x0f) 16 5 9 14 20

def passo3 : List Word → Digest → Nat → Digest := passo H (fun j => (3 * j + 5) &&& 0x0f) 32 4 11 16 23

def passo4 : List Word → Digest → Nat → Digest := passo I (fun j => (7 * j) &&& 0x0f) 48 6 10 15 21

def digest (m : List Word) (d : Digest) : Digest :=
  let d := [0, 4, 8, 12].foldl (passo1 m) d
  let d := [0, 4, 8, 12].foldl (passo2 m) d
  let d := [0, 4, 8, 12].foldl (passo3 m) d
  [0, 4, 8, 12].foldl (passo4 m) d

-- ---------------------------------------------------------------------------
-- Blocks
-- ---------------------------------------------------------------------------

def byte (pt : List Byte) (j : Nat) : Byte := pt.getD j 0

/-- `x[i]` -/
def wordAt (pt : List Byte) (i : Nat) : Word :=
  let j := i * 4
  (((byte pt (j + 3)).setWidth 32 <<< 8 ||| (byte pt (j + 2)).setWidth 32) <<< 8
    ||| (byte pt (j + 1)).setWidth 32) <<< 8 ||| (byte pt j).setWidth 32

def bytestoword32 (pt : List Byte) : List Word := (List.range 16).map (wordAt pt)

def word32tobytes (d : Digest) : List Byte :=
  [d.d0, d.d1, d.d2, d.d3].flatMap fun v => lowBytes 4 v.toNat

def putLength (x : List Word) (len : Nat) : List Word :=
  (x.set 14 (BitVec.ofNat 32 (len <<< 3))).set 15 (BitVec.ofNat 32 ((len >>> (32 - 3)) &&& 0x7))

/-- `0`: a full block. `1`: room for `0x80`, not for the length. `2`: room for both. -/
inductive Status
  | full
  | mark
  | length
  deriving DecidableEq, Repr

/-- `pt` holds the `num` bytes that are left for the block. -/
def converte (pt : List Byte) (oldStatus : Status) : List Word × Status :=
  let num := pt.length
  let buff := pt ++ List.replicate (64 - num) 0
  let x :=
    if num < 64 then (if oldStatus = .full then buff.set num 0x80 else buff) else pt
  (bytestoword32 x, if num ≤ 64 - 9 then .length else if num < 64 then .mark else .full)

theorem converte_goes_on {src : List Byte} {s : Status} (h : ¬(converte (src.take 64) s).2 = .length) :
    (src.drop 64).length < src.length := by
  have hlen : ¬(src.take 64).length ≤ 64 - 9 := fun hle => h (by simp only [converte, if_pos hle])
  rw [List.length_take] at hlen
  rw [List.length_drop]
  omega

section
variable (digest : List Word → Digest → Digest) (len : Nat)

/-- The words of a block, with the length when there is room for it. -/
def wbuff (src : List Byte) (status : Status) : List Word :=
  let x := converte (src.take 64) status
  if x.2 = .length then putLength x.1 len else x.1

/-- The loop of `md5` from the bytes on that are left. -/
def md5Loop (src : List Byte) (status : Status) (d : Digest) : Digest :=
  let next := (digest (wbuff len src status) d).add d
  if _h : (converte (src.take 64) status).2 = .length then next
  else md5Loop (src.drop 64) (converte (src.take 64) status).2 next
termination_by src.length
decreasing_by exact converte_goes_on _h

end

/-- `md5` with another function in the place of `digest`. -/
def md5With (digest : List Word → Digest → Digest) (src : List Byte) : List Byte :=
  word32tobytes (md5Loop digest src.length src .full inicDigest)

def md5 (src : List Byte) : List Byte := md5With digest src

-- ---------------------------------------------------------------------------
-- As published
-- ---------------------------------------------------------------------------

/-- What operation `i` of the 64 takes: the function, the word of the block, the shift. -/
def function (i : Nat) : Word → Word → Word → Word :=
  if i < 16 then F else if i < 32 then G else if i < 48 then H else I

def index (i : Nat) : Nat :=
  if i < 16 then i else if i < 32 then (5 * i + 1) % 16 else if i < 48 then (3 * i + 5) % 16 else 7 * i % 16

def shifts : List (List Nat) := [[7, 12, 17, 22], [5, 9, 14, 20], [4, 11, 16, 23], [6, 10, 15, 21]]

def shift (i : Nat) : Nat := (shifts.getD (i / 16) []).getD (i % 4) 0

/-- `a = b + ((a + f(b,c,d) + X[k] + T[i]) <<< s)`, and the four words move on by one place. -/
def operation (x : List Word) (d : Digest) (i : Nat) : Digest :=
  ⟨d.d3, d.d1 + (d.d0 + function i d.d1 d.d2 d.d3 + word x (index i) + T i).rotateLeft (shift i), d.d1, d.d2⟩

def operations (x : List Word) (d : Digest) : Digest := (List.range 64).foldl (operation x) d

/-- A block changes the state. -/
def compress (digest : List Word → Digest → Digest) (d : Digest) (b : List Byte) : Digest :=
  (digest (bytestoword32 b) d).add d

/-- The padding up to the last eight bytes of a block. -/
def padding (len : Nat) : List Byte := 0x80 :: List.replicate ((119 - len % 64) % 64) 0

/-- The blocks of a message, with `bits` in the place of the length. -/
def blocks (bits : Nat) (src : List Byte) : List (List Byte) :=
  let padded := src ++ padding src.length ++ lowBytes 8 bits
  MerkleDamgard.cut 64 (padded.length / 64) padded

def hash (digest : List Word → Digest → Digest) (src : List Byte) : List Byte :=
  word32tobytes (MerkleDamgard.chain (compress digest) inicDigest (blocks (8 * src.length) src))

def rfc1321 (src : List Byte) : List Byte := hash operations src

end GalaLua.Encryption
