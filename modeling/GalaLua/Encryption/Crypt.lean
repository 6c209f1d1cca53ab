import GalaLua.Encryption.Md5
import GalaLua.Library.Feedback

/-!
# Encryption of strings

`crypt` combines a message with the sums of the 16 bytes sent before and the
key; the seed stands for the bytes before the first. `decrypt` gives a message
exactly for what `crypt` made of it under the key, with some seed, and reads
what follows 16 intact bytes as it was sent.
-/

namespace GalaLua.Encryption

open Library

def maxKey : Nat := 256

def blockSize : Nat := 16

theorem blockSize_pos : 0 < blockSize := by decide

def exOr (s₁ s₂ : List Byte) : Except String (List Byte) :=
  if s₁.length = s₂.length then .ok (List.zipWith (· ^^^ ·) s₁ s₂) else .error "lengths must be equal"

/-- The block is the seed, filled up with zeros, and the key. -/
def initblock (key seed : List Byte) : Except String (List Byte) :=
  if key.length > maxKey then .error "key too long (> 256)"
  else .ok (seed ++ List.replicate (blockSize - seed.length) 0 ++ key)

def codestream (msg block : List Byte) : List Byte :=
  if _h : msg = [] then [] else
    let code := List.zipWith (· ^^^ ·) (md5 block) (msg.take blockSize)
    code ++ codestream (msg.drop blockSize) (code ++ block.drop code.length)
termination_by msg.length
decreasing_by exact Feedback.drop_shorter blockSize_pos _h

def decodestream (cypher block : List Byte) : List Byte :=
  if _h : cypher = [] then [] else
    let taken := cypher.take blockSize
    List.zipWith (· ^^^ ·) (md5 block) taken ++
      decodestream (cypher.drop blockSize) (taken ++ block.drop taken.length)
termination_by cypher.length
decreasing_by exact Feedback.drop_shorter blockSize_pos _h

/-- The seed and its length at the beginning of the result. -/
def header (seed : List Byte) : List Byte := BitVec.ofNat 8 seed.length :: seed

/-- Without a seed, `tm` is the seed: the bytes of the time. -/
def crypt (tm msg key : List Byte) (seed : Option (List Byte)) : Except String (List Byte) := do
  let seed := seed.getD tm
  if seed.length > blockSize then .error "seed too long (> 16)"
  else
    let block ← initblock key seed
    .ok (header seed ++ codestream msg block)

/-- The length of the seed is a signed `char` that is converted to `size_t`; an empty string is
a zero byte here. -/
def decrypt (cyphertext key : List Byte) : Except String (List Byte) := do
  let lseed : BitVec 64 := (cyphertext.getD 0 0).signExtend 64
  if (lseed + 1).toNat ≤ cyphertext.length ∧ lseed.toNat ≤ blockSize then
    let seed := (cyphertext.drop 1).take lseed.toNat
    let block ← initblock key seed
    .ok (decodestream (cyphertext.drop (lseed.toNat + 1)) block)
  else .error "invalid cyphered string"

-- ---------------------------------------------------------------------------
-- Feedback
-- ---------------------------------------------------------------------------

theorem length_md5 (src : List Byte) : (md5 src).length = blockSize := by
  simp only [md5, md5With, word32tobytes, List.flatMap_cons, List.flatMap_nil, List.length_append,
    length_lowBytes, List.length_nil]
  rfl

def sums (key register : List Byte) : List Byte := md5 (register ++ key)

theorem length_sums (key register : List Byte) : (sums key register).length = blockSize := length_md5 _

theorem xor_xor (a b : Byte) : a ^^^ (a ^^^ b) = b := by
  rw [← BitVec.xor_assoc, BitVec.xor_self, BitVec.zero_xor]

theorem exOr_exOr {s t u : List Byte} (h : exOr s t = .ok u) : exOr s u = .ok t := by
  by_cases hlen : s.length = t.length
  · rw [exOr, if_pos hlen] at h
    cases h
    have hzip : s.length = (List.zipWith (· ^^^ ·) s t).length := by
      rw [List.length_zipWith, hlen, Nat.min_self]
    rw [exOr, if_pos hzip]
    exact congrArg Except.ok (Feedback.zip_zip xor_xor (Nat.le_of_eq hlen.symm))
  · rw [exOr, if_neg hlen] at h
    cases h

theorem shift_in {r b : List Byte} (hr : r.length = blockSize) (hb : b.length ≤ blockSize) (key : List Byte) :
    b ++ (r ++ key).drop b.length = b ++ r.drop b.length ++ key ∧
      (b ++ r.drop b.length).length = blockSize := by
  constructor
  · rw [List.drop_append_of_le_length (by omega), List.append_assoc]
  · rw [List.length_append, List.length_drop]
    omega

theorem codestream_of_ne {msg block : List Byte} (h : msg ≠ []) :
    codestream msg block = List.zipWith (· ^^^ ·) (md5 block) (msg.take blockSize) ++
      codestream (msg.drop blockSize) (List.zipWith (· ^^^ ·) (md5 block) (msg.take blockSize) ++
        block.drop (List.zipWith (· ^^^ ·) (md5 block) (msg.take blockSize)).length) := by
  rw [codestream, dif_neg h]

theorem decodestream_of_ne {cypher block : List Byte} (h : cypher ≠ []) :
    decodestream cypher block = List.zipWith (· ^^^ ·) (md5 block) (cypher.take blockSize) ++
      decodestream (cypher.drop blockSize)
        (cypher.take blockSize ++ block.drop (cypher.take blockSize).length) := by
  rw [decodestream, dif_neg h]

theorem codestream_eq {r : List Byte} (hr : r.length = blockSize) (msg key : List Byte) :
    codestream msg (r ++ key) = Feedback.encode (sums key) (· ^^^ ·) blockSize_pos r msg := by
  induction hn : msg.length using Nat.strongRecOn generalizing msg r with
  | _ n ih =>
    by_cases hne : msg = []
    · rw [hne, Feedback.encode_nil, codestream, dif_pos rfl]
    have hcode : (List.zipWith (· ^^^ ·) (md5 (r ++ key)) (msg.take blockSize)).length ≤ blockSize := by
      rw [List.length_zipWith, length_md5]
      exact Nat.min_le_left _ _
    obtain ⟨hmove, hlen⟩ := shift_in hr hcode key
    rw [codestream_of_ne hne, Feedback.encode_of_ne hne, hmove,
      ih _ (hn ▸ Feedback.drop_shorter blockSize_pos hne) hlen _ rfl, sums]

theorem decodestream_eq {r : List Byte} (hr : r.length = blockSize) (cypher key : List Byte) :
    decodestream cypher (r ++ key) = Feedback.decode (sums key) (· ^^^ ·) blockSize_pos r cypher := by
  induction hn : cypher.length using Nat.strongRecOn generalizing cypher r with
  | _ n ih =>
    by_cases hne : cypher = []
    · rw [hne, Feedback.decode_nil, decodestream, dif_pos rfl]
    obtain ⟨hmove, hlen⟩ := shift_in hr (List.length_take_le blockSize cypher) key
    rw [decodestream_of_ne hne, Feedback.decode_of_ne hne, hmove,
      ih _ (hn ▸ Feedback.drop_shorter blockSize_pos hne) hlen _ rfl, sums]

-- ---------------------------------------------------------------------------
-- Calls
-- ---------------------------------------------------------------------------

def filled (seed : List Byte) : List Byte := seed ++ List.replicate (blockSize - seed.length) 0

theorem length_filled {seed : List Byte} (h : seed.length ≤ blockSize) : (filled seed).length = blockSize := by
  rw [filled, List.length_append, List.length_replicate]
  omega

theorem initblock_of_le {key seed : List Byte} (h : key.length ≤ maxKey) :
    initblock key seed = .ok (filled seed ++ key) := if_neg (by omega)

theorem initblock_of_gt {key seed : List Byte} (h : maxKey < key.length) :
    initblock key seed = .error "key too long (> 256)" := if_pos h

theorem crypt_eq_ok_iff {tm msg key c : List Byte} {given : Option (List Byte)} :
    crypt tm msg key given = .ok c ↔ (given.getD tm).length ≤ blockSize ∧ key.length ≤ maxKey ∧
      c = header (given.getD tm) ++
        Feedback.encode (sums key) (· ^^^ ·) blockSize_pos (filled (given.getD tm)) msg := by
  simp only [crypt]
  generalize given.getD tm = seed
  rcases Nat.lt_or_ge blockSize seed.length with hs | hs
  · rw [if_pos hs]
    constructor
    · intro h
      cases h
    · rintro ⟨h, -⟩
      omega
  rw [if_neg (by omega)]
  rcases Nat.lt_or_ge maxKey key.length with hk | hk
  · rw [initblock_of_gt hk]
    constructor
    · intro h
      cases h
    · rintro ⟨-, h, -⟩
      omega
  rw [initblock_of_le hk, ← codestream_eq (length_filled hs)]
  constructor
  · intro h
    cases h
    exact ⟨hs, hk, rfl⟩
  · rintro ⟨-, -, rfl⟩
    rfl

/-- Of the first bytes, those up to the size of a block pass for a length. -/
theorem lseed_le_iff (b : Byte) :
    (b.signExtend 64).toNat ≤ blockSize ↔ b.toNat ≤ blockSize := by
  have hb := b.isLt
  have hmsb := b.msb_eq_decide
  rw [BitVec.toNat_signExtend, BitVec.toNat_setWidth, hmsb]
  unfold blockSize
  split
  · rename_i h
    have := of_decide_eq_true h
    omega
  · omega

theorem lseed_of_le {b : Byte} (h : b.toNat ≤ blockSize) : (b.signExtend 64).toNat = b.toNat := by
  have hmsb : b.msb = false := by
    rw [b.msb_eq_decide]
    exact decide_eq_false (by unfold blockSize at h; omega)
  rw [BitVec.toNat_signExtend, BitVec.toNat_setWidth, hmsb]
  unfold blockSize at h
  simp only [Bool.false_eq_true, if_false]
  omega

theorem decrypt_cons (b : Byte) (rest key : List Byte) :
    decrypt (b :: rest) key =
      if b.toNat ≤ rest.length ∧ b.toNat ≤ blockSize then
        (initblock key (rest.take b.toNat)).bind fun block => .ok (decodestream (rest.drop b.toNat) block)
      else .error "invalid cyphered string" := by
  simp only [decrypt, List.getD_cons_zero, List.drop_succ_cons, List.drop_zero, List.length_cons,
    lseed_le_iff]
  by_cases hb : b.toNat ≤ blockSize
  · have hl := lseed_of_le hb
    have hsucc : (b.signExtend 64 + 1).toNat = b.toNat + 1 := by
      rw [BitVec.toNat_add, hl]
      unfold blockSize at hb
      exact Nat.mod_eq_of_lt (by simp only [BitVec.ofNat_eq_ofNat, BitVec.toNat_ofNat]; omega)
    rw [hl, hsucc]
    simp only [Nat.add_le_add_iff_right]
    rfl
  · rw [if_neg fun h => hb h.2, if_neg fun h => hb h.2]

theorem decrypt_nil (key : List Byte) : decrypt [] key = .error "invalid cyphered string" := rfl

theorem decrypt_header {seed : List Byte} (hs : seed.length ≤ blockSize) (rest key : List Byte) :
    decrypt (header seed ++ rest) key = (initblock key seed).bind fun block => .ok (decodestream rest block) := by
  have hlen : (BitVec.ofNat 8 seed.length).toNat = seed.length := by
    unfold blockSize at hs
    rw [BitVec.toNat_ofNat]
    omega
  rw [header, List.cons_append, decrypt_cons, hlen, if_pos ⟨by rw [List.length_append]; omega, hs⟩,
    List.take_left' rfl, List.drop_left' rfl]

theorem decrypt_header_of_le {seed key : List Byte} (hs : seed.length ≤ blockSize) (hk : key.length ≤ maxKey)
    (rest : List Byte) :
    decrypt (header seed ++ rest) key =
      .ok (Feedback.decode (sums key) (· ^^^ ·) blockSize_pos (filled seed) rest) := by
  rw [decrypt_header hs, initblock_of_le hk, ← decodestream_eq (length_filled hs)]
  rfl

theorem decrypt_eq_ok_iff {c key m : List Byte} :
    decrypt c key = .ok m ↔ ∃ seed rest, c = header seed ++ rest ∧ seed.length ≤ blockSize ∧
      key.length ≤ maxKey ∧ m = Feedback.decode (sums key) (· ^^^ ·) blockSize_pos (filled seed) rest := by
  constructor
  · intro h
    cases c with
    | nil =>
      rw [decrypt_nil] at h
      cases h
    | cons b rest =>
      rw [decrypt_cons] at h
      by_cases hb : b.toNat ≤ rest.length ∧ b.toNat ≤ blockSize
      · rw [if_pos hb] at h
        obtain ⟨seed, tail, rfl, hseed⟩ : ∃ seed tail, rest = seed ++ tail ∧ seed.length = b.toNat :=
          ⟨_, _, (List.take_append_drop b.toNat rest).symm, List.length_take_of_le hb.1⟩
        rw [List.take_left' hseed, List.drop_left' hseed] at h
        rcases Nat.lt_or_ge maxKey key.length with hk | hk
        · rw [initblock_of_gt hk] at h
          cases h
        rw [initblock_of_le hk] at h
        cases h
        have hs : seed.length ≤ blockSize := hseed ▸ hb.2
        refine ⟨seed, tail, ?_, hs, hk, decodestream_eq (length_filled hs) _ _⟩
        rw [header, hseed, BitVec.ofNat_toNat, BitVec.setWidth_eq, List.cons_append]
      · rw [if_neg hb] at h
        cases h
  · rintro ⟨seed, rest, rfl, hs, hk, rfl⟩
    exact decrypt_header_of_le hs hk rest

/-- A string is read as `m` exactly if it is what becomes of `m`, with some seed or none. -/
theorem decrypt_iff_crypt (tm c key m : List Byte) :
    decrypt c key = .ok m ↔ ∃ seed, crypt tm m key seed = .ok c := by
  rw [decrypt_eq_ok_iff]
  constructor
  · rintro ⟨seed, rest, rfl, hs, hk, rfl⟩
    have hback : Feedback.encode (sums key) (· ^^^ ·) blockSize_pos (filled seed) _ = rest :=
      Feedback.encode_decode (length_sums key) xor_xor (filled seed) rest
    exact ⟨some seed, crypt_eq_ok_iff.mpr ⟨hs, hk, congrArg (header seed ++ ·) hback.symm⟩⟩
  · rintro ⟨seed, h⟩
    obtain ⟨hs, hk, rfl⟩ := crypt_eq_ok_iff.mp h
    exact ⟨_, _, rfl, hs, hk, (Feedback.decode_encode (length_sums key) xor_xor _ _).symm⟩

/-- Two strings that have a block and what follows in common are read alike behind that block,
whatever whole blocks and seeds come before. -/
theorem decrypt_resynchronises {key seed seed' p p' y rest m m' : List Byte} {k k' : Nat}
    (hs : seed.length ≤ blockSize) (hs' : seed'.length ≤ blockSize) (hp : p.length = k * blockSize)
    (hp' : p'.length = k' * blockSize) (hy : y.length = blockSize)
    (h : decrypt (header seed ++ (p ++ (y ++ rest))) key = .ok m)
    (h' : decrypt (header seed' ++ (p' ++ (y ++ rest))) key = .ok m') :
    m.drop (p.length + blockSize) = m'.drop (p'.length + blockSize) := by
  rcases Nat.lt_or_ge maxKey key.length with hk | hk
  · rw [decrypt_header hs, initblock_of_gt hk] at h
    cases h
  rw [decrypt_header_of_le hs hk] at h
  rw [decrypt_header_of_le hs' hk] at h'
  cases h
  cases h'
  rw [Feedback.decode_after (length_sums key) (length_filled hs) hp hy,
    Feedback.decode_after (length_sums key) (length_filled hs') hp' hy]

/-- A message behind a block of zeros, received with a seed and a damaged block before it. -/
theorem damaged_resynchronises :
    (Feedback.decode (sums [1]) (· ^^^ ·) blockSize_pos (filled []) (List.replicate 16 0 ++ [7, 8])).drop 16 =
      (Feedback.decode (sums [1]) (· ^^^ ·) blockSize_pos (filled [2])
        (List.replicate 16 5 ++ (List.replicate 16 0 ++ [7, 8]))).drop 32 :=
  @decrypt_resynchronises [1] [] [2] [] (List.replicate 16 5) (List.replicate 16 0) [7, 8] _ _ 0 1 (by decide)
    (by decide) rfl rfl rfl (decrypt_header_of_le (by decide) (by decide) _)
    (decrypt_header_of_le (by decide) (by decide) _)

end GalaLua.Encryption
