import GalaLua.Encryption.Md5
import Mathlib.Data.List.GetD
import Mathlib.Tactic.IntervalCases

/-!
# The published MD5

The sixteen turns of the four passes are the 64 operations of the standard
(`digest_eq_operations`), and the loop hashes the blocks of the padded message,
but for the length: of the 64 bits only 35 are written. So with any function in
the place of `digest` the result is the standard's for every message below 2^32
bytes and, up to the wrap of the length itself, for no other
(`md5With_eq_hash_iff`).
-/

namespace GalaLua.Encryption

open Library

-- ---------------------------------------------------------------------------
-- Passes and operations
-- ---------------------------------------------------------------------------

theorem rotate_eq {s : Nat} (h : s < 32) (d : Word) : rotate d s = d.rotateLeft s := by
  rw [BitVec.rotateLeft_eq_rotateLeftAux_of_lt h]
  rfl

theorem mix_eq {s : Nat} (h : s < 32) (a f x t b : Word) : mix a f x t s b = b + (a + f + x + t).rotateLeft s := by
  rw [mix, rotate_eq h, BitVec.add_comm]

/-- The turns of a pass begin at every fourth word. -/
def Turn (j : Nat) : Prop := j % 4 = 0 ∧ j < 16

theorem shift_of {j p k : Nat} {ss : List Nat} (hj : Turn j) (hk : k < 4) (hs : shifts.getD p [] = ss) :
    shift (j + k + 16 * p) = ss.getD k 0 := by
  obtain ⟨hmod, hlt⟩ := hj
  have hdiv : (j + k + 16 * p) / 16 = p := by omega
  have hrem : (j + k + 16 * p) % 4 = k := by omega
  rw [shift, hdiv, hrem, hs]

/-- A turn of a pass is four operations. -/
theorem passo_eq {f : Word → Word → Word → Word} {idx : Nat → Nat} {p s₀ s₃ s₂ s₁ j : Nat} (hj : Turn j)
    (hf : ∀ k < 4, function (j + k + 16 * p) = f) (hx : ∀ k < 4, index (j + k + 16 * p) = idx (j + k))
    (hs : shifts.getD p [] = [s₀, s₃, s₂, s₁]) (hlt : ∀ s ∈ [s₀, s₃, s₂, s₁], s < 32)
    (m : List Word) (d : Digest) :
    (List.range 4).foldl (fun d k => operation m d (j + k + 16 * p)) d =
      passo f idx (16 * p) s₀ s₃ s₂ s₁ m d j := by
  simp only [List.mem_cons, List.not_mem_nil, or_false, forall_eq_or_imp, forall_eq] at hlt
  obtain ⟨h₀, h₃, h₂, h₁⟩ := hlt
  have hop : ∀ k < 4, ∀ e : Digest, operation m e (j + k + 16 * p) =
      ⟨e.d3, mix e.d0 (f e.d1 e.d2 e.d3) (word m (idx (j + k))) (T (j + k + 16 * p))
        ([s₀, s₃, s₂, s₁].getD k 0) e.d1, e.d1, e.d2⟩ := by
    intro k hk e
    have hsk : [s₀, s₃, s₂, s₁].getD k 0 < 32 := by
      interval_cases k <;> assumption
    rw [operation, hf k hk, hx k hk, shift_of hj hk hs, mix_eq hsk]
  have hrange : List.range 4 = [0, 1, 2, 3] := rfl
  rw [hrange, List.foldl_cons, List.foldl_cons, List.foldl_cons, List.foldl_cons, List.foldl_nil,
    hop 0 (by decide), hop 1 (by decide), hop 2 (by decide), hop 3 (by decide)]
  rfl

theorem mod_sixteen (n : Nat) : n &&& 0x0f = n % 16 := Nat.and_two_pow_sub_one_eq_mod n 4

section
variable {j : Nat} (hj : Turn j) (m : List Word) (d : Digest)
include hj

theorem passo1_eq : (List.range 4).foldl (fun d k => operation m d (j + k + 16 * 0)) d = passo1 m d j := by
  obtain ⟨hmod, hlt⟩ := id hj
  refine passo_eq (p := 0) hj (fun k hk => ?_) (fun k hk => ?_) rfl (by decide) m d
  · rw [function, if_pos (by omega)]
  · rw [index, if_pos (by omega)]
    rfl

theorem passo2_eq : (List.range 4).foldl (fun d k => operation m d (j + k + 16 * 1)) d = passo2 m d j := by
  obtain ⟨hmod, hlt⟩ := id hj
  refine passo_eq (p := 1) hj (fun k hk => ?_) (fun k hk => ?_) rfl (by decide) m d
  · rw [function, if_neg (by omega), if_pos (by omega)]
  · rw [index, if_neg (by omega), if_pos (by omega), mod_sixteen]
    omega

theorem passo3_eq : (List.range 4).foldl (fun d k => operation m d (j + k + 16 * 2)) d = passo3 m d j := by
  obtain ⟨hmod, hlt⟩ := id hj
  refine passo_eq (p := 2) hj (fun k hk => ?_) (fun k hk => ?_) rfl (by decide) m d
  · rw [function, if_neg (by omega), if_neg (by omega), if_pos (by omega)]
  · rw [index, if_neg (by omega), if_neg (by omega), if_pos (by omega), mod_sixteen]
    omega

theorem passo4_eq : (List.range 4).foldl (fun d k => operation m d (j + k + 16 * 3)) d = passo4 m d j := by
  obtain ⟨hmod, hlt⟩ := id hj
  refine passo_eq (p := 3) hj (fun k hk => ?_) (fun k hk => ?_) rfl (by decide) m d
  · rw [function, if_neg (by omega), if_neg (by omega), if_neg (by omega)]
  · rw [index, if_neg (by omega), if_neg (by omega), if_neg (by omega), mod_sixteen]
    omega

end

theorem range_sixtyFour :
    List.range 64 = [0, 1, 2, 3].flatMap fun p => [0, 4, 8, 12].flatMap fun j =>
      (List.range 4).map fun k => j + k + 16 * p := by
  rfl

theorem turns_eq {pass : List Word → Digest → Nat → Digest} {p : Nat} {m : List Word}
    (h : ∀ j, Turn j → ∀ d, (List.range 4).foldl (fun d k => operation m d (j + k + 16 * p)) d = pass m d j)
    (d : Digest) :
    ([0, 4, 8, 12].flatMap fun j => (List.range 4).map fun k => j + k + 16 * p).foldl (operation m) d =
      [0, 4, 8, 12].foldl (pass m) d := by
  simp only [List.foldl_flatMap, List.foldl_map]
  refine List.foldl_ext _ _ _ fun e j hj => h j ?_ e
  simp only [List.mem_cons, List.not_mem_nil, or_false] at hj
  unfold Turn
  omega

theorem digest_eq_operations : digest = operations := by
  funext m d
  rw [operations, range_sixtyFour, List.foldl_flatMap]
  simp only [List.foldl_cons, List.foldl_nil, turns_eq (fun j hj d => passo1_eq hj m d),
    turns_eq (fun j hj d => passo2_eq hj m d), turns_eq (fun j hj d => passo3_eq hj m d),
    turns_eq (fun j hj d => passo4_eq hj m d)]
  rfl

-- ---------------------------------------------------------------------------
-- The words of the last block
-- ---------------------------------------------------------------------------

theorem toNat_glue {x : Word} {n : Nat} (b : Byte) (hx : x.toNat = n) (hn : n < 2 ^ 24) :
    (x <<< 8 ||| b.setWidth 32).toNat = n * 2 ^ 8 + b.toNat := by
  have hb : b.toNat < 2 ^ 8 := b.isLt
  have hshift : (x <<< 8).toNat = n <<< 8 := by
    rw [BitVec.toNat_shiftLeft, hx, Nat.mod_eq_of_lt]
    rw [Nat.shiftLeft_eq]
    omega
  rw [BitVec.toNat_or, hshift, BitVec.toNat_setWidth, Nat.mod_eq_of_lt (a := b.toNat) (by omega),
    ← Nat.shiftLeft_add_eq_or_of_lt hb, Nat.shiftLeft_eq]

theorem toNat_wordAt (pt : List Byte) (i : Nat) :
    (wordAt pt i).toNat =
      ofLowBytes [byte pt (i * 4), byte pt (i * 4 + 1), byte pt (i * 4 + 2), byte pt (i * 4 + 3)] := by
  have h₁ := (byte pt (i * 4 + 1)).isLt
  have h₂ := (byte pt (i * 4 + 2)).isLt
  have h₃ := (byte pt (i * 4 + 3)).isLt
  have htop : ((byte pt (i * 4 + 3)).setWidth 32).toNat = (byte pt (i * 4 + 3)).toNat := by
    rw [BitVec.toNat_setWidth]
    exact Nat.mod_eq_of_lt (by omega)
  have hglue := toNat_glue (byte pt (i * 4)) (toNat_glue (byte pt (i * 4 + 1))
    (toNat_glue (byte pt (i * 4 + 2)) htop (by omega)) (by omega)) (by omega)
  rw [wordAt, hglue]
  simp only [ofLowBytes]
  omega

theorem wordAt_congr {pt pt' : List Byte} {i : Nat} (h : ∀ j < i * 4 + 4, byte pt j = byte pt' j) :
    wordAt pt i = wordAt pt' i := by
  simp only [wordAt, h (i * 4) (by omega), h (i * 4 + 1) (by omega), h (i * 4 + 2) (by omega),
    h (i * 4 + 3) (by omega)]

/-- What is behind the first 56 bytes does not show in the first 14 words. -/
theorem wordAt_front {front : List Byte} (hf : front.length = 56) {i : Nat} (hi : i < 14) (x : List Byte) :
    wordAt (front ++ x) i = wordAt front i := by
  refine wordAt_congr fun j hj => ?_
  rw [byte, byte, List.getD_append _ _ _ _ (by omega)]

theorem bytestoword32_eq (pt : List Byte) :
    bytestoword32 pt = (List.range 14).map (wordAt pt) ++ [wordAt pt 14, wordAt pt 15] := by
  have hrange : List.range 16 = List.range 14 ++ [14, 15] := rfl
  rw [bytestoword32, hrange, List.map_append]
  rfl

theorem byte_tail {front : List Byte} (hf : front.length = 56) (x : List Byte) (k : Nat) :
    byte (front ++ x) (56 + k) = byte x k := by
  rw [byte, byte, List.getD_append_right _ _ _ _ (by omega), hf, Nat.add_sub_cancel_left]

/-- The last two words hold a number of eight bytes. -/
theorem wordAt_lowBytes {front : List Byte} (hf : front.length = 56) (v : Nat) :
    wordAt (front ++ lowBytes 8 v) 14 = BitVec.ofNat 32 v ∧
      wordAt (front ++ lowBytes 8 v) 15 = BitVec.ofNat 32 (v / 2 ^ 32) := by
  have hlow := byte_tail hf (lowBytes 8 v)
  have hdiv : v / 2 ^ 32 = v / 256 / 256 / 256 / 256 := by
    simp only [Nat.div_div_eq_div_mul]
    rfl
  have h14 := toNat_wordAt (front ++ lowBytes 8 v) 14
  have h15 := toNat_wordAt (front ++ lowBytes 8 v) 15
  rw [hlow 0, hlow 1, hlow 2, hlow 3] at h14
  rw [hlow 4, hlow 5, hlow 6, hlow 7] at h15
  constructor
  · apply BitVec.eq_of_toNat_eq
    rw [h14, BitVec.toNat_ofNat]
    exact ofLowBytes_lowBytes 4 v
  · apply BitVec.eq_of_toNat_eq
    rw [h15, BitVec.toNat_ofNat, hdiv]
    exact ofLowBytes_lowBytes 4 _

/-- `put_length` writes 35 bits. -/
theorem putLength_eq {front : List Byte} (hf : front.length = 56) (x : List Byte) (len : Nat) :
    putLength (bytestoword32 (front ++ x)) len =
      bytestoword32 (front ++ lowBytes 8 (8 * (len % 2 ^ 32))) := by
  have hlow : BitVec.ofNat 32 (len <<< 3) = BitVec.ofNat 32 (8 * (len % 2 ^ 32)) := by
    apply BitVec.eq_of_toNat_eq
    rw [BitVec.toNat_ofNat, BitVec.toNat_ofNat, Nat.shiftLeft_eq]
    omega
  have hhigh : BitVec.ofNat 32 (len >>> (32 - 3) &&& 0x7) =
      BitVec.ofNat 32 (8 * (len % 2 ^ 32) / 2 ^ 32) := by
    apply BitVec.eq_of_toNat_eq
    have hand : len >>> (32 - 3) &&& 0x7 = len >>> (32 - 3) % 2 ^ 3 := Nat.and_two_pow_sub_one_eq_mod _ 3
    rw [BitVec.toNat_ofNat, BitVec.toNat_ofNat, hand, Nat.shiftRight_eq_div_pow]
    omega
  obtain ⟨h14, h15⟩ := wordAt_lowBytes hf (8 * (len % 2 ^ 32))
  have hfront : ∀ y : List Byte, (List.range 14).map (wordAt (front ++ y)) = (List.range 14).map (wordAt front) :=
    fun y => List.map_congr_left fun i hi => wordAt_front hf (List.mem_range.mp hi) y
  have hlen : ((List.range 14).map (wordAt front)).length = 14 := by
    rw [List.length_map, List.length_range]
  rw [putLength, bytestoword32_eq, bytestoword32_eq, hfront, hfront, h14, h15, hlow, hhigh,
    List.set_append_right _ _ (by omega), List.set_append_right _ _ (by omega), hlen]
  rfl

-- ---------------------------------------------------------------------------
-- Blocks
-- ---------------------------------------------------------------------------

theorem length_padding (len : Nat) : (padding len).length = 1 + (119 - len % 64) % 64 := by
  rw [padding, List.length_cons, List.length_replicate, Nat.add_comm]

/-- All but the length fills whole blocks and the front of one more. -/
theorem blocks_concat (src : List Byte) :
    ∃ k pre front, pre.length = k * 64 ∧ front.length = 56 ∧ src ++ padding src.length = pre ++ front ∧
      ∀ bits, blocks bits src = MerkleDamgard.cut 64 k pre ++ [front ++ lowBytes 8 bits] := by
  have hlen : (src ++ padding src.length).length = src.length + (1 + (119 - src.length % 64) % 64) := by
    rw [List.length_append, length_padding]
  obtain ⟨k, hk⟩ : ∃ k, (src ++ padding src.length).length = k * 64 + 56 :=
    ⟨(src ++ padding src.length).length / 64, by omega⟩
  have hpre : ((src ++ padding src.length).take (k * 64)).length = k * 64 := by
    rw [List.length_take]
    omega
  have hfront : ((src ++ padding src.length).drop (k * 64)).length = 56 := by
    rw [List.length_drop]
    omega
  refine ⟨k, _, _, hpre, hfront, (List.take_append_drop _ _).symm, fun bits => ?_⟩
  have hblocks : (src ++ padding src.length ++ lowBytes 8 bits).length / 64 = k + 1 := by
    rw [List.length_append, hk, length_lowBytes]
    omega
  rw [← MerkleDamgard.cut_concat 64 hpre (by rw [List.length_append, hfront, length_lowBytes]),
    ← List.append_assoc, List.take_append_drop, blocks, hblocks]

theorem padding_of_le {n : Nat} (h : n ≤ 55) : padding n = 0x80 :: List.replicate (55 - n) 0 := by
  have hzeros : (119 - n % 64) % 64 = 55 - n := by omega
  rw [padding, hzeros]

theorem blocks_of_le {src : List Byte} (h : src.length ≤ 55) (bits : Nat) :
    blocks bits src = [src ++ padding src.length ++ lowBytes 8 bits] := by
  have hlen : (src ++ padding src.length ++ lowBytes 8 bits).length = 64 := by
    rw [List.length_append, List.length_append, length_padding, length_lowBytes]
    omega
  rw [blocks, hlen]
  exact congrArg (fun b => [b]) (List.take_of_length_le (Nat.le_of_eq hlen))

theorem blocks_of_lt {src : List Byte} (h : 56 ≤ src.length) (hlt : src.length < 64) (bits : Nat) :
    blocks bits src = [src ++ 0x80 :: List.replicate (63 - src.length) 0,
      List.replicate 56 0 ++ lowBytes 8 bits] := by
  have hzeros : (119 - src.length % 64) % 64 = (63 - src.length) + 56 := by omega
  have hpad : src ++ padding src.length ++ lowBytes 8 bits =
      (src ++ 0x80 :: List.replicate (63 - src.length) 0) ++ (List.replicate 56 0 ++ lowBytes 8 bits) := by
    rw [padding, hzeros, List.replicate_add, ← List.cons_append, ← List.append_assoc, List.append_assoc]
  have hfirst : (src ++ 0x80 :: List.replicate (63 - src.length) (0 : Byte)).length = 64 := by
    rw [List.length_append, List.length_cons, List.length_replicate]
    omega
  have hlast : (List.replicate 56 0 ++ lowBytes 8 bits).length = 64 := by
    rw [List.length_append, List.length_replicate, length_lowBytes]
  have hlen : (src ++ padding src.length ++ lowBytes 8 bits).length / 64 = 1 + 1 := by
    rw [hpad, List.length_append, hfirst, hlast]
  rw [blocks, hlen, hpad, MerkleDamgard.cut_cons 64 hfirst]
  exact congrArg (fun b => [_, b]) (List.take_of_length_le (Nat.le_of_eq hlast))

theorem blocks_of_ge {src : List Byte} (h : 64 ≤ src.length) (bits : Nat) :
    blocks bits src = src.take 64 :: blocks bits (src.drop 64) := by
  have hfirst : (src.take 64).length = 64 := List.length_take_of_le h
  have hpad : padding src.length = padding (src.drop 64).length := by
    have hmod : src.length % 64 = (src.length - 64) % 64 := by omega
    rw [padding, padding, List.length_drop, hmod]
  have hsplit : src ++ padding src.length ++ lowBytes 8 bits =
      src.take 64 ++ (src.drop 64 ++ padding (src.drop 64).length ++ lowBytes 8 bits) := by
    rw [← hpad, ← List.append_assoc, ← List.append_assoc, List.take_append_drop]
  rw [blocks, hsplit, List.length_append, hfirst, Nat.add_comm, Nat.add_div_right _ (by decide),
    MerkleDamgard.cut_cons 64 hfirst, blocks]

-- ---------------------------------------------------------------------------
-- The loop
-- ---------------------------------------------------------------------------

theorem set_zero (pt : List Byte) (k : Nat) :
    (pt ++ List.replicate (k + 1) 0).set pt.length 0x80 = pt ++ 0x80 :: List.replicate k 0 := by
  rw [List.set_append_right _ _ (Nat.le_refl _), Nat.sub_self, List.replicate_succ, List.set_cons_zero]

theorem converte_full {pt : List Byte} (h : pt.length = 64) (s : Status) :
    converte pt s = (bytestoword32 pt, .full) := by
  simp only [converte, h]
  rfl

theorem converte_part {pt : List Byte} (h : pt.length < 64) :
    converte pt .full = (bytestoword32 (pt ++ 0x80 :: List.replicate (63 - pt.length) 0),
      if pt.length ≤ 55 then .length else .mark) := by
  have hroom : 64 - pt.length = 63 - pt.length + 1 := by omega
  simp only [converte, if_pos h, if_true, hroom, set_zero]

section
variable {g : List Word → Digest → Digest} {len : Nat}

theorem md5Loop_done {src : List Byte} {s : Status} (h : (converte (src.take 64) s).2 = .length) (d : Digest) :
    md5Loop g len src s d = (g (putLength (converte (src.take 64) s).1 len) d).add d := by
  rw [md5Loop, dif_pos h, wbuff, if_pos h]

theorem md5Loop_again {src : List Byte} {s : Status} (h : (converte (src.take 64) s).2 ≠ .length) (d : Digest) :
    md5Loop g len src s d = md5Loop g len (src.drop 64) (converte (src.take 64) s).2
      ((g (converte (src.take 64) s).1 d).add d) := by
  rw [md5Loop, dif_neg h, wbuff, if_neg h]

theorem md5Loop_eq (src : List Byte) (d : Digest) :
    md5Loop g len src .full d =
      MerkleDamgard.chain (compress g) d (blocks (8 * (len % 2 ^ 32)) src) := by
  induction hn : src.length using Nat.strongRecOn generalizing src d with
  | _ n ih =>
    subst hn
    rcases Nat.lt_or_ge src.length 64 with hlt | hge
    · have htake : src.take 64 = src := List.take_of_length_le (by omega)
      have hpart := converte_part hlt
      rcases Nat.lt_or_ge src.length 56 with hle | hmid
      · -- the mark and the length are in one block
        have hfront : (src ++ padding src.length).length = 56 := by
          rw [List.length_append, length_padding]
          omega
        have hzeros : 63 - src.length = 55 - src.length + 8 := by omega
        have hblock : src ++ 0x80 :: List.replicate (63 - src.length) 0 =
            (src ++ padding src.length) ++ List.replicate 8 0 := by
          rw [padding_of_le (by omega), hzeros, List.replicate_add, List.append_assoc, List.cons_append]
        rw [if_pos (by omega), hblock] at hpart
        rw [md5Loop_done (by rw [htake, hpart]), htake, hpart, putLength_eq hfront, blocks_of_le (by omega)]
        rfl
      · -- the length is in a block of its own
        rw [if_neg (by omega)] at hpart
        have hdrop : src.drop 64 = [] := List.drop_eq_nil_of_le (by omega)
        have hrest : converte [] .mark = (bytestoword32 (List.replicate 56 0 ++ List.replicate 8 0), .length) := rfl
        rw [md5Loop_again (by rw [htake, hpart]; exact Status.noConfusion), htake, hpart, hdrop,
          md5Loop_done (by rw [List.take_nil, hrest]), List.take_nil, hrest,
          putLength_eq (List.length_replicate), blocks_of_lt hmid hlt]
        rfl
    · have hfull := converte_full (List.length_take_of_le hge) .full
      have hshort : (src.drop 64).length < src.length := by
        rw [List.length_drop]
        omega
      rw [md5Loop_again (by rw [hfull]; exact Status.noConfusion), hfull, blocks_of_ge hge,
        MerkleDamgard.chain_cons, ih _ hshort _ _ rfl]
      rfl

theorem md5With_eq (src : List Byte) :
    md5With g src = word32tobytes (MerkleDamgard.chain (compress g) inicDigest
      (blocks (8 * (src.length % 2 ^ 32)) src)) := by
  rw [md5With, md5Loop_eq]

theorem md5With_of_lt {src : List Byte} (h : src.length < 2 ^ 32) : md5With g src = hash g src := by
  rw [md5With_eq, Nat.mod_eq_of_lt h, hash]

end

-- ---------------------------------------------------------------------------
-- The length
-- ---------------------------------------------------------------------------

theorem word32tobytes_injective : Function.Injective word32tobytes := by
  rintro ⟨a, b, c, d⟩ ⟨a', b', c', d'⟩ h
  have hword : ∀ {v w : Word}, lowBytes 4 v.toNat = lowBytes 4 w.toNat → v = w := by
    intro v w hvw
    have hv := v.isLt
    have hw := w.isLt
    rw [lowBytes_eq_iff] at hvw
    apply BitVec.eq_of_toNat_eq
    omega
  simp only [word32tobytes, List.flatMap_cons, List.flatMap_nil, List.append_nil] at h
  obtain ⟨ha, h⟩ := List.append_inj h (by simp only [length_lowBytes])
  obtain ⟨hb, h⟩ := List.append_inj h (by simp only [length_lowBytes])
  obtain ⟨hc, hd⟩ := List.append_inj h (by simp only [length_lowBytes])
  rw [hword ha, hword hb, hword hc, hword hd]

/-- In the place of `digest`, it leaves the last word of the block. -/
def lastWord (x : List Word) (d : Digest) : Digest := ⟨word x 15 - d.d0, -d.d1, -d.d2, -d.d3⟩

theorem compress_lastWord (d : Digest) {front : List Byte} (hf : front.length = 56) (v : Nat) :
    compress lastWord d (front ++ lowBytes 8 v) = ⟨BitVec.ofNat 32 (v / 2 ^ 32), 0, 0, 0⟩ := by
  have hword : word (bytestoword32 (front ++ lowBytes 8 v)) 15 = BitVec.ofNat 32 (v / 2 ^ 32) :=
    (wordAt_lowBytes hf v).2
  simp only [compress, lastWord, Digest.add, hword, BitVec.sub_add_cancel, BitVec.add_left_neg]
  rfl

/-- With any function in the place of `digest` the loop computes the standard's hash, exactly if
the length is below 2^32 (a length in bits is counted modulo 2^64). -/
theorem md5With_eq_hash_iff (src : List Byte) :
    (∀ g, md5With g src = hash g src) ↔ src.length % 2 ^ 61 < 2 ^ 32 := by
  obtain ⟨k, pre, front, -, hf, -, hblocks⟩ := blocks_concat src
  constructor
  · intro h
    have hlast := word32tobytes_injective ((md5With_eq src).symm.trans (h lastWord))
    rw [hblocks, hblocks, MerkleDamgard.chain_concat, MerkleDamgard.chain_concat, compress_lastWord _ hf,
      compress_lastWord _ hf] at hlast
    have hnat := congrArg BitVec.toNat (Digest.mk.inj hlast).1
    rw [BitVec.toNat_ofNat, BitVec.toNat_ofNat] at hnat
    omega
  · intro h g
    have hbits : lowBytes 8 (8 * (src.length % 2 ^ 32)) = lowBytes 8 (8 * src.length) := by
      rw [lowBytes_eq_iff]
      omega
    rw [md5With_eq, hash, hblocks, hblocks, hbits]

theorem md5_eq_rfc1321 {src : List Byte} (h : src.length < 2 ^ 32) : md5 src = rfc1321 src := by
  rw [md5, md5With_of_lt h, digest_eq_operations, rfc1321]

theorem abc_eq_rfc1321 : md5 [0x61, 0x62, 0x63] = rfc1321 [0x61, 0x62, 0x63] := md5_eq_rfc1321 (by decide)

example : md5 [0x61, 0x62, 0x63] = [0x90, 0x01, 0x50, 0x98, 0x3c, 0xd2, 0x4f, 0xb0,
    0xd6, 0x96, 0x3f, 0x7d, 0x28, 0xe1, 0x7f, 0x72] := by decide +kernel

-- ---------------------------------------------------------------------------
-- Collisions
-- ---------------------------------------------------------------------------

/-- Different messages have blocks of which neither list ends in the other. -/
theorem blocks_not_suffix {a b : List Byte} (ha : a.length < 2 ^ 32) (hb : b.length < 2 ^ 32) (hne : a ≠ b) :
    ¬blocks (8 * a.length) a <:+ blocks (8 * b.length) b := by
  obtain ⟨k, pre, front, hpre, hf, hsplit, hblocks⟩ := blocks_concat a
  obtain ⟨k', pre', front', hpre', hf', hsplit', hblocks'⟩ := blocks_concat b
  rw [hblocks, hblocks']
  by_cases hlen : a.length = b.length
  · -- as many blocks, with other bytes in them
    have hk : k = k' := by
      have h := congrArg List.length hsplit
      have h' := congrArg List.length hsplit'
      rw [List.length_append, List.length_append, hpre, hf, length_padding] at h
      rw [List.length_append, List.length_append, hpre', hf', length_padding] at h'
      omega
    subst hk
    refine MerkleDamgard.not_suffix_of_length (by simp only [List.length_append, MerkleDamgard.length_cut,
      List.length_singleton]) fun heq => hne ?_
    obtain ⟨hcut, hlast⟩ := List.append_inj' heq rfl
    have hpres := congrArg List.flatten hcut
    rw [MerkleDamgard.flatten_cut 64 hpre, MerkleDamgard.flatten_cut 64 hpre'] at hpres
    have hfronts := List.append_inj_left (List.cons.inj hlast).1 (hf.trans hf'.symm)
    have hall : a ++ padding a.length = b ++ padding b.length := by rw [hsplit, hsplit', hpres, hfronts]
    exact List.append_inj_left hall hlen
  · -- another length at the end
    refine MerkleDamgard.not_suffix_of_last fun heq => hlen ?_
    have hbits := List.append_inj_right heq (hf.trans hf'.symm)
    rw [lowBytes_eq_iff] at hbits
    omega

/-- From two messages with one sum the blocks lead back to two inputs of the compression with one
output. -/
theorem md5_collision {a b : List Byte} (ha : a.length < 2 ^ 32) (hb : b.length < 2 ^ 32) (hne : a ≠ b)
    (h : md5 a = md5 b) :
    MerkleDamgard.Collide (compress digest) inicDigest (blocks (8 * a.length) a) (blocks (8 * b.length) b) := by
  rw [md5, md5, md5With_of_lt ha, md5With_of_lt hb] at h
  exact MerkleDamgard.collide_of_chain_eq (blocks_not_suffix ha hb hne) (blocks_not_suffix hb ha hne.symm)
    (word32tobytes_injective h)

/-- Two messages with one sum. -/
def oneMessage : List Byte :=
  [0xd1, 0x31, 0xdd, 0x02, 0xc5, 0xe6, 0xee, 0xc4, 0x69, 0x3d, 0x9a, 0x06, 0x98, 0xaf, 0xf9, 0x5c,
   0x2f, 0xca, 0xb5, 0x87, 0x12, 0x46, 0x7e, 0xab, 0x40, 0x04, 0x58, 0x3e, 0xb8, 0xfb, 0x7f, 0x89,
   0x55, 0xad, 0x34, 0x06, 0x09, 0xf4, 0xb3, 0x02, 0x83, 0xe4, 0x88, 0x83, 0x25, 0x71, 0x41, 0x5a,
   0x08, 0x51, 0x25, 0xe8, 0xf7, 0xcd, 0xc9, 0x9f, 0xd9, 0x1d, 0xbd, 0xf2, 0x80, 0x37, 0x3c, 0x5b,
   0xd8, 0x82, 0x3e, 0x31, 0x56, 0x34, 0x8f, 0x5b, 0xae, 0x6d, 0xac, 0xd4, 0x36, 0xc9, 0x19, 0xc6,
   0xdd, 0x53, 0xe2, 0xb4, 0x87, 0xda, 0x03, 0xfd, 0x02, 0x39, 0x63, 0x06, 0xd2, 0x48, 0xcd, 0xa0,
   0xe9, 0x9f, 0x33, 0x42, 0x0f, 0x57, 0x7e, 0xe8, 0xce, 0x54, 0xb6, 0x70, 0x80, 0xa8, 0x0d, 0x1e,
   0xc6, 0x98, 0x21, 0xbc, 0xb6, 0xa8, 0x83, 0x93, 0x96, 0xf9, 0x65, 0x2b, 0x6f, 0xf7, 0x2a, 0x70]

def anotherMessage : List Byte :=
  [0xd1, 0x31, 0xdd, 0x02, 0xc5, 0xe6, 0xee, 0xc4, 0x69, 0x3d, 0x9a, 0x06, 0x98, 0xaf, 0xf9, 0x5c,
   0x2f, 0xca, 0xb5, 0x07, 0x12, 0x46, 0x7e, 0xab, 0x40, 0x04, 0x58, 0x3e, 0xb8, 0xfb, 0x7f, 0x89,
   0x55, 0xad, 0x34, 0x06, 0x09, 0xf4, 0xb3, 0x02, 0x83, 0xe4, 0x88, 0x83, 0x25, 0xf1, 0x41, 0x5a,
   0x08, 0x51, 0x25, 0xe8, 0xf7, 0xcd, 0xc9, 0x9f, 0xd9, 0x1d, 0xbd, 0x72, 0x80, 0x37, 0x3c, 0x5b,
   0xd8, 0x82, 0x3e, 0x31, 0x56, 0x34, 0x8f, 0x5b, 0xae, 0x6d, 0xac, 0xd4, 0x36, 0xc9, 0x19, 0xc6,
   0xdd, 0x53, 0xe2, 0x34, 0x87, 0xda, 0x03, 0xfd, 0x02, 0x39, 0x63, 0x06, 0xd2, 0x48, 0xcd, 0xa0,
   0xe9, 0x9f, 0x33, 0x42, 0x0f, 0x57, 0x7e, 0xe8, 0xce, 0x54, 0xb6, 0x70, 0x80, 0x28, 0x0d, 0x1e,
   0xc6, 0x98, 0x21, 0xbc, 0xb6, 0xa8, 0x83, 0x93, 0x96, 0xf9, 0x65, 0xab, 0x6f, 0xf7, 0x2a, 0x70]

theorem messages_collision :
    MerkleDamgard.Collide (compress digest) inicDigest (blocks (8 * oneMessage.length) oneMessage)
      (blocks (8 * anotherMessage.length) anotherMessage) :=
  md5_collision (by decide +kernel) (by decide +kernel)
    (by decide +kernel) (by decide +kernel)

end GalaLua.Encryption
