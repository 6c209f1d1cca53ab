import GalaLua.AMQ.CheckSum

/-!
# What the check accepts

A header that `Init` wrote, over parts with the masks and counts that `Init`
wrote, passes. After a change of one word an exception is thrown, provided
that the check does not leave the mapped memory: it follows the offsets, and
compares what is there, before it compares the checksum.
-/

namespace GalaLua.AMQ

open Library.OnesComplement

def Throws (r : Except Failure Unit) : Prop := ∃ msg, r = .error (.exception msg)

theorem require_eq_ok {cs : List (Bool × String)} (h : ∀ c ∈ cs, c.1) : require cs = .ok () := by
  induction cs with
  | nil => rfl
  | cons c cs ih =>
    rw [require, if_pos (h c List.mem_cons_self)]
    exact ih fun c' hc => h c' (List.mem_cons_of_mem _ hc)

theorem require_cases (cs : List (Bool × String)) : require cs = .ok () ∨ Throws (require cs) := by
  induction cs with
  | nil => exact .inl rfl
  | cons c cs ih =>
    rw [require]
    split
    · exact ih
    · exact .inr ⟨_, rfl⟩

theorem Throws.of_require {cs : List (Bool × String)} {f : Unit → Except Failure Unit}
    (h : Throws (f ())) : Throws (require cs >>= f) := by
  rcases require_cases cs with hok | ⟨msg, hmsg⟩
  · rw [hok]
    exact h
  · rw [hmsg]
    exact ⟨msg, rfl⟩

-- ---------------------------------------------------------------------------
-- What is read
-- ---------------------------------------------------------------------------

/-- All comparisons up to the first that fails read mapped memory. -/
def Image.Inside (m : Image) (cs : List Comparison) : Prop :=
  ∀ cs₁ c cs₂, cs = cs₁ ++ c :: cs₂ → (∀ c' ∈ cs₁, c'.Holds m) → c.Within m

section

variable {m : Image} {c : Comparison} {cs : List Comparison}

theorem inside_of_within (h : ∀ c ∈ cs, c.Within m) : m.Inside cs := by
  rintro cs₁ c cs₂ rfl -
  exact h c (by simp)

theorem inside_cons : m.Inside (c :: cs) ↔ c.Within m ∧ (c.Holds m → m.Inside cs) := by
  constructor
  · refine fun h => ⟨h [] c cs rfl (List.forall_mem_nil _), fun hc => ?_⟩
    rintro cs₁ d cs₂ rfl hcs
    exact h (c :: cs₁) d cs₂ rfl (List.forall_mem_cons.mpr ⟨hc, hcs⟩)
  · rintro ⟨hc, hrest⟩ cs₁ d cs₂ heq hcs
    rcases cs₁ with _ | ⟨c', cs₁⟩
    · obtain ⟨rfl, -⟩ := List.cons.inj heq
      exact hc
    · obtain ⟨rfl, rfl⟩ := List.cons.inj heq
      obtain ⟨hhead, htail⟩ := List.forall_mem_cons.mp hcs
      exact hrest hhead cs₁ d cs₂ rfl htail

theorem expect_eq_ok (h : ∀ c ∈ cs, c.Within m ∧ c.Holds m) : m.expect cs = .ok () := by
  induction cs with
  | nil => rfl
  | cons c cs ih =>
    obtain ⟨⟨hin, hc⟩, hrest⟩ := List.forall_mem_cons.mp h
    rw [Image.expect, if_pos hin, if_pos hc]
    exact ih hrest

theorem expect_cases (h : m.Inside cs) : m.expect cs = .ok () ∨ Throws (m.expect cs) := by
  induction cs with
  | nil => exact .inl rfl
  | cons c cs ih =>
    obtain ⟨hin, hrest⟩ := inside_cons.mp h
    rw [Image.expect, if_pos hin]
    split
    · next hc => exact ih (hrest hc)
    · exact .inr ⟨_, rfl⟩

theorem expect_outside (h : ¬m.Inside cs) : m.expect cs = .error .outside := by
  induction cs with
  | nil => exact absurd (inside_of_within (List.forall_mem_nil _)) h
  | cons c cs ih =>
    rw [Image.expect]
    split
    · next hin =>
      have hrest : ¬(c.Holds m → m.Inside cs) := fun hrest => h (inside_cons.mpr ⟨hin, hrest⟩)
      obtain ⟨hc, hout⟩ := Classical.not_imp.mp hrest
      rw [if_pos hc]
      exact ih hout
    · rfl

theorem Throws.of_expect {f : Unit → Except Failure Unit} (hin : m.Inside cs) (h : Throws (f ())) :
    Throws (m.expect cs >>= f) := by
  rcases expect_cases hin with hok | ⟨msg, hmsg⟩
  · rw [hok]
    exact h
  · rw [hmsg]
    exact ⟨msg, rfl⟩

/-- A mask that is read whole is read byte by byte. -/
theorem maskAt_holds {x : Int} {mask : List (BitVec 8)} {msg : String}
    (h : m.read x mask.length = mask) : ∀ c ∈ maskAt x mask msg, c.Holds m := by
  intro c hc
  obtain ⟨⟨b, i⟩, hb, rfl⟩ := List.mem_map.mp hc
  obtain ⟨hi, hbyte⟩ : ∃ hi : i < mask.length, mask[i] = b :=
    List.getElem?_eq_some_iff.mp (List.mem_zipIdx_iff_getElem?.mp hb)
  have hread : m.byte (x + i) = b := by
    rw [← hbyte, ← List.getElem_of_eq h (by simpa [Image.read] using hi)]
    simp [Image.read]
  simp [Comparison.Holds, Image.read, hread]

theorem read_over {h : CSQInfor} {x : Int} {n : Nat} (hx : 232 ≤ x) :
    (h.over m).read x n = m.read x n := by
  refine List.map_congr_left fun i _ => if_neg ?_
  omega

end

/-- A header with a wrong checksum is refused, whatever the parts contain. -/
theorem check_throws {P : Platform} {h : CSQInfor} {m : Image}
    (hin : (h.over m).Inside (P.objectChecks h)) (hcs : Platform.checksChecksum h = false) :
    Throws (P.check h m) := by
  unfold Platform.check
  refine .of_require (.of_expect hin (.of_require ?_))
  rw [hcs]
  exact ⟨_, rfl⟩

-- ---------------------------------------------------------------------------
-- Where the parts are
-- ---------------------------------------------------------------------------

/-- The size of the object at the beginning of a part. -/
def Platform.object (P : Platform) : Pos → Nat
  | .qArray => P.suiteArray
  | .pooler => P.pooler
  | .allocator => P.allocator

theorem maskAt_place {x : Int} {mask : List (BitVec 8)} {msg : String} {c : Comparison}
    (hlen : mask.length = 4) (hc : c ∈ maskAt x mask msg) :
    x ≤ c.place ∧ c.place + c.length ≤ x + 4 := by
  obtain ⟨⟨b, i⟩, hb, rfl⟩ := List.mem_map.mp hc
  have hi := (List.getElem?_eq_some_iff.mp (List.mem_zipIdx_iff_getElem?.mp hb)).1
  dsimp only at hi ⊢
  omega

/-- What is compared lies in the objects. -/
theorem objectChecks_place {P : Platform} {h : CSQInfor} {c : Comparison}
    (hc : c ∈ P.objectChecks h) :
    ∃ p, h.partAt p ≤ c.place ∧ c.place + c.length ≤ h.partAt p + P.object p := by
  have := P.suiteArray_le
  have := P.allocatorLock_le
  have := P.allocatorList_le
  have := P.pageArrayAt_le
  have := P.allocator_le
  have := P.lockedListAt_le
  have := P.poolerLock_le
  have := P.poolerList_le
  have := P.nodeArrayAt_le
  have := P.pooler_le
  simp only [Platform.objectChecks, Platform.checkAllocator, Platform.checkPooler,
    Platform.checkQArray, List.mem_append, List.mem_cons, List.not_mem_nil, or_false] at hc
  rcases hc with (((hc | hc) | (hc | hc) | hc) | hc) | rfl | rfl | rfl | rfl
  · have hat := maskAt_place rfl hc
    exact ⟨.allocator, by omega, by simp only [Platform.object]; omega⟩
  · have hat := maskAt_place rfl hc
    exact ⟨.allocator, by omega, by simp only [Platform.object]; omega⟩
  · have hat := maskAt_place rfl hc
    exact ⟨.pooler, by omega, by simp only [Platform.object]; omega⟩
  · have hat := maskAt_place rfl hc
    exact ⟨.pooler, by omega, by simp only [Platform.object]; omega⟩
  · have hat := maskAt_place rfl hc
    exact ⟨.pooler, by omega, by simp only [Platform.object]; omega⟩
  · have hat := maskAt_place rfl hc
    exact ⟨.qArray, by omega, by simp only [Platform.object]; omega⟩
  · exact ⟨.qArray, by dsimp only; omega, by simp only [Platform.object]; omega⟩
  · exact ⟨.pooler, by dsimp only; omega, by simp only [Platform.object]; omega⟩
  · exact ⟨.allocator, by dsimp only; omega, by simp only [Platform.object]; omega⟩
  · exact ⟨.allocator, by dsimp only; omega, by simp only [Platform.object]; omega⟩

namespace CSQInfor

variable {P : Platform} {a : Arguments} {createDate : BitVec 64} {h : CSQInfor}

/-- The word at which the offset of a part begins. -/
def offsetAt : Pos → Nat
  | .qArray => 104
  | .pooler => 108
  | .allocator => 112

theorem offset_set {p : Pos} {i : Nat} (w : BitVec 16) (h₀ : i ≠ offsetAt p)
    (h₁ : i ≠ offsetAt p + 1) : (h.set i w).offset p = h.offset p := by
  cases p <;> simp only [offset, uint, offsetAt] at h₀ h₁ ⊢ <;>
    rw [word_set _ _ h₀.symm, word_set _ _ h₁.symm]

theorem partAt_set {p : Pos} {i : Nat} (w : BitVec 16) (h₀ : i ≠ offsetAt p)
    (h₁ : i ≠ offsetAt p + 1) : (h.set i w).partAt p = h.partAt p := by
  cases p <;> simp only [partAt, offset_set w h₀ h₁]

theorem uint_init {i : Nat} (hi : i ∉ [29, 30, 31]) :
    (init P a createDate).uint i = (draft P a createDate).uint i := by
  simp only [List.mem_cons, List.not_mem_nil, or_false, not_or] at hi
  rw [init, uint, uint, word_setCheckSum _ _ (by omega) (by omega),
    word_setCheckSum _ _ (by omega) (by omega)]

theorem word_init {i : Nat} (hi : i ∉ [30, 31]) :
    (init P a createDate).word i = (draft P a createDate).word i := by
  simp only [List.mem_cons, List.not_mem_nil, or_false, not_or] at hi
  rw [init, word_setCheckSum _ _ hi.1 hi.2]

theorem word_front {i : Nat} (hi : i < 30) :
    (draft P a createDate).word i = (front P a).getD i 0 := by
  show (front P a ++ uintWords 0xFFFFFFFF ++ back P a createDate).getD i 0 = _
  rw [List.append_assoc, List.getD_append _ _ _ _ hi]

theorem word_back (i : Nat) :
    (draft P a createDate).word (32 + i) = (back P a createDate).getD i 0 := by
  have hlen : (front P a ++ uintWords 0xFFFFFFFF).length = 32 := rfl
  unfold word draft
  rw [List.getD_append_right _ _ _ _ (by omega), hlen, Nat.add_sub_cancel_left]

theorem word_parts (i : Nat) : (draft P a createDate).word (104 + i) =
    ([.qArray, .pooler, .allocator].flatMap fun p : Pos =>
      uintWords (a.offset P.toAbi p).offset ++ uintWords (a.offset P.toAbi p).size).getD i 0 := by
  have hlen : (uint64Words createDate ++ [author[1] ++ author[0], author[3] ++ author[2],
      author[5] ++ author[4], author[7] ++ author[6]] ++ List.replicate 64 0).length = 72 := rfl
  rw [show 104 + i = 32 + (72 + i) by omega, word_back, back,
    List.getD_append_right _ _ _ _ (by omega), hlen, Nat.add_sub_cancel_left]

theorem uint_front {i : Nat} (hi : i < 29) :
    (init P a createDate).uint i = (front P a).getD (i + 1) 0 ++ (front P a).getD i 0 := by
  rw [uint_init (by simp only [List.mem_cons, List.not_mem_nil, or_false]; omega), uint,
    word_front (by omega), word_front (by omega)]

theorem uint_parts (i : Nat) {n : BitVec 32}
    (h₀ : (draft P a createDate).word (104 + i) = n.setWidth 16)
    (h₁ : (draft P a createDate).word (104 + i + 1) = (n >>> 16).setWidth 16) :
    (init P a createDate).uint (104 + i) = n := by
  rw [uint_init (by simp only [List.mem_cons, List.not_mem_nil, or_false]; omega), uint, h₀, h₁]
  exact append_parts n

theorem offset_init (p : Pos) : (init P a createDate).offset p = (a.offset P.toAbi p).offset := by
  cases p with
  | qArray => exact uint_parts 0 (word_parts 0) (word_parts 1)
  | pooler => exact uint_parts 4 (word_parts 4) (word_parts 5)
  | allocator => exact uint_parts 8 (word_parts 8) (word_parts 9)

theorem size_init (p : Pos) : (init P a createDate).size p = (a.offset P.toAbi p).size := by
  cases p with
  | qArray => exact uint_parts 2 (word_parts 2) (word_parts 3)
  | pooler => exact uint_parts 6 (word_parts 6) (word_parts 7)
  | allocator => exact uint_parts 10 (word_parts 10) (word_parts 11)

end CSQInfor

-- ---------------------------------------------------------------------------
-- The header that was written
-- ---------------------------------------------------------------------------

open CSQInfor

variable {P : Platform} {a : Arguments} {createDate : BitVec 64} {h : CSQInfor} {m : Image}

theorem low_init {i : Nat} (hi : i ∉ [30, 31]) :
    (init P a createDate).low i = ((draft P a createDate).word i).setWidth 8 := by
  rw [low, word_init hi]

theorem high_init {i : Nat} (hi : i ∉ [30, 31]) :
    (init P a createDate).high i = ((draft P a createDate).word i >>> 8).setWidth 8 := by
  rw [high, word_init hi]

theorem uchk_init {i : Nat} (hi : i < 16) :
    (init P a createDate).word (6 + i) = P.uchk.getD i 0 := by
  have hfront : front P a = [P.long ++ MQ_MAGIC, MQ_VERSION ++ P.align] ++ uintWords 1 ++
      uintWords (mqEvaluate P.toAbi a.queues a.nodes a.pages a.pageSize) ++
        (P.uchk ++ (uintWords a.queues ++ uintWords a.nodes ++ uintWords a.pages ++
          uintWords (a.pageSize.setWidth 32))) := by
    simp only [front, List.append_assoc]
  have hlen : ([P.long ++ MQ_MAGIC, MQ_VERSION ++ P.align] ++ uintWords 1 ++
      uintWords (mqEvaluate P.toAbi a.queues a.nodes a.pages a.pageSize)).length = 6 := rfl
  have hmasks : P.uchk.length = 16 := rfl
  rw [word_init (by simp only [List.mem_cons, List.not_mem_nil, or_false]; omega),
    word_front (by omega), hfront, List.getD_append_right _ _ _ _ (by omega), hlen,
    Nat.add_sub_cancel_left, List.getD_append _ _ _ _ (hi.trans_eq hmasks.symm)]

theorem author_init :
    [(init P a createDate).low 36, (init P a createDate).high 36, (init P a createDate).low 37,
      (init P a createDate).high 37, (init P a createDate).low 38, (init P a createDate).high 38,
      (init P a createDate).low 39, (init P a createDate).high 39] = author := by
  have hword : ∀ i ∉ [30, 31], ∀ b c : BitVec 8, (draft P a createDate).word i = c ++ b →
      (init P a createDate).low i = b ∧ (init P a createDate).high i = c := by
    intro i hi b c heq
    rw [low_init hi, high_init hi, heq]
    exact ⟨lower_append _ _, upper_append _ _⟩
  obtain ⟨h₀, h₁⟩ := hword 36 (by decide) author[0] author[1] (word_back 4)
  obtain ⟨h₂, h₃⟩ := hword 37 (by decide) author[2] author[3] (word_back 5)
  obtain ⟨h₄, h₅⟩ := hword 38 (by decide) author[4] author[5] (word_back 6)
  obtain ⟨h₆, h₇⟩ := hword 39 (by decide) author[6] author[7] (word_back 7)
  rw [h₀, h₁, h₂, h₃, h₄, h₅, h₆, h₇]
  rfl

theorem headerChecks_init : ∀ c ∈ P.headerChecks (init P a createDate), c.1 := by
  intro c hc
  simp only [Platform.headerChecks, List.mem_append, List.mem_cons, List.not_mem_nil, or_false,
    List.mem_map, List.mem_range] at hc
  rcases hc with ((rfl | rfl | rfl | rfl | rfl) | ⟨i, hi, rfl⟩) | rfl <;> rw [beq_iff_eq]
  · exact (low_init (by decide)).trans (lower_append _ _)
  · exact (high_init (by decide)).trans (upper_append _ _)
  · exact (low_init (by decide)).trans (lower_append _ _)
  · exact (high_init (by decide)).trans (upper_append _ _)
  · exact (uint_front (by decide)).trans (append_parts _)
  · exact uchk_init hi
  · exact author_init

theorem headerChecks_set {i : Nat} (hi : 40 ≤ i) (w : BitVec 16) :
    P.headerChecks (h.set i w) = P.headerChecks h := by
  have hword : ∀ j < 40, (h.set i w).word j = h.word j := fun j hj => word_set _ _ (by omega)
  have huchk : ((List.range 16).map fun j =>
        ((h.set i w).word (6 + j) == P.uchk.getD j 0, Platform.uchkMessages.getD j "")) =
      (List.range 16).map fun j =>
        (h.word (6 + j) == P.uchk.getD j 0, Platform.uchkMessages.getD j "") := by
    refine List.map_congr_left fun j hj => ?_
    rw [hword _ (by have := List.mem_range.mp hj; omega)]
  unfold Platform.headerChecks
  rw [huchk]
  simp only [low, high, uint, hword _ (show 0 < 40 by decide), hword _ (show 1 < 40 by decide),
    hword _ (show 2 < 40 by decide), hword _ (show 2 + 1 < 40 by decide),
    hword _ (show 36 < 40 by decide), hword _ (show 37 < 40 by decide),
    hword _ (show 38 < 40 by decide), hword _ (show 39 < 40 by decide)]

-- ---------------------------------------------------------------------------
-- The parts that were written
-- ---------------------------------------------------------------------------

/-- The media is mapped, and the masks and counts are where `Init` puts them. -/
structure Marked (P : Platform) (a : Arguments) (m : Image) : Prop where
  size : (a.config P.toAbi).total ≤ m.size
  marks : ∀ w ∈ a.marks P, m.read w.1 w.2.length = w.2

theorem uintOf_uintBytes (n : BitVec 32) : uintOf (uintBytes n) = n := by
  apply BitVec.eq_of_toNat_eq
  have hn := n.isLt
  simp only [uintOf, uintBytes]
  rw [toNat_append, toNat_append, toNat_append]
  simp only [BitVec.toNat_setWidth, BitVec.toNat_ushiftRight, Nat.shiftRight_eq_div_pow]
  omega

theorem partAt_init (hf : Fits (a.config P.toAbi)) (p : Pos) :
    (init P a createDate).partAt p = (a.config P.toAbi).start p := by
  have hoff := (offset_exact hf.total hf.offset p).1
  cases p with
  | qArray =>
    have hlt : (a.config P.toAbi).start .qArray < 2 ^ 32 := by
      have := start_le (c := a.config P.toAbi) .qArray
      have := hf.offset
      omega
    rw [partAt, offset_init, offset_eq]
    exact congrArg Nat.cast ((BitVec.toNat_ofNat _ _).trans (Nat.mod_eq_of_lt hlt))
  | pooler => rw [partAt, offset_init, hoff]
  | allocator => rw [partAt, offset_init, hoff]

theorem poolerAt_eq {c : Config} : c.poolerAt = c.start .pooler := by
  simp only [Config.poolerAt, Config.suiteAt, Config.start, Config.qArraySize]
  push_cast
  ring

variable (createDate) in
/-- The objects of the header that was written are in the media, behind it. -/
theorem partAt_within (hf : Fits (a.config P.toAbi)) (p : Pos) :
    232 ≤ (init P a createDate).partAt p ∧
      (init P a createDate).partAt p + P.object p ≤ (a.config P.toAbi).total := by
  have hinfor : (a.config P.toAbi).abi.infor = 232 := P.infor_eq
  have hge : 232 ≤ (a.config P.toAbi).start p := by
    cases p <;> simp only [Config.start, hinfor] <;> omega
  have hsum := start_add_size_le (c := a.config P.toAbi) p
  have hobject : P.object p ≤ (a.config P.toAbi).size p := by
    cases p <;> exact Nat.le_add_right _ _
  rw [partAt_init hf]
  omega

/-- The marks are in the objects, and these in the media behind the header. -/
theorem mark_place : ∀ w ∈ a.marks P, 232 ≤ w.1 ∧ w.1 + 4 ≤ (a.config P.toAbi).total := by
  have hinfor : (a.config P.toAbi).abi.infor = 232 := P.infor_eq
  have hqArray : (P.infor : Int) = 232 := congrArg Nat.cast P.infor_eq
  have hpooler : (232 : Int) + P.suiteArray ≤ (a.config P.toAbi).poolerAt := by
    have habi : (a.config P.toAbi).abi = P.toAbi := rfl
    rw [poolerAt_eq, Config.start, Config.qArraySize, hinfor, habi]
    omega
  have hallocator : (a.config P.toAbi).poolerAt + P.pooler ≤ (a.config P.toAbi).allocatorAt := by
    have habi : (a.config P.toAbi).abi = P.toAbi := rfl
    unfold Config.allocatorAt Config.nodeEntry
    rw [habi]
    omega
  have htotal : (a.config P.toAbi).allocatorAt + P.allocator ≤ (a.config P.toAbi).total := by
    have hsum := start_add_size_le (c := a.config P.toAbi) .allocator
    have hobject : P.allocator ≤ (a.config P.toAbi).size .allocator := Nat.le_add_right _ _
    rw [allocatorAt_eq]
    omega
  have := P.suiteArray_le
  have := P.allocatorLock_le
  have := P.allocatorList_le
  have := P.pageArrayAt_le
  have := P.allocator_le
  have := P.lockedListAt_le
  have := P.poolerLock_le
  have := P.poolerList_le
  have := P.nodeArrayAt_le
  have := P.pooler_le
  simp only [Arguments.marks, List.forall_mem_cons, List.not_mem_nil, false_imp_iff, implies_true,
    and_true]
  omega

theorem Marked.over (hm : Marked P a m) (h : CSQInfor) : Marked P a (h.over m) :=
  ⟨hm.size, fun w hw => (read_over (mark_place w hw).1).trans (hm.marks w hw)⟩

theorem objectChecks_init (hf : Fits (a.config P.toAbi)) (hm : Marked P a m) :
    ∀ c ∈ P.objectChecks (init P a createDate), c.Holds m := by
  have hmarks := hm.marks
  simp only [Arguments.marks, List.forall_mem_cons] at hmarks
  obtain ⟨hpages, hsize, hpgs, halc, hlkl, hnodes, hnds, hplr, hqueues, hmqs, -⟩ := hmarks
  have hqArray : ((a.config P.toAbi).start .qArray : Int) = P.infor := rfl
  have hpageSize : ((a.pageSize.setWidth 32).setWidth 16).setWidth 32 = a.pageSize.setWidth 32 := by
    simp
  intro c hc
  simp only [Platform.objectChecks, Platform.checkAllocator, Platform.checkPooler,
    Platform.checkQArray, partAt_init hf, ← allocatorAt_eq, ← poolerAt_eq, hqArray,
    List.mem_append, List.mem_cons, List.not_mem_nil, or_false] at hc
  rcases hc with (((hc | hc) | (hc | hc) | hc) | hc) | rfl | rfl | rfl | rfl
  · exact maskAt_holds hpgs c hc
  · exact maskAt_holds halc c hc
  · exact maskAt_holds hlkl c hc
  · exact maskAt_holds hnds c hc
  · exact maskAt_holds hplr c hc
  · exact maskAt_holds hmqs c hc
  · refine beq_iff_eq.mpr ?_
    rw [show m.read (P.infor + 4) 4 = _ from hqueues, uintOf_uintBytes]
    exact (uint_front (by decide)).trans (append_parts _)
  · refine beq_iff_eq.mpr ?_
    rw [show m.read _ 4 = _ from hnodes, uintOf_uintBytes]
    exact (uint_front (by decide)).trans (append_parts _)
  · refine beq_iff_eq.mpr ?_
    rw [show m.read _ 4 = _ from hpages, uintOf_uintBytes]
    exact (uint_front (by decide)).trans (append_parts _)
  · refine beq_iff_eq.mpr ?_
    rw [show m.read _ 4 = _ from hsize, uintOf_uintBytes, hpageSize]
    exact (uint_front (by decide)).trans (append_parts _)

theorem layoutChecks_init (hf : Fits (a.config P.toAbi)) (hm : Marked P a m) :
    ∀ c ∈ P.layoutChecks (init P a createDate) m, c.1 := by
  have hmarks := hm.marks
  simp only [Arguments.marks, List.forall_mem_cons] at hmarks
  obtain ⟨hpages, hsize, -, -, -, hnodes, -, -, hqueues, -⟩ := hmarks
  have hqArray : ((a.config P.toAbi).start .qArray : Int) = P.infor := rfl
  have hpageSize : (a.pageSize.setWidth 32).setWidth 16 = a.pageSize := by simp
  have hoff : ∀ p, ((init P a createDate).offset p).toInt = (init P a createDate).partAt p := by
    intro p
    rw [offset_init, partAt_init hf]
    exact (offset_exact hf.total hf.offset p).1
  have hcounts : uintOf (m.read ((init P a createDate).partAt .qArray + 4) 4) = a.queues ∧
      uintOf (m.read ((init P a createDate).partAt .pooler + P.nodeArrayAt + 4) 4) = a.nodes ∧
      uintOf (m.read ((init P a createDate).partAt .allocator + P.pageArrayAt + 4) 4) = a.pages ∧
      (uintOf (m.read ((init P a createDate).partAt .allocator + P.pageArrayAt + 8) 4)).setWidth 16 =
        a.pageSize := by
    simp only [partAt_init hf, ← allocatorAt_eq, ← poolerAt_eq, hqArray]
    rw [show m.read (P.infor + 4) 4 = _ from hqueues, show m.read _ 4 = _ from hnodes,
      show m.read (_ + _ + 4) 4 = _ from hpages, show m.read _ 4 = _ from hsize]
    simp only [uintOf_uintBytes, hpageSize, and_self]
  intro c hc
  simp only [Platform.layoutChecks, hcounts, List.mem_cons, List.not_mem_nil, or_false] at hc
  rcases hc with rfl | rfl | rfl | rfl | rfl | rfl | rfl <;> rw [beq_iff_eq]
  · exact hoff .qArray
  · exact size_init .qArray
  · exact hoff .pooler
  · exact size_init .pooler
  · exact hoff .allocator
  · exact size_init .allocator
  · exact (uint_front (by decide)).trans (append_parts _)

-- ---------------------------------------------------------------------------
-- The check
-- ---------------------------------------------------------------------------

/-- Objects that are placed as `Init` places them are read inside the media. -/
theorem inside_of_partAt (hf : Fits (a.config P.toAbi)) (hm : Marked P a m)
    (h₀ : ∀ p, h.partAt p = (init P a createDate).partAt p) :
    ∀ c ∈ P.objectChecks h, c.Within (h.over m) := by
  intro c hc
  obtain ⟨p, hlow, hhigh⟩ := objectChecks_place hc
  obtain ⟨hge, hle⟩ := partAt_within createDate hf p
  have hsize : (a.config P.toAbi).total ≤ (h.over m).size := hm.size
  rw [h₀] at hlow hhigh
  exact ⟨by omega, by omega⟩

theorem check_init (hf : Fits (a.config P.toAbi)) (hm : Marked P a m) :
    P.check (init P a createDate) m = .ok () := by
  have hobjects : ((init P a createDate).over m).expect (P.objectChecks (init P a createDate)) =
      .ok () :=
    expect_eq_ok fun c hc => ⟨inside_of_partAt hf hm (fun _ => rfl) c hc,
      objectChecks_init hf (hm.over _) c hc⟩
  unfold Platform.check
  rw [require_eq_ok headerChecks_init]
  dsimp only [bind, Except.bind]
  rw [hobjects, require_eq_ok (layoutChecks_init hf (hm.over _)), checksum_init]
  rfl

/-- Only a word of the offsets can move what is read; the header up to them is
then as it was written. -/
theorem check_outside (hf : Fits (a.config P.toAbi)) (hm : Marked P a m) {i : Nat} (w : BitVec 16)
    (hout : ¬(((init P a createDate).set i w).over m).Inside
      (P.objectChecks ((init P a createDate).set i w))) :
    P.check ((init P a createDate).set i w) m = .error .outside := by
  have hge : 40 ≤ i := by
    by_contra hlt
    have hkeep : ∀ p, ((init P a createDate).set i w).partAt p = (init P a createDate).partAt p := by
      intro p
      refine partAt_set w ?_ ?_ <;> cases p <;> simp only [offsetAt] <;> omega
    exact hout (inside_of_within (inside_of_partAt hf hm hkeep))
  unfold Platform.check
  rw [headerChecks_set hge, require_eq_ok headerChecks_init]
  dsimp only [bind, Except.bind]
  rw [expect_outside hout]

/-- A header with one altered word is refused with an exception if and only if
what is read of the objects is mapped. -/
theorem check_altered (hf : Fits (a.config P.toAbi)) (hm : Marked P a m) {i : Nat} {w : BitVec 16}
    (hi : i < 116) (hd : Differ ((init P a createDate).word i) w) :
    Throws (P.check ((init P a createDate).set i w) m) ↔
      (((init P a createDate).set i w).over m).Inside
        (P.objectChecks ((init P a createDate).set i w)) := by
  constructor
  · intro hthrows
    by_contra hout
    rw [check_outside hf hm w hout] at hthrows
    obtain ⟨msg, hmsg⟩ := hthrows
    cases hmsg
  · exact fun hin => check_throws hin (checksum_altered P a createDate hi hd)

end GalaLua.AMQ
