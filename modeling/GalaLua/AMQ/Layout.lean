import GalaLua.AMQ.Infor
import Mathlib.Tactic.Ring

/-!
# Sizes and offsets

What `CGalaxyMQCreator` accepts and what `CSQInfor::Init` computes from it.
Sizes are computed in `size_t` and kept in `UINT`, offsets are kept in `INT`,
and the creator's own products are `UINT` again: each of these can lose the
high part of a number. `LaidOut` says that nothing was lost.
-/

namespace GalaLua.AMQ

/-- The arguments of `CGalaxyMQCreator`. -/
structure Arguments where
  queues : BitVec 32
  maxDepth : BitVec 32
  catchCount : BitVec 16
  nodes : BitVec 32
  pages : BitVec 32
  pageSize : BitVec 16
  deriving DecidableEq, Repr

namespace Arguments

/-- The checks of the constructors of `CGalaxyMQCreator`. -/
def check (a : Arguments) : Except String Unit :=
  if a.nodes < a.queues * a.catchCount.setWidth 32 then
    .error "must _Nodes > (_Queues * _CatchCount)"
  else if a.nodes < a.maxDepth then .error "must _MaxDepth < _Nodes"
  else if a.pages < a.nodes * 2 then .error "must _Pages > (_Nodes * 2)"
  else if a.pageSize < 64 then .error "must _PageSize > 64"
  else .ok ()

def config (a : Arguments) (abi : Abi) : Config where
  abi := abi
  queues := a.queues.toNat
  maxDepth := a.maxDepth.toNat
  catchCount := a.catchCount.toNat
  nodes := a.nodes.toNat
  pages := a.pages.toNat
  pageSize := a.pageSize

end Arguments

-- ---------------------------------------------------------------------------
-- Sizes
-- ---------------------------------------------------------------------------

section

variable (abi : Abi)

def evaluateSQueue (count : BitVec 32) : BitVec 32 :=
  (BitVec.ofNat 64 abi.suiteArray + BitVec.ofNat 64 abi.suite * count.setWidth 64).setWidth 32

def evaluatePooler (nodes : BitVec 32) : BitVec 32 :=
  (BitVec.ofNat 64 abi.pooler + 12 * nodes.setWidth 64).setWidth 32

def evaluateAllocator (pages : BitVec 32) (pageSize : BitVec 16) : BitVec 32 :=
  (BitVec.ofNat 64 abi.allocator + (8 + pageSize.setWidth 64) * pages.setWidth 64).setWidth 32

def mqEvaluate (queues nodes pages : BitVec 32) (pageSize : BitVec 16) : BitVec 32 :=
  (BitVec.ofNat 64 abi.infor + (evaluateSQueue abi queues).setWidth 64 +
    (evaluatePooler abi nodes).setWidth 64 +
    (evaluateAllocator abi pages pageSize).setWidth 64).setWidth 32

end

/-- The parts behind the header, `POS_QARRAY`, `POS_POOLER`, `POS_ALLOCATOR`. -/
inductive Pos
  | qArray
  | pooler
  | allocator
  deriving DecidableEq, Repr

/-- `ST_OFFSETTAB`, with `_Offset` an `INT`. -/
structure OffsetTab where
  offset : BitVec 32
  size : BitVec 32
  deriving DecidableEq, Repr

/-- `_Offset` as `CSQInfor::Init` fills it in. -/
def Arguments.offset (a : Arguments) (abi : Abi) : Pos → OffsetTab
  | .qArray => ⟨BitVec.ofNat 32 abi.infor, evaluateSQueue abi a.queues⟩
  | .pooler =>
    ⟨BitVec.ofNat 32 abi.infor + evaluateSQueue abi a.queues, evaluatePooler abi a.nodes⟩
  | .allocator =>
    ⟨BitVec.ofNat 32 abi.infor + evaluateSQueue abi a.queues + evaluatePooler abi a.nodes,
      evaluateAllocator abi a.pages a.pageSize⟩

-- ---------------------------------------------------------------------------
-- What is asked of a layout
-- ---------------------------------------------------------------------------

namespace Config

variable (c : Config)

def qArraySize : Nat := c.abi.suiteArray + c.abi.suite * c.queues

def poolerSize : Nat := c.abi.pooler + 12 * c.nodes

def allocatorSize : Nat := c.abi.allocator + (8 + c.pageSize.toNat) * c.pages

/-- The sizes as they are. -/
def size : Pos → Nat
  | .qArray => c.qArraySize
  | .pooler => c.poolerSize
  | .allocator => c.allocatorSize

/-- Where a part begins. -/
def start : Pos → Nat
  | .qArray => c.abi.infor
  | .pooler => c.abi.infor + c.qArraySize
  | .allocator => c.abi.infor + c.qArraySize + c.poolerSize

def total : Nat := c.abi.infor + c.qArraySize + c.poolerSize + c.allocatorSize

/-- The distance from the first page to the last one. -/
def pageSpan : Nat := (8 + c.pageSize.toNat) * (c.pages - 1)

/-- A link to `a` is stored in the object at `this`, now or later: by a list of
nodes, by the free list, between two nodes or two pages, or by a node that has
a message of some queue. -/
inductive Link (c : Config) : Int → Int → Prop
  | list {id a} : c.HasList id → c.IsNode a → Link c (c.listAt id) a
  | free {a} : c.IsPage a → Link c c.freeListAt a
  | node {a b} : c.IsNode a → c.IsNode b → Link c a b
  | page {a b} : c.IsPage a → c.IsPage b → Link c a b
  | pageLKTB {a b} : 0 < c.queues → c.IsNode a → c.IsPage b → Link c a b

end Config

/-- The number is one of an `INT`. -/
def FitsInt (d : Int) : Prop := -2 ^ 31 ≤ d ∧ d < 2 ^ 31

/-- Nothing is lost: the sizes add up to the size of the media, the parts of
the offset table lie side by side in it, every link can be stored, and every
private pool gets its nodes. -/
structure LaidOut (abi : Abi) (a : Arguments) : Prop where
  exact :
    (mqEvaluate abi a.queues a.nodes a.pages a.pageSize).toNat = (a.config abi).total
  inside : ∀ p, 0 ≤ (a.offset abi p).offset.toInt ∧
    (a.offset abi p).offset.toInt + (a.offset abi p).size.toNat ≤
      (mqEvaluate abi a.queues a.nodes a.pages a.pageSize).toNat
  disjoint : ∀ p p', p ≠ p' →
    (a.offset abi p).offset.toInt + (a.offset abi p).size.toNat ≤ (a.offset abi p').offset.toInt ∨
    (a.offset abi p').offset.toInt + (a.offset abi p').size.toNat ≤ (a.offset abi p).offset.toInt
  links : ∀ this b, (a.config abi).Link this b → FitsInt (b - this)
  catches : ∀ m, (Media.infor (a.config abi) m).isSome

/-- The numbers behind `LaidOut`: the media is below 4 GiB, the allocator and
what the free list and the nodes refer to is within 2 GiB, and there are
enough nodes. -/
structure Fits (c : Config) : Prop where
  total : c.total < 2 ^ 32
  offset : c.start .allocator < 2 ^ 31
  free : 0 < c.pages → c.abi.allocator + c.pageSpan < 2 ^ 31 + c.abi.allocatorList
  pageLKTB : 0 < c.queues → 0 < c.nodes → 0 < c.pages →
    12 * c.nodes + c.abi.allocator + c.pageSpan < 2 ^ 31
  nodes : c.queues * c.catchCount ≤ c.nodes

-- ---------------------------------------------------------------------------
-- The sizes modulo 2 ^ 32
-- ---------------------------------------------------------------------------

variable {abi : Abi} {a : Arguments} {c : Config} {p p' : Pos}

theorem evaluateSQueue_eq (n : BitVec 32) :
    evaluateSQueue abi n = BitVec.ofNat 32 (abi.suiteArray + abi.suite * n.toNat) := by
  simp [evaluateSQueue, BitVec.setWidth_add, BitVec.setWidth_mul, BitVec.setWidth_ofNat_of_le,
    BitVec.ofNat_add, BitVec.ofNat_mul]

theorem evaluatePooler_eq (n : BitVec 32) :
    evaluatePooler abi n = BitVec.ofNat 32 (abi.pooler + 12 * n.toNat) := by
  simp [evaluatePooler, BitVec.setWidth_add, BitVec.setWidth_mul, BitVec.setWidth_ofNat_of_le,
    BitVec.ofNat_add, BitVec.ofNat_mul]

theorem evaluateAllocator_eq (n : BitVec 32) (k : BitVec 16) :
    evaluateAllocator abi n k = BitVec.ofNat 32 (abi.allocator + (8 + k.toNat) * n.toNat) := by
  simp [evaluateAllocator, BitVec.setWidth_add, BitVec.setWidth_mul, BitVec.setWidth_ofNat_of_le,
    BitVec.ofNat_add, BitVec.ofNat_mul]

theorem mqEvaluate_eq :
    mqEvaluate abi a.queues a.nodes a.pages a.pageSize = BitVec.ofNat 32 (a.config abi).total := by
  simp [mqEvaluate, evaluateSQueue_eq, evaluatePooler_eq, evaluateAllocator_eq,
    BitVec.setWidth_add, BitVec.setWidth_ofNat_of_le, BitVec.ofNat_add, Config.total, Config.qArraySize,
    Config.poolerSize, Config.allocatorSize, Arguments.config]

theorem offset_eq (p : Pos) :
    a.offset abi p = ⟨BitVec.ofNat 32 ((a.config abi).start p), BitVec.ofNat 32 ((a.config abi).size p)⟩ := by
  cases p <;>
    simp [Arguments.offset, evaluateSQueue_eq, evaluatePooler_eq, evaluateAllocator_eq, BitVec.ofNat_add,
      Config.start, Config.size, Config.qArraySize, Config.poolerSize, Config.allocatorSize,
      Arguments.config]

-- ---------------------------------------------------------------------------
-- Links
-- ---------------------------------------------------------------------------

theorem allocatorAt_eq : c.allocatorAt = c.start .allocator := by
  simp only [Config.allocatorAt, Config.nodeEntry, Config.poolerAt, Config.suiteAt, Config.start,
    Config.qArraySize, Config.poolerSize]
  push_cast
  ring

theorem pageAt_eq (i : Nat) :
    c.pageAt i = c.allocatorAt + c.abi.allocator + (8 + c.pageSize.toNat) * i := rfl

theorem listAt_nonneg (id : NodeList) : 0 ≤ c.listAt id := by
  have hsuite : ∀ q, 0 ≤ c.suiteAt q := fun q => by
    have := Int.mul_nonneg (Int.natCast_nonneg c.abi.suite) (Int.natCast_nonneg q)
    unfold Config.suiteAt
    omega
  cases id with
  | pooler =>
    have := hsuite c.queues
    simp only [Config.listAt, Config.poolerAt]
    omega
  | ppl q | queue q =>
    have := hsuite q
    simp only [Config.listAt]
    omega

theorem page_range {x : Int} (hx : c.IsPage x) :
    0 < c.pages ∧ c.allocatorAt + c.abi.allocator ≤ x ∧
      x ≤ c.allocatorAt + c.abi.allocator + c.pageSpan := by
  obtain ⟨i, hi, rfl⟩ := hx
  have hle : (8 + c.pageSize.toNat) * i ≤ c.pageSpan := Nat.mul_le_mul_left _ (by omega)
  have hcast : (8 + (c.pageSize.toNat : Int)) * i = ((8 + c.pageSize.toNat) * i : Nat) := by push_cast; rfl
  rw [pageAt_eq, hcast]
  omega

theorem lastPage_eq : c.pageAt (c.pages - 1) = c.allocatorAt + c.abi.allocator + c.pageSpan := by
  rw [pageAt_eq, Config.pageSpan]
  push_cast
  rfl

theorem node_range {x : Int} (hx : c.IsNode x) :
    0 < c.nodes ∧ c.allocatorAt - 12 * c.nodes ≤ x ∧ x < c.allocatorAt := by
  obtain ⟨i, hi, rfl⟩ := hx
  unfold Config.nodeAt Config.allocatorAt
  omega

theorem nodes_le : 12 * (c.nodes : Int) ≤ c.allocatorAt := by
  have := listAt_nonneg (c := c) .pooler
  have : c.listAt .pooler < c.nodeEntry := listAt_lt_nodeEntry trivial
  unfold Config.allocatorAt
  omega

theorem fits_links (h : Fits c) {this b : Int} (hl : c.Link this b) : FitsInt (b - this) := by
  have hoff := h.offset
  have halloc := allocatorAt_eq (c := c)
  have hlist := c.abi.allocatorList_lt
  have hnodes := nodes_le (c := c)
  unfold FitsInt
  cases hl with
  | @list id _ hid ha =>
    have := nodeEntry_le ha
    have := listAt_lt_nodeEntry hid
    have := listAt_nonneg (c := c) id
    omega
  | free ha =>
    obtain ⟨hpos, hlow, hhigh⟩ := page_range ha
    have := h.free hpos
    unfold Config.freeListAt
    omega
  | node ha hb =>
    have := node_range ha
    have := node_range hb
    omega
  | page ha hb =>
    have := page_range ha
    obtain ⟨hpos, hlow, hhigh⟩ := page_range hb
    have := h.free hpos
    omega
  | pageLKTB hq ha hb =>
    obtain ⟨hnode, hlow, hhigh⟩ := node_range ha
    obtain ⟨hpos, hlow', hhigh'⟩ := page_range hb
    have := h.pageLKTB hq hnode hpos
    omega

theorem links_fit (hl : ∀ this b, c.Link this b → FitsInt (b - this)) :
    (0 < c.pages → c.abi.allocator + c.pageSpan < 2 ^ 31 + c.abi.allocatorList) ∧
      (0 < c.queues → 0 < c.nodes → 0 < c.pages →
        12 * c.nodes + c.abi.allocator + c.pageSpan < 2 ^ 31) := by
  have hlast := lastPage_eq (c := c)
  constructor
  · intro hpos
    have hfit := (hl _ _ (.free ⟨c.pages - 1, by omega, rfl⟩)).2
    unfold Config.freeListAt at hfit
    omega
  · intro hq hn hpos
    have hfit := (hl _ _ (.pageLKTB hq ⟨0, hn, rfl⟩ ⟨c.pages - 1, by omega, rfl⟩)).2
    have hfirst : c.nodeAt 0 = c.allocatorAt - 12 * c.nodes := by
      unfold Config.nodeAt Config.allocatorAt
      omega
    omega

-- ---------------------------------------------------------------------------
-- The layout
-- ---------------------------------------------------------------------------

/-- The words after `_Memory.Zero()`. -/
def Media.blank (c : Config) : Media where
  nodes := fun _ => .init
  pages := fun _ => ⟨0, 0, List.replicate c.pageSize.toNat 0⟩
  pooler := .init
  free := .init
  suite := fun _ => ⟨⟨0, .init, .init, .init⟩, ⟨0, .init, .init⟩⟩

theorem start_add_size_le (p : Pos) : c.start p + c.size p ≤ c.total := by
  cases p <;> simp only [Config.start, Config.size, Config.total] <;> omega

theorem start_le (p : Pos) : c.start p ≤ c.start .allocator := by
  cases p <;> simp only [Config.start] <;> omega

theorem parts_disjoint (hne : p ≠ p') :
    c.start p + c.size p ≤ c.start p' ∨ c.start p' + c.size p' ≤ c.start p := by
  cases p <;> cases p' <;> simp only [Config.start, Config.size] <;> first | omega | contradiction

/-- With room for everything the offset table has the numbers themselves. -/
theorem offset_exact (ht : (a.config abi).total < 2 ^ 32)
    (ho : (a.config abi).start .allocator < 2 ^ 31) (p : Pos) :
    (a.offset abi p).offset.toInt = (a.config abi).start p ∧
      (a.offset abi p).size.toNat = (a.config abi).size p := by
  have hsum := start_add_size_le (c := a.config abi) p
  have hstart := start_le (c := a.config abi) p
  rw [offset_eq]
  have hword : (BitVec.ofNat 32 ((a.config abi).start p)).toNat = (a.config abi).start p := by
    rw [BitVec.toNat_ofNat, Nat.mod_eq_of_lt (by omega)]
  refine ⟨?_, ?_⟩
  · have hsmall : 2 * (BitVec.ofNat 32 ((a.config abi).start p)).toNat < 2 ^ 32 := by omega
    exact (BitVec.toInt_eq_toNat_of_lt hsmall).trans (congrArg _ hword)
  · exact (BitVec.toNat_ofNat _ _).trans (Nat.mod_eq_of_lt (by omega))

/-- The layout of a media is as it should be if and only if its size, its
offsets and its links have room and there are nodes for all private pools. -/
theorem laidOut_iff (abi : Abi) (a : Arguments) : LaidOut abi a ↔ Fits (a.config abi) := by
  constructor
  · rintro ⟨hexact, hinside, -, hlinks, hcatches⟩
    rw [mqEvaluate_eq, BitVec.toNat_ofNat] at hexact
    have htotal : (a.config abi).total < 2 ^ 32 := by
      rw [← hexact]
      exact Nat.mod_lt _ (by decide)
    obtain ⟨hfree, hload⟩ := links_fit hlinks
    have hnonneg := (hinside .allocator).1
    rw [offset_eq] at hnonneg
    have hsum := start_add_size_le (c := a.config abi) .allocator
    refine ⟨htotal, ?_, hfree, hload, ?_⟩
    · rw [BitVec.toInt_pos_iff, BitVec.toNat_ofNat, Nat.mod_eq_of_lt (by omega)] at hnonneg
      omega
    · exact (infor_isSome _ _).mp (hcatches (.blank (a.config abi)))
  · intro h
    have hsize : (mqEvaluate abi a.queues a.nodes a.pages a.pageSize).toNat =
        (a.config abi).total := by
      rw [mqEvaluate_eq, BitVec.toNat_ofNat, Nat.mod_eq_of_lt h.total]
    refine ⟨hsize, fun p => ?_, fun p p' hne => ?_, fun this b hl => fits_links h hl,
      fun m => (infor_isSome _ m).mpr h.nodes⟩
    · obtain ⟨hoff, hsz⟩ := offset_exact h.total h.offset p
      have := start_add_size_le (c := a.config abi) p
      omega
    · obtain ⟨hoff, hsz⟩ := offset_exact h.total h.offset p
      obtain ⟨hoff', hsz'⟩ := offset_exact h.total h.offset p'
      have := parts_disjoint (c := a.config abi) hne
      omega

/-- The sizes of the objects with 64-bit pointers and glibc's mutexes. -/
def Abi.x86_64 : Abi where
  infor := 232
  suiteArray := 8
  suite := 368
  queueList := 208
  pplList := 352
  pooler := 88
  poolerList := 64
  allocator := 76
  allocatorList := 52
  queueList_lt := by decide
  pplList_lt := by decide
  poolerList_lt := by decide
  allocatorList_lt := by decide

/-- 65538 queues with 65535 nodes each: the product is 65534 modulo 2 ^ 32, so
65534 nodes are taken to be enough. -/
theorem product_wraps :
    ¬∀ a : Arguments, a.check = .ok () → LaidOut .x86_64 a := by
  intro h
  let a : Arguments := ⟨65538, 0, 65535, 65534, 131068, 64⟩
  have hcatches := (h a (by decide)).catches (.blank (a.config .x86_64))
  rw [infor_isSome] at hcatches
  exact absurd hcatches (by decide)

end GalaLua.AMQ
