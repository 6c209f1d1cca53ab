import GalaLua.AMQ.Layout

/-!
# The header and its check

`CSQInfor` as it is stored, in aligned 16-bit words, with what `Init` writes
and what `Check` compares. `Check` goes from the header to the three parts by
the offset table and reads their masks, byte by byte, and counts there; it throws
at the first that is not as it should be, and the checksum comes last. The rest of
the media is bytes; what is not mapped cannot be read.
-/

namespace GalaLua.AMQ

-- ---------------------------------------------------------------------------
-- The platform
-- ---------------------------------------------------------------------------

/-- What the compiler decides beyond `Abi`: sizes, and where the members are
that the header's check reads or that the suites' calls write. -/
structure Platform extends Abi where
  long : BitVec 8
  align : BitVec 8
  page : Nat
  pageArray : Nat
  node : Nat
  nodeArray : Nat
  lock : Nat
  cond : Nat
  event : Nat
  door : Nat
  podTest : Nat
  /-- of `_Lock` and `_Array` in `CSQAllocator` -/
  allocatorLock : Nat
  pageArrayAt : Nat
  /-- of `_Queue`, its `_Lock`, and `_Array` in `CSQPooler` -/
  lockedListAt : Nat
  poolerLock : Nat
  nodeArrayAt : Nat
  infor_eq : infor = 232
  suiteArray_le : 8 ≤ suiteArray
  allocatorLock_le : 4 ≤ allocatorLock
  allocatorList_le : allocatorLock + lock ≤ allocatorList
  pageArrayAt_le : allocatorList + 12 ≤ pageArrayAt
  allocator_le : pageArrayAt + 12 ≤ allocator
  lockedListAt_le : 4 ≤ lockedListAt
  poolerLock_le : lockedListAt + 4 ≤ poolerLock
  poolerList_le : poolerLock + lock ≤ poolerList
  nodeArrayAt_le : poolerList + 12 ≤ nodeArrayAt
  pooler_le : nodeArrayAt + 8 ≤ pooler

-- ---------------------------------------------------------------------------
-- The header
-- ---------------------------------------------------------------------------

/-- The words of the header: `_Magic` 0 to 3, `_Size` 4, `_UCHK` 6 to 21,
`_Env` 22 to 29, `_CheckSum` 30, `_CreateDate` 32, `_Author` 36, `_License` 40
to 103, `_Offset` 104 to 115. -/
structure CSQInfor where
  words : List (BitVec 16)
  length_words : words.length = 116
  deriving DecidableEq, Repr

/-- The words of a `UINT`, least significant first. -/
def uintWords (n : BitVec 32) : List (BitVec 16) := [n.setWidth 16, (n >>> 16).setWidth 16]

def uint64Words (n : BitVec 64) : List (BitVec 16) :=
  uintWords (n.setWidth 32) ++ uintWords ((n >>> 32).setWidth 32)

namespace CSQInfor

variable (h : CSQInfor)

def word (i : Nat) : BitVec 16 := h.words.getD i 0

def uint (i : Nat) : BitVec 32 := h.word (i + 1) ++ h.word i

def low (i : Nat) : BitVec 8 := (h.word i).setWidth 8

def high (i : Nat) : BitVec 8 := (h.word i >>> 8).setWidth 8

def set (i : Nat) (w : BitVec 16) : CSQInfor := ⟨h.words.set i w, by simp [h.length_words]⟩

/-- `_CheckSum = n` -/
def setCheckSum (n : BitVec 32) : CSQInfor := (h.set 30 (n.setWidth 16)).set 31 ((n >>> 16).setWidth 16)

/-- `_Offset[i]._Offset` and `_Offset[i]._Size`. -/
def offset : Pos → BitVec 32
  | .qArray => h.uint 104
  | .pooler => h.uint 108
  | .allocator => h.uint 112

def size : Pos → BitVec 32
  | .qArray => h.uint 106
  | .pooler => h.uint 110
  | .allocator => h.uint 114

/-- Where `SQArray()`, `Pooler()` and `Allocator()` look: the first goes through
a `UINT`. -/
def partAt : Pos → Int
  | .qArray => (h.offset .qArray).toNat
  | .pooler => (h.offset .pooler).toInt
  | .allocator => (h.offset .allocator).toInt

end CSQInfor

/-- `F_MQCheckSum` over whole words and the byte that may follow them. -/
def mqCheckSum (words : List (BitVec 16)) (last : Option (BitVec 8)) : BitVec 16 :=
  let cksum : BitVec 32 := words.foldl (fun cksum w => cksum + w.setWidth 32) 0
  let cksum : BitVec 32 := match last with
    | none => cksum
    | some b => cksum + b.setWidth 32
  let cksum := (cksum >>> 16) + (cksum &&& 0xFFFF)
  let cksum := cksum + (cksum >>> 16)
  ~~~(cksum.setWidth 16)

/-- `(_CheckSumPart << 16) | ((~_CheckSumPart) & 0xFFFF)` -/
def checkSumOf (part : BitVec 16) : BitVec 32 := part ++ ~~~part

def MQ_VERSION : BitVec 8 := 0x36

def MQ_MAGIC : BitVec 8 := 0xDC

/-- The bytes of `_Author`, from `_PtrAuthor[0]` on. -/
def author : List (BitVec 8) :=
  [~~~0x5d, ~~~0xe8, ~~~0xcf, ~~~0xee, ~~~0xd3, ~~~0xee, ~~~0xc0, ~~~0x5b]

/-- The contents of `_UCHK`, from `CHK_BGNMAK` to `CHK_ENDMAK`. -/
def Platform.uchk (P : Platform) : List (BitVec 16) :=
  0xDD :: [P.page, P.pageArray, P.allocator, P.node, P.nodeArray, P.pooler, P.suite, P.suiteArray,
    P.infor, P.lock, P.cond, P.event, P.door, P.podTest].map (BitVec.ofNat 16) ++ [0xEE]

namespace CSQInfor

/-- The words before `_CheckSum`. -/
def front (P : Platform) (a : Arguments) : List (BitVec 16) :=
  [P.long ++ MQ_MAGIC, MQ_VERSION ++ P.align] ++ uintWords 1 ++
  uintWords (mqEvaluate P.toAbi a.queues a.nodes a.pages a.pageSize) ++
  P.uchk ++
  uintWords a.queues ++ uintWords a.nodes ++ uintWords a.pages ++
  uintWords (a.pageSize.setWidth 32)

/-- The words after `_CheckSum`; the licence is zeroed. -/
def back (P : Platform) (a : Arguments) (createDate : BitVec 64) : List (BitVec 16) :=
  uint64Words createDate ++
  [author[1] ++ author[0], author[3] ++ author[2], author[5] ++ author[4],
    author[7] ++ author[6]] ++
  List.replicate 64 0 ++
  [.qArray, .pooler, .allocator].flatMap fun p =>
    uintWords (a.offset P.toAbi p).offset ++ uintWords (a.offset P.toAbi p).size

theorem length_front (P : Platform) (a : Arguments) : (front P a).length = 30 := rfl

theorem length_back (P : Platform) (a : Arguments) (createDate : BitVec 64) :
    (back P a createDate).length = 84 := rfl

def draft (P : Platform) (a : Arguments) (createDate : BitVec 64) : CSQInfor where
  words := front P a ++ uintWords 0xFFFFFFFF ++ back P a createDate
  length_words := by simp [length_front, length_back, uintWords]

/-- The part of `CSQInfor::Init` that writes the header. -/
def init (P : Platform) (a : Arguments) (createDate : BitVec 64) : CSQInfor :=
  let h := draft P a createDate
  h.setCheckSum (checkSumOf (mqCheckSum h.words none))

end CSQInfor

-- ---------------------------------------------------------------------------
-- The rest of the media
-- ---------------------------------------------------------------------------

/-- The memory that is mapped from the beginning of a media on; the media may end before its last
page does. -/
structure Image where
  size : Nat
  byte : Int → BitVec 8

namespace Image

def read (m : Image) (a : Int) (n : Nat) : List (BitVec 8) :=
  (List.range n).map fun i : Nat => m.byte (a + i)

def write (m : Image) (a : Int) (bs : List (BitVec 8)) : Image :=
  { m with byte := fun x =>
      if a ≤ x ∧ x < a + bs.length then bs.getD (x - a).toNat 0 else m.byte x }

end Image

/-- The media with a header at its beginning. -/
def CSQInfor.over (h : CSQInfor) (m : Image) : Image :=
  { m with byte := fun x =>
      if 0 ≤ x ∧ x < 232 then
        if x % 2 = 0 then h.low (x / 2).toNat else h.high (x / 2).toNat
      else m.byte x }

/-- The bytes of a `UINT`, least significant first. -/
def uintBytes (n : BitVec 32) : List (BitVec 8) :=
  [n.setWidth 8, (n >>> 8).setWidth 8, (n >>> 16).setWidth 8, (n >>> 24).setWidth 8]

def uintOf : List (BitVec 8) → BitVec 32
  | [b₀, b₁, b₂, b₃] => b₃ ++ b₂ ++ b₁ ++ b₀
  | _ => 0

def maskALC : List (BitVec 8) := [0x2E, 0x41, 0x4C, 0x43]

def maskPGS : List (BitVec 8) := [0x2E, 0x50, 0x47, 0x53]

def maskPLR : List (BitVec 8) := [0x2E, 0x50, 0x4C, 0x52]

def maskLKL : List (BitVec 8) := [0x2E, 0x4C, 0x4B, 0x4C]

def maskNDS : List (BitVec 8) := [0x2E, 0x4E, 0x44, 0x53]

def maskMQS : List (BitVec 8) := [0x2E, 0x4D, 0x51, 0x53]

/-- The masks and counts that the `Init`s of the parts write, in their order. -/
def Arguments.marks (a : Arguments) (P : Platform) : List (Int × List (BitVec 8)) :=
  let c := a.config P.toAbi
  let allocator := c.allocatorAt
  let pooler := c.poolerAt
  let qArray : Int := P.infor
  [(allocator + P.pageArrayAt + 4, uintBytes a.pages),
    (allocator + P.pageArrayAt + 8, uintBytes (a.pageSize.setWidth 32)),
    (allocator + P.pageArrayAt, maskPGS),
    (allocator, maskALC),
    (pooler + P.lockedListAt, maskLKL),
    (pooler + P.nodeArrayAt + 4, uintBytes a.nodes),
    (pooler + P.nodeArrayAt, maskNDS),
    (pooler, maskPLR),
    (qArray + 4, uintBytes a.queues),
    (qArray, maskMQS)]

def Image.writeAll (m : Image) (ws : List (Int × List (BitVec 8))) : Image :=
  ws.foldl (fun m w => m.write w.1 w.2) m

-- ---------------------------------------------------------------------------
-- Check
-- ---------------------------------------------------------------------------

inductive Failure
  | exception (msg : String)
  /-- something that is not mapped is read -/
  | outside
  deriving DecidableEq, Repr

/-- The comparisons in turn; the first that fails throws. -/
def require : List (Bool × String) → Except Failure Unit
  | [] => .ok ()
  | (holds, msg) :: rest => if holds then require rest else .error (.exception msg)

/-- A comparison of bytes of the media. -/
structure Comparison where
  place : Int
  length : Nat
  holds : List (BitVec 8) → Bool
  message : String

namespace Comparison

variable (c : Comparison) (m : Image)

def Within : Prop := 0 ≤ c.place ∧ c.place + c.length ≤ m.size

instance : Decidable (c.Within m) := inferInstanceAs (Decidable (_ ∧ _))

def Holds : Prop := c.holds (m.read c.place c.length) = true

instance : Decidable (c.Holds m) := inferInstanceAs (Decidable (_ = true))

end Comparison

/-- `(_TheMask[0] == ..) && (_TheMask[1] == ..) && ..` -/
def maskAt (x : Int) (mask : List (BitVec 8)) (msg : String) : List Comparison :=
  mask.zipIdx.map fun b => ⟨x + b.2, 1, (· == [b.1]), msg⟩

/-- The comparisons in turn; nothing is read behind the first that fails. -/
def Image.expect (m : Image) : List Comparison → Except Failure Unit
  | [] => .ok ()
  | c :: rest =>
    if c.Within m then
      if c.Holds m then m.expect rest else .error (.exception c.message)
    else .error .outside

namespace Platform

variable (P : Platform)

/-- The messages of the comparisons of `_UCHK`; two of them name a neighbour. -/
def uchkMessages : List String :=
  ["CHK_BGNMAK not match.", "CHK_PAGE not match.", "CHK_PGARRAY not match.",
    "CHK_ALLOCATOR not match.", "CHK_NODE not match.", "CHK_NDARRAY not match.",
    "CHK_POOLER not match.", "CHK_SQSUITE not match.", "CHK_QARRAY not match.",
    "CHK_INFOR not match.", "CHK_INFOR not match.", "CHK_WAITABLE not match.",
    "CHK_EVENT not match.", "CHK_DOOR not match.", "CHK_PODTEST not match.",
    "CHK_PODTEST not match."]

/-- What `Check` compares before it leaves the header. -/
def headerChecks (h : CSQInfor) : List (Bool × String) :=
  [(h.low 0 == MQ_MAGIC, "INF_MAGIC not match."),
    (h.high 0 == P.long, "INF_BITWD not match."),
    (h.low 1 == P.align, "INF_ALIGN not match."),
    (h.high 1 == MQ_VERSION, "INF_VERSN not match."),
    (h.uint 2 == 1, "INF_ENDIAN not match.")] ++
  ((List.range 16).map fun i => (h.word (6 + i) == P.uchk.getD i 0, uchkMessages.getD i "")) ++
  [([h.low 36, h.high 36, h.low 37, h.high 37, h.low 38, h.high 38, h.low 39, h.high 39] == author,
    "CHK_AUTH not match.")]

/-- `CSQAllocator::Check` -/
def checkAllocator (a : Int) : List Comparison :=
  maskAt (a + P.pageArrayAt) maskPGS ".ALC check Error." ++ maskAt a maskALC ".ALC check Error."

/-- `CSQPooler::Check` -/
def checkPooler (a : Int) : List Comparison :=
  maskAt (a + P.lockedListAt) maskLKL ".PLR check Error." ++
    maskAt (a + P.nodeArrayAt) maskNDS ".PLR check Error." ++ maskAt a maskPLR ".PLR check Error."

/-- `CSQSuiteArray::Check` -/
def checkQArray (a : Int) : List Comparison := maskAt a maskMQS ".MQS check Error."

/-- What `Check` compares of the three objects: their masks, and their counts with the header. -/
def objectChecks (h : CSQInfor) : List Comparison :=
  let allocator := h.partAt .allocator
  let pooler := h.partAt .pooler
  let qArray := h.partAt .qArray
  P.checkAllocator allocator ++ P.checkPooler pooler ++ checkQArray qArray ++
    [⟨qArray + 4, 4, fun bs => h.uint 22 == uintOf bs, "NUM_QUEUES not match."⟩,
      ⟨pooler + P.nodeArrayAt + 4, 4, fun bs => h.uint 24 == uintOf bs, "NUM_NODES not match."⟩,
      ⟨allocator + P.pageArrayAt + 4, 4, fun bs => h.uint 26 == uintOf bs, "NUM_PAGES not match."⟩,
      -- `CSQPageArray::PageSize` is the lower half of what is stored
      ⟨allocator + P.pageArrayAt + 8, 4, fun bs => h.uint 28 == ((uintOf bs).setWidth 16).setWidth 32,
        "NUM_PAGESIZE not match."⟩]

/-- What `Check` compares of the layout, with the counts of the objects. -/
def layoutChecks (h : CSQInfor) (m : Image) : List (Bool × String) :=
  let queues := uintOf (m.read (h.partAt .qArray + 4) 4)
  let nodes := uintOf (m.read (h.partAt .pooler + P.nodeArrayAt + 4) 4)
  let pages := uintOf (m.read (h.partAt .allocator + P.pageArrayAt + 4) 4)
  let pageSize := (uintOf (m.read (h.partAt .allocator + P.pageArrayAt + 8) 4)).setWidth 16
  [((h.offset .qArray).toInt == h.partAt .qArray, "OFS_QMPOSIT not match."),
    (h.size .qArray == evaluateSQueue P.toAbi queues, "OFS_QMSIZE not match."),
    ((h.offset .pooler).toInt == h.partAt .pooler, "OFS_PLROSIT not match."),
    (h.size .pooler == evaluatePooler P.toAbi nodes, "OFS_PLRSIZE not match."),
    ((h.offset .allocator).toInt == h.partAt .allocator, "OFS_ALCAPOSIT not match."),
    (h.size .allocator == evaluateAllocator P.toAbi pages pageSize, "OFS_ALCASIZE not match."),
    (h.uint 4 == mqEvaluate P.toAbi queues nodes pages pageSize, "MEDIA_SIZE not match.")]

def checksChecksum (h : CSQInfor) : Bool :=
  checkSumOf (mqCheckSum (h.setCheckSum 0xFFFFFFFF).words none) == h.uint 30

/-- `CSQInfor::Check`, of the header `h` on the media `m` -/
def check (h : CSQInfor) (m : Image) : Except Failure Unit := do
  let m := h.over m
  require (P.headerChecks h)
  m.expect (P.objectChecks h)
  require (P.layoutChecks h m)
  require [(checksChecksum h, "CHECKSUM not match.")]

end Platform

end GalaLua.AMQ
