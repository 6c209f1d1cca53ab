import GalaLua.AMQ.Pages
import GalaLua.Library.Partition

/-!
# The shared media

One media holds a pool of nodes, an allocator of pages and any number of
queues. A node list is the shared pool, a queue's private pool or a queue
itself; a condition is the event of a private pool or one of the two
thresholds of a queue's door. This module has the layout that `CSQInfor::Init`
gives to a media and uniform access to its lists and conditions.
-/

namespace GalaLua.AMQ

open Library (Chain)

-- ---------------------------------------------------------------------------
-- Nodes
-- ---------------------------------------------------------------------------

structure CSQNode where
  next : Int
  length : Nat
  pageLKTB : Int
  deriving Repr

instance : Linked CSQNode where
  next n := n.next
  setNext d n := { n with next := d }
  next_setNext _ _ := rfl
  setNext_next _ := rfl
  setNext_setNext _ _ _ := rfl

def CSQNode.init : CSQNode := ⟨0, 0, 0⟩

/-- `CSQNode::Page()` of the node at `n`. -/
def nodePage (nodes : Int → CSQNode) (n : Int) : Option Int :=
  pointer n (nodes n).pageLKTB

/-- `CSQNode::Page(p)`. -/
def setNodePage (nodes : Int → CSQNode) (n : Int) (p : Option Int) : Int → CSQNode :=
  Function.update nodes n { nodes n with pageLKTB := offset n p }

/-- `CSQNode::Length(n)`. -/
def setNodeLength (nodes : Int → CSQNode) (n : Int) (length : Nat) : Int → CSQNode :=
  Function.update nodes n { nodes n with length := length }

-- ---------------------------------------------------------------------------
-- Layout
-- ---------------------------------------------------------------------------

/-- Object sizes and member offsets of the platform. Every list header lies
inside the object that holds it. -/
structure Abi where
  infor : Nat
  suiteArray : Nat
  suite : Nat
  queueList : Nat
  pplList : Nat
  pooler : Nat
  poolerList : Nat
  allocator : Nat
  allocatorList : Nat
  queueList_lt : queueList < suite
  pplList_lt : pplList < suite
  poolerList_lt : poolerList < pooler
  allocatorList_lt : allocatorList < allocator

/-- The arguments of `CSQInfor::Init`. -/
structure Config where
  abi : Abi
  queues : Nat
  maxDepth : Nat
  catchCount : Nat
  nodes : Nat
  pages : Nat
  pageSize : BitVec 16

inductive NodeList
  | pooler
  | ppl (q : Nat)
  | queue (q : Nat)
  deriving DecidableEq, Repr

namespace Config

variable (c : Config)

def suiteAt (q : Nat) : Int := c.abi.infor + c.abi.suiteArray + c.abi.suite * q

def poolerAt : Int := c.suiteAt c.queues

def nodeEntry : Int := c.poolerAt + c.abi.pooler

/-- `CSQNodeArray::operator[]`; a node is three words. -/
def nodeAt (i : Nat) : Int := c.nodeEntry + 12 * i

def allocatorAt : Int := c.nodeEntry + 12 * c.nodes

def freeListAt : Int := c.allocatorAt + c.abi.allocatorList

def pageEntry : Int := c.allocatorAt + c.abi.allocator

/-- `CSQPageArray::operator[]`; a page is two words and its bytes. -/
def pageAt (i : Nat) : Int := c.pageEntry + (8 + c.pageSize.toNat) * i

def listAt : NodeList → Int
  | .pooler => c.poolerAt + c.abi.poolerList
  | .ppl q => c.suiteAt q + c.abi.pplList
  | .queue q => c.suiteAt q + c.abi.queueList

def IsNode (a : Int) : Prop := ∃ i < c.nodes, a = c.nodeAt i

def IsPage (a : Int) : Prop := ∃ i < c.pages, a = c.pageAt i

/-- The lists of the media: those of the queues it was set up with. -/
def HasList : NodeList → Prop
  | .pooler => True
  | .ppl q | .queue q => q < c.queues

end Config

variable {c : Config}

theorem suiteAt_lt {q : Nat} (h : q < c.queues) : c.suiteAt q + c.abi.suite ≤ c.poolerAt := by
  unfold Config.poolerAt Config.suiteAt
  have hmul : c.abi.suite * q + c.abi.suite ≤ c.abi.suite * c.queues := by
    rw [← Nat.mul_succ]
    exact Nat.mul_le_mul_left _ h
  have : (c.abi.suite : Int) * q + c.abi.suite ≤ c.abi.suite * c.queues := by exact_mod_cast hmul
  omega

theorem listAt_lt_nodeEntry {id : NodeList} (h : c.HasList id) : c.listAt id < c.nodeEntry := by
  unfold Config.nodeEntry
  cases id with
  | pooler =>
    have := c.abi.poolerList_lt
    simp only [Config.listAt]
    omega
  | ppl q =>
    have := suiteAt_lt h
    have := c.abi.pplList_lt
    simp only [Config.listAt]
    omega
  | queue q =>
    have := suiteAt_lt h
    have := c.abi.queueList_lt
    simp only [Config.listAt]
    omega

theorem nodeEntry_le {a : Int} (h : c.IsNode a) : c.nodeEntry ≤ a ∧ a < c.allocatorAt := by
  obtain ⟨i, hi, rfl⟩ := h
  unfold Config.nodeAt Config.allocatorAt
  omega

theorem pageEntry_le {a : Int} (h : c.IsPage a) : c.pageEntry ≤ a := by
  obtain ⟨i, hi, rfl⟩ := h
  unfold Config.pageAt
  have : 0 ≤ (8 + (c.pageSize.toNat : Int)) * i := Int.mul_nonneg (by omega) (by omega)
  omega

theorem node_ne_list {a : Int} {id : NodeList} (ha : c.IsNode a) (h : c.HasList id) :
    a ≠ c.listAt id := by
  have := (nodeEntry_le ha).1
  have := listAt_lt_nodeEntry h
  omega

theorem page_ne_freeList {a : Int} (ha : c.IsPage a) : a ≠ c.freeListAt := by
  have := pageEntry_le ha
  have := c.abi.allocatorList_lt
  unfold Config.pageEntry Config.freeListAt at *
  omega

theorem node_ne_page {a b : Int} (ha : c.IsNode a) (hb : c.IsPage b) : a ≠ b := by
  have := (nodeEntry_le ha).2
  have := pageEntry_le hb
  unfold Config.pageEntry at *
  omega

theorem nodeAt_injective : Function.Injective c.nodeAt := by
  intro i j h
  unfold Config.nodeAt at h
  omega

theorem pageAt_injective : Function.Injective c.pageAt := by
  intro i j h
  unfold Config.pageAt at h
  have hpos : (8 + (c.pageSize.toNat : Int)) ≠ 0 := by omega
  have := mul_left_cancel₀ hpos (add_left_cancel h)
  exact_mod_cast this

-- ---------------------------------------------------------------------------
-- Conditions and queues
-- ---------------------------------------------------------------------------

/-- A condition variable: the counter `_WAT` of the source, an `UINT`, and the
threads that are blocked on the `pthread_cond_t`. -/
structure CSQCond where
  wat : BitVec 32
  cnd : List Nat
  deriving DecidableEq, Repr

def CSQCond.init : CSQCond := ⟨0, []⟩

def CSQCond.lurkers (c : CSQCond) : Nat := c.wat.toNat

/-- `if(_WAT > 0) _WAT--` -/
def CSQCond.countOff (c : CSQCond) : BitVec 32 := if 0 < c.wat.toNat then c.wat - 1 else c.wat

/-- `Wait` and `TimedWait` up to the point where the mutex is released. -/
def CSQCond.wait (c : CSQCond) (t : Nat) : CSQCond := ⟨c.wat + 1, c.cnd ++ [t]⟩

/-- `NotifyOne`: one of the blocked threads, if there is one, is woken; `w`
is the system's choice. -/
def CSQCond.notifyOne (c : CSQCond) (w : Nat) : CSQCond :=
  ⟨c.countOff, c.cnd.eraseIdx (w % c.cnd.length)⟩

/-- A thread stops being blocked without a signal: its time is up, or the
wake-up is spurious. -/
def CSQCond.leave (c : CSQCond) (t : Nat) : CSQCond := { c with cnd := c.cnd.erase t }

/-- What a wait that ended with an error does to the counter. -/
def CSQCond.expire (c : CSQCond) : CSQCond := { c with wat := c.countOff }

structure CSQPrivatePooler where
  «catch» : Nat
  cond : CSQCond
  list : CSQList
  deriving Repr

structure CSQDoorQueue where
  maxDepth : Nat
  threshold1 : CSQCond
  threshold2 : CSQCond
  list : CSQList
  deriving Repr

structure CSQSuite where
  queue : CSQDoorQueue
  ppl : CSQPrivatePooler
  deriving Repr

/-- The words of the media that the operations read and write: the two
arrays, the list of `CSQPooler`, the free list of `CSQAllocator` and the
queues. -/
structure Media where
  nodes : Int → CSQNode
  pages : Int → CSQPage
  pooler : CSQList
  free : CSQList
  suite : Nat → CSQSuite

namespace Media

def setSuite (m : Media) (q : Nat) (s : CSQSuite) : Media :=
  { m with suite := Function.update m.suite q s }

def list (m : Media) : NodeList → CSQList
  | .pooler => m.pooler
  | .ppl q => (m.suite q).ppl.list
  | .queue q => (m.suite q).queue.list

def setList (m : Media) : NodeList → CSQList → Media
  | .pooler, l => { m with pooler := l }
  | .ppl q, l => m.setSuite q { m.suite q with ppl := { (m.suite q).ppl with list := l } }
  | .queue q, l => m.setSuite q { m.suite q with queue := { (m.suite q).queue with list := l } }

end Media

inductive CondId
  | event (q : Nat)
  | threshold1 (q : Nat)
  | threshold2 (q : Nat)
  deriving DecidableEq, Repr

namespace Media

def cond (m : Media) : CondId → CSQCond
  | .event q => (m.suite q).ppl.cond
  | .threshold1 q => (m.suite q).queue.threshold1
  | .threshold2 q => (m.suite q).queue.threshold2

def setCond (m : Media) : CondId → CSQCond → Media
  | .event q, x => m.setSuite q { m.suite q with ppl := { (m.suite q).ppl with cond := x } }
  | .threshold1 q, x =>
    m.setSuite q { m.suite q with queue := { (m.suite q).queue with threshold1 := x } }
  | .threshold2 q, x =>
    m.setSuite q { m.suite q with queue := { (m.suite q).queue with threshold2 := x } }

variable (m : Media)

@[simp] theorem list_setList_self (id : NodeList) (l : CSQList) : (m.setList id l).list id = l := by
  cases id <;> simp [setList, list, setSuite]

@[simp] theorem list_setList_of_ne {id id' : NodeList} (h : id' ≠ id) (l : CSQList) :
    (m.setList id l).list id' = m.list id' := by
  cases id <;> cases id' <;> simp_all [setList, list, setSuite, Function.update_apply] <;>
    split <;> simp_all

@[simp] theorem list_setCond (id : NodeList) (k : CondId) (x : CSQCond) :
    (m.setCond k x).list id = m.list id := by
  cases id <;> cases k <;> simp [setCond, list, setSuite, Function.update_apply] <;>
    split <;> simp_all

@[simp] theorem cond_setList (id : NodeList) (l : CSQList) (k : CondId) :
    (m.setList id l).cond k = m.cond k := by
  cases id <;> cases k <;> simp [setList, cond, setSuite, Function.update_apply] <;>
    split <;> simp_all

@[simp] theorem cond_setCond_self (k : CondId) (x : CSQCond) : (m.setCond k x).cond k = x := by
  cases k <;> simp [setCond, cond, setSuite]

@[simp] theorem cond_setCond_of_ne {k k' : CondId} (h : k' ≠ k) (x : CSQCond) :
    (m.setCond k x).cond k' = m.cond k' := by
  cases k <;> cases k' <;> simp_all [setCond, cond, setSuite, Function.update_apply] <;>
    split <;> simp_all

@[simp] theorem nodes_setList (id : NodeList) (l : CSQList) : (m.setList id l).nodes = m.nodes := by
  cases id <;> rfl

@[simp] theorem pages_setList (id : NodeList) (l : CSQList) : (m.setList id l).pages = m.pages := by
  cases id <;> rfl

@[simp] theorem free_setList (id : NodeList) (l : CSQList) : (m.setList id l).free = m.free := by
  cases id <;> rfl

@[simp] theorem nodes_setCond (k : CondId) (x : CSQCond) : (m.setCond k x).nodes = m.nodes := by
  cases k <;> rfl

@[simp] theorem pages_setCond (k : CondId) (x : CSQCond) : (m.setCond k x).pages = m.pages := by
  cases k <;> rfl

@[simp] theorem free_setCond (k : CondId) (x : CSQCond) : (m.setCond k x).free = m.free := by
  cases k <;> rfl

/-- The limits a queue was set up with; no operation changes them. -/
def limits (q : Nat) : Nat × Nat := ((m.suite q).queue.maxDepth, (m.suite q).ppl.catch)

@[simp] theorem limits_setList (id : NodeList) (l : CSQList) (q : Nat) :
    (m.setList id l).limits q = m.limits q := by
  cases id <;> simp [setList, limits, setSuite, Function.update_apply] <;> split <;> simp_all

@[simp] theorem limits_setCond (k : CondId) (x : CSQCond) (q : Nat) :
    (m.setCond k x).limits q = m.limits q := by
  cases k <;> simp [setCond, limits, setSuite, Function.update_apply] <;> split <;> simp_all

end Media

end GalaLua.AMQ
