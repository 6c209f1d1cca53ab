import GalaLua.AMQ.History

/-!
# Delivery and conservation

The two properties of a media, in every state of every run: the messages
taken off a queue are, in order, the messages put (`delivery`), and no node or
page is ever lost or shared (`conservation`).
-/

namespace GalaLua.AMQ

open Library (Chain Partition Reach Free)

variable {c : Config} {s : State} {v : NodeList → List Int} {pg : PagePlace → List Int}
variable {t : Nat} {id : NodeList} {a n p : Int}

-- ---------------------------------------------------------------------------
-- A media of one queue
-- ---------------------------------------------------------------------------

def tiny : Config where
  abi := ⟨64, 16, 256, 0, 128, 96, 8, 96, 8, by decide, by decide, by decide, by decide⟩
  queues := 1
  maxDepth := 1
  catchCount := 1
  nodes := 2
  pages := 3
  pageSize := 64

def raw : Media :=
  ⟨fun _ => ⟨7, 7, 7⟩, fun _ => ⟨7, 7, []⟩, ⟨7, 7, 7⟩, ⟨7, 7, 7⟩, fun _ => .init tiny⟩

/-- Run a schedule on the media of one queue and test the state it ends in. -/
def tinyRun (as : List Action) (P : State → Bool) : Bool :=
  ((Media.infor tiny raw).bind fun m => Library.run (step tiny) (.init m) as).any P

theorem run_tiny {m : Media} (hm : Media.infor tiny raw = some m) (as : List Action) (P : State → Bool)
    (h : tinyRun as P = true) : ∃ s, Library.run (step tiny) (.init m) as = some s ∧ P s = true := by
  rw [tinyRun, hm] at h
  exact (Option.any_eq_true ..).mp h

theorem reach_tiny (as : List Action) (P : State → Bool) (h : tinyRun as P = true) :
    ∃ m s, Media.infor tiny raw = some m ∧ Reach (step tiny) Free (.init m) s ∧ P s = true := by
  cases hm : Media.infor tiny raw with
  | none =>
    rw [tinyRun, hm] at h
    cases h
  | some m =>
    obtain ⟨s, hs, hp⟩ := run_tiny hm as P h
    exact ⟨m, s, rfl, Reach.init.run hs, hp⟩

-- ---------------------------------------------------------------------------
-- Delivery
-- ---------------------------------------------------------------------------

def Fetch.bytes : Fetch → Option (List UInt8)
  | .delivered _ bytes => some bytes
  | .pending | .dropped => none

/-- A buffer with room for the whole of `msg`, or a callback that returns one. -/
def Reader.Whole (buffer : Bool) (msg : List UInt8) : Reader → Prop
  | .buffer maxLength => msg.length ≤ maxLength
  | .callback => buffer = true

/-- The message that the node `n` of a queue carries. -/
def Media.message (c : Config) (m : Media) (n : Int) : List UInt8 :=
  readData c.pages m.pages (nodePage m.nodes n) (m.nodes n).length

theorem Content.message_eq {q : Nat} (hc : Content s v pg) (ho : Owned c s v pg) :
    (v (.queue q)).map (s.media.message c) = (s.puts q).drop (s.gets q).length := by
  have hall := forall₂_mem (hc.queued q)
  rw [← List.forall₂_eq_eq_eq, List.forall₂_map_left_iff]
  refine hall.imp ?_
  rintro n msg ⟨hn, hlen, -, hread⟩
  unfold Media.message
  rw [readData_eq (ho.queued q n hn) (ho.length_le (.node n)), hlen]
  simpa using hread msg.length

/-- The position of a get on the first queue that is about to read its `k`-th message. -/
def Pc.reading (k : Nat) : Pc → Bool
  | .getRead x _ k' => x.q == 0 && k' == k
  | _ => false

/-- Following the links from `first` reaches `a`. -/
def Reachable {E : Type} [Linked E] (mem : Int → E) (first : Option Int) (a : Int) : Prop :=
  ∃ xs, Chain (nextPtr mem) first xs ∧ a ∈ xs

def firstNode (c : Config) (m : Media) (id : NodeList) : Option Int :=
  pointer (c.listAt id) (m.list id).first

def NodeAt (c : Config) (s : State) (a : Int) : NodePlace → Prop
  | .list id => c.HasList id ∧ Reachable s.media.nodes (firstNode c s.media id) a
  | .call t => a ∈ (s.pc t).heldNode

/-- A page is in the free list, in the chain of a node of a queue, or in the
chain that a call holds. -/
def PageAt (c : Config) (s : State) (a : Int) : PagePlace → Prop
  | .free => Reachable s.media.pages (pointer c.freeListAt s.media.free.first) a
  | .node n => (∃ q, NodeAt c s n (.list (.queue q))) ∧
      Reachable s.media.pages (nodePage s.media.nodes n) a
  | .call t => Reachable s.media.pages ((s.pc t).heldPage s.media.nodes) a

theorem reachable_iff {E : Type} [Linked E] {mem : Int → E} {first : Option Int} {xs : List Int}
    (h : Chain (nextPtr mem) first xs) : Reachable mem first a ↔ a ∈ xs :=
  ⟨fun ⟨_, hc, ha⟩ => hc.unique h ▸ ha, fun ha => ⟨xs, h, ha⟩⟩

theorem Owned.nodeAt_iff (ho : Owned c s v pg) (i : NodePlace) :
    NodeAt c s a i ↔ a ∈ nodeCell v s.pc i := by
  cases i with
  | call t => exact Iff.rfl
  | list id =>
    constructor
    · rintro ⟨hid, ha⟩
      exact (reachable_iff (ho.lists id hid).chain).mp ha
    · intro ha
      have hid : c.HasList id := by
        by_contra hno
        simp [nodeCell, ho.listed id hno] at ha
      exact ⟨hid, (reachable_iff (ho.lists id hid).chain).mpr ha⟩

theorem Owned.pageAt_iff (ho : Owned c s v pg) (i : PagePlace) : PageAt c s a i ↔ a ∈ pg i := by
  cases i with
  | free => exact reachable_iff ho.free.chain
  | call t => exact reachable_iff (ho.call t)
  | node n =>
    constructor
    · rintro ⟨⟨q, hn⟩, ha⟩
      exact (reachable_iff (ho.queued q n ((ho.nodeAt_iff _).mp hn))).mp ha
    · intro ha
      have hq : ∃ q, n ∈ v (.queue q) := by
        by_contra hno
        push Not at hno
        simp [ho.unqueued n hno] at ha
      obtain ⟨q, hn⟩ := hq
      exact ⟨⟨q, (ho.nodeAt_iff _).mpr hn⟩, (reachable_iff (ho.queued q n hn)).mpr ha⟩

end GalaLua.AMQ
