import GalaLua.AMQ.Suite

/-!
# Ownership of nodes and pages

The ledger of a state says where every node and every page is: `v` gives the
node lists and `pg` the pages of the free list, of every queued node and of
every call. `Owned` ties the ledger to the words of the media and to the local
variables of the threads. Nodes and pages change hands in a few ways only, and
each of them has a lemma below.
-/

namespace GalaLua.AMQ

open Library (Chain Partition)

inductive NodePlace
  | list (id : NodeList)
  | call (t : Nat)
  deriving DecidableEq

inductive PagePlace
  | free
  | node (n : Int)
  | call (t : Nat)
  deriving DecidableEq

/-- The node a thread holds in `_NurseryAutoFree` or has just taken. -/
def Pc.heldNode : Pc → List Int
  | .putAlloc _ n | .putWrite _ n _ | .putQueue _ n _ | .putQueueWait _ n _ _
  | .unwindNode _ n _ | .getRead _ n _ | .getFree _ n _ | .getPut _ n => [n]
  | _ => []

/-- The page chain a thread holds; before a get has taken it off its node, the
chain of the node. -/
def Pc.heldPage (nodes : Int → CSQNode) : Pc → Option Int
  | .putWrite _ _ p | .putQueue _ _ p | .putQueueWait _ _ p _ | .unwindPage p
  | .getFree _ _ p => some p
  | .unwindNode _ _ p => p
  | .getRead _ n _ => nodePage nodes n
  | _ => none

def Pc.queue : Pc → Option Nat
  | .putNode x | .putNodeWait x _ | .putAlloc x _ | .putWrite x _ _ | .putQueue x _ _
  | .putQueueWait x _ _ _ => some x.q
  | .getQueue x | .getQueueWait x _ | .getRead x _ _ => some x.q
  | .unwindNode q _ _ | .getFree q _ _ | .getPut q _ => some q
  | .idle | .unwindPage _ => none

def nodeCell (v : NodeList → List Int) (pc : Nat → Pc) : NodePlace → List Int
  | .list id => v id
  | .call t => (pc t).heldNode

structure Owned (c : Config) (s : State) (v : NodeList → List Int) (pg : PagePlace → List Int) :
    Prop where
  lists : Lists c s.media v
  listed : ∀ id, ¬c.HasList id → v id = []
  nodes : Partition c.IsNode (nodeCell v s.pc)
  free : s.media.free.Repr c.freeListAt s.media.pages (pg .free)
  queued : ∀ q, ∀ n ∈ v (.queue q),
    Chain (nextPtr s.media.pages) (nodePage s.media.nodes n) (pg (.node n))
  unqueued : ∀ n, (∀ q, n ∉ v (.queue q)) → pg (.node n) = []
  call : ∀ t, Chain (nextPtr s.media.pages) ((s.pc t).heldPage s.media.nodes) (pg (.call t))
  pages : Partition c.IsPage pg
  size : ∀ a, c.IsPage a → (s.media.pages a).pageSize = c.pageSize
  limits : ∀ q, s.media.limits q = (c.maxDepth, c.catchCount)
  depth : ∀ q, 0 < c.maxDepth → (v (.queue q)).length ≤ c.maxDepth
  queue : ∀ t q, (s.pc t).queue = some q → q < c.queues

variable {c : Config} {s : State} {v : NodeList → List Int} {pg : PagePlace → List Int}
variable {t : Nat} {m' : Media} {p' : Pc} {id : NodeList} {a n : Int} {xs ys : List Int}

theorem Owned.separate (h : Owned c s v pg) : Separate v := fun ha hb => by
  have := h.nodes.disjoint (i := .list _) (j := .list _) ha hb
  exact NodePlace.list.inj this

theorem Owned.held_notMem (h : Owned c s v pg) (hn : n ∈ (s.pc t).heldNode) (id : NodeList) :
    n ∉ v id :=
  h.nodes.notMem (i := .call t) (j := .list id) hn (by simp)

theorem Owned.held_isNode (h : Owned c s v pg) (hn : n ∈ (s.pc t).heldNode) : c.IsNode n :=
  h.nodes.carrier_of_mem (i := NodePlace.call t) hn

theorem Owned.held_unique (h : Owned c s v pg) {t' : Nat} (hn : n ∈ (s.pc t).heldNode)
    (ht : t' ≠ t) : n ∉ (s.pc t').heldNode :=
  h.nodes.notMem (i := .call t) (j := .call t') hn (by simpa using ht.symm)

theorem Owned.length_le (h : Owned c s v pg) (i : PagePlace) : (pg i).length ≤ c.pages := by
  have hsub : pg i ⊆ (List.range c.pages).map c.pageAt := by
    intro a ha
    obtain ⟨k, hk, rfl⟩ := h.pages.carrier_of_mem ha
    exact List.mem_map.mpr ⟨k, List.mem_range.mpr hk, rfl⟩
  have := (h.pages.nodup i).subperm hsub
  simpa using this.length_le

/-- Only a thread that has not yet read its node depends on the words of nodes. -/
theorem heldPage_congr {nodes nodes' : Int → CSQNode} {p : Pc}
    (h : ∀ n ∈ p.heldNode, nodePage nodes' n = nodePage nodes n) :
    p.heldPage nodes' = p.heldPage nodes := by
  cases p with
  | getRead x n k => exact h n (by simp [Pc.heldNode])
  | _ => rfl

-- ---------------------------------------------------------------------------
-- Nodes
-- ---------------------------------------------------------------------------

theorem nodes_keep {pc : Nat → Pc} (h : Partition c.IsNode (nodeCell v pc))
    (hp : p'.heldNode = (pc t).heldNode) :
    Partition c.IsNode (nodeCell v (Function.update pc t p')) := by
  have : nodeCell v (Function.update pc t p') = nodeCell v pc := by
    funext i
    cases i with
    | list id => rfl
    | call t' =>
      rcases eq_or_ne t' t with rfl | ht
      · simpa [nodeCell] using hp
      · simp [nodeCell, ht]
  rwa [this]

theorem nodes_take {pc : Nat → Pc} (h : Partition c.IsNode (nodeCell v pc)) (hv : v id = a :: xs)
    (hp : (pc t).heldNode = []) (hp' : p'.heldNode = [a]) :
    Partition c.IsNode (nodeCell (Function.update v id xs) (Function.update pc t p')) := by
  refine h.transfer (i := .list id) (j := .call t) (by simp) ?_ ?_
  · simp only [nodeCell, Function.update_self, hv, hp, hp', List.append_nil]
    exact List.perm_append_singleton a xs
  · intro k h₁ h₂
    cases k with
    | list id' => exact Function.update_of_ne (by simpa using h₁) _ _
    | call t' => simp only [nodeCell, Function.update_of_ne (show t' ≠ t by simpa using h₂)]

theorem nodes_give {pc : Nat → Pc} (h : Partition c.IsNode (nodeCell v pc))
    (hys : ys.Perm (n :: v id)) (hp : (pc t).heldNode = [n]) (hp' : p'.heldNode = []) :
    Partition c.IsNode (nodeCell (Function.update v id ys) (Function.update pc t p')) := by
  refine h.transfer (i := .list id) (j := .call t) (by simp) ?_ ?_
  · simp only [nodeCell, Function.update_self, hp, hp', List.append_nil]
    exact hys.trans (List.perm_append_singleton n _).symm
  · intro k h₁ h₂
    cases k with
    | list id' => exact Function.update_of_ne (by simpa using h₁) _ _
    | call t' => simp only [nodeCell, Function.update_of_ne (show t' ≠ t by simpa using h₂)]

-- ---------------------------------------------------------------------------
-- Steps that move nothing
-- ---------------------------------------------------------------------------

theorem queue_update {pc : Nat → Pc} (h : ∀ t q, (pc t).queue = some q → q < c.queues)
    (hp : ∀ q, p'.queue = some q → q < c.queues) :
    ∀ t' q, (Function.update pc t p' t').queue = some q → q < c.queues := by
  intro t' q hq
  rcases eq_or_ne t' t with rfl | ht
  · exact hp q (by simpa using hq)
  · exact h t' q (by simpa [ht] using hq)

theorem Owned.quiet (h : Owned c s v pg) (hl : Lists c m' v) (hf : NodeFrame s.media m')
    (hn : p'.heldNode = (s.pc t).heldNode)
    (hpg : p'.heldPage s.media.nodes = (s.pc t).heldPage s.media.nodes)
    (hq : ∀ q, p'.queue = some q → q < c.queues) : Owned c (s.goto t m' p') v pg where
  lists := hl
  listed := h.listed
  nodes := nodes_keep h.nodes hn
  free := by
    simp only [State.goto, hf.free, hf.pages]
    exact h.free
  queued q n hn := by
    simp only [State.goto, hf.pages, hf.nodePage]
    exact h.queued q n hn
  unqueued := h.unqueued
  call t' := by
    simp only [State.goto, hf.pages]
    rw [heldPage_congr fun n _ => hf.nodePage n]
    rcases eq_or_ne t' t with rfl | ht
    · simpa [hpg] using h.call t'
    · simpa [ht] using h.call t'
  pages := h.pages
  size a ha := by
    simp only [State.goto, hf.pages]
    exact h.size a ha
  limits q := (hf.limits q).trans (h.limits q)
  depth := h.depth
  queue := queue_update h.queue hq

-- ---------------------------------------------------------------------------
-- A node comes from, or goes back to, a pool
-- ---------------------------------------------------------------------------

def NodeList.isPool : NodeList → Bool
  | .pooler | .ppl _ => true
  | .queue _ => false

theorem update_pool (h : id.isPool) (q : Nat) :
    Function.update v id xs (.queue q) = v (.queue q) :=
  Function.update_of_ne (by rintro rfl; simp [NodeList.isPool] at h) _ _

theorem listed_update (h : ∀ id, ¬c.HasList id → v id = []) (hid : c.HasList id) :
    ∀ id', ¬c.HasList id' → Function.update v id xs id' = [] := by
  intro id' hid'
  rw [Function.update_of_ne (by rintro rfl; exact hid' hid)]
  exact h id' hid'

theorem Owned.takePooled (h : Owned c s v pg) (hpool : id.isPool) (hid : c.HasList id)
    (hv : v id = a :: xs) (hl : Lists c m' (Function.update v id xs)) (hf : NodeFrame s.media m')
    (hp : (s.pc t).heldNode = []) (hp' : p'.heldNode = [a])
    (hpg : (s.pc t).heldPage s.media.nodes = none) (hpg' : ∀ nodes, p'.heldPage nodes = none)
    (hq : ∀ q, p'.queue = some q → q < c.queues) :
    Owned c (s.goto t m' p') (Function.update v id xs) pg where
  lists := hl
  listed := listed_update h.listed hid
  nodes := nodes_take h.nodes hv hp hp'
  free := by
    simp only [State.goto, hf.free, hf.pages]
    exact h.free
  queued q n hn := by
    rw [update_pool hpool] at hn
    simp only [State.goto, hf.pages, hf.nodePage]
    exact h.queued q n hn
  unqueued n hn := h.unqueued n fun q => by simpa [update_pool hpool] using hn q
  call t' := by
    simp only [State.goto, hf.pages]
    rcases eq_or_ne t' t with rfl | ht
    · have := h.call t'
      rw [hpg] at this
      simpa [hpg'] using this
    · rw [Function.update_of_ne ht, heldPage_congr fun n _ => hf.nodePage n]
      exact h.call t'
  pages := h.pages
  size a ha := by
    simp only [State.goto, hf.pages]
    exact h.size a ha
  limits q := (hf.limits q).trans (h.limits q)
  depth q := by
    rw [update_pool hpool]
    exact h.depth q
  queue := queue_update h.queue hq

/-- `CSQPrivatePooler::Put`, which also clears the page link of the node. -/
theorem Owned.givePooled (h : Owned c s v pg) (hpool : id.isPool) (hid : c.HasList id)
    (hl : Lists c m' (Function.update v id (n :: v id)))
    (hf : NodeFrame { s.media with nodes := setNodePage s.media.nodes n none } m')
    (hp : (s.pc t).heldNode = [n]) (hp' : p'.heldNode = [])
    (hpg : ∀ nodes, p'.heldPage nodes = (s.pc t).heldPage s.media.nodes)
    (hq : ∀ q, p'.queue = some q → q < c.queues) :
    Owned c (s.goto t m' p') (Function.update v id (n :: v id)) pg := by
  have hn : n ∈ (s.pc t).heldNode := by simp [hp]
  have hpage : ∀ b ≠ n, nodePage m'.nodes b = nodePage s.media.nodes b := fun b hb => by
    rw [hf.nodePage b]
    simp [nodePage, setNodePage, hb]
  refine ⟨hl, listed_update h.listed hid, nodes_give h.nodes (.refl _) hp hp', ?_, ?_, ?_, ?_,
    h.pages, ?_, fun q => (hf.limits q).trans (h.limits q), ?_, queue_update h.queue hq⟩
  · simp only [State.goto, hf.free, hf.pages]
    exact h.free
  · intro q b hb
    rw [update_pool hpool] at hb
    simp only [State.goto, hf.pages]
    rw [hpage b fun hbn => h.held_notMem hn (.queue q) (hbn ▸ hb)]
    exact h.queued q b hb
  · exact fun b hb => h.unqueued b fun q => by simpa [update_pool hpool] using hb q
  · intro t'
    simp only [State.goto, hf.pages]
    rcases eq_or_ne t' t with rfl | ht
    · rw [Function.update_self, hpg]
      exact h.call t'
    · rw [Function.update_of_ne ht,
        heldPage_congr fun b hb => hpage b fun hbn => h.held_unique hn ht (hbn ▸ hb)]
      exact h.call t'
  · intro a ha
    simp only [State.goto, hf.pages]
    exact h.size a ha
  · intro q
    rw [update_pool hpool]
    exact h.depth q

-- ---------------------------------------------------------------------------
-- A node passes through a queue with its pages
-- ---------------------------------------------------------------------------

/-- The ledger after thread `t` took the pages of the queued node `n`. -/
def pagesTaken (pg : PagePlace → List Int) (t : Nat) (n : Int) : PagePlace → List Int :=
  Function.update (Function.update pg (.node n) []) (.call t) (pg (.node n))

/-- The ledger after thread `t` queued its pages with the node `n`. -/
def pagesQueued (pg : PagePlace → List Int) (t : Nat) (n : Int) : PagePlace → List Int :=
  Function.update (Function.update pg (.call t) []) (.node n) (pg (.call t))

theorem Owned.dequeue {x : GetCall} {q : Nat} (h : Owned c s v pg) (hq : q < c.queues)
    (hv : v (.queue q) = a :: xs) (hl : Lists c m' (Function.update v (.queue q) xs))
    (hf : NodeFrame s.media m') (hp : (s.pc t).heldNode = [])
    (hpg : (s.pc t).heldPage s.media.nodes = none) (hx : x.q = q) (k : Nat) :
    Owned c (s.goto t m' (.getRead x a k)) (Function.update v (.queue q) xs)
      (pagesTaken pg t a) := by
  have hmem : a ∈ v (.queue q) := by rw [hv]; exact List.mem_cons_self
  have hax : a ∉ xs := by
    have := h.nodes.nodup (.list (.queue q))
    simp only [nodeCell, hv] at this
    exact (List.nodup_cons.mp this).1
  have hempty : pg (.call t) = [] := by
    have := h.call t
    rw [hpg] at this
    exact this.unique rfl
  -- the nodes left in the queues are other nodes, which were queued before
  have hrest : ∀ q' n, n ∈ Function.update v (.queue q) xs (.queue q') →
      n ∈ v (.queue q') ∧ n ≠ a := by
    intro q' n hn
    rcases eq_or_ne q' q with rfl | hne
    · rw [Function.update_self] at hn
      exact ⟨by rw [hv]; exact List.mem_cons_of_mem _ hn, fun h => hax (h ▸ hn)⟩
    · rw [Function.update_of_ne (by simpa using hne)] at hn
      exact ⟨hn, fun h' => hne (NodeList.queue.inj (h.separate (h' ▸ hn) hmem))⟩
  refine ⟨hl, listed_update h.listed hq, nodes_take h.nodes hv hp rfl, ?_, ?_, ?_, ?_, ?_, ?_,
    fun q => (hf.limits q).trans (h.limits q), ?_, queue_update h.queue ?_⟩
  · simp only [State.goto, hf.free, hf.pages, pagesTaken]
    simpa using h.free
  · intro q' n hn
    obtain ⟨hn, hne⟩ := hrest q' n hn
    simp only [State.goto, hf.pages, hf.nodePage, pagesTaken]
    simpa [hne] using h.queued q' n hn
  · intro n hn
    rcases eq_or_ne n a with rfl | hne
    · simp [pagesTaken]
    · simp only [pagesTaken, ne_eq, reduceCtorEq, not_false_eq_true, Function.update_of_ne,
        PagePlace.node.injEq, hne]
      refine h.unqueued n fun q' hq' => hn q' ?_
      rcases eq_or_ne q' q with rfl | hqq
      · rw [hv] at hq'
        rw [Function.update_self]
        exact (List.mem_cons.mp hq').resolve_left hne
      · rwa [Function.update_of_ne (by simpa using hqq)]
  · intro t'
    simp only [State.goto, hf.pages]
    rcases eq_or_ne t' t with rfl | ht
    · simp only [Function.update_self, Pc.heldPage, pagesTaken, hf.nodePage]
      exact h.queued q a hmem
    · rw [Function.update_of_ne ht, heldPage_congr fun n _ => hf.nodePage n]
      simpa [pagesTaken, ht] using h.call t'
  · exact h.pages.move (by simp) (by simp [hempty])
  · intro b hb
    simp only [State.goto, hf.pages]
    exact h.size b hb
  · intro q' hd
    refine le_trans ?_ (h.depth q' hd)
    rcases eq_or_ne q' q with rfl | hqq
    · simp [hv]
    · rw [Function.update_of_ne (by simpa using hqq)]
  · intro q' hq'
    simp only [Pc.queue, Option.some.injEq] at hq'
    omega

theorem Owned.enqueue {q : Nat} (h : Owned c s v pg) (hq : q < c.queues)
    (hl : Lists c m' (Function.update v (.queue q) (v (.queue q) ++ [n])))
    (hf : NodeFrame s.media m') (hfull : s.media.full q = false)
    (hp : (s.pc t).heldNode = [n])
    (hpg : (s.pc t).heldPage s.media.nodes = nodePage s.media.nodes n) :
    Owned c (s.goto t m' .idle) (Function.update v (.queue q) (v (.queue q) ++ [n]))
      (pagesQueued pg t n) := by
  have hn : n ∈ (s.pc t).heldNode := by simp [hp]
  have hempty : pg (.node n) = [] := h.unqueued n fun q => h.held_notMem hn (.queue q)
  refine ⟨hl, listed_update h.listed hq,
    nodes_give h.nodes (List.perm_append_singleton _ _) hp rfl, ?_, ?_, ?_, ?_, ?_, ?_,
    fun q => (hf.limits q).trans (h.limits q), ?_, queue_update h.queue (by simp [Pc.queue])⟩
  · simp only [State.goto, hf.free, hf.pages, pagesQueued]
    simpa using h.free
  · intro q' b hb
    simp only [State.goto, hf.pages, hf.nodePage]
    rcases eq_or_ne b n with rfl | hne
    · simp only [pagesQueued, Function.update_self]
      rw [← hpg]
      exact h.call t
    · have hb' : b ∈ v (.queue q') := by
        rcases eq_or_ne q' q with rfl | hqq
        · rw [Function.update_self] at hb
          simpa [hne] using hb
        · rwa [Function.update_of_ne (by simpa using hqq)] at hb
      simpa [pagesQueued, hne] using h.queued q' b hb'
  · intro b hb
    have hne : b ≠ n := by
      rintro rfl
      exact hb q (by simp)
    simp only [pagesQueued, ne_eq, reduceCtorEq, not_false_eq_true, Function.update_of_ne,
      PagePlace.node.injEq, hne]
    refine h.unqueued b fun q' hq' => hb q' ?_
    rcases eq_or_ne q' q with rfl | hqq
    · rw [Function.update_self]
      exact List.mem_append_left _ hq'
    · rwa [Function.update_of_ne (by simpa using hqq)]
  · intro t'
    simp only [State.goto, hf.pages]
    rcases eq_or_ne t' t with rfl | ht
    · simp [pagesQueued, Pc.heldPage]
    · rw [Function.update_of_ne ht, heldPage_congr fun n _ => hf.nodePage n]
      simpa [pagesQueued, ht] using h.call t'
  · exact h.pages.move (by simp) (by simp [hempty])
  · intro b hb
    simp only [State.goto, hf.pages]
    exact h.size b hb
  · intro q' hd
    rcases eq_or_ne q' q with rfl | hqq
    · have hlim := h.limits q'
      simp only [Media.limits, Prod.mk.injEq] at hlim
      have := not_full h.lists hq hfull (by omega)
      simp
      omega
    · rw [Function.update_of_ne (by simpa using hqq)]
      exact h.depth q' hd

-- ---------------------------------------------------------------------------
-- Pages come from, and go back to, the free list
-- ---------------------------------------------------------------------------

/-- Pages move between the free list and thread `t`; only links change. -/
theorem Owned.relinkPages {l : CSQList} {pages : Int → CSQPage} (h : Owned c s v pg)
    (hfree : l.Repr c.freeListAt pages xs)
    (hcall : Chain (nextPtr pages) (p'.heldPage s.media.nodes) ys)
    (hrel : Relinked s.media.pages pages (pg .free ++ pg (.call t)))
    (hperm : (xs ++ ys).Perm (pg .free ++ pg (.call t)))
    (hn : p'.heldNode = (s.pc t).heldNode) (hq : ∀ q, p'.queue = some q → q < c.queues) :
    Owned c (s.goto t { s.media with free := l, pages := pages } p') v
      (Function.update (Function.update pg .free xs) (.call t) ys) := by
  -- the chains of the other places are off the relinked pages
  have hother : ∀ i, i ≠ .free → i ≠ .call t → ∀ p, Chain (nextPtr s.media.pages) p (pg i) →
      Chain (nextPtr pages) p (pg i) := by
    intro i h₁ h₂ p hc
    refine hc.congr fun a ha => ?_
    have : a ∉ pg .free ++ pg (.call t) := by
      simp only [List.mem_append, not_or]
      exact ⟨h.pages.notMem ha h₁, h.pages.notMem ha h₂⟩
    simp only [nextPtr, hrel.1 a this]
  refine ⟨h.lists, h.listed, nodes_keep h.nodes hn, ?_, ?_, ?_, ?_, h.pages.move (by simp) hperm,
    ?_, h.limits, h.depth, queue_update h.queue hq⟩
  · simpa [State.goto] using hfree
  · intro q n hn
    simpa [State.goto] using hother (.node n) (by simp) (by simp) _ (h.queued q n hn)
  · intro n hn
    simpa using h.unqueued n hn
  · intro t'
    rcases eq_or_ne t' t with rfl | ht
    · simpa [State.goto] using hcall
    · simpa [State.goto, ht] using hother (.call t') (by simp) (by simpa using ht) _ (h.call t')
  · intro a ha
    obtain ⟨d, hd⟩ := hrel.2 a
    simp only [State.goto, hd, pageSize_setNext]
    exact h.size a ha

-- ---------------------------------------------------------------------------
-- A call works on what it holds
-- ---------------------------------------------------------------------------

/-- Thread `t` writes bytes to its own pages, and the fields of its own node. -/
theorem Owned.local {pages : Int → CSQPage} {nodes : Int → CSQNode} (h : Owned c s v pg)
    (hpages : ∀ a, (pages a).next = (s.media.pages a).next ∧
      (pages a).pageSize = (s.media.pages a).pageSize)
    (hnext : ∀ b, (nodes b).next = (s.media.nodes b).next)
    (hnodes : ∀ b, b ∉ (s.pc t).heldNode → nodes b = s.media.nodes b)
    (hn : p'.heldNode = (s.pc t).heldNode)
    (hpg : p'.heldPage nodes = (s.pc t).heldPage s.media.nodes)
    (hq : ∀ q, p'.queue = some q → q < c.queues) :
    Owned c (s.goto t { s.media with pages := pages, nodes := nodes } p') v pg := by
  have hptr : nextPtr pages = nextPtr s.media.pages := by
    funext a
    simp only [nextPtr, Linked.next, (hpages a).1]
  refine ⟨fun id hid => (h.lists id hid).congr fun a _ => hnext a, h.listed, nodes_keep h.nodes hn,
    h.free.congr fun a _ => (hpages a).1, ?_, h.unqueued, ?_, h.pages, ?_, h.limits, h.depth,
    queue_update h.queue hq⟩
  · intro q b hb
    have hout : b ∉ (s.pc t).heldNode := fun hh => h.held_notMem hh (.queue q) hb
    simp only [State.goto, hptr, nodePage, hnodes b hout]
    exact h.queued q b hb
  · intro t'
    simp only [State.goto, hptr]
    rcases eq_or_ne t' t with rfl | ht
    · simpa [hpg] using h.call t'
    · rw [Function.update_of_ne ht, heldPage_congr fun b hb => ?_]
      · exact h.call t'
      · have hout : b ∉ (s.pc t).heldNode := h.held_unique hb (Ne.symm ht)
        simp only [nodePage, hnodes b hout]
  · intro a ha
    exact (hpages a).2.trans (h.size a ha)

end GalaLua.AMQ
