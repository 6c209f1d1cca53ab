import GalaLua.AMQ.Sections

/-!
# Setting up a media

`Media.infor` is `CSQInfor::Init` on raw memory: the allocator puts its pages
on the free list, the pooler its nodes into the shared pool, and every suite
takes its catch of nodes out of it, or the set-up throws. The result is a
media whose lists partition the nodes and whose free list has every page.
-/

namespace GalaLua.AMQ

open Library (Chain Partition)

def CSQSuite.init (c : Config) : CSQSuite :=
  ⟨⟨c.maxDepth, .init, .init, .init⟩, ⟨c.catchCount, .init, .init⟩⟩

/-- `CSQPageArray::Init`. -/
def initPages (c : Config) (k : Nat) (mem : Int → CSQPage) : Int → CSQPage :=
  (List.range k).foldl
    (fun mem i => Function.update mem (c.pageAt i) ((mem (c.pageAt i)).init c.pageSize)) mem

/-- The loop of `CSQAllocator::Init`. -/
def putPages (c : Config) (k : Nat) (mem : Int → CSQPage) : CSQList × (Int → CSQPage) :=
  (List.range k).foldl (fun r i => r.1.put2Tail c.freeListAt r.2 (c.pageAt i)) (.init, mem)

/-- `CSQNodeArray::Init`. -/
def initNodes (c : Config) (k : Nat) (nodes : Int → CSQNode) : Int → CSQNode :=
  (List.range k).foldl (fun nodes i => Function.update nodes (c.nodeAt i) .init) nodes

namespace Media

def initAllocator (c : Config) (m : Media) : Media :=
  let r := putPages c c.pages (initPages c c.pages m.pages)
  { m with free := r.1, pages := r.2 }

/-- The loop of `CSQPooler::Init`; `CSQLockedList::Put2Tail` puts to the head. -/
def putNodes (c : Config) (k : Nat) (m : Media) : Media :=
  (List.range k).foldl (fun m i => m.putHead c .pooler (c.nodeAt i)) m

def initPooler (c : Config) (m : Media) : Media :=
  putNodes c c.nodes { m with pooler := .init, nodes := initNodes c c.nodes m.nodes }

/-- The loop of `CSQPrivatePooler::Init`. -/
def pplInit (c : Config) (q : Nat) : Nat → Media → Option Media
  | 0, m => some m
  | k + 1, m =>
    match m.getNode c .pooler with
    | (none, _) => none
    | (some n, m) => pplInit c q k (m.putHead c (.ppl q) n)

/-- `CSQInfor::Init` on the words `m`; no word of a suite is read before its
own `Init`. -/
def infor (c : Config) (m : Media) : Option Media :=
  let m := { m with suite := fun _ => .init c }
  let m := (m.initAllocator c).initPooler c
  (List.range c.queues).foldlM (fun m q => pplInit c q c.catchCount m) m

end Media

-- ---------------------------------------------------------------------------
-- The allocator
-- ---------------------------------------------------------------------------

variable {c : Config} {m m' : Media} {v : NodeList → List Int}

theorem pageSize_initPages (mem : Int → CSQPage) {k i : Nat} (hi : i < k) :
    (initPages c k mem (c.pageAt i)).pageSize = c.pageSize := by
  induction k with
  | zero => omega
  | succ k ih =>
    simp only [initPages, List.range_succ, List.foldl_append, List.foldl_cons, List.foldl_nil] at ih ⊢
    rcases eq_or_ne i k with rfl | hne
    · simp
    · rw [Function.update_of_ne fun h => hne (pageAt_injective h)]
      exact ih (by omega)

theorem putPages_spec (mem : Int → CSQPage) {k : Nat} (hk : k ≤ c.pages) :
    (putPages c k mem).1.Repr c.freeListAt (putPages c k mem).2 ((List.range k).map c.pageAt) ∧
      Relinked mem (putPages c k mem).2 ((List.range k).map c.pageAt) := by
  induction k with
  | zero => exact ⟨CSQList.repr_init _ _, .refl mem _⟩
  | succ k ih =>
    obtain ⟨h, hr⟩ := ih (by omega)
    have hfresh : c.pageAt k ∉ (List.range k).map c.pageAt := by
      intro hmem
      obtain ⟨i, hi, heq⟩ := List.mem_map.mp hmem
      have := pageAt_injective heq
      have := List.mem_range.mp hi
      omega
    have hlist := h.put2Tail hfresh (page_ne_freeList ⟨k, hk, rfl⟩)
    have hrel := h.put2Tail_relinked (a := c.pageAt k)
    simp only [putPages, List.range_succ, List.foldl_append, List.foldl_cons, List.foldl_nil,
      List.map_append, List.map_cons, List.map_nil] at hlist hrel hr ⊢
    exact ⟨hlist, (hr.mono (by grind)).trans (hrel.mono (by grind))⟩

/-- After `CSQAllocator::Init` the free list has every page, all of one size. -/
theorem initAllocator_spec (m : Media) :
    (m.initAllocator c).free.Repr c.freeListAt (m.initAllocator c).pages
        ((List.range c.pages).map c.pageAt) ∧
      ∀ a, c.IsPage a → ((m.initAllocator c).pages a).pageSize = c.pageSize := by
  obtain ⟨h, hr⟩ := putPages_spec (c := c) (initPages c c.pages m.pages) le_rfl
  refine ⟨h, ?_⟩
  rintro a ⟨i, hi, rfl⟩
  obtain ⟨d, hd⟩ := hr.2 (c.pageAt i)
  have hpage : (m.initAllocator c).pages (c.pageAt i) = _ := hd
  rw [hpage, pageSize_setNext]
  exact pageSize_initPages _ hi

-- ---------------------------------------------------------------------------
-- The pools
-- ---------------------------------------------------------------------------

/-- A media between the calls: its lists stand for `v`, share no node and no
queue has any. -/
structure Pooled (c : Config) (m : Media) (v : NodeList → List Int) : Prop where
  lists : Lists c m v
  nodes : Partition c.IsNode v
  listed : ∀ id, ¬c.HasList id → v id = []
  queue : ∀ q, v (.queue q) = []

theorem putNodes_spec {k : Nat} (h : Lists c m fun _ => []) (hk : k ≤ c.nodes) :
    Lists c (m.putNodes c k)
        (Function.update (fun _ => []) .pooler ((List.range k).reverse.map c.nodeAt)) ∧
      NodeFrame m (m.putNodes c k) := by
  induction k with
  | zero => simpa [Media.putNodes, Function.update_eq_self_iff.mpr] using ⟨h, NodeFrame.refl m⟩
  | succ k ih =>
    obtain ⟨hl, hf⟩ := ih (by omega)
    have hout : ∀ id, c.nodeAt k ∉ Function.update (fun _ => []) NodeList.pooler
        ((List.range k).reverse.map c.nodeAt) id := by
      intro id hmem
      rcases eq_or_ne id .pooler with rfl | hne
      · rw [Function.update_self] at hmem
        obtain ⟨i, hi, heq⟩ := List.mem_map.mp hmem
        have := nodeAt_injective heq
        simp at hi
        omega
      · simp [Function.update_of_ne hne] at hmem
    obtain ⟨hl', hf'⟩ := putHead_spec hl (show c.HasList .pooler from trivial) ⟨k, hk, rfl⟩ hout
    simp only [Function.update_idem, Function.update_self] at hl'
    simp only [Media.putNodes, List.range_succ, List.foldl_append, List.foldl_cons, List.foldl_nil,
      List.reverse_append, List.reverse_cons, List.reverse_nil, List.nil_append, List.map_cons,
      List.singleton_append] at hl' hf' hf ⊢
    exact ⟨hl', hf.trans hf'⟩

/-- After `CSQPooler::Init` every node is in the shared pool. -/
theorem initPooler_spec (hsuite : ∀ q, m.suite q = .init c) :
    Pooled c (m.initPooler c)
        (Function.update (fun _ => []) .pooler ((List.range c.nodes).reverse.map c.nodeAt)) ∧
      (m.initPooler c).free = m.free ∧ (m.initPooler c).pages = m.pages ∧
      ∀ q, (m.initPooler c).limits q = (c.maxDepth, c.catchCount) := by
  have hempty : Lists c { m with pooler := .init, nodes := initNodes c c.nodes m.nodes }
      fun _ => [] := by
    intro id hid
    cases id <;> simp only [Media.list, hsuite, CSQSuite.init] <;> exact CSQList.repr_init _ _
  obtain ⟨hl, hf⟩ := putNodes_spec hempty (le_refl c.nodes)
  refine ⟨⟨hl, ⟨fun id => ?_, fun {id id' a} ha ha' => ?_, fun a => ?_⟩, fun id hid => ?_,
    fun q => by simp⟩, hf.free, hf.pages, fun q => ?_⟩
  · rcases eq_or_ne id .pooler with rfl | hne
    · rw [Function.update_self]
      exact (List.nodup_reverse.mpr List.nodup_range).map nodeAt_injective
    · simp [Function.update_of_ne hne]
  · rcases eq_or_ne id .pooler with rfl | hne
    · rcases eq_or_ne id' .pooler with rfl | hne'
      · rfl
      · simp [Function.update_of_ne hne'] at ha'
    · simp [Function.update_of_ne hne] at ha
  · constructor
    · rintro ⟨i, hi, rfl⟩
      exact ⟨.pooler, by simpa using ⟨i, hi, rfl⟩⟩
    · rintro ⟨id, ha⟩
      rcases eq_or_ne id .pooler with rfl | hne
      · rw [Function.update_self] at ha
        obtain ⟨i, hi, rfl⟩ := List.mem_map.mp ha
        exact ⟨i, by simpa using hi, rfl⟩
      · simp [Function.update_of_ne hne] at ha
  · cases id <;> simp_all [Config.HasList]
  · rw [Media.initPooler, hf.limits q]
    simp [Media.limits, hsuite, CSQSuite.init]

/-- One turn of `CSQPrivatePooler::Init`: the first node of the shared pool
goes to the head of the private one. -/
theorem Pooled.catchNode {q : Nat} {a : Int} {xs : List Int} (h : Pooled c m v)
    (hq : q < c.queues) (hv : v .pooler = a :: xs) :
    ∃ m₁ v₁, m.getNode c .pooler = (some a, m₁) ∧ Pooled c (m₁.putHead c (.ppl q) a) v₁ ∧
      v₁ .pooler = xs ∧ NodeFrame m (m₁.putHead c (.ppl q) a) := by
  obtain ⟨m₁, hget, hl, hf⟩ :=
    getNode_cons h.lists (show c.HasList .pooler from trivial) h.nodes.disjoint hv
  have ha : a ∈ v .pooler := by rw [hv]; exact List.mem_cons_self
  have hax : a ∉ xs := (List.nodup_cons.mp (hv ▸ h.nodes.nodup .pooler)).1
  have hout : ∀ id, a ∉ Function.update v .pooler xs id := by
    intro id hmem
    rcases eq_or_ne id .pooler with rfl | hne
    · rw [Function.update_self] at hmem
      exact hax hmem
    · rw [Function.update_of_ne hne] at hmem
      exact hne (h.nodes.disjoint hmem ha)
  obtain ⟨hl₂, hf₂⟩ := putHead_spec hl (show c.HasList (.ppl q) from hq)
    (h.nodes.carrier_of_mem ha) hout
  refine ⟨m₁, _, hget, ⟨hl₂, h.nodes.transfer (i := .pooler) (j := .ppl q) (by simp) ?_ ?_, ?_, ?_⟩,
    by simp, hf.trans hf₂⟩
  · simp [hv]
  · intro id h₁ h₂
    simp [Function.update_of_ne h₁, Function.update_of_ne h₂]
  · intro id hid
    have h₁ : id ≠ .pooler := by rintro rfl; exact hid trivial
    have h₂ : id ≠ .ppl q := by rintro rfl; exact hid hq
    rw [Function.update_of_ne h₂, Function.update_of_ne h₁]
    exact h.listed id hid
  · intro q'
    simp [h.queue q']

theorem pplInit_spec {q k : Nat} (h : Pooled c m v) (hq : q < c.queues)
    (hi : Media.pplInit c q k m = some m') : (∃ v', Pooled c m' v') ∧ NodeFrame m m' := by
  induction k generalizing m v with
  | zero =>
    obtain rfl := Option.some.inj hi
    exact ⟨⟨v, h⟩, .refl m⟩
  | succ k ih =>
    cases hv : v .pooler with
    | nil =>
      have hget := getNode_nil h.lists (show c.HasList .pooler from trivial) hv
      simp [Media.pplInit, hget] at hi
    | cons a xs =>
      obtain ⟨m₁, v₁, hget, hpool, -, hf⟩ := h.catchNode hq hv
      simp only [Media.pplInit, hget] at hi
      obtain ⟨hv', hf'⟩ := ih hpool hi
      exact ⟨hv', hf.trans hf'⟩

theorem pplInit_all {qs : List Nat} (h : Pooled c m v) (hq : ∀ q ∈ qs, q < c.queues)
    (hi : qs.foldlM (fun m q => Media.pplInit c q c.catchCount m) m = some m') :
    (∃ v', Pooled c m' v') ∧ NodeFrame m m' := by
  induction qs generalizing m v with
  | nil =>
    obtain rfl := Option.some.inj hi
    exact ⟨⟨v, h⟩, .refl m⟩
  | cons q qs ih =>
    simp only [List.foldlM_cons, Option.bind_eq_bind] at hi
    obtain ⟨m₁, h₁, hi⟩ := Option.bind_eq_some_iff.mp hi
    obtain ⟨⟨v₁, hv₁⟩, hf₁⟩ := pplInit_spec h (hq q List.mem_cons_self) h₁
    obtain ⟨hv₂, hf₂⟩ := ih hv₁ (fun q' hq' => hq q' (List.mem_cons_of_mem _ hq')) hi
    exact ⟨hv₂, hf₁.trans hf₂⟩

theorem infor_spec (hi : Media.infor c m = some m') :
    (∃ v, Pooled c m' v) ∧
      m'.free.Repr c.freeListAt m'.pages ((List.range c.pages).map c.pageAt) ∧
      (∀ a, c.IsPage a → (m'.pages a).pageSize = c.pageSize) ∧
      ∀ q, m'.limits q = (c.maxDepth, c.catchCount) := by
  obtain ⟨hfree, hsize⟩ := initAllocator_spec (c := c) { m with suite := fun _ => .init c }
  obtain ⟨hpool, hf, hp, hlim⟩ := initPooler_spec (c := c)
    (m := Media.initAllocator c { m with suite := fun _ => .init c }) fun _ => rfl
  obtain ⟨hv, hframe⟩ := pplInit_all hpool (fun q hq => List.mem_range.mp hq) hi
  rw [hframe.free, hframe.pages, hf, hp]
  exact ⟨hv, hfree, hsize, fun q => (hframe.limits q).trans (hlim q)⟩

theorem pplInit_catches {q k : Nat} (h : Pooled c m v) (hq : q < c.queues)
    (hk : k ≤ (v .pooler).length) :
    ∃ m' v', Media.pplInit c q k m = some m' ∧ Pooled c m' v' ∧
      (v' .pooler).length + k = (v .pooler).length := by
  induction k generalizing m v with
  | zero => exact ⟨m, v, rfl, h, rfl⟩
  | succ k ih =>
    cases hv : v .pooler with
    | nil => simp [hv] at hk
    | cons a xs =>
      obtain ⟨m₁, v₁, hget, hpool, hxs, -⟩ := h.catchNode hq hv
      rw [hv, List.length_cons] at hk
      obtain ⟨m', v', hinit, hpool', hlen⟩ := ih hpool (by rw [hxs]; omega)
      refine ⟨m', v', by simp only [Media.pplInit, hget, hinit], hpool', ?_⟩
      rw [List.length_cons, ← hxs, ← hlen]
      omega

theorem pplInit_short {q k : Nat} (h : Pooled c m v) (hq : q < c.queues)
    (hk : (v .pooler).length < k) : Media.pplInit c q k m = none := by
  induction k generalizing m v with
  | zero => omega
  | succ k ih =>
    cases hv : v .pooler with
    | nil =>
      have hget := getNode_nil h.lists (show c.HasList .pooler from trivial) hv
      simp only [Media.pplInit, hget]
    | cons a xs =>
      obtain ⟨m₁, v₁, hget, hpool, hxs, -⟩ := h.catchNode hq hv
      rw [hv, List.length_cons] at hk
      simp only [Media.pplInit, hget]
      exact ih hpool (by rw [hxs]; omega)

theorem pplInit_all_isSome {qs : List Nat} {k : Nat} (h : Pooled c m v)
    (hq : ∀ q ∈ qs, q < c.queues) :
    (qs.foldlM (fun m q => Media.pplInit c q k m) m).isSome ↔
      qs.length * k ≤ (v .pooler).length := by
  induction qs generalizing m v with
  | nil => simp
  | cons q qs ih =>
    have hhead := hq q List.mem_cons_self
    simp only [List.foldlM_cons, Option.bind_eq_bind, List.length_cons, Nat.succ_mul]
    rcases Nat.lt_or_ge (v .pooler).length k with hk | hk
    · rw [pplInit_short h hhead hk]
      simp only [Option.bind_none, Option.isSome_none, Bool.false_eq_true, false_iff]
      omega
    · obtain ⟨m', v', hinit, hpool, hlen⟩ := pplInit_catches h hhead hk
      rw [hinit, Option.bind_some, ih hpool fun q' hq' => hq q' (List.mem_cons_of_mem _ hq')]
      omega

/-- `CSQPrivatePooler::Init` finds its nodes for every queue when there are
enough of them, and only then. -/
theorem infor_isSome (c : Config) (m : Media) :
    (Media.infor c m).isSome ↔ c.queues * c.catchCount ≤ c.nodes := by
  obtain ⟨hpool, -⟩ := initPooler_spec (c := c)
    (m := Media.initAllocator c { m with suite := fun _ => .init c }) fun _ => rfl
  unfold Media.infor
  rw [pplInit_all_isSome hpool fun q hq => List.mem_range.mp hq]
  simp

theorem pages_partition :
    Partition c.IsPage fun _ : Unit => (List.range c.pages).map c.pageAt := by
  refine ⟨fun _ => List.nodup_range.map pageAt_injective, fun _ _ => rfl, fun a => ?_⟩
  constructor
  · rintro ⟨i, hi, rfl⟩
    exact ⟨(), List.mem_map.mpr ⟨i, List.mem_range.mpr hi, rfl⟩⟩
  · rintro ⟨-, ha⟩
    obtain ⟨i, hi, rfl⟩ := List.mem_map.mp ha
    exact ⟨i, List.mem_range.mp hi, rfl⟩

end GalaLua.AMQ
