import GalaLua.AMQ.Media

/-!
# The guarded sections

The bodies of the sections that `CSQPooler`, `CSQPrivatePooler`,
`CSQDoorQueue` and `CSQAllocator` run under their locks. A section that may
have to sleep is split at the wait. `Lists c m v` says that the node lists of
the media stand for the sequences `v`, and each section has a lemma that says
what it does to them.
-/

namespace GalaLua.AMQ

open Library (Chain)

-- ---------------------------------------------------------------------------
-- Node lists
-- ---------------------------------------------------------------------------

namespace Media

def relist (m : Media) (id : NodeList) (l : CSQList) (nodes : Int → CSQNode) : Media :=
  { m.setList id l with nodes := nodes }

def getNode (c : Config) (m : Media) (id : NodeList) : Option Int × Media :=
  let r := (m.list id).get (c.listAt id) m.nodes
  (r.1, m.relist id r.2.1 r.2.2)

def putHead (c : Config) (m : Media) (id : NodeList) (n : Int) : Media :=
  let r := (m.list id).put2Head (c.listAt id) m.nodes n
  m.relist id r.1 r.2

def putTail (c : Config) (m : Media) (id : NodeList) (n : Int) : Media :=
  let r := (m.list id).put2Tail (c.listAt id) m.nodes n
  m.relist id r.1 r.2

def count (m : Media) (id : NodeList) : Nat := (m.list id).count

/-- `Wakeup`, `GET_Wakeup` and the signal of `PUT_Wakeup`. -/
def wakeup (m : Media) (k : CondId) (w : Nat) : Media :=
  if 0 < (m.cond k).lurkers then m.setCond k ((m.cond k).notifyOne w) else m

-- ---------------------------------------------------------------------------
-- CSQPrivatePooler
-- ---------------------------------------------------------------------------

/-- `Get` and `TimedGet` up to `Hibernate`: a node of the shared pool is taken
only when the private pool is empty. No node means that the call sleeps. -/
def pplGet (c : Config) (m : Media) (q : Nat) : Option Int × Media :=
  if m.count (.ppl q) = 0 then m.getNode c .pooler else m.getNode c (.ppl q)

def pplPut (c : Config) (m : Media) (q : Nat) (n : Int) (w : Nat) : Media :=
  let m := { m with nodes := setNodePage m.nodes n none }
  let m := if m.count (.ppl q) < (m.suite q).ppl.catch then m.putHead c (.ppl q) n
    else m.putHead c .pooler n
  m.wakeup (.event q) w

-- ---------------------------------------------------------------------------
-- CSQDoorQueue
-- ---------------------------------------------------------------------------

/-- When `PUT_Hibernate` and `PUT_TimedHibernate` do not let a put pass. -/
def full (m : Media) (q : Nat) : Bool :=
  0 < (m.suite q).queue.maxDepth && (m.suite q).queue.maxDepth ≤ m.count (.queue q)

/-- `Get` and `TimedGet` behind `GET_Hibernate`, with `PUT_Wakeup`. -/
def doorGet (c : Config) (m : Media) (q : Nat) (w : Nat) : Option Int × Media :=
  match m.getNode c (.queue q) with
  | (none, m) => (none, m)
  | (some n, m) =>
    (some n, if 0 < (m.suite q).queue.maxDepth ∧ m.count (.queue q) < (m.suite q).queue.maxDepth
      then m.wakeup (.threshold2 q) w else m)

/-- `Put` and `TimedPut` behind `PUT_Hibernate`. -/
def doorPut (c : Config) (m : Media) (q : Nat) (n : Int) (w : Nat) : Media :=
  (m.putTail c (.queue q) n).wakeup (.threshold1 q) w

end Media

-- ---------------------------------------------------------------------------
-- CSQAllocator
-- ---------------------------------------------------------------------------

/-- The loop of `T_Free`. -/
def freePages (c : Config) : Nat → Option Int → CSQList → (Int → CSQPage) →
    CSQList × (Int → CSQPage)
  | fuel + 1, some a, l, mem =>
    let next := nextPtr mem a
    let r := l.put2Head c.freeListAt (setNextPtr mem a none) a
    freePages c fuel next r.1 r.2
  | _, _, l, mem => (l, mem)

/-- The loop of `Allocate`: each page is chained before the one taken last. -/
def takePages (c : Config) : Nat → Option Int → CSQList → (Int → CSQPage) →
    Option Int × CSQList × (Int → CSQPage)
  | 0, next, l, mem => (next, l, mem)
  | k + 1, next, l, mem =>
    match l.get c.freeListAt mem with
    | (some a, l, mem) =>
      let mem := if (mem a).pageSize = c.pageSize then mem
        else Function.update mem a ((mem a).setPageSize c.pageSize)
      takePages c k (some a) l (setNextPtr mem a next)
    | (none, l, mem) => (none, freePages c c.pages next l mem)

/-- The number of pages for `size` bytes. A page size of 0, which the creators
of a media refuse, would trap here. -/
def Config.nPages (c : Config) (size : Nat) : Nat :=
  let n := size / c.pageSize.toNat
  if n * c.pageSize.toNat < size then n + 1 else n

namespace Media

def allocate (c : Config) (m : Media) (size : Nat) : Option Int × Media :=
  if c.nPages size ≤ m.free.count then
    let r := takePages c (c.nPages size) none m.free m.pages
    (r.1, { m with free := r.2.1, pages := r.2.2 })
  else (none, m)

def freeChain (c : Config) (m : Media) (p : Int) : Media :=
  let r := freePages c c.pages (some p) m.free m.pages
  { m with free := r.1, pages := r.2 }

end Media

-- ---------------------------------------------------------------------------
-- What the sections leave alone
-- ---------------------------------------------------------------------------

/-- Nothing but node lists, node links and conditions differs. -/
structure NodeFrame (m m' : Media) : Prop where
  pages : m'.pages = m.pages
  free : m'.free = m.free
  limits : ∀ q, m'.limits q = m.limits q
  page : ∀ b, (m'.nodes b).pageLKTB = (m.nodes b).pageLKTB
  length : ∀ b, (m'.nodes b).length = (m.nodes b).length

variable {c : Config} {m m' m'' : Media} {v : NodeList → List Int} {id : NodeList} {n : Int}

theorem NodeFrame.refl (m : Media) : NodeFrame m m := ⟨rfl, rfl, fun _ => rfl, fun _ => rfl, fun _ => rfl⟩

theorem NodeFrame.trans (h : NodeFrame m m') (h' : NodeFrame m' m'') : NodeFrame m m'' :=
  ⟨h'.pages.trans h.pages, h'.free.trans h.free, fun q => (h'.limits q).trans (h.limits q),
    fun b => (h'.page b).trans (h.page b), fun b => (h'.length b).trans (h.length b)⟩

theorem nodeFrame_setCond (k : CondId) (x : CSQCond) : NodeFrame m (m.setCond k x) :=
  ⟨by simp, by simp, by simp, by simp, by simp⟩

theorem NodeFrame.nodePage (h : NodeFrame m m') (b : Int) :
    nodePage m'.nodes b = nodePage m.nodes b := by
  simp [AMQ.nodePage, h.page b]

theorem nodeFrame_relist {l : CSQList} {nodes : Int → CSQNode} {ys : List Int}
    (h : Relinked m.nodes nodes ys) : NodeFrame m (m.relist id l nodes) := by
  refine ⟨by simp [Media.relist], by simp [Media.relist], fun q => ?_, fun b => ?_, fun b => ?_⟩
  · exact Media.limits_setList m id l q
  · obtain ⟨d, hd⟩ := h.2 b
    simp only [Media.relist, hd]
    rfl
  · obtain ⟨d, hd⟩ := h.2 b
    simp only [Media.relist, hd]
    rfl

/-- The node lists of the media stand for the sequences `v`. -/
def Lists (c : Config) (m : Media) (v : NodeList → List Int) : Prop :=
  ∀ id, c.HasList id → (m.list id).Repr (c.listAt id) m.nodes (v id)

theorem Lists.setCond (h : Lists c m v) (k : CondId) (x : CSQCond) : Lists c (m.setCond k x) v := by
  intro id hid
  simpa using h id hid

theorem Lists.wakeup (h : Lists c m v) (k : CondId) (w : Nat) :
    Lists c (m.wakeup k w) v ∧ NodeFrame m (m.wakeup k w) := by
  unfold Media.wakeup
  split
  · exact ⟨h.setCond _ _, nodeFrame_setCond _ _⟩
  · exact ⟨h, .refl m⟩

theorem Lists.count_eq (h : Lists c m v) (hid : c.HasList id) : m.count id = (v id).length :=
  (h id hid).count_eq

/-- Replacing one list by a relinking that stays off all the others. -/
theorem Lists.relist {l : CSQList} {nodes : Int → CSQNode} {xs ys : List Int} (h : Lists c m v)
    (hl : l.Repr (c.listAt id) nodes xs) (hr : Relinked m.nodes nodes ys)
    (hd : ∀ id' ≠ id, ∀ a ∈ v id', a ∉ ys) :
    Lists c (m.relist id l nodes) (Function.update v id xs) := by
  intro id' hid'
  rcases eq_or_ne id' id with rfl | hne
  · have hlist : (m.relist id' l nodes).list id' = l := Media.list_setList_self m id' l
    rw [hlist, Function.update_self]
    exact hl
  · have hlist : (m.relist id l nodes).list id' = m.list id' := Media.list_setList_of_ne m hne l
    rw [hlist, Function.update_of_ne hne]
    exact (h id' hid').frame hr (hd id' hne)

def Separate (v : NodeList → List Int) : Prop :=
  ∀ {id id' a}, a ∈ v id → a ∈ v id' → id = id'

theorem getNode_nil (h : Lists c m v) (hid : c.HasList id) (hv : v id = []) :
    m.getNode c id = (none, m) := by
  have hr := h id hid
  rw [hv] at hr
  simp only [Media.getNode, hr.get_nil, Media.relist]
  cases id <;> simp [Media.setList, Media.list, Media.setSuite]

theorem getNode_cons {a : Int} {xs : List Int} (h : Lists c m v) (hid : c.HasList id)
    (hsep : Separate v) (hv : v id = a :: xs) :
    ∃ m', m.getNode c id = (some a, m') ∧ Lists c m' (Function.update v id xs) ∧
      NodeFrame m m' := by
  have hr := h id hid
  rw [hv] at hr
  obtain ⟨l', hget, hr'⟩ := hr.get_cons
  have hrel : Relinked m.nodes (setNextPtr m.nodes a none) [a] := relinked_setNextPtr (by simp)
  refine ⟨m.relist id l' (setNextPtr m.nodes a none), by simp only [Media.getNode, hget], ?_,
    nodeFrame_relist hrel⟩
  refine h.relist hr' hrel fun id' hne b hb hba => ?_
  obtain rfl := List.mem_singleton.mp hba
  exact hne (hsep hb (by rw [hv]; exact List.mem_cons_self))

theorem putHead_spec (h : Lists c m v) (hid : c.HasList id) (hn : c.IsNode n)
    (hout : ∀ id, n ∉ v id) :
    Lists c (m.putHead c id n) (Function.update v id (n :: v id)) ∧
      NodeFrame m (m.putHead c id n) := by
  have hrel : Relinked m.nodes ((m.list id).put2Head (c.listAt id) m.nodes n).2 [n] :=
    CSQList.put2Head_relinked (by simp)
  refine ⟨h.relist ((h id hid).put2Head (hout id) (node_ne_list hn hid)) hrel ?_,
    nodeFrame_relist hrel⟩
  intro id' _ b hb hbn
  exact hout id' (List.mem_singleton.mp hbn ▸ hb)

theorem putTail_spec (h : Lists c m v) (hid : c.HasList id) (hsep : Separate v) (hn : c.IsNode n)
    (hout : ∀ id, n ∉ v id) :
    Lists c (m.putTail c id n) (Function.update v id (v id ++ [n])) ∧
      NodeFrame m (m.putTail c id n) := by
  have hrel := (h id hid).put2Tail_relinked (a := n)
  refine ⟨h.relist ((h id hid).put2Tail (hout id) (node_ne_list hn hid)) hrel ?_,
    nodeFrame_relist hrel⟩
  intro id' hne b hb hbn
  rcases List.mem_cons.mp hbn with rfl | hbn
  · exact hout id' hb
  · exact hne (hsep hb hbn)

-- ---------------------------------------------------------------------------
-- The sections of the pools and of the door
-- ---------------------------------------------------------------------------

theorem pplGet_spec {q : Nat} (h : Lists c m v) (hq : q < c.queues) (hsep : Separate v) :
    (m.pplGet c q = (none, m) ∧ v (.ppl q) = []) ∨
      ∃ id a xs m', (id = .pooler ∨ id = .ppl q) ∧ v id = a :: xs ∧ m.pplGet c q = (some a, m') ∧
        Lists c m' (Function.update v id xs) ∧ NodeFrame m m' := by
  have hcount : m.count (.ppl q) = (v (.ppl q)).length := h.count_eq hq
  simp only [Media.pplGet, hcount, List.length_eq_zero_iff]
  split
  · next hempty =>
    cases hv : v .pooler with
    | nil => exact .inl ⟨getNode_nil h trivial hv, hempty⟩
    | cons a xs =>
      obtain ⟨m', hget, hl, hf⟩ := getNode_cons h (show c.HasList .pooler from trivial) hsep hv
      exact .inr ⟨.pooler, a, xs, m', .inl rfl, hv, hget, hl, hf⟩
  · next hne =>
    obtain ⟨a, xs, hv⟩ := List.exists_cons_of_ne_nil hne
    obtain ⟨m', hget, hl, hf⟩ := getNode_cons h (show c.HasList (.ppl q) from hq) hsep hv
    exact .inr ⟨.ppl q, a, xs, m', .inr rfl, hv, hget, hl, hf⟩

theorem pplPut_spec {q : Nat} (h : Lists c m v) (hq : q < c.queues) (hn : c.IsNode n)
    (hout : ∀ id, n ∉ v id) (w : Nat) :
    ∃ id, (id = .pooler ∨ id = .ppl q) ∧
      Lists c (m.pplPut c q n w) (Function.update v id (n :: v id)) ∧
      NodeFrame { m with nodes := setNodePage m.nodes n none } (m.pplPut c q n w) := by
  set m₁ : Media := { m with nodes := setNodePage m.nodes n none } with hm₁
  have h₁ : Lists c m₁ v := fun id hid => (h id hid).congr fun a _ => by
    simp only [hm₁, setNodePage, Function.update_apply]
    split
    · next ha => rw [ha]; rfl
    · rfl
  have hput : ∀ id, c.HasList id → m.pplPut c q n w = (m₁.putHead c id n).wakeup (.event q) w →
      Lists c (m.pplPut c q n w) (Function.update v id (n :: v id)) ∧
        NodeFrame m₁ (m.pplPut c q n w) := by
    intro id hid heq
    obtain ⟨h₂, hf₂⟩ := putHead_spec h₁ hid hn hout
    obtain ⟨h₃, hf₃⟩ := h₂.wakeup (.event q) w
    rw [heq]
    exact ⟨h₃, hf₂.trans hf₃⟩
  by_cases hroom : m₁.count (.ppl q) < (m.suite q).ppl.catch
  · exact ⟨.ppl q, .inr rfl, hput (.ppl q) hq (by simp only [Media.pplPut, ← hm₁, if_pos hroom])⟩
  · exact ⟨.pooler, .inl rfl, hput .pooler trivial (by simp only [Media.pplPut, ← hm₁, if_neg hroom])⟩

theorem doorGet_spec {q : Nat} (h : Lists c m v) (hq : q < c.queues) (hsep : Separate v) (w : Nat) :
    (m.doorGet c q w = (none, m) ∧ v (.queue q) = []) ∨
      ∃ a xs m', v (.queue q) = a :: xs ∧ m.doorGet c q w = (some a, m') ∧
        Lists c m' (Function.update v (.queue q) xs) ∧ NodeFrame m m' := by
  cases hv : v (.queue q) with
  | nil =>
    refine .inl ⟨?_, rfl⟩
    simp only [Media.doorGet, getNode_nil h (show c.HasList (.queue q) from hq) hv]
  | cons a xs =>
    obtain ⟨m₁, hget, hl, hf⟩ := getNode_cons h (show c.HasList (.queue q) from hq) hsep hv
    refine .inr ⟨a, xs, _, rfl, by simp only [Media.doorGet, hget]; rfl, ?_⟩
    split
    · exact ⟨(hl.wakeup _ w).1, hf.trans (hl.wakeup _ w).2⟩
    · exact ⟨hl, hf⟩

theorem doorPut_spec {q : Nat} (h : Lists c m v) (hq : q < c.queues) (hsep : Separate v)
    (hn : c.IsNode n) (hout : ∀ id, n ∉ v id) (w : Nat) :
    Lists c (m.doorPut c q n w) (Function.update v (.queue q) (v (.queue q) ++ [n])) ∧
      NodeFrame m (m.doorPut c q n w) := by
  obtain ⟨h₁, hf₁⟩ := putTail_spec h (show c.HasList (.queue q) from hq) hsep hn hout
  obtain ⟨h₂, hf₂⟩ := h₁.wakeup (.threshold1 q) w
  exact ⟨h₂, hf₁.trans hf₂⟩

/-- A put that the door lets pass leaves the queue within its depth. -/
theorem not_full {q : Nat} (h : Lists c m v) (hq : q < c.queues) (hf : m.full q = false)
    (hpos : 0 < (m.suite q).queue.maxDepth) :
    (v (.queue q)).length < (m.suite q).queue.maxDepth := by
  have hcount : m.count (.queue q) = (v (.queue q)).length := h.count_eq hq
  simp only [Media.full, hpos, decide_true, Bool.true_and, decide_eq_false_iff_not, hcount] at hf
  omega

-- ---------------------------------------------------------------------------
-- The sections of the allocator
-- ---------------------------------------------------------------------------

variable {l : CSQList} {mem : Int → CSQPage} {next : Option Int} {xs ys : List Int}

theorem freePages_spec {fuel : Nat} (h : l.Repr c.freeListAt mem xs)
    (hc : Chain (nextPtr mem) next ys) (hfuel : ys.length ≤ fuel) (hpage : ∀ a ∈ ys, c.IsPage a)
    (hd : ∀ a ∈ ys, a ∉ xs) :
    (freePages c fuel next l mem).1.Repr c.freeListAt (freePages c fuel next l mem).2
        (ys.reverse ++ xs) ∧
      Relinked mem (freePages c fuel next l mem).2 ys := by
  induction ys generalizing fuel next l mem xs with
  | nil =>
    obtain rfl := hc
    cases fuel <;> exact ⟨h, .refl mem _⟩
  | cons a ys ih =>
    have hnd := hc.nodup
    obtain ⟨rfl, hc⟩ := hc
    obtain ⟨fuel, rfl⟩ : ∃ k, fuel = k + 1 := ⟨fuel - 1, by simp at hfuel; omega⟩
    obtain ⟨hay, -⟩ := List.nodup_cons.mp hnd
    have hax := hd a List.mem_cons_self
    set mem₁ := setNextPtr mem a none with hmem₁
    have hrel₁ : Relinked mem mem₁ [a] := relinked_setNextPtr (by simp)
    have h₁ : l.Repr c.freeListAt mem₁ xs := h.frame hrel₁ (by grind)
    set r := l.put2Head c.freeListAt mem₁ a with hr
    have h₂ : r.1.Repr c.freeListAt r.2 (a :: xs) :=
      h₁.put2Head hax (page_ne_freeList (hpage a List.mem_cons_self))
    have hrel₂ : Relinked mem r.2 [a] := hrel₁.trans (CSQList.put2Head_relinked (by simp))
    have hc₂ : Chain (nextPtr r.2) (nextPtr mem a) ys := hc.congr fun b hb => by
      have hba : b ∉ [a] := fun hm => hay (List.mem_singleton.mp hm ▸ hb)
      simp only [nextPtr, hrel₂.1 b hba]
    obtain ⟨h₃, hrel₃⟩ := ih h₂ hc₂ (by simpa using hfuel)
      (fun b hb => hpage b (List.mem_cons_of_mem _ hb)) (by grind)
    simp only [freePages, List.reverse_cons, List.append_assoc, List.singleton_append]
    exact ⟨h₃, (hrel₂.mono (by simp)).trans (hrel₃.mono fun b => List.mem_cons_of_mem _)⟩

/-- A page as `Allocate` hands it out. -/
def repaired (c : Config) (p : CSQPage) : CSQPage := if p.pageSize = c.pageSize then p else p.setPageSize c.pageSize

theorem repaired_setNext (d : Int) (p : CSQPage) : repaired c (Linked.setNext d p) = Linked.setNext d (repaired c p) := by
  unfold repaired
  rw [pageSize_setNext]
  split <;> rfl

/-- Whatever the header words of the free pages are, the first `k` of them are chained. -/
theorem takePages_chain {k : Nat} (h : l.Repr c.freeListAt mem xs)
    (hc : Chain (nextPtr mem) next ys) (hk : k ≤ xs.length) (hd : ∀ a ∈ ys, a ∉ xs) :
    let r := takePages c k next l mem
    r.2.1.Repr c.freeListAt r.2.2 (xs.drop k) ∧
      Chain (nextPtr r.2.2) r.1 ((xs.take k).reverse ++ ys) ∧
      (∀ b ∉ xs.take k, r.2.2 b = mem b) ∧
      ∀ b ∈ xs.take k, ∃ d, r.2.2 b = Linked.setNext d (repaired c (mem b)) := by
  induction k generalizing next l mem xs ys with
  | zero => simpa [takePages] using ⟨h, hc⟩
  | succ k ih =>
    obtain ⟨a, xs, rfl⟩ := List.exists_cons_of_length_pos (l := xs) (by omega)
    obtain ⟨l', hget, hr⟩ := h.get_cons
    obtain ⟨hax, -⟩ := List.nodup_cons.mp h.nodup
    have hay : a ∉ ys := fun ha => hd a ha List.mem_cons_self
    set mem₁ := setNextPtr mem a none with hmem₁
    set mem₂ := if (mem₁ a).pageSize = c.pageSize then mem₁
      else Function.update mem₁ a ((mem₁ a).setPageSize c.pageSize) with hmem₂
    set mem₃ := setNextPtr mem₂ a next with hmem₃
    have hother : ∀ b, b ≠ a → mem₃ b = mem b := by
      intro b hb
      rw [hmem₃, setNextPtr_of_ne hb, hmem₂]
      split
      · exact setNextPtr_of_ne hb
      · rw [Function.update_of_ne hb]
        exact setNextPtr_of_ne hb
    have hself : ∃ d, mem₃ a = Linked.setNext d (repaired c (mem a)) := by
      have hset : mem₁ a = Linked.setNext (offset a none) (mem a) := by rw [hmem₁, setNextPtr, Function.update_self]
      have hrep : mem₂ a = repaired c (mem₁ a) := by
        rw [hmem₂, repaired]
        split
        · rfl
        · exact Function.update_self ..
      refine ⟨offset a next, ?_⟩
      rw [hmem₃, setNextPtr, Function.update_self, hrep, hset, repaired_setNext, Linked.setNext_setNext]
    have hnext : next ≠ some a := by
      rintro rfl
      exact hay hc.head_mem
    have hc₃ : Chain (nextPtr mem₃) (some a) (a :: ys) := by
      refine ⟨rfl, ?_⟩
      rw [nextPtr_setNextPtr_self hnext]
      refine hc.congr fun b hb => ?_
      simp only [nextPtr, hother b fun hba => hay (hba ▸ hb)]
    have hr₃ : l'.Repr c.freeListAt mem₃ xs := by
      refine hr.congr fun b hb => ?_
      have hba : b ≠ a := fun hba => hax (hba ▸ hb)
      rw [hother b hba, hmem₁, setNextPtr_of_ne hba]
    obtain ⟨h₄, hc₄, hout, htaken⟩ := ih hr₃ hc₃ (by simpa using hk) (by grind)
    simp only [takePages, hget, ← hmem₂, ← hmem₃, List.drop_succ_cons, List.take_succ_cons,
      List.reverse_cons, List.append_assoc, List.singleton_append]
    refine ⟨h₄, hc₄, fun b hb => ?_, fun b hb => ?_⟩
    · rw [List.mem_cons, not_or] at hb
      rw [hout b hb.2, hother b hb.1]
    · rcases eq_or_ne b a with rfl | hba
      · rw [hout b fun hb => hax (List.mem_of_mem_take hb)]
        exact hself
      · obtain ⟨d, hd⟩ := htaken b ((List.mem_cons.mp hb).resolve_left hba)
        exact ⟨d, by rw [hd, hother b hba]⟩

theorem takePages_spec {k : Nat} (h : l.Repr c.freeListAt mem xs)
    (hc : Chain (nextPtr mem) next ys) (hk : k ≤ xs.length)
    (hsize : ∀ a ∈ xs, (mem a).pageSize = c.pageSize) (hd : ∀ a ∈ ys, a ∉ xs) :
    let r := takePages c k next l mem
    r.2.1.Repr c.freeListAt r.2.2 (xs.drop k) ∧
      Chain (nextPtr r.2.2) r.1 ((xs.take k).reverse ++ ys) ∧ Relinked mem r.2.2 xs := by
  obtain ⟨hrest, hchain, hout, htaken⟩ := takePages_chain h hc hk hd
  refine ⟨hrest, hchain, fun b hb => hout b fun hm => hb (List.mem_of_mem_take hm), fun b => ?_⟩
  by_cases hb : b ∈ xs.take k
  · obtain ⟨d, hd⟩ := htaken b hb
    exact ⟨d, by rw [hd, repaired, if_pos (hsize b (List.mem_of_mem_take hb))]⟩
  · exact ⟨Linked.next (mem b), by rw [hout b hb, Linked.setNext_next]⟩

end GalaLua.AMQ
