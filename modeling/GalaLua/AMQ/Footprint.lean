import GalaLua.AMQ.Runs
import GalaLua.AMQ.Check

/-!
# Where the calls write

A section changes no word outside of the nodes and the pages of the media, the
suites, the locks and the lists. The masks and counts that `Check` reads lie
beside all of these, so a header passes after any run of calls if it passed
before, and the one that `Init` wrote does.
-/

namespace GalaLua.AMQ

open Library (Chain Reach Free)

-- ---------------------------------------------------------------------------
-- Nodes and pages
-- ---------------------------------------------------------------------------

/-- Only cells of the two arrays differ. -/
structure Within (c : Config) (m m' : Media) : Prop where
  nodes : ∀ b, ¬c.IsNode b → m'.nodes b = m.nodes b
  pages : ∀ b, ¬c.IsPage b → m'.pages b = m.pages b

variable {c : Config} {m m' m'' : Media} {v : NodeList → List Int} {id : NodeList} {n : Int}

theorem Within.refl (m : Media) : Within c m m := ⟨fun _ _ => rfl, fun _ _ => rfl⟩

theorem Within.trans (h : Within c m m') (h' : Within c m' m'') : Within c m m'' :=
  ⟨fun b hb => (h'.nodes b hb).trans (h.nodes b hb), fun b hb => (h'.pages b hb).trans (h.pages b hb)⟩

theorem within_setCond (k : CondId) (x : CSQCond) : Within c m (m.setCond k x) :=
  ⟨fun b _ => by rw [Media.nodes_setCond], fun b _ => by rw [Media.pages_setCond]⟩

theorem within_wakeup (k : CondId) (w : Nat) : Within c m (m.wakeup k w) := by
  unfold Media.wakeup
  split
  · exact within_setCond _ _
  · exact .refl m

theorem within_relist {l : CSQList} {nodes : Int → CSQNode} {ys : List Int}
    (h : Relinked m.nodes nodes ys) (hy : ∀ a ∈ ys, c.IsNode a) :
    Within c m (m.relist id l nodes) :=
  ⟨fun b hb => h.1 b fun hm => hb (hy b hm), fun b _ => by
    simp only [Media.relist, Media.pages_setList]⟩

theorem within_nodes {nodes : Int → CSQNode} (h : ∀ b, ¬c.IsNode b → nodes b = m.nodes b) :
    Within c m { m with nodes := nodes } := ⟨h, fun _ _ => rfl⟩

theorem within_pages {l : CSQList} {pages : Int → CSQPage}
    (h : ∀ b, ¬c.IsPage b → pages b = m.pages b) :
    Within c m { m with free := l, pages := pages } := ⟨fun _ _ => rfl, h⟩

theorem within_setNodePage (hn : c.IsNode n) (p : Option Int) :
    Within c m { m with nodes := setNodePage m.nodes n p } := by
  refine within_nodes fun b hb => ?_
  have hbn : b ≠ n := fun heq => hb (heq ▸ hn)
  rw [setNodePage, Function.update_of_ne hbn]

-- ---------------------------------------------------------------------------
-- Sections
-- ---------------------------------------------------------------------------

theorem getNode_within (h : Lists c m v) (hid : c.HasList id) (hv : ∀ a ∈ v id, c.IsNode a) :
    Within c m (m.getNode c id).2 := by
  cases hxs : v id with
  | nil =>
    rw [getNode_nil h hid hxs]
    exact .refl m
  | cons a xs =>
    have hr := h id hid
    rw [hxs] at hr hv
    obtain ⟨l', hget, -⟩ := hr.get_cons
    simp only [Media.getNode, hget]
    exact within_relist (relinked_setNextPtr List.mem_cons_self) hv

theorem putHead_within (hn : c.IsNode n) : Within c m (m.putHead c id n) := by
  refine within_relist (CSQList.put2Head_relinked (List.mem_singleton.mpr rfl)) fun a ha => ?_
  rw [List.mem_singleton.mp ha]
  exact hn

theorem putTail_within (h : Lists c m v) (hid : c.HasList id) (hv : ∀ a ∈ v id, c.IsNode a)
    (hn : c.IsNode n) : Within c m (m.putTail c id n) := by
  refine within_relist (h id hid).put2Tail_relinked fun a ha => ?_
  rcases List.mem_cons.mp ha with rfl | ha
  · exact hn
  · exact hv a ha

variable {s s' : State} {pg : PagePlace → List Int} {t w : Nat} {b : Bool}

theorem Owned.isNode (h : Owned c s v pg) (id : NodeList) : ∀ a ∈ v id, c.IsNode a := fun _ ha =>
  h.nodes.carrier_of_mem (i := NodePlace.list id) ha

theorem pplGet_within {q : Nat} (h : Owned c s v pg) (hq : q < c.queues) :
    Within c s.media (s.media.pplGet c q).2 := by
  unfold Media.pplGet
  split
  · exact getNode_within h.lists (show c.HasList .pooler from trivial) (h.isNode _)
  · exact getNode_within h.lists (show c.HasList (.ppl q) from hq) (h.isNode _)

theorem pplPut_within {q : Nat} (hn : c.IsNode n) : Within c m (m.pplPut c q n w) := by
  unfold Media.pplPut
  refine (within_setNodePage hn none).trans ?_
  dsimp only
  split
  · exact (putHead_within hn).trans (within_wakeup _ _)
  · exact (putHead_within hn).trans (within_wakeup _ _)

theorem doorGet_within {q : Nat} (h : Owned c s v pg) (hq : q < c.queues) :
    Within c s.media (s.media.doorGet c q w).2 := by
  have hget := getNode_within h.lists (show c.HasList (.queue q) from hq) (h.isNode _)
  unfold Media.doorGet
  split
  · next heq =>
    rw [heq] at hget
    exact hget
  · next heq =>
    rw [heq] at hget
    split
    · exact hget.trans (within_wakeup _ _)
    · exact hget

theorem doorPut_within {q : Nat} (h : Owned c s v pg) (hq : q < c.queues) (hn : c.IsNode n) :
    Within c s.media (s.media.doorPut c q n w) :=
  (putTail_within h.lists (show c.HasList (.queue q) from hq) (h.isNode _) hn).trans
    (within_wakeup _ _)

theorem Owned.isPage (h : Owned c s v pg) (i : PagePlace) : ∀ a ∈ pg i, c.IsPage a := fun _ ha =>
  h.pages.carrier_of_mem ha

theorem allocate_within (size : Nat) (h : Owned c s v pg) :
    Within c s.media (s.media.allocate c size).2 := by
  unfold Media.allocate
  split
  · next hk =>
    rw [h.free.count_eq] at hk
    obtain ⟨-, -, hrel⟩ := takePages_spec h.free (Library.chain_nil.mpr rfl) hk
      (fun a ha => h.size a (h.isPage _ a ha)) nofun
    exact within_pages fun b hb => hrel.1 b fun hm => hb (h.isPage _ b hm)
  · exact .refl _

theorem freeChain_within {p : Int} (h : Owned c s v pg)
    (hp : (s.pc t).heldPage s.media.nodes = some p) : Within c s.media (s.media.freeChain c p) := by
  have hc := h.call t
  rw [hp] at hc
  obtain ⟨-, hrel⟩ := freePages_spec h.free hc (h.length_le (.call t)) (h.isPage _)
    fun a ha => h.pages.notMem ha (by simp)
  exact within_pages fun b hb => hrel.1 b fun hm => hb (h.isPage _ b hm)

theorem writeData_within (p : Int) (buffer : List UInt8) (h : Owned c s v pg)
    (hp : (s.pc t).heldPage s.media.nodes = some p) :
    ∀ b, ¬c.IsPage b → (writeData c.pages s.media.pages (some p) buffer).1 b = s.media.pages b := by
  have hc := h.call t
  rw [hp] at hc
  intro b hb
  rw [writeData_eq hc (h.length_le (.call t))]
  exact (writePages_frame b).2.2 fun hm => hb (h.isPage _ b hm)

-- ---------------------------------------------------------------------------
-- Runs
-- ---------------------------------------------------------------------------

theorem enqueue_within {x : PutCall} (h : Owned c s v pg) (hx : x.q < c.queues) (hn : c.IsNode n) :
    Within c s.media (s.enqueue c t x n w).media :=
  doorPut_within h hx hn

theorem sleep_within (k : CondId) (p : Pc) : Within c s.media (s.sleep t k p).media :=
  within_setCond _ _

theorem timeout_within (k : CondId) (p : Pc) : Within c s.media (s.timeout t k p).media :=
  within_setCond _ _

theorem nextSection_within (h : Owned c s v pg) (hs : nextSection c s t w b (s.pc t) = some s') :
    Within c s.media s'.media := by
  have hqueue := h.queue t
  have hheld : ∀ n ∈ (s.pc t).heldNode, c.IsNode n := fun _ hn => h.held_isNode hn
  have hpage := fun p => freeChain_within (t := t) (p := p) h
  have hwrite := fun p buffer => writeData_within (t := t) p buffer h
  cases hpc : s.pc t <;> rw [hpc] at hs hqueue hheld hpage hwrite <;>
    simp only [nextSection] at hs
  case idle => cases hs
  case putNode x =>
    have hget := pplGet_within h (hqueue x.q rfl)
    split at hs
    · next heq =>
      rw [heq] at hget
      exact Option.some.inj hs ▸ hget
    · split at hs
      · exact Option.some.inj hs ▸ .refl _
      · exact Option.some.inj hs ▸ sleep_within _ _
  case putNodeWait x e =>
    have hget := getNode_within h.lists (show c.HasList (.ppl x.q) from hqueue x.q rfl) (h.isNode _)
    split at hs
    · exact Option.some.inj hs ▸ timeout_within _ _
    split at hs
    · next heq =>
      rw [heq] at hget
      exact Option.some.inj hs ▸ hget
    · exact Option.some.inj hs ▸ sleep_within _ _
  case putAlloc x n =>
    have halloc := allocate_within x.buffer.length h
    split at hs
    all_goals
      next heq =>
      rw [heq] at halloc
      exact Option.some.inj hs ▸ halloc
  case putWrite x n p =>
    have hnode : c.IsNode n := hheld n List.mem_cons_self
    split at hs
    · obtain rfl := Option.some.inj hs
      refine ⟨fun b hb => ?_, hwrite p x.buffer rfl⟩
      have hbn : b ≠ n := fun hbn => hb (hbn ▸ hnode)
      simp only [State.goto, setNodeLength, setNodePage, Function.update_of_ne hbn]
    · exact Option.some.inj hs ▸ ⟨fun _ _ => rfl, hwrite p x.buffer rfl⟩
  case putQueue x n p =>
    split at hs
    · split at hs
      · exact Option.some.inj hs ▸ .refl _
      · exact Option.some.inj hs ▸ sleep_within _ _
    · exact Option.some.inj hs ▸ enqueue_within h (hqueue x.q rfl) (hheld n List.mem_cons_self)
  case putQueueWait x n p e =>
    split at hs
    · exact Option.some.inj hs ▸ timeout_within _ _
    split at hs
    · exact Option.some.inj hs ▸ sleep_within _ _
    · exact Option.some.inj hs ▸ enqueue_within h (hqueue x.q rfl) (hheld n List.mem_cons_self)
  case unwindNode q n p =>
    exact Option.some.inj hs ▸ pplPut_within (hheld n List.mem_cons_self)
  case unwindPage p => exact Option.some.inj hs ▸ hpage p rfl
  case getQueue x =>
    have hget := doorGet_within (w := w) h (hqueue x.q rfl)
    split at hs
    · next heq =>
      rw [heq] at hget
      exact Option.some.inj hs ▸ hget
    · split at hs
      · exact Option.some.inj hs ▸ .refl _
      · exact Option.some.inj hs ▸ sleep_within _ _
  case getQueueWait x e =>
    have hget := doorGet_within (w := w) h (hqueue x.q rfl)
    split at hs
    · exact Option.some.inj hs ▸ timeout_within _ _
    split at hs
    · next heq =>
      rw [heq] at hget
      exact Option.some.inj hs ▸ hget
    · exact Option.some.inj hs ▸ sleep_within _ _
  case getRead x n k =>
    have hnode : c.IsNode n := hheld n List.mem_cons_self
    split at hs
    all_goals exact Option.some.inj hs ▸ within_setNodePage hnode none
  case getFree q n p => exact Option.some.inj hs ▸ hpage p rfl
  case getPut q n => exact Option.some.inj hs ▸ pplPut_within (hheld n List.mem_cons_self)

theorem step_within {a : Action} (hi : Inv c s) (hs : step c s a = some s') :
    Within c s.media s'.media := by
  obtain ⟨v, pg, ho, -⟩ := hi
  cases a with
  | call t z =>
    simp only [step] at hs
    split at hs
    · exact Option.some.inj hs ▸ .refl _
    · cases hs
  | wake t expired =>
    simp only [step] at hs
    split at hs
    · split at hs
      · exact Option.some.inj hs ▸ within_setCond _ _
      · cases hs
    · cases hs
  | run t w buffer =>
    simp only [step] at hs
    split at hs
    · cases hs
    · exact nextSection_within ho hs

theorem reach_within {m₀ : Media} (hi : Media.infor c m₀ = some m)
    (hr : Reach (step c) Free (.init m) s) : Within c m s.media :=
  hr.invariant_of (I := fun s => Within c m s.media) (fun _ => reach_inv hi) (.refl m)
    fun _ _ _ hinv hwithin _ hs => hwithin.trans (step_within hinv hs)

-- ---------------------------------------------------------------------------
-- Bytes
-- ---------------------------------------------------------------------------

/-- The addresses from `a` on, `k` of them. -/
def Span (a : Int) (k : Nat) (x : Int) : Prop := a ≤ x ∧ x < a + k

section

variable {img img' : Image} {a a' : Int} {k : Nat} {bs bs' : List (BitVec 8)}
variable {ws : List (Int × List (BitVec 8))}

theorem read_congr (h : ∀ x, Span a k x → img.byte x = img'.byte x) :
    img.read a k = img'.read a k := by
  refine List.map_congr_left fun i hi => h _ ?_
  have := List.mem_range.mp hi
  exact ⟨by omega, by omega⟩

theorem read_write_self : (img.write a bs).read a bs.length = bs := by
  refine List.ext_getElem (by simp [Image.read]) fun i _ hi => ?_
  have hspan : a ≤ a + i ∧ a + i < a + bs.length := by omega
  have hsub : (a + i - a).toNat = i := by omega
  simp only [Image.read, Image.write, List.getElem_map, List.getElem_range, if_pos hspan, hsub]
  exact List.getD_eq_getElem _ _ hi

theorem byte_write {x : Int} (h : ¬Span a bs.length x) : (img.write a bs).byte x = img.byte x :=
  if_neg h

theorem read_write_apart (h : a + k ≤ a' ∨ a' + bs'.length ≤ a) :
    (img.write a' bs').read a k = img.read a k := by
  refine read_congr fun x hx => if_neg ?_
  obtain ⟨hlow, hhigh⟩ := hx
  omega

/-- Of two pieces of bytes, one lies before the other. -/
def Apart (w w' : Int × List (BitVec 8)) : Prop :=
  w.1 + w.2.length ≤ w'.1 ∨ w'.1 + w'.2.length ≤ w.1

theorem read_writeAll_apart {w : Int × List (BitVec 8)} (h : ∀ w' ∈ ws, Apart w w') :
    (img.writeAll ws).read w.1 w.2.length = img.read w.1 w.2.length := by
  induction ws generalizing img with
  | nil => rfl
  | cons w' ws ih =>
    obtain ⟨hhead, htail⟩ := List.forall_mem_cons.mp h
    exact (ih htail).trans (read_write_apart hhead)

theorem read_writeAll (h : ws.Pairwise Apart) :
    ∀ w ∈ ws, (img.writeAll ws).read w.1 w.2.length = w.2 := by
  induction ws generalizing img with
  | nil => exact nofun
  | cons w ws ih =>
    obtain ⟨hhead, htail⟩ := List.pairwise_cons.mp h
    refine List.forall_mem_cons.mpr ⟨?_, ih htail⟩
    exact (read_writeAll_apart hhead).trans read_write_self

theorem size_writeAll : (img.writeAll ws).size = img.size := by
  induction ws generalizing img with
  | nil => rfl
  | cons w ws ih => exact ih

end

-- ---------------------------------------------------------------------------
-- The marks
-- ---------------------------------------------------------------------------

/-- The suites, the locks and the lists. -/
def Platform.shared (P : Platform) (c : Config) : List (Int × Nat) :=
  [(c.suiteAt 0, c.abi.suite * c.queues),
    (c.poolerAt + P.poolerLock, P.lock),
    (c.poolerAt + c.abi.poolerList, 12),
    (c.allocatorAt + P.allocatorLock, P.lock),
    (c.allocatorAt + c.abi.allocatorList, 12)]

/-- What is written by `Init` beside the marks, and by the calls. -/
inductive Scratch (P : Platform) (c : Config) (x : Int) : Prop
  | shared {a k} : (a, k) ∈ P.shared c → Span a k x → Scratch P c x
  | node {a} : c.IsNode a → Span a 12 x → Scratch P c x
  | page {a} : c.IsPage a → Span a (8 + c.pageSize.toNat) x → Scratch P c x

/-- What may differ when the words `m` of a media have become `m'`. -/
inductive Touched (P : Platform) (c : Config) (m m' : Media) (x : Int) : Prop
  | shared {a k} : (a, k) ∈ P.shared c → Span a k x → Touched P c m m' x
  | node {a} : m'.nodes a ≠ m.nodes a → Span a 12 x → Touched P c m m' x
  | page {a} : m'.pages a ≠ m.pages a → Span a (8 + c.pageSize.toNat) x → Touched P c m m' x

theorem Touched.scratch {P : Platform} {x : Int} (h : Touched P c m m' x) (hw : Within c m m') :
    Scratch P c x := by
  cases h with
  | shared ha hx => exact .shared ha hx
  | @node a hne hx => exact .node (not_imp_comm.mp (hw.nodes a) hne) hx
  | @page a hne hx => exact .page (not_imp_comm.mp (hw.pages a) hne) hx

variable {P : Platform} {a : Arguments} {img img' : Image}

theorem length_marks : ∀ w ∈ a.marks P, w.2.length = 4 := by
  simp [Arguments.marks, uintBytes, maskPGS, maskALC, maskLKL, maskNDS, maskPLR, maskMQS]

theorem pooler_le_allocator : c.poolerAt + c.abi.pooler ≤ c.allocatorAt := by
  unfold Config.allocatorAt Config.nodeEntry
  omega

theorem qArray_le_pooler : (c.abi.infor : Int) + c.abi.suiteArray ≤ c.poolerAt := by
  have := Int.mul_nonneg (Int.natCast_nonneg c.abi.suite) (Int.natCast_nonneg c.queues)
  unfold Config.poolerAt Config.suiteAt
  omega

theorem marks_apart : (a.marks P).Pairwise Apart := by
  have hallocator : (a.config P.toAbi).poolerAt + P.pooler ≤ (a.config P.toAbi).allocatorAt :=
    pooler_le_allocator
  have hpooler : (P.infor : Int) + P.suiteArray ≤ (a.config P.toAbi).poolerAt := qArray_le_pooler
  have := P.suiteArray_le
  have := P.allocatorLock_le
  have := P.allocatorList_le
  have := P.pageArrayAt_le
  have := P.lockedListAt_le
  have := P.poolerLock_le
  have := P.poolerList_le
  have := P.nodeArrayAt_le
  have := P.pooler_le
  suffices h : (a.marks P).Pairwise fun w w' => w.1 + 4 ≤ w'.1 ∨ w'.1 + 4 ≤ w.1 by
    refine h.imp_of_mem fun hw hw' hpos => ?_
    rw [Apart, length_marks _ hw, length_marks _ hw']
    exact hpos
  simp only [Arguments.marks, List.pairwise_cons, List.forall_mem_cons, List.not_mem_nil,
    false_imp_iff, implies_true, List.Pairwise.nil, and_true]
  omega

/-- The marks lie beside everything else that is written. -/
theorem mark_not_scratch {w : Int × List (BitVec 8)} {x : Int} (hw : w ∈ a.marks P)
    (hx : Span w.1 w.2.length x) : ¬Scratch P (a.config P.toAbi) x := by
  have hallocator : (a.config P.toAbi).poolerAt + P.pooler ≤ (a.config P.toAbi).allocatorAt :=
    pooler_le_allocator
  have hpooler : (P.infor : Int) + P.suiteArray ≤ (a.config P.toAbi).poolerAt := qArray_le_pooler
  have hsuites : (a.config P.toAbi).suiteAt 0 + (P.suite * a.queues.toNat : Nat) =
      (a.config P.toAbi).poolerAt := by
    simp [Config.poolerAt, Config.suiteAt, Arguments.config]
  have hsuite₀ : (a.config P.toAbi).suiteAt 0 = P.infor + P.suiteArray := by
    simp [Config.suiteAt, Arguments.config]
  have hqArray := P.suiteArray_le
  have := P.allocatorLock_le
  have := P.allocatorList_le
  have := P.pageArrayAt_le
  have := P.allocator_le
  have := P.lockedListAt_le
  have := P.poolerLock_le
  have := P.poolerList_le
  have := P.nodeArrayAt_le
  have := P.pooler_le
  rw [length_marks w hw] at hx
  have hat : x < P.infor + 8 ∨
      (a.config P.toAbi).poolerAt ≤ x ∧
        (x < (a.config P.toAbi).poolerAt + P.poolerLock ∨
          (a.config P.toAbi).poolerAt + P.poolerList + 12 ≤ x) ∧
        x < (a.config P.toAbi).poolerAt + P.pooler ∨
      (a.config P.toAbi).allocatorAt ≤ x ∧
        (x < (a.config P.toAbi).allocatorAt + P.allocatorLock ∨
          (a.config P.toAbi).allocatorAt + P.allocatorList + 12 ≤ x) ∧
        x < (a.config P.toAbi).allocatorAt + P.allocator := by
    obtain ⟨hlow, hhigh⟩ := hx
    simp only [Arguments.marks, List.mem_cons, List.not_mem_nil, or_false] at hw
    rcases hw with rfl | rfl | rfl | rfl | rfl | rfl | rfl | rfl | rfl | rfl <;>
      dsimp only at hlow hhigh <;> omega
  intro hs
  cases hs with
  | shared ha hx =>
    obtain ⟨hlow, hhigh⟩ := hx
    have habi : (a.config P.toAbi).abi = P.toAbi := rfl
    have hqueues : (a.config P.toAbi).queues = a.queues.toNat := rfl
    simp only [Platform.shared, List.mem_cons, List.not_mem_nil, or_false, Prod.mk.injEq, habi,
      hqueues] at ha
    rcases ha with ⟨rfl, rfl⟩ | ⟨rfl, rfl⟩ | ⟨rfl, rfl⟩ | ⟨rfl, rfl⟩ | ⟨rfl, rfl⟩ <;> omega
  | node ha hx =>
    obtain ⟨hlow, hhigh⟩ := hx
    obtain ⟨i, hi, rfl⟩ := ha
    have hentry : (a.config P.toAbi).nodeEntry = (a.config P.toAbi).poolerAt + P.pooler := rfl
    unfold Config.allocatorAt at *
    unfold Config.nodeAt at hlow hhigh
    omega
  | page ha hx =>
    have hentry := pageEntry_le ha
    have hat : (a.config P.toAbi).pageEntry = (a.config P.toAbi).allocatorAt + P.allocator := rfl
    obtain ⟨hlow, hhigh⟩ := hx
    omega

-- ---------------------------------------------------------------------------
-- What passes
-- ---------------------------------------------------------------------------

def Image.zero (n : Nat) : Image := ⟨n, fun _ => 0⟩

/-- The media is mapped and has, behind the header, the marks that `Init` writes
on zeros, and whatever it and the calls write elsewhere. -/
structure Written (P : Platform) (a : Arguments) (img : Image) : Prop where
  size : (a.config P.toAbi).total ≤ img.size
  byte : ∀ x : Int, 232 ≤ x → x < (a.config P.toAbi).total → ¬Scratch P (a.config P.toAbi) x →
    img.byte x = ((Image.zero (a.config P.toAbi).total).writeAll (a.marks P)).byte x

/-- The image has become `img'` while the words went from `m` to `m'`. -/
structure Follows (P : Platform) (c : Config) (m m' : Media) (img img' : Image) : Prop where
  size : img'.size = img.size
  byte : ∀ x : Int, 232 ≤ x → x < c.total → ¬Touched P c m m' x → img'.byte x = img.byte x

theorem Written.marked (h : Written P a img) : Marked P a img := by
  refine ⟨h.size, fun w hw => ?_⟩
  obtain ⟨hge, hle⟩ := mark_place w hw
  have hend : w.1 + w.2.length ≤ (a.config P.toAbi).total := by
    rw [length_marks w hw]
    exact hle
  have hkeep := read_congr fun x hx =>
    h.byte x (hge.trans hx.1) (hx.2.trans_le hend) (mark_not_scratch hw hx)
  exact hkeep.trans (read_writeAll marks_apart w hw)

theorem Written.run (h : Written P a img) (hw : Within (a.config P.toAbi) m m')
    (hf : Follows P (a.config P.toAbi) m m' img img') : Written P a img' := by
  refine ⟨h.size.trans hf.size.ge, fun x hge hlt hx => ?_⟩
  rw [hf.byte x hge hlt fun ht => hx (ht.scratch hw)]
  exact h.byte x hge hlt hx

/-- The header that `Init` wrote passes after every run of calls; with one
word altered it is refused with an exception if and only if the comparisons of
the objects, up to the first that fails, read mapped memory. -/
theorem check_run (createDate : BitVec 64) (hfits : Fits (a.config P.toAbi)) {m₀ m : Media}
    (hi : Media.infor (a.config P.toAbi) m₀ = some m) (hw : Written P a img) {s : State}
    (hr : Reach (step (a.config P.toAbi)) Free (.init m) s)
    (hf : Follows P (a.config P.toAbi) m s.media img img') :
    P.check (CSQInfor.init P a createDate) img' = .ok () ∧
      ∀ i < 116, ∀ w, Library.OnesComplement.Differ ((CSQInfor.init P a createDate).word i) w →
        (Throws (P.check ((CSQInfor.init P a createDate).set i w) img') ↔
          (((CSQInfor.init P a createDate).set i w).over img').Inside
            (P.objectChecks ((CSQInfor.init P a createDate).set i w))) := by
  have hm : Marked P a img' := (hw.run (reach_within hi hr) hf).marked
  exact ⟨check_init hfits hm, fun i hi w hd => check_altered hfits hm hi hd⟩

/-- The objects with 64-bit pointers and glibc's mutexes and conditions. -/
def Platform.x86_64 : Platform where
  toAbi := .x86_64
  long := 8
  align := 16
  page := 8
  pageArray := 12
  node := 12
  nodeArray := 8
  lock := 48
  cond := 64
  event := 120
  door := 184
  podTest := 368
  allocatorLock := 4
  pageArrayAt := 64
  lockedListAt := 8
  poolerLock := 16
  nodeArrayAt := 80
  infor_eq := rfl
  suiteArray_le := by decide
  allocatorLock_le := by decide
  allocatorList_le := by decide
  pageArrayAt_le := by decide
  allocator_le := by decide
  lockedListAt_le := by decide
  poolerLock_le := by decide
  poolerList_le := by decide
  nodeArrayAt_le := by decide
  pooler_le := by decide

def oneQueue : Arguments := ⟨1, 0, 1, 2, 4, 64⟩

abbrev oneQueueConfig : Config := oneQueue.config Platform.x86_64.toAbi

theorem oneQueue_fits : Fits oneQueueConfig :=
  ⟨by decide, by decide, by decide, by decide, by decide⟩

/-- What `Init` writes for `oneQueue` into a page of zeros. -/
def oneQueueImage : Image := (Image.zero 4096).writeAll (oneQueue.marks .x86_64)

theorem oneQueue_written : Written .x86_64 oneQueue oneQueueImage :=
  ⟨by rw [oneQueueImage, size_writeAll]; decide, fun _ _ _ _ => rfl⟩

def oneMessage : List Action :=
  [.call 0 (.put 0 [1, 2, 3]), .run 0 0 true, .run 0 0 true, .run 0 0 true, .run 0 0 true,
    .call 1 (.get 0 8), .run 1 0 true, .run 1 0 true, .run 1 0 true, .run 1 0 true]

def oneMessageImage : Image :=
  oneQueueImage.write (oneQueueConfig.pageAt 0 + 8) [0xFE, 0xFD, 0xFC]

/-- After a put and a get, an altered word of the licence is refused, and so is
an offset that leads to other bytes of the same page of memory. -/
theorem check_run_oneQueue : ∃ m s,
    Media.infor oneQueueConfig (.blank oneQueueConfig) = some m ∧
    Library.run (step oneQueueConfig) (.init m) oneMessage = some s ∧
    s.puts 0 = [[1, 2, 3]] ∧
    Platform.x86_64.check (CSQInfor.init .x86_64 oneQueue 0) oneMessageImage = .ok () ∧
    Throws (Platform.x86_64.check ((CSQInfor.init .x86_64 oneQueue 0).set 40 1) oneMessageImage) ∧
    Throws (Platform.x86_64.check ((CSQInfor.init .x86_64 oneQueue 0).set 112 3000) oneMessageImage) := by
  have hrun : ((Media.infor oneQueueConfig (.blank oneQueueConfig)).bind fun m =>
      (Library.run (step oneQueueConfig) (.init m) oneMessage).bind fun s =>
        some (s.puts 0 == [[1, 2, 3]] && (m.pages (oneQueueConfig.pageAt 0)).data.head? == some 0 &&
          (s.media.pages (oneQueueConfig.pageAt 0)).data.head? == some 0xFE)) = some true := by
    decide +kernel
  obtain ⟨m, hm, hrun⟩ := Option.bind_eq_some_iff.mp hrun
  obtain ⟨s, hs, htest⟩ := Option.bind_eq_some_iff.mp hrun
  simp only [Option.some.injEq, Bool.and_eq_true, beq_iff_eq] at htest
  obtain ⟨⟨hputs, hbefore⟩, hafter⟩ := htest
  have hpage : s.media.pages (oneQueueConfig.pageAt 0) ≠ m.pages (oneQueueConfig.pageAt 0) := by
    intro heq
    rw [heq, hbefore] at hafter
    exact absurd hafter (by decide)
  have hfollows : Follows .x86_64 oneQueueConfig m s.media oneQueueImage oneMessageImage := by
    refine ⟨by rw [oneMessageImage, Image.write], fun x _ _ hx => ?_⟩
    rw [oneMessageImage, byte_write fun hat => hx (.page hpage ?_)]
    obtain ⟨hlow, hhigh⟩ := hat
    have hsize : oneQueueConfig.pageSize.toNat = 64 := rfl
    simp only [List.length_cons, List.length_nil] at hhigh
    exact ⟨by omega, by omega⟩
  obtain ⟨hok, hset⟩ := check_run 0 oneQueue_fits hm oneQueue_written (.run .init hs) hfollows
  have hlicense : (CSQInfor.init .x86_64 oneQueue 0).word 40 = 0 :=
    CSQInfor.word_init (i := 40) (by decide)
  have hoffset : (CSQInfor.init .x86_64 oneQueue 0).word 112 = 720 :=
    CSQInfor.word_init (i := 112) (by decide)
  refine ⟨m, s, hm, hs, hputs, hok, (hset 40 (by decide) 1 (by rw [hlicense]; decide)).mpr ?_,
    (hset 112 (by decide) 3000 (by rw [hoffset]; decide)).mpr ?_⟩
  · exact inside_of_within (by decide +kernel)
  · exact inside_of_within (by decide +kernel)

/-- The upper half of the offset of the allocator: the check reads the mask of
the allocator a GiB behind the media. -/
theorem offset_followed :
    ¬∀ (P : Platform) (a : Arguments) (createDate : BitVec 64) (img : Image),
      Fits (a.config P.toAbi) → Written P a img → ∀ i < 116, ∀ w,
        Library.OnesComplement.Differ ((CSQInfor.init P a createDate).word i) w →
          Throws (P.check ((CSQInfor.init P a createDate).set i w) img) := by
  intro h
  have hword : (CSQInfor.init .x86_64 oneQueue 0).word 113 = 0 :=
    CSQInfor.word_init (i := 113) (by decide)
  obtain ⟨msg, hmsg⟩ := h .x86_64 oneQueue 0 oneQueueImage oneQueue_fits oneQueue_written 113
    (by decide) 0x4000 (by rw [hword]; decide)
  have hout : Platform.x86_64.check ((CSQInfor.init .x86_64 oneQueue 0).set 113 0x4000)
      oneQueueImage = .error .outside := by
    decide +kernel
  rw [hout] at hmsg
  cases hmsg

end GalaLua.AMQ
