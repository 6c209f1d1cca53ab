import GalaLua.AMQ.Content

/-!
# Runs keep the ledger

Every section of every call keeps the ledger and what the pages hold, on its
failing paths too, so every state of every run from a media that was set up
has both (`reach_inv`).
-/

namespace GalaLua.AMQ

open Library (Chain Partition Reach Free)

def Inv (c : Config) (s : State) : Prop :=
  ∃ v pg, Owned c s v pg ∧ Content s v pg

variable {c : Config} {s s' : State} {v : NodeList → List Int} {pg : PagePlace → List Int}
variable {t w : Nat} {m' : Media} {p₀ p' : Pc} {id : NodeList} {a n p : Int} {x : PutCall} {y : GetCall}
variable {b : Bool}

/-- The queues, what the other threads hold and the history are as they were. -/
structure Beside (t : Nat) (s s' : State) (v v' : NodeList → List Int) (pg pg' : PagePlace → List Int) :
    Prop where
  queue : ∀ q, v' (.queue q) = v (.queue q)
  pages : ∀ i, i ≠ .free → i ≠ .call t → pg' i = pg i
  pc : ∀ t' ≠ t, s'.pc t' = s.pc t'
  puts : s'.puts = s.puts
  gets : s'.gets = s.gets

theorem Beside.goto {v' : NodeList → List Int} {pg' : PagePlace → List Int}
    (hv : ∀ q, v' (.queue q) = v (.queue q)) (hpg : ∀ i, i ≠ .free → i ≠ .call t → pg' i = pg i) :
    Beside t s (s.goto t m' p') v v' pg pg' :=
  ⟨hv, hpg, fun _ ht => Function.update_of_ne ht _ _, rfl, rfl⟩

theorem Beside.trans {s'' : State} {v' v'' : NodeList → List Int} {pg' pg'' : PagePlace → List Int}
    (h : Beside t s s' v v' pg pg') (h' : Beside t s' s'' v' v'' pg' pg'') :
    Beside t s s'' v v'' pg pg'' :=
  ⟨fun q => (h'.queue q).trans (h.queue q), fun i h₁ h₂ => (h'.pages i h₁ h₂).trans (h.pages i h₁ h₂),
    fun t' ht => (h'.pc t' ht).trans (h.pc t' ht), h'.puts.trans h.puts, h'.gets.trans h.gets⟩

/-- The ledger goes on in `s'`, and thread `t` moved nodes and pages only
between itself, the pools and the free list. -/
def Keeps (c : Config) (t : Nat) (s : State) (v : NodeList → List Int) (pg : PagePlace → List Int)
    (s' : State) : Prop :=
  ∃ v' pg', Owned c s' v' pg' ∧ Content s' v' pg' ∧ Beside t s s' v v' pg pg'

theorem Keeps.inv (h : Keeps c t s v pg s') : Inv c s' := by
  obtain ⟨v', pg', ho, hc, -⟩ := h
  exact ⟨v', pg', ho, hc⟩

def Pc.isRead : Pc → Bool
  | .getRead _ _ _ => true
  | _ => false

theorem not_read (hpc : s.pc t = p₀) (h : p₀.isRead = false) (x : GetCall) (n : Int) (k : Nat) :
    s.pc t ≠ .getRead x n k := by
  rw [hpc]
  rintro rfl
  cases h

theorem Owned.queue_of (ho : Owned c s v pg) (hpc : s.pc t = p₀)
    (hq : p'.queue = none ∨ p'.queue = p₀.queue) : ∀ q, p'.queue = some q → q < c.queues := by
  rintro q hq'
  rcases hq with hq | hq
  · simp [hq] at hq'
  · exact ho.queue t q (by rw [hpc, ← hq, hq'])

-- ---------------------------------------------------------------------------
-- Sleeping and giving up
-- ---------------------------------------------------------------------------

/-- A thread goes on with what it holds; at most conditions change. -/
theorem keeps_stay (ho : Owned c s v pg) (hc : Content s v pg) (hpc : s.pc t = p₀)
    (hl : Lists c m' v) (hf : NodeFrame s.media m') (hn : p'.heldNode = p₀.heldNode)
    (hpg : p'.heldPage s.media.nodes = p₀.heldPage s.media.nodes)
    (hq : p'.queue = none ∨ p'.queue = p₀.queue) (hr : p₀.isRead = false)
    (hready : Ready s (pg (.call t)) p') : Keeps c t s v pg (s.goto t m' p') := by
  refine ⟨v, pg, ho.quiet hl hf (by rw [hn, hpc]) (by rw [hpg, hpc]) (ho.queue_of hpc hq),
    hc.quiet (fun _ => rfl) hf (not_read hpc hr) ?_, .goto (fun _ => rfl) fun _ _ _ => rfl⟩
  exact hready.mono (fun n _ => ⟨hf.nodePage n, fun _ hs => hs.frame hf⟩) fun _ _ _ hm => hm

theorem keeps_cond (ho : Owned c s v pg) (hc : Content s v pg) (hpc : s.pc t = p₀) (k : CondId)
    (z : CSQCond) (hn : p'.heldNode = p₀.heldNode)
    (hpg : p'.heldPage s.media.nodes = p₀.heldPage s.media.nodes)
    (hq : p'.queue = none ∨ p'.queue = p₀.queue) (hr : p₀.isRead = false)
    (hready : Ready s (pg (.call t)) p') : Keeps c t s v pg (s.goto t (s.media.setCond k z) p') :=
  keeps_stay ho hc hpc (ho.lists.setCond k z) (nodeFrame_setCond k z) hn hpg hq hr hready

-- ---------------------------------------------------------------------------
-- Put
-- ---------------------------------------------------------------------------

theorem keeps_takePooled {xs : List Int} (ho : Owned c s v pg) (hc : Content s v pg)
    (hpc : s.pc t = p₀) (hpool : id.isPool) (hid : c.HasList id) (hv : v id = a :: xs)
    (hl : Lists c m' (Function.update v id xs)) (hf : NodeFrame s.media m')
    (hp : p₀.heldNode = []) (hpg : p₀.heldPage s.media.nodes = none)
    (hq : p₀.queue = some x.q) (hr : p₀.isRead = false) :
    Keeps c t s v pg (s.goto t m' (.putAlloc x a)) :=
  ⟨_, pg, ho.takePooled hpool hid hv hl hf (by rw [hpc, hp]) rfl (by rw [hpc, hpg]) (fun _ => rfl)
      (ho.queue_of hpc (.inr hq.symm)),
    hc.quiet (update_pool hpool) hf (not_read hpc hr) trivial,
    .goto (update_pool hpool) fun _ _ _ => rfl⟩

theorem keeps_pplPut {q : Nat} (ho : Owned c s v pg) (hc : Content s v pg) (hpc : s.pc t = p₀)
    (hq : p₀.queue = some q) (hp : p₀.heldNode = [n]) (hp' : p'.heldNode = [])
    (hpg : ∀ nodes, p'.heldPage nodes = p₀.heldPage s.media.nodes) (hq' : p'.queue = none)
    (hr : p₀.isRead = false) (hready : ∀ s' ps, Ready s' ps p') :
    Keeps c t s v pg (s.goto t (s.media.pplPut c q n w) p') := by
  have hlt : q < c.queues := ho.queue t q (by rw [hpc, hq])
  have hheld : (s.pc t).heldNode = [n] := by rw [hpc, hp]
  have hn : n ∈ (s.pc t).heldNode := by simp [hheld]
  obtain ⟨id, hid, hl, hf⟩ := pplPut_spec ho.lists hlt (ho.held_isNode hn) (ho.held_notMem hn) w
  have hpool : id.isPool ∧ c.HasList id := by
    rcases hid with rfl | rfl
    · exact ⟨rfl, trivial⟩
    · exact ⟨rfl, hlt⟩
  exact ⟨_, pg, ho.givePooled hpool.1 hpool.2 hl hf hheld hp' (by simpa [hpc] using hpg)
      (ho.queue_of hpc (.inl hq')),
    hc.givePooled ho (update_pool hpool.1) hf hn (not_read hpc hr) (hready _ _),
    .goto (update_pool hpool.1) fun _ _ _ => rfl⟩

theorem update_pages {xs ys : List Int} (i : PagePlace) (h₁ : i ≠ .free) (h₂ : i ≠ .call t) :
    Function.update (Function.update pg .free xs) (.call t) ys i = pg i := by
  rw [Function.update_of_ne h₂, Function.update_of_ne h₁]

theorem keeps_allocate (ho : Owned c s v pg) (hc : Content s v pg) (hpc : s.pc t = .putAlloc x n) :
    (∃ m', s.media.allocate c x.buffer.length = (none, m') ∧
      Keeps c t s v pg (s.goto t m' (.unwindNode x.q n none))) ∨
    ∃ p m', s.media.allocate c x.buffer.length = (some p, m') ∧
      Keeps c t s v pg (s.goto t m' (.putWrite x n p)) := by
  have hx : x.q < c.queues := ho.queue t x.q (by simp [hpc, Pc.queue])
  have hempty : pg (.call t) = [] := by
    have := ho.call t
    rw [hpc] at this
    exact this.unique rfl
  have hnone : Keeps c t s v pg (s.goto t s.media (.unwindNode x.q n none)) :=
    keeps_stay ho hc hpc ho.lists (.refl _) rfl rfl (.inr rfl) rfl trivial
  unfold Media.allocate
  split
  · next hle =>
    rw [ho.free.count_eq] at hle
    obtain ⟨hfree, hchain, hrel⟩ := takePages_spec ho.free
      (show Chain (nextPtr s.media.pages) none [] from rfl) hle
      (fun a ha => ho.size a (ho.pages.carrier_of_mem ha)) (by simp)
    rw [List.append_nil] at hchain
    set r := takePages c (c.nPages x.buffer.length) none s.media.free s.media.pages
    have hperm : ((pg .free).drop (c.nPages x.buffer.length) ++
        ((pg .free).take (c.nPages x.buffer.length)).reverse).Perm (pg .free ++ pg (.call t)) := by
      rw [hempty, List.append_nil]
      refine ((List.reverse_perm _).append_left _).trans ?_
      refine List.perm_append_comm.trans ?_
      rw [List.take_append_drop]
    have hinv : ∀ p' : Pc, p'.heldNode = [n] → p'.heldPage s.media.nodes = r.1 →
        (∀ q, p'.queue = some q → q < c.queues) → (∀ s' ps, Ready s' ps p') →
        Keeps c t s v pg (s.goto t { s.media with free := r.2.1, pages := r.2.2 } p') := by
      intro p' hn hpg hq hready
      have hrel' : Relinked s.media.pages r.2.2 (pg .free ++ pg (.call t)) := hrel.mono (by simp_all)
      exact ⟨v, _, ho.relinkPages (hfree) (hpg ▸ hchain) hrel' hperm (hn.trans (by rw [hpc]; rfl))
        hq, hc.relinkPages hrel (by simp [hpc]) update_pages (hready _ _),
        .goto (fun _ => rfl) update_pages⟩
    cases hr : r.1 with
    | none =>
      refine .inl ⟨_, by rw [← hr], hinv _ rfl ?_ (by simp [Pc.queue, hx]) fun _ _ => trivial⟩
      simp [Pc.heldPage, hr]
    | some p =>
      refine .inr ⟨p, _, by rw [← hr], hinv _ rfl ?_ (by simp [Pc.queue, hx]) fun _ _ => trivial⟩
      simp [Pc.heldPage, hr]
  · exact .inl ⟨_, rfl, hnone⟩

theorem keeps_freeChain (ho : Owned c s v pg) (hc : Content s v pg) (hpc : s.pc t = p₀)
    (hpg : p₀.heldPage s.media.nodes = some p) (hn : p'.heldNode = p₀.heldNode)
    (hpg' : ∀ nodes, p'.heldPage nodes = none) (hq : p'.queue = none ∨ p'.queue = p₀.queue)
    (hr : p₀.isRead = false) (hready : ∀ s' ps, Ready s' ps p') :
    Keeps c t s v pg (s.goto t (s.media.freeChain c p) p') := by
  have hchain := ho.call t
  rw [hpc, hpg] at hchain
  obtain ⟨hfree, hrel⟩ := freePages_spec ho.free hchain (ho.length_le (.call t))
    (fun a ha => ho.pages.carrier_of_mem ha)
    (fun a ha => ho.pages.notMem ha (by simp))
  refine ⟨v, _, ho.relinkPages hfree (show Chain _ _ [] from hpg' _)
      (hrel.mono fun _ => List.mem_append_right _) ?_ (by rw [hpc, hn]) (ho.queue_of hpc hq),
    hc.relinkPages hrel (not_read hpc hr) update_pages (hready _ _), .goto (fun _ => rfl) update_pages⟩
  rw [List.append_nil]
  exact ((List.reverse_perm _).append_right _).trans List.perm_append_comm

/-- `F_WriteData` on the call's own pages, then the fields of its own node. -/
theorem keeps_write (ho : Owned c s v pg) (hc : Content s v pg) (hpc : s.pc t = .putWrite x n p) :
    let r := writeData c.pages s.media.pages (some p) x.buffer
    let nodes := setNodeLength (setNodePage s.media.nodes n (some p)) n x.buffer.length
    Keeps c t s v pg (s.goto t { s.media with pages := r.1 } (.unwindNode x.q n (some p))) ∧
      (r.2 = x.buffer.length →
        Keeps c t s v pg (s.goto t { s.media with pages := r.1, nodes := nodes } (.putQueue x n p))) := by
  intro r nodes
  have hx : x.q < c.queues := ho.queue t x.q (by simp [hpc, Pc.queue])
  have hheld : (s.pc t).heldNode = [n] := by simp [hpc, Pc.heldNode]
  have hnode : c.IsNode n := ho.held_isNode (t := t) (by simp [hheld])
  have hchain := ho.call t
  simp only [hpc, Pc.heldPage] at hchain
  have hr : r = writePages s.media.pages (pg (.call t)) x.buffer :=
    writeData_eq hchain (ho.length_le (.call t))
  have hpages : ∀ a, (r.1 a).next = (s.media.pages a).next ∧
      (r.1 a).pageSize = (s.media.pages a).pageSize ∧
      (a ∉ pg (.call t) → r.1 a = s.media.pages a) := by
    rw [hr]
    exact writePages_frame
  -- the messages of the others are on other pages and nodes
  have hother : ∀ i, i ≠ .call t → ∀ k, readPages r.1 (pg i) k = readPages s.media.pages (pg i) k :=
    fun i hi k => readPages_congr fun a ha => (hpages a).2.2 (ho.pages.notMem ha hi)
  have hcontent : ∀ (nodes : Int → CSQNode) p', (∀ b, b ≠ n → nodes b = s.media.nodes b) →
      Ready (s.goto t { s.media with pages := r.1, nodes := nodes } p') (pg (.call t)) p' →
      Content (s.goto t { s.media with pages := r.1, nodes := nodes } p') v pg := by
    intro nodes p' hnodes hready
    refine hc.goto (fun _ => rfl) (fun q b hb msg hs => ?_) (fun t' ht b hb => ?_) (by simp [hpc])
      hready
    · have hbn : b ≠ n := fun hbn => ho.held_notMem (t := t) (n := n) (by simp [hheld]) _ (hbn ▸ hb)
      exact hs.congr (by simp only [hnodes b hbn]) (hother _ (by simp))
    · have hbn : b ≠ n := fun hbn => ho.held_unique (t := t) (n := n) (by simp [hheld]) ht (hbn ▸ hb)
      exact ⟨by simp only [nodePage, hnodes b hbn],
        fun msg hs => hs.congr (by simp only [hnodes b hbn]) (hother _ (by simpa using ht))⟩
  refine ⟨⟨v, pg, ho.local (fun a => ⟨(hpages a).1, (hpages a).2.1⟩) (fun _ => rfl) (fun _ _ => rfl)
    (by simp [hpc, Pc.heldNode]) (by simp [hpc, Pc.heldPage]) (by simp [Pc.queue, hx]),
    hcontent s.media.nodes _ (fun _ _ => rfl) trivial, .goto (fun _ => rfl) fun _ _ _ => rfl⟩,
    fun hlen => ?_⟩
  have hnodes : ∀ b, b ≠ n → nodes b = s.media.nodes b := fun b hb => by
    simp [nodes, setNodeLength, setNodePage, hb]
  have hnext : ∀ b, (nodes b).next = (s.media.nodes b).next := by
    intro b
    rcases eq_or_ne b n with rfl | hb
    · simp [nodes, setNodeLength, setNodePage]
    · rw [hnodes b hb]
  have hpage : nodePage nodes n = some p := by
    have hne : (some p : Option Int) ≠ some n := by
      intro heq
      exact node_ne_page hnode (ho.pages.carrier_of_mem hchain.head_mem) (Option.some.inj heq).symm
    simp [nodes, nodePage, setNodeLength, setNodePage, pointer_offset hne]
  have hnd := ho.pages.nodup (.call t)
  have hcap : x.buffer.length ≤ capacity s.media.pages (pg (.call t)) := by
    have : (writePages s.media.pages _ x.buffer).2 = _ := writePages_snd hnd
    rw [← hr, hlen] at this
    omega
  refine ⟨v, pg, ho.local (fun a => ⟨(hpages a).1, (hpages a).2.1⟩) hnext
    (fun b hb => hnodes b (by simpa [hheld] using hb)) (by simp [hpc, Pc.heldNode])
    (by simp [hpc, Pc.heldPage]) (by simp [Pc.queue, hx]), hcontent nodes _ hnodes ⟨hpage, ?_⟩,
    .goto (fun _ => rfl) fun _ _ _ => rfl⟩
  refine ⟨by simp [State.goto, nodes, setNodeLength], ?_, fun k => ?_⟩
  · intro hnil
    simp [hnil] at hchain
  · have : readPages (writePages s.media.pages _ _).1 _ _ = _ := readPages_writePages hnd hcap k
    rwa [← hr] at this

theorem Owned.history {puts : Nat → List (List UInt8)} {gets : Nat → List Fetch}
    (h : Owned c s v pg) : Owned c { s with puts := puts, gets := gets } v pg :=
  ⟨h.lists, h.listed, h.nodes, h.free, h.queued, h.unqueued, h.call, h.pages, h.size, h.limits,
    h.depth, h.queue⟩

theorem inv_enqueue (ho : Owned c s v pg) (hc : Content s v pg) (hpc : s.pc t = p₀)
    (hq : p₀.queue = some x.q) (hp : p₀.heldNode = [n]) (hpg : p₀.heldPage s.media.nodes = some p)
    (hready : nodePage s.media.nodes n = some p ∧ Stored s.media (pg (.call t)) n x.buffer)
    (hfull : ¬s.media.full x.q = true) (hr : p₀.isRead = false) : Inv c (s.enqueue c t x n w) := by
  have hx : x.q < c.queues := ho.queue t x.q (by rw [hpc, hq])
  have hheld : (s.pc t).heldNode = [n] := by rw [hpc, hp]
  have hn : n ∈ (s.pc t).heldNode := by simp [hheld]
  obtain ⟨hl, hf⟩ := doorPut_spec ho.lists hx ho.separate (ho.held_isNode hn) (ho.held_notMem hn) w
  have hpage : (s.pc t).heldPage s.media.nodes = nodePage s.media.nodes n := by
    rw [hpc, hpg, hready.1]
  exact ⟨_, _, (ho.enqueue hx hl hf (by simpa using hfull) hheld hpage).history,
    hc.enqueue ho hf hheld hready.2 (not_read hpc hr)⟩

-- ---------------------------------------------------------------------------
-- Get
-- ---------------------------------------------------------------------------

theorem inv_doorGet (ho : Owned c s v pg) (hc : Content s v pg) (hpc : s.pc t = p₀)
    (hq : p₀.queue = some y.q) (hp : p₀.heldNode = []) (hpg : p₀.heldPage s.media.nodes = none)
    (hr : p₀.isRead = false) :
    s.media.doorGet c y.q w = (none, s.media) ∨
      ∃ a m', s.media.doorGet c y.q w = (some a, m') ∧ Inv c (s.dequeue t y a m') := by
  have hy : y.q < c.queues := ho.queue t y.q (by rw [hpc, hq])
  rcases doorGet_spec ho.lists hy ho.separate w with ⟨hget, -⟩ | ⟨a, xs, m', hv, hget, hl, hf⟩
  · exact .inl hget
  · have howned := ho.dequeue hy hv hl hf (by rw [hpc, hp]) (by rw [hpc, hpg]) rfl (s.gets y.q).length
    exact .inr ⟨a, m', hget, _, _, howned.history, hc.dequeue ho hv hf (not_read hpc hr)⟩

/-- The node of a get has a page, and what is read from it is the message. -/
theorem fetch_eq {k : Nat} (ho : Owned c s v pg) (hc : Content s v pg) (hpc : s.pc t = .getRead y n k) :
    ∃ p msg, nodePage s.media.nodes n = some p ∧ (s.puts y.q)[k]? = some msg ∧
      ∀ b, fetch c s.media y.reader n p b = y.reader.fetches b msg := by
  have hchain := ho.call t
  simp only [hpc, Pc.heldPage] at hchain
  have hready := hc.ready t
  simp only [hpc, Ready] at hready
  obtain ⟨msg, hmsg, hlen, hne, hread⟩ := hready
  obtain ⟨p, ps, hps⟩ := List.exists_cons_of_ne_nil hne
  have hpage : nodePage s.media.nodes n = some p := by
    rw [hps] at hchain
    exact hchain.1
  have hbytes : ∀ k, readData c.pages s.media.pages (some p) (min msg.length k) = msg.take k := by
    intro k
    rw [← hpage, readData_eq hchain (ho.length_le (.call t))]
    exact hread k
  refine ⟨p, msg, hpage, hmsg, fun b => ?_⟩
  cases hr : y.reader with
  | buffer maxLength =>
    have hmin : (if (s.media.nodes n).length > maxLength then maxLength
        else (s.media.nodes n).length) = min msg.length maxLength := by
      rw [hlen]
      split <;> omega
    simp only [fetch, Reader.fetches, hmin, hbytes maxLength]
  | callback =>
    have hall := hbytes msg.length
    rw [Nat.min_self, List.take_length] at hall
    simp only [fetch, Reader.fetches, hlen, hall]

theorem inv_read {k : Nat} (ho : Owned c s v pg) (hc : Content s v pg)
    (hpc : s.pc t = .getRead y n k) :
    ∃ p, nodePage s.media.nodes n = some p ∧
      Inv c ((s.goto t { s.media with nodes := setNodePage s.media.nodes n none }
        (.getFree y.q n p)).resolve y.q k (fetch c s.media y.reader n p b)) := by
  have hy : y.q < c.queues := ho.queue t y.q (by simp [hpc, Pc.queue])
  have hheld : (s.pc t).heldNode = [n] := by simp [hpc, Pc.heldNode]
  obtain ⟨p, msg, hpage, -, hfetch⟩ := fetch_eq ho hc hpc
  have hpending : fetch c s.media y.reader n p b ≠ .pending := hfetch b ▸ y.reader.fetches_ne_pending b msg
  have hnodes : ∀ b, b ≠ n → setNodePage s.media.nodes n none b = s.media.nodes b := fun b hb => by
    simp [setNodePage, hb]
  have hlength : ∀ b, (setNodePage s.media.nodes n none b).length = (s.media.nodes b).length := by
    intro b
    rcases eq_or_ne b n with rfl | hb
    · simp [setNodePage]
    · rw [hnodes b hb]
  have hnext : ∀ b, (setNodePage s.media.nodes n none b).next = (s.media.nodes b).next := by
    intro b
    rcases eq_or_ne b n with rfl | hb
    · simp [setNodePage]
    · rw [hnodes b hb]
  have howned : Owned c (s.goto t { s.media with nodes := setNodePage s.media.nodes n none }
      (.getFree y.q n p)) v pg :=
    ho.local (fun a => (⟨rfl, rfl⟩ : (s.media.pages a).next = _ ∧ _)) hnext
      (fun b hb => hnodes b (by simpa [hheld] using hb)) (by simp [hpc, Pc.heldNode])
      (by simp [hpc, Pc.heldPage, hpage]) (by simp [Pc.queue, hy])
  have hresolved := hc.resolve (x := y) (k := k) hpending
  refine ⟨p, hpage, v, pg, howned.history, ?_⟩
  refine hresolved.goto (t := t) (fun _ => rfl) (fun q b hb msg hs => hs.congr (hlength b) fun _ => rfl)
    (fun t' ht b hb => ⟨?_, fun msg hs => hs.congr (hlength b) fun _ => rfl⟩) ?_ trivial
  · have hbn : b ≠ n := fun hbn => ho.held_unique (t := t) (n := n) (by simp [hheld]) ht (hbn ▸ hb)
    simp only [nodePage, State.goto, State.resolve, hnodes b hbn]
  · intro x' n' k' hpc' hpend
    obtain ⟨rfl, rfl, rfl⟩ : y = x' ∧ n = n' ∧ k = k' := by
      have : Pc.getRead y n k = Pc.getRead x' n' k' := hpc.symm.trans hpc'
      simpa using this
    simp only [State.resolve, Function.update_self, List.getElem?_set] at hpend
    split at hpend
    · split at hpend
      · exact hpending (Option.some.inj hpend)
      · cases hpend
    · next hkk => exact hkk trivial

-- ---------------------------------------------------------------------------
-- Runs
-- ---------------------------------------------------------------------------

theorem putNode_keeps (ho : Owned c s v pg) (hc : Content s v pg) (hpc : s.pc t = .putNode x)
    (hs : nextSection c s t w b (.putNode x) = some s') : Keeps c t s v pg s' := by
  have hx : x.q < c.queues := ho.queue t x.q (by rw [hpc]; rfl)
  simp only [nextSection] at hs
  rcases pplGet_spec ho.lists hx ho.separate with ⟨hget, -⟩ | ⟨id, a, xs, m', hid, hv, hget, hl, hf⟩
  · simp only [hget] at hs
    split at hs
    · obtain rfl := Option.some.inj hs
      exact keeps_stay ho hc hpc ho.lists (.refl _) rfl rfl (.inl rfl) rfl trivial
    · obtain rfl := Option.some.inj hs
      exact keeps_cond ho hc hpc _ _ rfl rfl (.inr rfl) rfl trivial
  · simp only [hget] at hs
    obtain rfl := Option.some.inj hs
    have hpool : id.isPool ∧ c.HasList id := by
      rcases hid with rfl | rfl
      · exact ⟨rfl, trivial⟩
      · exact ⟨rfl, hx⟩
    exact keeps_takePooled ho hc hpc hpool.1 hpool.2 hv hl hf rfl rfl rfl rfl

theorem putNodeWait_keeps {e : Bool} (ho : Owned c s v pg) (hc : Content s v pg)
    (hpc : s.pc t = .putNodeWait x e)
    (hs : nextSection c s t w b (.putNodeWait x e) = some s') : Keeps c t s v pg s' := by
  have hx : x.q < c.queues := ho.queue t x.q (by rw [hpc]; rfl)
  simp only [nextSection] at hs
  split at hs
  · obtain rfl := Option.some.inj hs
    exact keeps_cond ho hc hpc _ _ rfl rfl (.inl rfl) rfl trivial
  · cases hv : v (.ppl x.q) with
    | nil =>
      simp only [getNode_nil ho.lists (show c.HasList (.ppl x.q) from hx) hv] at hs
      obtain rfl := Option.some.inj hs
      exact keeps_cond ho hc hpc _ _ rfl rfl (.inr rfl) rfl trivial
    | cons a xs =>
      obtain ⟨m', hget, hl, hf⟩ := getNode_cons ho.lists (show c.HasList (.ppl x.q) from hx)
        ho.separate hv
      simp only [hget] at hs
      obtain rfl := Option.some.inj hs
      exact keeps_takePooled ho hc hpc rfl (show c.HasList (.ppl x.q) from hx) hv hl hf rfl rfl rfl rfl

theorem putQueue_keeps (ho : Owned c s v pg) (hc : Content s v pg) (hpc : s.pc t = .putQueue x n p)
    (hs : nextSection c s t w b (.putQueue x n p) = some s') :
    Keeps c t s v pg s' ∨ Inv c s' ∧ s' = s.enqueue c t x n w := by
  have hready := hc.ready t
  rw [hpc] at hready
  simp only [nextSection] at hs
  split at hs
  · split at hs
    · obtain rfl := Option.some.inj hs
      exact .inl (keeps_stay ho hc hpc ho.lists (.refl _) rfl rfl (.inr rfl) rfl trivial)
    · obtain rfl := Option.some.inj hs
      exact .inl (keeps_cond ho hc hpc _ _ rfl rfl (.inr rfl) rfl hready)
  · next hfull =>
    obtain rfl := Option.some.inj hs
    exact .inr ⟨inv_enqueue ho hc hpc rfl rfl rfl hready hfull rfl, rfl⟩

theorem putQueueWait_keeps {e : Bool} (ho : Owned c s v pg) (hc : Content s v pg)
    (hpc : s.pc t = .putQueueWait x n p e)
    (hs : nextSection c s t w b (.putQueueWait x n p e) = some s') :
    Keeps c t s v pg s' ∨ Inv c s' ∧ s' = s.enqueue c t x n w := by
  have hready := hc.ready t
  rw [hpc] at hready
  simp only [nextSection] at hs
  split at hs
  · obtain rfl := Option.some.inj hs
    exact .inl (keeps_cond ho hc hpc _ _ rfl rfl (.inr rfl) rfl trivial)
  split at hs
  · obtain rfl := Option.some.inj hs
    exact .inl (keeps_cond ho hc hpc _ _ rfl rfl (.inr rfl) rfl hready)
  · next hfull =>
    obtain rfl := Option.some.inj hs
    exact .inr ⟨inv_enqueue ho hc hpc rfl rfl rfl hready hfull rfl, rfl⟩

theorem getQueue_inv (ho : Owned c s v pg) (hc : Content s v pg) (hpc : s.pc t = .getQueue y)
    (hs : nextSection c s t w b (.getQueue y) = some s') : Inv c s' := by
  simp only [nextSection] at hs
  rcases inv_doorGet (w := w) ho hc hpc rfl rfl rfl rfl with hget | ⟨a, m', hget, hinv⟩
  · simp only [hget] at hs
    split at hs
    · obtain rfl := Option.some.inj hs
      exact Keeps.inv (keeps_stay ho hc hpc ho.lists (.refl _) rfl rfl (.inl rfl) rfl trivial)
    · obtain rfl := Option.some.inj hs
      exact Keeps.inv (keeps_cond ho hc hpc _ _ rfl rfl (.inr rfl) rfl trivial)
  · simp only [hget] at hs
    exact Option.some.inj hs ▸ hinv

theorem getQueueWait_inv {e : Bool} (ho : Owned c s v pg) (hc : Content s v pg)
    (hpc : s.pc t = .getQueueWait y e)
    (hs : nextSection c s t w b (.getQueueWait y e) = some s') : Inv c s' := by
  simp only [nextSection] at hs
  split at hs
  · obtain rfl := Option.some.inj hs
    exact Keeps.inv (keeps_cond ho hc hpc _ _ rfl rfl (.inl rfl) rfl trivial)
  rcases inv_doorGet (w := w) ho hc hpc rfl rfl rfl rfl with hget | ⟨a, m', hget, hinv⟩
  · simp only [hget] at hs
    obtain rfl := Option.some.inj hs
    exact Keeps.inv (keeps_cond ho hc hpc _ _ rfl rfl (.inr rfl) rfl trivial)
  · simp only [hget] at hs
    exact Option.some.inj hs ▸ hinv

def Pc.isPut : Pc → Bool
  | .putNode _ | .putNodeWait _ _ | .putAlloc _ _ | .putWrite _ _ _ | .putQueue _ _ _
  | .putQueueWait _ _ _ _ | .unwindNode _ _ _ | .unwindPage _ => true
  | _ => false

/-- A section of a put puts its node on the queue, or passes nothing through one. -/
theorem putSection_keeps (ho : Owned c s v pg) (hc : Content s v pg) (hput : (s.pc t).isPut)
    (hs : nextSection c s t w b (s.pc t) = some s') :
    Keeps c t s v pg s' ∨ ∃ x n, x.q < c.queues ∧ Inv c s' ∧ s' = s.enqueue c t x n w := by
  cases hpc : s.pc t <;> rw [hpc] at hs hput <;> try cases hput
  case putNode => exact .inl (putNode_keeps ho hc hpc hs)
  case putNodeWait => exact .inl (putNodeWait_keeps ho hc hpc hs)
  case putAlloc x n =>
    simp only [nextSection] at hs
    rcases keeps_allocate ho hc hpc with ⟨m', hget, hk⟩ | ⟨p, m', hget, hk⟩
    all_goals
      simp only [hget] at hs
      exact .inl (Option.some.inj hs ▸ hk)
  case putWrite x n p =>
    simp only [nextSection] at hs
    obtain ⟨hshort, hfull⟩ := keeps_write ho hc hpc
    split at hs
    · next hlen => exact .inl (Option.some.inj hs ▸ hfull hlen)
    · exact .inl (Option.some.inj hs ▸ hshort)
  case putQueue x n p =>
    exact (putQueue_keeps ho hc hpc hs).imp id fun h => ⟨x, n, ho.queue t x.q (by rw [hpc]; rfl), h⟩
  case putQueueWait x n p e =>
    exact (putQueueWait_keeps ho hc hpc hs).imp id fun h => ⟨x, n, ho.queue t x.q (by rw [hpc]; rfl), h⟩
  case unwindNode q n p =>
    obtain rfl := Option.some.inj hs
    cases p <;>
      exact .inl (keeps_pplPut ho hc hpc rfl rfl rfl (fun _ => rfl) rfl rfl fun _ _ => trivial)
  case unwindPage p =>
    obtain rfl := Option.some.inj hs
    exact .inl (keeps_freeChain ho hc hpc rfl rfl (fun _ => rfl) (.inl rfl) rfl fun _ _ => trivial)

/-- Every section keeps the invariant. -/
theorem nextSection_inv (hi : Inv c s) (hs : nextSection c s t w b (s.pc t) = some s') :
    Inv c s' := by
  obtain ⟨v, pg, ho, hc⟩ := hi
  by_cases hput : (s.pc t).isPut
  · rcases putSection_keeps ho hc hput hs with hk | ⟨x, n, -, hinv, -⟩
    · exact hk.inv
    · exact hinv
  cases hpc : s.pc t <;> rw [hpc] at hs hput <;> try exact (hput rfl).elim
  case idle => cases hs
  case getQueue => exact getQueue_inv ho hc hpc hs
  case getQueueWait => exact getQueueWait_inv ho hc hpc hs
  case getRead y n k =>
    obtain ⟨p, hpage, hinv⟩ := inv_read (b := b) ho hc hpc
    simp only [nextSection, hpage] at hs
    exact Option.some.inj hs ▸ hinv
  case getFree q n p =>
    obtain rfl := Option.some.inj hs
    exact Keeps.inv (keeps_freeChain ho hc hpc rfl rfl (fun _ => rfl) (.inr rfl) rfl fun _ _ => trivial)
  case getPut q n =>
    obtain rfl := Option.some.inj hs
    exact Keeps.inv (keeps_pplPut ho hc hpc rfl rfl rfl (fun _ => rfl) rfl rfl fun _ _ => trivial)

theorem call_keeps {z : Call} (ho : Owned c s v pg) (hc : Content s v pg) (hidle : (s.pc t).isIdle)
    (hz : z.queue < c.queues) : Keeps c t s v pg (s.goto t s.media z.start) := by
  have hpc : s.pc t = .idle := by
    cases hpc : s.pc t <;> simp_all [Pc.isIdle]
  have hq : ∀ q, z.start.queue = some q → q < c.queues := by
    intro q hq
    have : z.start.queue = some z.queue := by cases z <;> rfl
    rw [this] at hq
    exact Option.some.inj hq ▸ hz
  refine ⟨v, pg, ho.quiet ho.lists (.refl _) ?_ ?_ hq,
    hc.quiet (fun _ => rfl) (.refl _) (not_read hpc rfl) ?_, .goto (fun _ => rfl) fun _ _ _ => rfl⟩
  · cases z <;> rw [hpc] <;> rfl
  · cases z <;> rw [hpc] <;> rfl
  · cases z <;> trivial

theorem wake_keeps {k : CondId} (ho : Owned c s v pg) (hc : Content s v pg)
    (hw : (s.pc t).wake b = some p') (z : CSQCond) :
    Keeps c t s v pg (s.goto t (s.media.setCond k z) p') := by
  have hready := hc.ready t
  cases hpc : s.pc t <;> rw [hpc] at hw hready <;> simp only [Pc.wake] at hw <;> try cases hw
  all_goals
    split at hw
    · obtain rfl := Option.some.inj hw
      exact keeps_cond ho hc hpc k z rfl rfl (.inr rfl) rfl hready
    · cases hw

theorem step_inv {a : Action} (hi : Inv c s) (hs : step c s a = some s') : Inv c s' := by
  cases a with
  | call t z =>
    simp only [step] at hs
    split at hs
    · next hok =>
      obtain ⟨v, pg, ho, hc⟩ := hi
      exact Option.some.inj hs ▸ (call_keeps ho hc hok.1 hok.2).inv
    · cases hs
  | wake t expired =>
    simp only [step] at hs
    split at hs
    · next k p' hk hw =>
      split at hs
      · obtain ⟨v, pg, ho, hc⟩ := hi
        exact Option.some.inj hs ▸ (wake_keeps ho hc hw _).inv
      · cases hs
    · cases hs
  | run t w buffer =>
    simp only [step] at hs
    split at hs
    · cases hs
    · exact nextSection_inv hi hs

/-- A media that `CSQInfor::Init` set up, with no call on it. -/
theorem init_inv {m₀ m : Media} (hi : Media.infor c m₀ = some m) : Inv c (.init m) := by
  obtain ⟨⟨v, hpool⟩, hfree, hsize, hlim⟩ := infor_spec hi
  let pg : PagePlace → List Int := fun i =>
    if i = .free then (List.range c.pages).map c.pageAt else []
  refine ⟨v, pg, ⟨hpool.lists, hpool.listed, ⟨fun i => ?_, fun {i j a} ha hb => ?_, fun a => ?_⟩,
    hfree, fun q n hn => ?_, fun n _ => rfl, fun t => rfl, ⟨fun i => ?_, fun {i j a} ha hb => ?_,
    fun a => ?_⟩, hsize, hlim, fun q _ => ?_, fun t q hq => ?_⟩, ⟨fun q => ?_, fun q => le_rfl,
    fun q k hk => ?_, fun t => trivial⟩⟩
  · cases i with
    | list id => exact hpool.nodes.nodup id
    | call t => exact List.nodup_nil
  · cases i with
    | call t => simp [nodeCell, State.init, Pc.heldNode] at ha
    | list id =>
      cases j with
      | call t => simp [nodeCell, State.init, Pc.heldNode] at hb
      | list id' => exact congrArg NodePlace.list (hpool.nodes.disjoint ha hb)
  · rw [hpool.nodes.cover a]
    constructor
    · rintro ⟨id, ha⟩
      exact ⟨.list id, ha⟩
    · rintro ⟨i, ha⟩
      cases i with
      | list id => exact ⟨id, ha⟩
      | call t => simp [nodeCell, State.init, Pc.heldNode] at ha
  · simp [hpool.queue q] at hn
  · dsimp only [pg]
    split
    · exact pages_partition.nodup ()
    · exact List.nodup_nil
  · simp only [pg] at ha hb
    split at ha <;> split at hb <;> simp_all
  · rw [pages_partition.cover a]
    constructor
    · rintro ⟨-, ha⟩
      exact ⟨.free, by simpa [pg] using ha⟩
    · rintro ⟨i, ha⟩
      simp only [pg] at ha
      split at ha
      · exact ⟨(), ha⟩
      · cases ha
  · simp [hpool.queue q]
  · simp [State.init, Pc.queue] at hq
  · simp [hpool.queue q, State.init]
  · simp [State.init] at hk

theorem reach_inv {m₀ m : Media} (hi : Media.infor c m₀ = some m)
    (hr : Reach (step c) Free (.init m) s) : Inv c s :=
  hr.invariant (init_inv hi) fun _ _ _ hinv _ hs => step_inv hinv hs

end GalaLua.AMQ
