import GalaLua.AMQ.Ownership

/-!
# What the pages hold

`Content` relates the bytes in the media to the history of the queues: the
nodes of a queue hold, in order, the messages put and not yet taken, and a
call between two sections holds the message it is about to put or to deliver.
-/

namespace GalaLua.AMQ

open Library (Chain Partition)

/-- The node `n` with the pages `ps` holds `msg`, for readers of any limit. -/
def Stored (m : Media) (ps : List Int) (n : Int) (msg : List UInt8) : Prop :=
  (m.nodes n).length = msg.length ∧ ps ≠ [] ∧
    ∀ k, readPages m.pages ps (min msg.length k) = msg.take k

/-- What a reader gets of a message; `buffer` is whether its callback returns a buffer. -/
def Reader.fetches (buffer : Bool) (msg : List UInt8) : Reader → Fetch
  | .buffer maxLength => .delivered maxLength (msg.take maxLength)
  | .callback => if buffer then .delivered msg.length msg else .dropped

theorem Reader.fetches_ne_pending (r : Reader) (b : Bool) (msg : List UInt8) : r.fetches b msg ≠ .pending := by
  cases r with
  | buffer maxLength => exact nofun
  | callback => cases b <;> exact nofun

/-- What a call relies on between two sections; `ps` are its pages. -/
def Ready (s : State) (ps : List Int) : Pc → Prop
  | .putQueue x n p | .putQueueWait x n p _ =>
    nodePage s.media.nodes n = some p ∧ Stored s.media ps n x.buffer
  | .getRead x n k => ∃ msg, (s.puts x.q)[k]? = some msg ∧ Stored s.media ps n msg
  | _ => True

structure Content (s : State) (v : NodeList → List Int) (pg : PagePlace → List Int) : Prop where
  queued : ∀ q, List.Forall₂ (fun n msg => Stored s.media (pg (.node n)) n msg) (v (.queue q))
    ((s.puts q).drop (s.gets q).length)
  le : ∀ q, (s.gets q).length ≤ (s.puts q).length
  pending : ∀ q (k : Nat), (s.gets q)[k]? = some .pending → ∃ t x n, s.pc t = .getRead x n k ∧ x.q = q
  ready : ∀ t, Ready s (pg (.call t)) (s.pc t)

variable {c : Config} {s : State} {v v' : NodeList → List Int} {pg pg' : PagePlace → List Int}
variable {t : Nat} {m' : Media} {p' : Pc} {id : NodeList} {a n : Int} {xs ys ps : List Int}
variable {msg : List UInt8}

theorem forall₂_mem {β : Type*} {R : Int → β → Prop} {bs : List β} (h : List.Forall₂ R xs bs) :
    List.Forall₂ (fun n b => n ∈ xs ∧ R n b) xs bs := by
  rw [List.forall₂_and_left]
  exact ⟨fun _ hx => hx, h⟩

theorem getElem?_snoc {β : Type*} {l : List β} {x y : β} {k : Nat}
    (h : (l ++ [x])[k]? = some y) : l[k]? = some y ∨ k = l.length ∧ y = x := by
  grind

theorem Stored.congr {m : Media} (h : Stored m ps n msg)
    (hlen : (m'.nodes n).length = (m.nodes n).length)
    (hpages : ∀ k, readPages m'.pages ps k = readPages m.pages ps k) : Stored m' ps n msg :=
  ⟨hlen.trans h.1, h.2.1, fun k => (hpages _).trans (h.2.2 k)⟩

theorem Stored.frame {m : Media} (h : Stored m ps n msg) (hf : NodeFrame m m') :
    Stored m' ps n msg :=
  h.congr (hf.length n) fun k => by rw [hf.pages]

theorem Ready.mono {s' : State} {ps' : List Int} {p : Pc} (h : Ready s ps p)
    (hst : ∀ n ∈ p.heldNode, nodePage s'.media.nodes n = nodePage s.media.nodes n ∧
      ∀ msg, Stored s.media ps n msg → Stored s'.media ps' n msg)
    (hputs : ∀ q (k : Nat) msg, (s.puts q)[k]? = some msg → (s'.puts q)[k]? = some msg) :
    Ready s' ps' p := by
  cases p with
  | putQueue x n p =>
    obtain ⟨hpg, hs⟩ := hst n (by simp [Pc.heldNode])
    exact ⟨hpg.trans h.1, hs _ h.2⟩
  | putQueueWait x n p e =>
    obtain ⟨hpg, hs⟩ := hst n (by simp [Pc.heldNode])
    exact ⟨hpg.trans h.1, hs _ h.2⟩
  | getRead x n k =>
    obtain ⟨msg, hmsg, hs⟩ := h
    exact ⟨msg, hputs _ _ _ hmsg, (hst n (by simp [Pc.heldNode])).2 _ hs⟩
  | _ => trivial

/-- A step of thread `t` that leaves the messages of the others where they are. -/
theorem Content.goto (h : Content s v pg) (hv : ∀ q, v' (.queue q) = v (.queue q))
    (hqueued : ∀ q, ∀ n ∈ v (.queue q), ∀ msg, Stored s.media (pg (.node n)) n msg →
      Stored m' (pg' (.node n)) n msg)
    (hcalls : ∀ t' ≠ t, ∀ n ∈ (s.pc t').heldNode,
      nodePage m'.nodes n = nodePage s.media.nodes n ∧
        ∀ msg, Stored s.media (pg (.call t')) n msg → Stored m' (pg' (.call t')) n msg)
    (hdone : ∀ x n k, s.pc t = .getRead x n k → (s.gets x.q)[k]? ≠ some .pending)
    (hready : Ready (s.goto t m' p') (pg' (.call t)) p') : Content (s.goto t m' p') v' pg' := by
  refine ⟨fun q => ?_, h.le, fun q k hk => ?_, fun t' => ?_⟩
  · rw [hv]
    refine (forall₂_mem (h.queued q)).imp ?_
    rintro n msg ⟨hn, hs⟩
    exact hqueued q n hn msg hs
  · obtain ⟨t', x, n, hpc, hx⟩ := h.pending q k hk
    have ht : t' ≠ t := by
      rintro rfl
      exact hdone x n k hpc (by rw [hx]; exact hk)
    exact ⟨t', x, n, by simpa [State.goto, ht] using hpc, hx⟩
  · rcases eq_or_ne t' t with rfl | ht
    · simpa [State.goto] using hready
    · simp only [State.goto, Function.update_of_ne ht]
      exact (h.ready t').mono (hcalls t' ht) fun _ _ _ hm => hm

theorem Content.quiet (h : Content s v pg) (hv : ∀ q, v' (.queue q) = v (.queue q))
    (hf : NodeFrame s.media m') (hdone : ∀ x n k, s.pc t ≠ .getRead x n k)
    (hready : Ready (s.goto t m' p') (pg (.call t)) p') : Content (s.goto t m' p') v' pg :=
  h.goto hv (fun _ _ _ _ hs => hs.frame hf)
    (fun _ _ n _ => ⟨hf.nodePage n, fun _ hs => hs.frame hf⟩)
    (fun x n k hpc => (hdone x n k hpc).elim) hready

theorem Content.givePooled (h : Content s v pg) (ho : Owned c s v pg)
    (hv : ∀ q, v' (.queue q) = v (.queue q))
    (hf : NodeFrame { s.media with nodes := setNodePage s.media.nodes n none } m')
    (hp : n ∈ (s.pc t).heldNode) (hdone : ∀ x n k, s.pc t ≠ .getRead x n k)
    (hready : Ready (s.goto t m' p') (pg (.call t)) p') : Content (s.goto t m' p') v' pg := by
  have hst : ∀ i b msg, Stored s.media (pg i) b msg → Stored m' (pg i) b msg := by
    intro i b msg hs
    refine hs.congr ((hf.length b).trans ?_) fun k => by rw [hf.pages]
    simp only [setNodePage, Function.update_apply]
    split
    · next hb => rw [hb]
    · rfl
  refine h.goto hv (fun q b _ msg hs => hst _ b msg hs) (fun t' ht b hb => ⟨?_, fun msg => hst _ b msg⟩)
    (fun x n k hpc => (hdone x n k hpc).elim) hready
  have hbn : b ≠ n := fun hbn => ho.held_unique hp ht (hbn ▸ hb)
  rw [hf.nodePage]
  simp [nodePage, setNodePage, hbn]

theorem Content.relinkPages {l : CSQList} {pages : Int → CSQPage} (h : Content s v pg)
    (hrel : Relinked s.media.pages pages ys) (hdone : ∀ x n k, s.pc t ≠ .getRead x n k)
    (hpg : ∀ i, i ≠ .free → i ≠ .call t → pg' i = pg i)
    (hready : Ready (s.goto t { s.media with free := l, pages := pages } p') (pg' (.call t)) p') :
    Content (s.goto t { s.media with free := l, pages := pages } p') v pg' := by
  have hst : ∀ i, i ≠ .free → i ≠ .call t → ∀ b msg, Stored s.media (pg i) b msg →
      Stored { s.media with free := l, pages := pages } (pg' i) b msg := by
    intro i h₁ h₂ b msg hs
    rw [hpg i h₁ h₂]
    exact hs.congr rfl fun k => readPages_relinked hrel
  exact h.goto (fun _ => rfl) (fun q b _ msg hs => hst _ (by simp) (by simp) b msg hs)
    (fun t' ht b _ => ⟨rfl, fun msg => hst _ (by simp) (by simpa using ht) b msg⟩)
    (fun x n k hpc => (hdone x n k hpc).elim) hready

/-- A get delivers: the fetch of its node is resolved. -/
theorem Content.resolve {x : GetCall} {k : Nat} {f : Fetch} (h : Content s v pg) (hp : f ≠ .pending) :
    Content (s.resolve x.q k f) v pg := by
  have hlen : ∀ q, ((s.resolve x.q k f).gets q).length = (s.gets q).length := by
    intro q
    rcases eq_or_ne q x.q with rfl | hq
    · simp [State.resolve]
    · simp [State.resolve, hq]
  -- an entry is the new one, or the one that was there
  have hget : ∀ q j g, ((s.resolve x.q k f).gets q)[j]? = some g →
      (q = x.q ∧ j = k ∧ g = f) ∨ (s.gets q)[j]? = some g := by
    intro q j g hg
    rcases eq_or_ne q x.q with rfl | hq
    · simp only [State.resolve, Function.update_self, List.getElem?_set] at hg
      split at hg
      · next hkj =>
        split at hg
        · exact .inl ⟨rfl, hkj.symm, (Option.some.inj hg).symm⟩
        · cases hg
      · exact .inr hg
    · simp only [State.resolve, Function.update_of_ne hq] at hg
      exact .inr hg
  refine ⟨fun q => ?_, fun q => ?_, fun q j hg => ?_, h.ready⟩
  · rw [hlen]
    exact h.queued q
  · rw [hlen]
    exact h.le q
  · rcases hget q j _ hg with ⟨-, -, hpend⟩ | hg
    · exact absurd hpend.symm hp
    · exact h.pending q j hg

theorem Content.dequeue {x : GetCall} (h : Content s v pg) (ho : Owned c s v pg)
    (hv : v (.queue x.q) = a :: xs) (hf : NodeFrame s.media m')
    (hdone : ∀ x n k, s.pc t ≠ .getRead x n k) :
    Content (s.dequeue t x a m') (Function.update v (.queue x.q) xs) (pagesTaken pg t a) := by
  have hmem : a ∈ v (.queue x.q) := by rw [hv]; exact List.mem_cons_self
  have hax : a ∉ xs := by
    have := ho.nodes.nodup (.list (.queue x.q))
    simp only [nodeCell, hv] at this
    exact (List.nodup_cons.mp this).1
  -- the node taken holds the next message of the history
  have hall := h.queued x.q
  rw [hv] at hall
  obtain ⟨msg, rest, hst, hrest, hdrop⟩ := List.forall₂_cons_left_iff.mp hall
  have hlt : (s.gets x.q).length < (s.puts x.q).length := by
    have := congrArg List.length hdrop
    simp at this
    omega
  have hmsg : (s.puts x.q)[(s.gets x.q).length]? = some msg := by
    have := congrArg (·[0]?) hdrop
    simpa using this
  have hdrop' : (s.puts x.q).drop ((s.gets x.q).length + 1) = rest := by
    rw [← List.tail_drop, hdrop, List.tail_cons]
  refine ⟨fun q => ?_, fun q => ?_, fun q k hk => ?_, fun t' => ?_⟩
  · rcases eq_or_ne q x.q with rfl | hq
    · simp only [State.dequeue, State.goto, Function.update_self, List.length_append,
        List.length_singleton, hdrop']
      refine (forall₂_mem hrest).imp ?_
      rintro n msg ⟨hn, hs⟩
      have hne : n ≠ a := fun hna => hax (hna ▸ hn)
      simpa [pagesTaken, hne] using hs.frame hf
    · simp only [State.dequeue, State.goto, Function.update_of_ne hq]
      rw [Function.update_of_ne (by simpa using hq)]
      refine (forall₂_mem (h.queued q)).imp ?_
      rintro n msg ⟨hn, hs⟩
      have hne : n ≠ a := fun hna => hq (NodeList.queue.inj (ho.separate (hna ▸ hn) hmem))
      simpa [pagesTaken, hne] using hs.frame hf
  · rcases eq_or_ne q x.q with rfl | hq
    · simpa [State.dequeue, State.goto] using Nat.succ_le_of_lt hlt
    · simpa [State.dequeue, State.goto, hq] using h.le q
  · have hold : (s.gets q)[k]? = some .pending ∨ q = x.q ∧ k = (s.gets x.q).length := by
      rcases eq_or_ne q x.q with rfl | hq
      · simp only [State.dequeue, State.goto, Function.update_self] at hk
        rcases getElem?_snoc hk with hk | ⟨hk, -⟩
        · exact .inl hk
        · exact .inr ⟨rfl, hk⟩
      · simp only [State.dequeue, State.goto, Function.update_of_ne hq] at hk
        exact .inl hk
    rcases hold with hk | ⟨rfl, rfl⟩
    · obtain ⟨t', x', n, hpc, hx'⟩ := h.pending q k hk
      have ht : t' ≠ t := by
        rintro rfl
        exact hdone x' n k hpc
      exact ⟨t', x', n, by simpa [State.dequeue, State.goto, ht] using hpc, hx'⟩
    · exact ⟨t, x, a, by simp [State.dequeue, State.goto], rfl⟩
  · rcases eq_or_ne t' t with rfl | ht
    · simp only [State.dequeue, State.goto, Function.update_self, Ready, pagesTaken]
      exact ⟨msg, hmsg, hst.frame hf⟩
    · simp only [State.dequeue, State.goto, Function.update_of_ne ht]
      have hpg : pagesTaken pg t a (.call t') = pg (.call t') := by simp [pagesTaken, ht]
      rw [hpg]
      exact (h.ready t').mono (fun n _ => ⟨hf.nodePage n, fun _ hs => hs.frame hf⟩)
        fun _ _ _ hm => hm

theorem Content.enqueue {x : PutCall} {w : Nat} (h : Content s v pg) (ho : Owned c s v pg)
    (hf : NodeFrame s.media (s.media.doorPut c x.q n w)) (hp : (s.pc t).heldNode = [n])
    (hst : Stored s.media (pg (.call t)) n x.buffer) (hdone : ∀ x n k, s.pc t ≠ .getRead x n k) :
    Content (s.enqueue c t x n w) (Function.update v (.queue x.q) (v (.queue x.q) ++ [n]))
      (pagesQueued pg t n) := by
  have hn : n ∈ (s.pc t).heldNode := by simp [hp]
  have hputs : ∀ q, ((s.enqueue c t x n w).puts q) =
      s.puts q ++ if q = x.q then [x.buffer] else [] := by
    intro q
    rcases eq_or_ne q x.q with rfl | hq
    · simp [State.enqueue]
    · simp [State.enqueue, hq, State.goto]
  have hmono : ∀ q (k : Nat) msg, (s.puts q)[k]? = some msg →
      ((s.enqueue c t x n w).puts q)[k]? = some msg := by
    intro q k msg hm
    rw [hputs, List.getElem?_append_left (List.getElem?_eq_some_iff.mp hm).1]
    exact hm
  -- the nodes that were queued before keep their messages
  have hold : ∀ q, List.Forall₂ (fun n' msg => Stored (s.media.doorPut c x.q n w)
      (pagesQueued pg t n (.node n')) n' msg) (v (.queue q)) ((s.puts q).drop (s.gets q).length) := by
    intro q
    refine (forall₂_mem (h.queued q)).imp ?_
    rintro b msg ⟨hb, hs⟩
    have hne : b ≠ n := fun hbn => ho.held_notMem hn (.queue q) (hbn ▸ hb)
    simpa [pagesQueued, hne] using hs.frame hf
  refine ⟨fun q => ?_, fun q => ?_, fun q k hk => ?_, fun t' => ?_⟩
  · rw [hputs]
    rcases eq_or_ne q x.q with rfl | hq
    · have hgets : (s.enqueue c t x n w).gets = s.gets := rfl
      rw [Function.update_self, if_pos rfl, hgets, List.drop_append_of_le_length (h.le x.q)]
      refine List.rel_append (hold x.q) (.cons ?_ .nil)
      simpa [pagesQueued] using hst.frame hf
    · rw [Function.update_of_ne (by simpa using hq), if_neg hq, List.append_nil]
      exact hold q
  · rw [hputs, List.length_append]
    exact le_trans (h.le q) (Nat.le_add_right _ _)
  · obtain ⟨t', x', n', hpc, hx'⟩ := h.pending q k hk
    have ht : t' ≠ t := by
      rintro rfl
      exact hdone x' n' k hpc
    exact ⟨t', x', n', by simpa [State.enqueue, State.goto, ht] using hpc, hx'⟩
  · rcases eq_or_ne t' t with rfl | ht
    · simp [State.enqueue, State.goto, Ready]
    · have hpc : (s.enqueue c t x n w).pc t' = s.pc t' := by simp [State.enqueue, State.goto, ht]
      have hpg : pagesQueued pg t n (.call t') = pg (.call t') := by simp [pagesQueued, ht]
      rw [hpc, hpg]
      exact (h.ready t').mono (fun n _ => ⟨hf.nodePage n, fun _ hs => hs.frame hf⟩) hmono

end GalaLua.AMQ
