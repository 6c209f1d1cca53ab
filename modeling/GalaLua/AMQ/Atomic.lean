import GalaLua.AMQ.Delivery

/-!
# A put that fails leaves no trace

`CSQSuite::Put` and `TimedPut` take a node and pages before they know whether
the queue has room. On every path that does not end in `_Queue.Put` the two
nursery guards give both back: `failed_put_atomic` compares the state before
the call with the state after it.
-/

namespace GalaLua.AMQ

open Library (Chain Partition Reach Free)

variable {c : Config} {s s₁ s' : State} {v v' : NodeList → List Int} {pg pg' : PagePlace → List Int}
variable {t w : Nat} {b : Bool} {a : Int}

def Call.isPut : Call → Bool
  | .put _ _ | .timedPut _ _ _ => true
  | _ => false

/-- The thread `t` goes on with the call it is in. -/
def Action.goesOn (t : Nat) : Action → Bool
  | .call _ _ => false
  | .wake t' _ | .run t' _ _ => t' = t

/-- The messages of a queue, read off the words of the media. -/
def Media.Holds (c : Config) (m : Media) (q : Nat) (msgs : List (List UInt8)) : Prop :=
  ∃ ns, (m.list (.queue q)).Repr (c.listAt (.queue q)) m.nodes ns ∧ ns.map (m.message c) = msgs

def FreePage (c : Config) (s : State) (a : Int) : Prop := PageAt c s a .free

/-- A node of the shared pool or of the private pool of a queue. -/
def FreeNode (c : Config) (s : State) (a : Int) : Prop :=
  ∃ id : NodeList, id.isPool ∧ NodeAt c s a (.list id)

-- ---------------------------------------------------------------------------
-- One section
-- ---------------------------------------------------------------------------

theorem putSection_pc (hput : (s.pc t).isPut) (hs : nextSection c s t w b (s.pc t) = some s') :
    (s'.pc t).isPut ∨ (s'.pc t).isIdle := by
  cases hpc : s.pc t <;> rw [hpc] at hs hput <;> try cases hput
  all_goals simp only [nextSection] at hs
  all_goals repeat' split at hs
  all_goals
    obtain rfl := Option.some.inj hs
    simp [State.goto, State.sleep, State.timeout, State.enqueue, Pc.isPut, Pc.isIdle]

theorem start_isPut {x : Call} (h : x.isPut) : x.start.isPut := by
  cases x <;> first | rfl | cases h

theorem wake_isPut {p p' : Pc} (hput : p.isPut) (hw : p.wake b = some p') : p'.isPut := by
  cases p <;> simp only [Pc.wake] at hw <;> try cases hw
  all_goals
    split at hw
    · exact Option.some.inj hw ▸ hput
    · cases hw

/-- The call has passed nothing through a queue so far, or it has put its
message and is over. -/
def Trying (c : Config) (t : Nat) (s : State) (v : NodeList → List Int) (pg : PagePlace → List Int)
    (s' : State) : Prop :=
  Keeps c t s v pg s' ∧ ((s'.pc t).isPut ∨ (s'.pc t).isIdle) ∨
    (s'.pc t).isIdle ∧ ∃ q, q < c.queues ∧ s'.puts q ≠ s.puts q

theorem not_goesOn_idle {x : Action} (hidle : (s.pc t).isIdle) (ha : x.goesOn t) :
    step c s x = none := by
  have hpc : s.pc t = .idle := by
    cases hpc : s.pc t <;> simp_all [Pc.isIdle]
  cases x with
  | call t' z => cases ha
  | wake t' e =>
    obtain rfl : t' = t := by simpa [Action.goesOn] using ha
    simp [step, hpc, Pc.cond]
  | run t' w b =>
    obtain rfl : t' = t := by simpa [Action.goesOn] using ha
    simp [step, hpc, nextSection]

theorem enqueue_puts_ne {x : PutCall} {n : Int} : (s.enqueue c t x n w).puts x.q ≠ s.puts x.q := by
  simp [State.enqueue]

theorem Keeps.trans {s₂ : State} (h : Keeps c t s v pg s')
    (h' : ∀ v' pg', Owned c s' v' pg' → Content s' v' pg' → Keeps c t s' v' pg' s₂) :
    Keeps c t s v pg s₂ := by
  obtain ⟨v', pg', ho, hc, hb⟩ := h
  obtain ⟨v₂, pg₂, ho₂, hc₂, hb₂⟩ := h' v' pg' ho hc
  exact ⟨v₂, pg₂, ho₂, hc₂, hb.trans hb₂⟩

theorem step_trying {x : Action} {s₂ : State} (h : Trying c t s v pg s') (ha : x.goesOn t)
    (hs : step c s' x = some s₂) : Trying c t s v pg s₂ := by
  rcases h with ⟨hk, hput | hidle⟩ | ⟨hidle, -⟩
  · cases x with
    | call t' z => cases ha
    | wake t' e =>
      obtain rfl : t' = t := by simpa [Action.goesOn] using ha
      simp only [step] at hs
      split at hs
      · next k p' hk' hw =>
        split at hs
        · obtain rfl := Option.some.inj hs
          refine .inl ⟨hk.trans fun v' pg' ho hc => wake_keeps ho hc hw _, .inl ?_⟩
          simpa [State.goto] using wake_isPut hput hw
        · cases hs
      · cases hs
    | run t' w b =>
      obtain rfl : t' = t := by simpa [Action.goesOn] using ha
      simp only [step] at hs
      split at hs
      · cases hs
      obtain ⟨v', pg', ho, hc, hb⟩ := hk
      rcases putSection_keeps ho hc hput hs with ⟨v₂, pg₂, ho₂, hc₂, hb₂⟩ | ⟨x, n, hq, -, rfl⟩
      · exact .inl ⟨⟨v₂, pg₂, ho₂, hc₂, hb.trans hb₂⟩, putSection_pc hput hs⟩
      · refine .inr ⟨by simp [State.enqueue, State.goto, Pc.isIdle], x.q, hq, ?_⟩
        rw [← hb.puts]
        exact enqueue_puts_ne
  · rw [not_goesOn_idle hidle ha] at hs
    cases hs
  · rw [not_goesOn_idle hidle ha] at hs
    cases hs

-- ---------------------------------------------------------------------------
-- The whole call
-- ---------------------------------------------------------------------------

theorem heldNode_idle {p : Pc} (h : p.isIdle) : p.heldNode = [] := by
  cases p <;> first | rfl | cases h

theorem Owned.call_idle (ho : Owned c s v pg) (h : (s.pc t).isIdle) : pg (.call t) = [] := by
  have hnone : (s.pc t).heldPage s.media.nodes = none := by
    cases hpc : s.pc t <;> rw [hpc] at h <;> first | rfl | cases h
  have hchain := ho.call t
  rw [hnone] at hchain
  exact hchain.unique rfl

theorem Owned.freePage_iff (ho : Owned c s v pg) (ho' : Owned c s' v' pg')
    (hb : Beside t s s' v v' pg pg') (hidle : (s.pc t).isIdle) (hidle' : (s'.pc t).isIdle) :
    FreePage c s' a ↔ FreePage c s a := by
  have hrest : ∀ i, ¬i = .free → pg' i = pg i := by
    intro i hi
    by_cases ht : i = .call t
    · rw [ht, ho'.call_idle hidle', ho.call_idle hidle]
    · exact hb.pages i hi ht
  have hmem := ho.pages.mem_within ho'.pages hrest a
  rw [FreePage, FreePage, ho'.pageAt_iff, ho.pageAt_iff]
  simpa using hmem

def NodePlace.isPool : NodePlace → Prop
  | .list id => id.isPool
  | .call _ => False

theorem Owned.freeNode_cell (ho : Owned c s v pg) :
    FreeNode c s a ↔ ∃ i : NodePlace, i.isPool ∧ a ∈ nodeCell v s.pc i := by
  constructor
  · rintro ⟨id, hpool, ha⟩
    exact ⟨.list id, hpool, (ho.nodeAt_iff _).mp ha⟩
  · rintro ⟨i, hpool, ha⟩
    cases i with
    | list id => exact ⟨id, hpool, (ho.nodeAt_iff _).mpr ha⟩
    | call t' => exact hpool.elim

theorem Owned.freeNode_iff (ho : Owned c s v pg) (ho' : Owned c s' v' pg')
    (hb : Beside t s s' v v' pg pg') (hidle : (s.pc t).isIdle) (hidle' : (s'.pc t).isIdle) :
    FreeNode c s' a ↔ FreeNode c s a := by
  have hrest : ∀ i : NodePlace, ¬i.isPool → nodeCell v' s'.pc i = nodeCell v s.pc i := by
    intro i hi
    cases i with
    | list id =>
      cases id with
      | pooler => exact (hi rfl).elim
      | ppl q => exact (hi rfl).elim
      | queue q => exact hb.queue q
    | call t' =>
      rcases eq_or_ne t' t with rfl | ht
      · simp only [nodeCell, heldNode_idle hidle, heldNode_idle hidle']
      · simp only [nodeCell, hb.pc t' ht]
  rw [ho'.freeNode_cell, ho.freeNode_cell]
  exact ho.nodes.mem_within ho'.nodes hrest a

/-- From any reachable state, with any other calls under way: a put, timed or
not, that returns without its message being queued leaves every queue with the
messages it had, in their order, and the free pages and the free nodes as sets
as they were. -/
theorem failed_put_atomic {m₀ m : Media} {x : Call} (hi : Media.infor c m₀ = some m)
    (hr : Reach (step c) Free (.init m) s) (hx : x.isPut) (hcall : step c s (.call t x) = some s₁)
    (hrun : Reach (step c) (fun _ y => y.goesOn t) s₁ s') (hdone : (s'.pc t).isIdle)
    (hfail : ∀ q, q < c.queues → s'.puts q = s.puts q) :
    (∀ q, q < c.queues → ∃ msgs, s.media.Holds c q msgs ∧ s'.media.Holds c q msgs) ∧
      (∀ a, FreePage c s' a ↔ FreePage c s a) ∧ ∀ a, FreeNode c s' a ↔ FreeNode c s a := by
  obtain ⟨v, pg, ho, hc⟩ := reach_inv hi hr
  simp only [step] at hcall
  split at hcall
  · next hok =>
    obtain rfl := Option.some.inj hcall
    have hstart : Trying c t s v pg (s.goto t s.media x.start) := by
      refine .inl ⟨call_keeps ho hc hok.1 hok.2, .inl ?_⟩
      simpa [State.goto] using start_isPut hx
    have hend : Trying c t s v pg s' :=
      hrun.invariant hstart fun _ _ _ h ha hs => step_trying h ha hs
    rcases hend with ⟨⟨v', pg', ho', hc', hb⟩, -⟩ | ⟨-, q, hq, hne⟩
    · refine ⟨fun q hq => ⟨_, ⟨_, ho.lists (.queue q) hq, rfl⟩, _, ho'.lists (.queue q) hq, ?_⟩,
        fun a => ho.freePage_iff ho' hb hok.1 hdone, fun a => ho.freeNode_iff ho' hb hok.1 hdone⟩
      rw [hc'.message_eq ho', hc.message_eq ho, hb.puts, hb.gets]
    · exact (hne (hfail q hq)).elim
  · cases hcall

/-- The queue has its one message, and a timed put that does not wait gives
its node and its page back. -/
theorem failed_put_full_queue : ∃ m s s₁ s', Media.infor tiny raw = some m ∧
    Reach (step tiny) Free (.init m) s ∧ step tiny s (.call 1 (.timedPut 0 [4] 0)) = some s₁ ∧
    Reach (step tiny) (fun _ y => y.goesOn 1) s₁ s' ∧
    (∃ msgs, s.media.Holds tiny 0 msgs ∧ s'.media.Holds tiny 0 msgs) ∧
    (∀ a, FreePage tiny s' a ↔ FreePage tiny s a) ∧ ∀ a, FreeNode tiny s' a ↔ FreeNode tiny s a := by
  obtain ⟨m, s, hm, hs, hp⟩ := reach_tiny
    [.call 0 (.put 0 [1, 2, 3]), .run 0 0 true, .run 0 0 true, .run 0 0 true, .run 0 0 true]
    (fun s => (((step tiny s (.call 1 (.timedPut 0 [4] 0))).bind fun s₁ =>
      Library.runIf (step tiny) (fun _ y => y.goesOn 1) s₁
        [.run 1 0 true, .run 1 0 true, .run 1 0 true, .run 1 0 true, .run 1 0 true, .run 1 0 true]).any
      fun s' => (s'.pc 1).isIdle && s'.puts 0 == s.puts 0)) (by decide +kernel)
  obtain ⟨s', hs', hp⟩ := (Option.any_eq_true ..).mp hp
  obtain ⟨s₁, hcall, hs'⟩ := Option.bind_eq_some_iff.mp hs'
  simp only [Bool.and_eq_true, beq_iff_eq] at hp
  have hrun := Reach.init.runIf hs'
  obtain ⟨hq, hpages, hnodes⟩ := failed_put_atomic hm hs rfl hcall hrun hp.1 (by
    intro q hq
    obtain rfl : q = 0 := by simpa [tiny] using hq
    exact hp.2)
  exact ⟨m, s, s₁, s', hm, hs, hcall, hrun, hq 0 (by decide), hpages, hnodes⟩

end GalaLua.AMQ
