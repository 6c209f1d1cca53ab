import GalaLua.AMQ.Runs
import GalaLua.Library.Prefixes

/-!
# Who reads which message

`gets` records what became of each message that was taken off a queue. `History`
relates this record to the calls of the run: what is resolved was resolved by a get on
the queue, and is what its buffer or its callback makes of the message.
-/

namespace GalaLua.AMQ

open Library (Reach Free)
open Library.Prefixes (getElem?_of_isPrefix)

variable {c : Config} {m : Media} {s s' : State} {as : List Action} {a : Action}
variable {t q k w : Nat} {b : Bool} {x : GetCall} {n : Int} {f : Fetch} {r : Reader} {msg : List UInt8}

-- ---------------------------------------------------------------------------
-- The calls of a run
-- ---------------------------------------------------------------------------

def Action.thread : Action → Nat
  | .call t _ | .wake t _ | .run t _ _ => t

def Action.callOf (t : Nat) : Action → Option Call
  | .call t' z => if t' = t then some z else none
  | .wake _ _ | .run _ _ _ => none

theorem callOf_of_ne (h : t ≠ a.thread) : a.callOf t = none := by
  cases a with
  | call t' z => exact if_neg (Ne.symm h)
  | wake t' e => rfl
  | run t' w b => rfl

def lastCall (t : Nat) (as : List Action) : Option Call := as.reverse.findSome? (Action.callOf t)

theorem lastCall_concat (t : Nat) (as : List Action) (a : Action) :
    lastCall t (as ++ [a]) = (a.callOf t).or (lastCall t as) := by
  rw [lastCall, List.reverse_concat, List.findSome?_cons]
  cases a.callOf t <;> rfl

def Call.reader : Call → Option Reader
  | .get _ maxLength | .timedGet _ maxLength _ => some (.buffer maxLength)
  | .getCB _ | .timedGetCB _ _ => some .callback
  | .put _ _ | .timedPut _ _ _ => none

/-- The get that a thread is in, until its message is read. -/
def Pc.get : Pc → Option GetCall
  | .getQueue x | .getQueueWait x _ | .getRead x _ _ => some x
  | _ => none

theorem get_start {z : Call} (h : z.start.get = some x) : z.queue = x.q ∧ z.reader = some x.reader := by
  cases z <;> cases h <;> exact ⟨rfl, rfl⟩

theorem get_wake {p p' : Pc} {e : Bool} (h : p.wake e = some p') : p'.get = p.get ∧ p.isRead = false ∧ p'.isRead = false := by
  cases p <;> simp only [Pc.wake] at h <;> try cases h
  all_goals
    split at h
    · cases h
      exact ⟨rfl, rfl, rfl⟩
    · cases h

/-- In a run, a get on `q` with the reader `r` reads the `k`-th message that was taken off
`q`; `b` is whether its callback returns a buffer. -/
def Reads (c : Config) (m : Media) (as : List Action) (q k : Nat) (r : Reader) (b : Bool) : Prop :=
  ∃ as₁ as₂ t w s x n z, as = as₁ ++ .run t w b :: as₂ ∧ Library.run (step c) (.init m) as₁ = some s ∧
    s.pc t = .getRead x n k ∧ lastCall t as₁ = some z ∧ z.queue = q ∧ z.reader = some r

theorem Reads.concat (h : Reads c m as q k r b) (a : Action) : Reads c m (as ++ [a]) q k r b := by
  obtain ⟨as₁, as₂, t, w, s, x, n, z, rfl, hrest⟩ := h
  exact ⟨as₁, as₂ ++ [a], t, w, s, x, n, z, by simp, hrest⟩

theorem reads_concat (h : Reads c m (as ++ [a]) q k r b) (hr : Library.run (step c) (.init m) as = some s) :
    Reads c m as q k r b ∨ ∃ t w x n z, a = .run t w b ∧ s.pc t = .getRead x n k ∧ lastCall t as = some z ∧
      z.queue = q ∧ z.reader = some r := by
  obtain ⟨as₁, as₂, t, w, s₁, x, n, z, heq, hr₁, hpc, hcall⟩ := h
  rcases List.eq_nil_or_concat' as₂ with rfl | ⟨as₂, a', rfl⟩
  · obtain ⟨rfl, hlast⟩ := List.append_inj' heq rfl
    cases hr.symm.trans hr₁
    exact .inr ⟨t, w, x, n, z, List.head_eq_of_cons_eq hlast, hpc, hcall⟩
  · rw [← List.cons_append, ← List.append_assoc] at heq
    obtain ⟨rfl, -⟩ := List.append_inj' heq rfl
    exact .inl ⟨as₁, as₂, t, w, s₁, x, n, z, rfl, hr₁, hpc, hcall⟩

-- ---------------------------------------------------------------------------
-- One step
-- ---------------------------------------------------------------------------

/-- What a step does to the gets. -/
inductive Effect (s s' : State) : Action → Prop
  | starts {t : Nat} {z : Call} (hpc : s'.pc t = z.start) (hgets : s'.gets = s.gets) : Effect s s' (.call t z)
  | passes {a : Action} (hcall : a.callOf a.thread = none) (hgets : s'.gets = s.gets)
    (hread : (s.pc a.thread).isRead = false) (hread' : (s'.pc a.thread).isRead = false)
    (hget : ∀ x, (s'.pc a.thread).get = some x → (s.pc a.thread).get = some x) : Effect s s' a
  | takes {t w : Nat} {b : Bool} {x : GetCall} {n : Int} (hget : (s.pc t).get = some x)
    (hread : (s.pc t).isRead = false) (hpc : s'.pc t = .getRead x n (s.gets x.q).length)
    (hgets : s'.gets = Function.update s.gets x.q (s.gets x.q ++ [.pending])) : Effect s s' (.run t w b)
  | reads {t w k : Nat} {b : Bool} {x : GetCall} {n : Int} {msg : List UInt8} (hpc : s.pc t = .getRead x n k)
    (hmsg : (s.puts x.q)[k]? = some msg) (hget : (s'.pc t).get = none)
    (hgets : s'.gets = Function.update s.gets x.q ((s.gets x.q).set k (x.reader.fetches b msg))) :
    Effect s s' (.run t w b)

theorem effect_nextSection (hi : Inv c s) (hs : nextSection c s t w b (s.pc t) = some s') :
    Effect s s' (.run t w b) := by
  obtain ⟨v, pg, ho, hc⟩ := hi
  cases hpc : s.pc t <;> rw [hpc] at hs
  case getRead x n k =>
    obtain ⟨p, msg, hpage, hmsg, hfetch⟩ := fetch_eq ho hc hpc
    simp only [nextSection, hpage, hfetch b] at hs
    cases hs
    refine .reads hpc hmsg ?_ rfl
    simp [State.resolve, State.goto, Pc.get]
  case getQueue x =>
    simp only [nextSection] at hs
    split at hs
    · cases hs
      exact .takes (by rw [hpc]; rfl) (by rw [hpc]; rfl) (Function.update_self ..) rfl
    · split at hs
      all_goals
        cases hs
        refine .passes rfl rfl ?_ ?_ ?_ <;> simp [Action.thread, hpc, State.goto, State.sleep, Pc.isRead, Pc.get]
  case getQueueWait x e =>
    simp only [nextSection] at hs
    split at hs
    · cases hs
      refine .passes rfl rfl ?_ ?_ ?_ <;> simp [Action.thread, hpc, State.goto, State.timeout, Pc.isRead, Pc.get]
    split at hs
    · cases hs
      exact .takes (by rw [hpc]; rfl) (by rw [hpc]; rfl) (Function.update_self ..) rfl
    · cases hs
      refine .passes rfl rfl ?_ ?_ ?_ <;> simp [Action.thread, hpc, State.goto, State.sleep, Pc.isRead, Pc.get]
  -- the sections of a put, and those behind the reading
  all_goals simp only [nextSection] at hs
  all_goals repeat' split at hs
  all_goals
    cases hs <;>
    refine .passes rfl rfl ?_ ?_ ?_ <;>
      simp [Action.thread, hpc, State.goto, State.sleep, State.timeout, State.enqueue, Pc.isRead, Pc.get]

theorem effect_step (hi : Inv c s) (hs : step c s a = some s') : Effect s s' a := by
  cases a with
  | call t z =>
    simp only [step] at hs
    split at hs
    · cases hs
      exact .starts (Function.update_self ..) rfl
    · cases hs
  | wake t e =>
    simp only [step] at hs
    split at hs
    · next kd p' hk hw =>
      split at hs
      · cases hs
        obtain ⟨hget, hread, hread'⟩ := get_wake hw
        have hpc : ((s.goto t (s.media.setCond kd ((s.media.cond kd).leave t)) p').pc t) = p' :=
          Function.update_self ..
        refine .passes rfl rfl hread ?_ fun x hx => ?_
        · exact (congrArg Pc.isRead hpc).trans hread'
        · exact hget ▸ (congrArg Pc.get hpc).symm.trans hx
      · cases hs
    · cases hs
  | run t w b =>
    simp only [step] at hs
    split at hs
    · cases hs
    · exact effect_nextSection hi hs

/-- A step moves one thread. -/
theorem pc_of_ne_thread (hs : step c s a = some s') (ht : t ≠ a.thread) : s'.pc t = s.pc t := by
  cases a with
  | call t' z =>
    simp only [step] at hs
    split at hs
    · exact Option.some.inj hs ▸ Function.update_of_ne ht _ _
    · cases hs
  | wake t' expired =>
    simp only [step] at hs
    split at hs
    · split at hs
      · exact Option.some.inj hs ▸ Function.update_of_ne ht _ _
      · cases hs
    · cases hs
  | run t' w buffer =>
    simp only [step] at hs
    split at hs
    · cases hs
    · cases hpc : s.pc t' <;> rw [hpc] at hs <;> simp only [nextSection] at hs
      all_goals repeat' split at hs
      all_goals first
        | exact Option.some.inj hs ▸ Function.update_of_ne ht _ _
        | cases hs

theorem puts_nextSection (hs : nextSection c s t w b (s.pc t) = some s') (q : Nat) : s.puts q <+: s'.puts q := by
  cases hpc : s.pc t <;> rw [hpc] at hs <;> simp only [nextSection] at hs
  all_goals repeat' split at hs
  all_goals
    cases hs <;>
    first
    | exact List.prefix_refl _
    | (simp only [State.enqueue, Function.update_apply]
       split
       · next hq => exact hq ▸ List.prefix_append _ _
       · exact List.prefix_refl _)

theorem puts_step (hs : step c s a = some s') (q : Nat) : s.puts q <+: s'.puts q := by
  cases a with
  | run t w b =>
    simp only [step] at hs
    split at hs
    · cases hs
    · exact puts_nextSection hs q
  | _ =>
    simp only [step] at hs
    repeat' split at hs
    all_goals
      cases hs
      try exact List.prefix_refl _

/-- What has become of a message stays, but for the one that is read. -/
theorem Effect.keeps (h : Effect s s' a) (hg : (s.gets q)[k]? = some f)
    (hno : ∀ t w b x n, a = .run t w b → s.pc t = .getRead x n k → x.q ≠ q) : (s'.gets q)[k]? = some f := by
  cases h with
  | starts hpc hgets => rwa [hgets]
  | passes hcall hgets => rwa [hgets]
  | @takes t w b x n hget hread hpc hgets =>
    rw [hgets, Function.update_apply]
    split
    · next hq =>
      subst hq
      rwa [List.getElem?_append_left (List.getElem?_eq_some_iff.mp hg).1]
    · exact hg
  | @reads t w k' b x n msg hpc hmsg hget hgets =>
    rw [hgets, Function.update_apply]
    split
    · next hq =>
      subst hq
      by_cases hk : k' = k
      · subst hk
        exact absurd rfl (hno t w b x n rfl hpc)
      · rwa [List.getElem?_set_ne hk]
    · exact hg

-- ---------------------------------------------------------------------------
-- Runs
-- ---------------------------------------------------------------------------

/-- What a run and its end have to do with each other. -/
structure History (c : Config) (m : Media) (as : List Action) (s : State) : Prop where
  calls : ∀ t x, (s.pc t).get = some x →
    ∃ z, lastCall t as = some z ∧ z.queue = x.q ∧ z.reader = some x.reader
  waiting : ∀ t x n k, s.pc t = .getRead x n k → (s.gets x.q)[k]? = some .pending
  alone : ∀ t x n t' x' n' k, s.pc t = .getRead x n k → s.pc t' = .getRead x' n' k → x.q = x'.q → t = t'
  resolved : ∀ q (k : Nat) f, (s.gets q)[k]? = some f →
    f = .pending ∨ ∃ r b msg, Reads c m as q k r b ∧ (s.puts q)[k]? = some msg ∧ f = r.fetches b msg
  read : ∀ q k r b, Reads c m as q k r b →
    ∃ msg, (s.puts q)[k]? = some msg ∧ (s.gets q)[k]? = some (r.fetches b msg)

theorem history_init : History c m [] (.init m) where
  calls t x h := by cases h
  waiting t x n k h := by cases h
  alone t x n t' x' n' k h := by cases h
  resolved q k f h := by simp [State.init] at h
  read q k r b := by
    rintro ⟨as₁, as₂, t, w, s, x, n, z, h, -⟩
    simp at h

namespace History

theorem calls_step (h : History c m as s) (he : Effect s s' a) (hpc : ∀ t ≠ a.thread, s'.pc t = s.pc t) (t : Nat)
    (x : GetCall) (hx : (s'.pc t).get = some x) :
    ∃ z, lastCall t (as ++ [a]) = some z ∧ z.queue = x.q ∧ z.reader = some x.reader := by
  rw [lastCall_concat]
  by_cases ht : t = a.thread
  · subst ht
    cases he with
    | @starts t z hpc' hgets =>
      rw [show (Action.call t z).thread = t from rfl, hpc'] at hx
      exact ⟨z, by simp [Action.callOf, Action.thread], get_start hx⟩
    | passes hcall hgets hread hread' hget =>
      rw [hcall]
      exact h.calls _ _ (hget x hx)
    | @takes t w b y n hget hread hpc' hgets =>
      rw [show (Action.run t w b).thread = t from rfl, hpc'] at hx
      cases hx
      exact h.calls t _ hget
    | @reads t w k b y n msg hpc' hmsg hget hgets =>
      cases hget.symm.trans hx
  · rw [callOf_of_ne ht]
    exact h.calls t x (hpc t ht ▸ hx)

/-- A thread about to read was so before, or has just taken its message. -/
theorem getRead_step (he : Effect s s' a) (hpc : ∀ t ≠ a.thread, s'.pc t = s.pc t) (hr : s'.pc t = .getRead x n k) :
    (t ≠ a.thread ∧ s.pc t = .getRead x n k) ∨
      (t = a.thread ∧ k = (s.gets x.q).length ∧ s'.gets = Function.update s.gets x.q (s.gets x.q ++ [.pending])) := by
  by_cases ht : t = a.thread
  · subst ht
    refine .inr ⟨rfl, ?_⟩
    cases he with
    | @starts t z hpc' hgets =>
      cases z <;> cases hpc'.symm.trans hr
    | passes hcall hgets hread hread' hget =>
      rw [hr] at hread'
      cases hread'
    | @takes t w b y n hget hread hpc' hgets =>
      cases hpc'.symm.trans hr
      exact ⟨rfl, hgets⟩
    | @reads t w k b y n msg hpc' hmsg hget hgets =>
      rw [show (Action.run t w b).thread = t from rfl] at hr
      rw [hr] at hget
      cases hget
  · exact .inl ⟨ht, hpc t ht ▸ hr⟩

theorem waiting_step (h : History c m as s) (he : Effect s s' a) (hpc : ∀ t ≠ a.thread, s'.pc t = s.pc t) (t : Nat)
    (x : GetCall) (n : Int) (k : Nat) (hr : s'.pc t = .getRead x n k) : (s'.gets x.q)[k]? = some .pending := by
  rcases getRead_step he hpc hr with ⟨ht, hr⟩ | ⟨rfl, rfl, hgets⟩
  · -- the message that is read is another one
    refine he.keeps (h.waiting t x n k hr) fun t' w b x' n' ha hr' hq => ht ?_
    rw [h.alone t x n t' x' n' k hr hr' hq.symm, ha]
    rfl
  · rw [hgets, Function.update_self, List.getElem?_concat_length]

theorem alone_step (h : History c m as s) (he : Effect s s' a) (hpc : ∀ t ≠ a.thread, s'.pc t = s.pc t) (t : Nat)
    (x : GetCall) (n : Int) (t' : Nat) (x' : GetCall) (n' : Int) (k : Nat) (hr : s'.pc t = .getRead x n k)
    (hr' : s'.pc t' = .getRead x' n' k) (hq : x.q = x'.q) : t = t' := by
  have hlt {t x n k} (hr : s.pc t = .getRead x n k) : k < (s.gets x.q).length :=
    (List.getElem?_eq_some_iff.mp (h.waiting t x n k hr)).1
  rcases getRead_step he hpc hr with ⟨-, hold⟩ | ⟨rfl, rfl, -⟩ <;>
    rcases getRead_step he hpc hr' with ⟨-, hold'⟩ | ⟨rfl, hlen, -⟩
  · exact h.alone t x n t' x' n' k hold hold' hq
  · have := hlt hold
    rw [hq] at this
    omega
  · have := hlt hold'
    rw [← hq] at this
    omega
  · rfl

theorem resolved_step (h : History c m as s) (hrun : Library.run (step c) (.init m) as = some s) (he : Effect s s' a)
    (hputs : ∀ q, s.puts q <+: s'.puts q) (q k : Nat) (f : Fetch) (hf : (s'.gets q)[k]? = some f) :
    f = .pending ∨ ∃ r b msg, Reads c m (as ++ [a]) q k r b ∧ (s'.puts q)[k]? = some msg ∧ f = r.fetches b msg := by
  have hold (hf : (s.gets q)[k]? = some f) : f = .pending ∨
      ∃ r b msg, Reads c m (as ++ [a]) q k r b ∧ (s'.puts q)[k]? = some msg ∧ f = r.fetches b msg := by
    refine (h.resolved q k f hf).imp id ?_
    rintro ⟨r, b, msg, hread, hmsg, rfl⟩
    exact ⟨r, b, msg, hread.concat a, getElem?_of_isPrefix (hputs q) hmsg, rfl⟩
  cases he with
  | starts hpc hgets => exact hold (hgets ▸ hf)
  | passes hcall hgets => exact hold (hgets ▸ hf)
  | @takes t w b x n hget hread hpc hgets =>
    rw [hgets, Function.update_apply] at hf
    split at hf
    · next hq =>
      subst hq
      rcases getElem?_snoc hf with hf | ⟨-, rfl⟩
      · exact hold hf
      · exact .inl rfl
    · exact hold hf
  | @reads t w k' b x n msg hpc hmsg hget hgets =>
    rw [hgets, Function.update_apply] at hf
    split at hf
    · next hq =>
      subst hq
      rw [List.getElem?_set] at hf
      split at hf
      · next hk =>
        subst hk
        split at hf
        · cases hf
          obtain ⟨z, hcall, hzq, hzr⟩ := h.calls t x (by rw [hpc]; rfl)
          refine .inr ⟨x.reader, b, msg, ?_, getElem?_of_isPrefix (hputs _) hmsg, rfl⟩
          exact ⟨as, [], t, w, s, x, n, z, rfl, hrun, hpc, hcall, hzq, hzr⟩
        · cases hf
      · exact hold hf
    · exact hold hf

theorem read_step (h : History c m as s) (hrun : Library.run (step c) (.init m) as = some s) (he : Effect s s' a)
    (hputs : ∀ q, s.puts q <+: s'.puts q) (q k : Nat) (r : Reader) (b : Bool) (hr : Reads c m (as ++ [a]) q k r b) :
    ∃ msg, (s'.puts q)[k]? = some msg ∧ (s'.gets q)[k]? = some (r.fetches b msg) := by
  rcases reads_concat hr hrun with hr | ⟨t, w, x, n, z, rfl, hpc, hcall, hzq, hzr⟩
  · obtain ⟨msg, hmsg, hget⟩ := h.read q k r b hr
    refine ⟨msg, getElem?_of_isPrefix (hputs q) hmsg, he.keeps hget fun t w b' x n ha hpc hq => ?_⟩
    -- what waits to be read is not resolved
    have hwait := h.waiting t x n k hpc
    rw [hq, hget, Option.some.injEq] at hwait
    exact r.fetches_ne_pending b msg hwait
  · obtain ⟨z', hcall', hzq', hzr'⟩ := h.calls t x (by rw [hpc]; rfl)
    cases hcall.symm.trans hcall'
    cases hzr.symm.trans hzr'
    obtain rfl : x.q = q := hzq'.symm.trans hzq
    cases he with
    | passes hcall hgets hread =>
      rw [show s.pc (Action.run t w b).thread = _ from hpc] at hread
      cases hread
    | takes hget hread =>
      rw [hpc] at hread
      cases hread
    | @reads t w k' b x' n' msg hpc' hmsg hget hgets =>
      cases hpc.symm.trans hpc'
      refine ⟨msg, getElem?_of_isPrefix (hputs _) hmsg, ?_⟩
      rw [hgets, Function.update_self, List.getElem?_set_self]
      exact (List.getElem?_eq_some_iff.mp (h.waiting t x n k hpc)).1

theorem next (h : History c m as s) (hrun : Library.run (step c) (.init m) as = some s) (hi : Inv c s)
    (hs : step c s a = some s') : History c m (as ++ [a]) s' :=
  have he := effect_step hi hs
  have hpc {t : Nat} := pc_of_ne_thread (t := t) hs
  { calls := h.calls_step he fun _ => hpc
    waiting := h.waiting_step he fun _ => hpc
    alone := h.alone_step he fun _ => hpc
    resolved := h.resolved_step hrun he (puts_step hs)
    read := h.read_step hrun he (puts_step hs) }

end History

theorem history {m₀ : Media} (hi : Media.infor c m₀ = some m) (hrun : Library.run (step c) (.init m) as = some s) :
    History c m as s := by
  induction as using List.reverseRecOn generalizing s with
  | nil =>
    cases hrun
    exact history_init
  | append_singleton as a ih =>
    rw [Library.run_append] at hrun
    obtain ⟨s₁, hrun₁, hs⟩ := Option.bind_eq_some_iff.mp hrun
    obtain ⟨s₂, hs, hend⟩ := Option.bind_eq_some_iff.mp hs
    cases hend
    exact (ih hrun₁).next hrun₁ (reach_inv hi (Reach.init.run hrun₁)) hs

end GalaLua.AMQ
