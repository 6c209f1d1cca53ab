import GalaLua.Controllers.Stacks
import GalaLua.Controllers.TcpCache

/-!
# What a link receives

`CSocketHandle::Recv` turns the results of `recv` into bytes and exceptions: a
single byte that is equal to `EOF` as a signed character is taken for a close of
the peer. An `Inlet` is a link as `StreamLinkStack::OnRecv` sees it, and does to its
cache what the link of the framing does (`received_refines`). The bytes in its cache are those of the peer exactly as long as no result was that byte
(`byte_transparent_iff`).
-/

namespace GalaLua.Controllers

open Library TcpCache

/-- What `recv` returns, with what it has stored. -/
inductive RecvResult
  | bytes (bs : List UInt8)
  | closed
  | wouldBlock
  | fails
  deriving DecidableEq, Repr

/-- `EOF`, as the one byte of a buffer is compared with it. -/
def EOF : UInt8 := 0xFF

/-- `CSocketHandle::Recv`. -/
def socketRecv : RecvResult → Recv
  | .bytes bs => if bs = [EOF] then .peerClose else .data bs
  | .closed => .peerClose
  | .wouldBlock => .wouldBlock
  | .fails => .fails

/-- A result that `recv` can return when it is asked for `len` bytes. -/
def RecvResult.Fits (len : Nat) : RecvResult → Prop
  | .bytes bs => bs ≠ [] ∧ bs.length ≤ len
  | _ => True

instance (len : Nat) : (r : RecvResult) → Decidable (r.Fits len)
  | .bytes _ => inferInstanceAs (Decidable (_ ∧ _))
  | .closed | .wouldBlock | .fails => inferInstanceAs (Decidable True)

def RecvResult.sent : RecvResult → List UInt8
  | .bytes bs => bs
  | _ => []

/-- Where the worker is with the link. -/
inductive Phase
  | idle
  /-- in the loop of `OnRecv` -/
  | receiving
  /-- an exception has left `OnRecv` -/
  | broken
  deriving DecidableEq, Repr

structure Inlet where
  session : Session
  hanguped : Bool := false
  phase : Phase := .idle

inductive InletAct
  /-- `OnRecv` is called -/
  | onRecv
  /-- the loop calls `Recv`, and `Grow` with what the strings can hold -/
  | recv (r : RecvResult) (m : Memory)
  /-- `Response` or a fast return takes bytes out of the cache -/
  | eat (n : Nat)

namespace Inlet

/-- A turn of the loop of `OnRecv`. -/
def received (s : Inlet) (m : Memory) : Recv → Inlet
  | .data bs =>
    { s with
      session := s.session.next (.append bs m)
      phase := match (s.session.call (.append bs m)).2 with
        | .returns => .receiving
        | .throws => .broken }
  | .wouldBlock => { s with phase := .idle }
  | .peerClose =>
    { s with
      hanguped := true
      phase := if s.session.cache.dataSize = 0 then .broken else .idle }
  | .fails => { s with phase := .broken }

def step (s : Inlet) : InletAct → Option Inlet
  | .onRecv =>
    if s.phase = .idle then
      some { s with phase := if s.hanguped then .broken else .receiving }
    else none
  | .recv r m =>
    if s.phase = .receiving ∧ r.Fits s.session.cache.reserved then
      some (s.received m (socketRecv r))
    else none
  | .eat n =>
    if s.phase = .idle ∧ n ≤ s.session.cache.dataSize then
      some { s with session := s.session.next (.eat n) }
    else none

end Inlet

/-- The results that `recv` returned, in their order. -/
def results (as : List InletAct) : List RecvResult :=
  as.filterMap fun
    | .recv r _ => some r
    | _ => none

/-- The stream of the peer, as far as `recv` has returned it. -/
def stream (rs : List RecvResult) : List UInt8 := rs.flatMap RecvResult.sent

/-- The cache has the bytes of the stream that were not eaten, and the link has
seen a close exactly if there was one. -/
structure Inlet.Transparent (s : Inlet) (rs : List RecvResult) : Prop where
  data : s.session.cache.data = (stream rs).drop s.session.eaten
  close : s.hanguped = true ↔ .closed ∈ rs

-- ---------------------------------------------------------------------------
-- One action
-- ---------------------------------------------------------------------------

/-- What holds of a link that has received `rs`. A result that was taken for a
close is the last one, and its byte is missing. -/
structure Inlet.Inv (s : Inlet) (rs : List RecvResult) : Prop where
  session : s.session.Inv
  room : s.phase ≠ .broken → 0 < s.session.cache.reserved
  listening : s.phase = .receiving → s.hanguped = false
  exact : .bytes [EOF] ∉ rs → s.session.written = stream rs ∧ (s.hanguped = true ↔ .closed ∈ rs)
  lost : .bytes [EOF] ∈ rs → s.hanguped = true ∧ s.session.written.length < (stream rs).length

variable {s s' : Inlet} {rs : List RecvResult} {r : RecvResult} {m : Memory}

theorem results_cons (a : InletAct) (as : List InletAct) :
    results (a :: as) = results [a] ++ results as := by
  cases a <;> rfl

theorem stream_concat (rs : List RecvResult) (r : RecvResult) :
    stream (rs ++ [r]) = stream rs ++ r.sent := by
  simp only [stream, List.flatMap_append, List.flatMap_singleton]

/-- The turn is the one of `StreamLinkStack::OnRecv` on the data. -/
theorem received_refines {ls : StreamLinkStack} {fd : Fd} (hs : s.session.cache.Ordered)
    (hcache : ls.cache = s.session.cache.data) (hfits : r.Fits s.session.cache.reserved) :
    (ls.onRecv fd (socketRecv r)).1.cache = (s.received m (socketRecv r)).session.cache.data := by
  cases hr : socketRecv r with
  | data bs =>
    have hlen : bs.length ≤ s.session.cache.reserved := by
      cases r with
      | bytes bs' =>
        simp only [socketRecv] at hr
        split at hr
        · cases hr
        · cases hr
          exact hfits.2
      | _ => cases hr
    have hgrown := append_grown hs m hlen
    simp only [StreamLinkStack.onRecv, Inlet.received, hcache]
    exact hgrown.data.symm
  | wouldBlock => exact hcache
  | peerClose => exact hcache
  | fails => exact hcache

namespace Inlet

/-- A link in the loop has received no close yet, and lost nothing. -/
theorem Inv.fresh (h : s.Inv rs) (hphase : s.phase = .receiving) :
    .bytes [EOF] ∉ rs ∧ s.session.written = stream rs ∧ .closed ∉ rs := by
  have hopen := h.listening hphase
  have hlost : .bytes [EOF] ∉ rs := fun hmem => by
    rw [(h.lost hmem).1] at hopen
    cases hopen
  obtain ⟨hwritten, hclose⟩ := h.exact hlost
  refine ⟨hlost, hwritten, fun hmem => ?_⟩
  rw [hclose.mpr hmem] at hopen
  cases hopen

theorem Inv.onRecv (h : s.Inv rs) (hphase : s.phase = .idle) :
    ({ s with phase := if s.hanguped then .broken else .receiving } : Inlet).Inv rs where
  session := h.session
  room _ := h.room (by simp [hphase])
  listening hreceiving := by
    cases hh : s.hanguped
    · rfl
    · simp [hh] at hreceiving
  exact := h.exact
  lost := h.lost

theorem reserved_eat {n : Nat} (hs : s.session.Inv) (hn : n ≤ s.session.cache.dataSize) :
    s.session.cache.reserved ≤ (s.session.next (.eat n)).cache.reserved := by
  obtain ⟨hord, -, -⟩ := eat_inside hs.ordered hn
  simp only [Session.next, Session.call]
  rw [hord.reserved_eq, hs.ordered.reserved_eq]
  simp only [eat]
  split
  · split
    · exact Nat.le_refl _
    · exact Nat.sub_le_sub_left (Nat.zero_le _) _
  · exact Nat.le_refl _

theorem Inv.eat {n : Nat} (h : s.Inv rs) (hn : n ≤ s.session.cache.dataSize) (hlt : n < 2 ^ 64) :
    ({ s with session := s.session.next (.eat n) } : Inlet).Inv rs where
  session := h.session.next (show s.session.Legal (.eat n) from hlt)
    (show s.session.Inside (.eat n) from .inl hn)
  room hb := (h.room hb).trans_le (reserved_eat h.session hn)
  listening := h.listening
  exact := h.exact
  lost := h.lost

theorem Inv.quiet {phase : Phase} (h : s.Inv rs) (hphase : s.phase = .receiving) (hr : r.sent = [])
    (hclosed : r ≠ .closed) (hbytes : r ≠ .bytes [EOF]) (hleft : phase ≠ .receiving) :
    ({ s with phase } : Inlet).Inv (rs ++ [r]) := by
  obtain ⟨hlost, hwritten, hnone⟩ := h.fresh hphase
  refine ⟨h.session, fun _ => h.room (by simp [hphase]), fun hp => absurd hp hleft, ?_, ?_⟩
  · intro _
    refine ⟨by rw [stream_concat, hr, List.append_nil]; exact hwritten, ?_⟩
    rw [show s.hanguped = false from h.listening hphase]
    simp [hnone, hclosed.symm]
  · intro hmem
    simp [hlost, hbytes.symm] at hmem

theorem Inv.hangup {phase : Phase} (h : s.Inv rs) (hphase : s.phase = .receiving)
    (hr : r = .closed ∨ r = .bytes [EOF]) (hleft : phase ≠ .receiving) :
    ({ s with hanguped := true, phase } : Inlet).Inv (rs ++ [r]) := by
  obtain ⟨hlost, hwritten, hnone⟩ := h.fresh hphase
  refine ⟨h.session, fun _ => h.room (by simp [hphase]), fun hp => absurd hp hleft, ?_, ?_⟩
  · intro hkept
    obtain rfl | rfl := hr
    · refine ⟨?_, by simp⟩
      rw [stream_concat]
      exact hwritten.trans (List.append_nil _).symm
    · simp at hkept
  · intro hmem
    obtain rfl | rfl := hr
    · simp [hlost] at hmem
    · refine ⟨rfl, ?_⟩
      rw [stream_concat, ← hwritten, List.length_append]
      exact Nat.lt_succ_self _

theorem Inv.append {bs : List UInt8} (h : s.Inv rs) (hphase : s.phase = .receiving)
    (hne : bs ≠ [EOF]) (hlen : bs.length ≤ s.session.cache.reserved) :
    (s.received m (.data bs)).Inv (rs ++ [.bytes bs]) := by
  obtain ⟨hlost, hwritten, hnone⟩ := h.fresh hphase
  have hgrown := append_grown h.session.ordered m hlen
  have hlegal : s.session.Legal (.append bs m) := hlen
  refine ⟨h.session.next hlegal trivial, ?_, fun _ => h.listening hphase, ?_, ?_⟩
  · intro hphase'
    refine hgrown.room ?_
    simp only [received, Session.call] at hphase'
    split at hphase'
    · assumption
    · exact absurd rfl hphase'
  · intro _
    refine ⟨?_, ?_⟩
    · rw [stream_concat, ← hwritten]
      rfl
    · show s.hanguped = true ↔ _
      rw [h.listening hphase]
      simp [hnone]
  · intro hmem
    simp [hlost, hne.symm] at hmem

theorem Inv.recv (h : s.Inv rs) (hphase : s.phase = .receiving)
    (hfits : r.Fits s.session.cache.reserved) :
    (s.received m (socketRecv r)).Inv (rs ++ [r]) := by
  cases r with
  | bytes bs =>
    by_cases hbs : bs = [EOF]
    · subst hbs
      refine h.hangup hphase (.inr rfl) ?_
      split <;> nofun
    · rw [show socketRecv (.bytes bs) = .data bs from if_neg hbs]
      exact h.append hphase hbs hfits.2
  | closed =>
    refine h.hangup hphase (.inl rfl) ?_
    split <;> nofun
  | wouldBlock => exact h.quiet hphase rfl nofun nofun nofun
  | fails => exact h.quiet hphase rfl nofun nofun nofun

theorem Inv.step {a : InletAct} (h : s.Inv rs) (hs : s.step a = some s') :
    s'.Inv (rs ++ results [a]) := by
  cases a with
  | onRecv =>
    obtain ⟨hphase, hs'⟩ := Option.ite_none_right_eq_some.mp hs
    obtain rfl := Option.some.inj hs'
    rw [show results [.onRecv] = [] from rfl, List.append_nil]
    exact h.onRecv hphase
  | recv r m =>
    obtain ⟨⟨hphase, hfits⟩, hs'⟩ := Option.ite_none_right_eq_some.mp hs
    obtain rfl := Option.some.inj hs'
    exact h.recv hphase hfits
  | eat n =>
    obtain ⟨⟨hphase, hn⟩, hs'⟩ := Option.ite_none_right_eq_some.mp hs
    obtain rfl := Option.some.inj hs'
    rw [show results [.eat n] = [] from rfl, List.append_nil]
    have hlt : n < 2 ^ 64 := by
      have hsize := h.session.ordered.size
      have hfin := h.session.ordered.fin
      rw [h.session.ordered.dataSize_eq] at hn
      omega
    exact h.eat hn hlt

-- ---------------------------------------------------------------------------
-- Any number of actions
-- ---------------------------------------------------------------------------

theorem Inv.run {as : List InletAct} (h : s.Inv rs) (hr : run Inlet.step s as = some s') :
    s'.Inv (rs ++ results as) := by
  induction as generalizing s rs with
  | nil =>
    obtain rfl := Option.some.inj hr
    rw [show results [] = [] from rfl, List.append_nil]
    exact h
  | cons a as ih =>
    obtain ⟨t, ht, hr⟩ := Option.bind_eq_some_iff.mp hr
    have hrest := ih (h.step ht) hr
    rw [List.append_assoc, ← results_cons] at hrest
    exact hrest

theorem Inv.transparent (h : s.Inv rs) : s.Transparent rs ↔ .bytes [EOF] ∉ rs := by
  constructor
  · intro ht hmem
    -- the cache is shorter than what is left of the stream
    have hlen := congrArg List.length ht.data
    rw [h.session.data, List.length_drop, List.length_drop] at hlen
    have hlost := (h.lost hmem).2
    have heaten := h.session.eaten
    omega
  · intro hkept
    obtain ⟨hwritten, hclose⟩ := h.exact hkept
    exact ⟨by rw [h.session.data, hwritten], hclose⟩

theorem new_reserved {c : TcpCache} {size step : Nat} (hstep : 0 < step) (hle : step ≤ size)
    (hc : TcpCache.new m size step = some c) : c.reserved = size := by
  obtain ⟨hord, -⟩ := new_ordered hstep hle hc
  rw [hord.reserved_eq]
  unfold TcpCache.new at hc
  split at hc
  · obtain rfl := Option.some.inj hc
    exact List.length_replicate
  · cases hc

/-- Over any actions on a new link, and any results of `recv`: the stream comes
through, and a close is seen exactly if there was one, exactly when no result
was the single byte `EOF`. -/
theorem byte_transparent_iff {c : TcpCache} (hc : TcpCache.new m 4096 1024 = some c)
    {as : List InletAct} (hr : run Inlet.step { session := { cache := c } } as = some s) :
    s.Transparent (results as) ↔ .bytes [EOF] ∉ results as := by
  obtain ⟨hord, hdata⟩ := new_ordered (by decide) (by decide) hc
  have hinit : ({ session := { cache := c } } : Inlet).Inv [] := by
    refine ⟨⟨hord, hdata, Nat.le_refl 0⟩, fun _ => ?_, nofun, fun _ => ⟨rfl, by simp⟩, nofun⟩
    rw [new_reserved (by decide) (by decide) hc]
    decide
  exact (hinit.run hr).transparent

/-- A link without data is told of the close in its second event. -/
def closedLater : List InletAct :=
  [.onRecv, .recv .wouldBlock Session.megabyte, .onRecv, .recv .closed Session.megabyte]

theorem close_seen : ∃ c s, TcpCache.new Session.megabyte 4096 1024 = some c ∧
    run Inlet.step { session := { cache := c } } closedLater = some s ∧
      s.Transparent (results closedLater) :=
  ⟨_, _, rfl, rfl, Iff.mpr (byte_transparent_iff (m := Session.megabyte) rfl rfl) (by decide)⟩

/-- The byte comes alone, on a link without data: `OnRecv` throws, and the link
is closed. -/
theorem single_byte_closes : ¬ ∀ (m : Memory) (c : TcpCache) (as : List InletAct) (s : Inlet),
    TcpCache.new m 4096 1024 = some c → run Inlet.step { session := { cache := c } } as = some s →
      s.Transparent (results as) := by
  intro h
  obtain ⟨c, hc⟩ : ∃ c, TcpCache.new Session.megabyte 4096 1024 = some c := ⟨_, rfl⟩
  have hfits : (RecvResult.bytes [255]).Fits c.reserved := by
    rw [new_reserved (by decide) (by decide) hc]
    decide
  have ht := h Session.megabyte c [.onRecv, .recv (.bytes [255]) Session.megabyte] _ hc
    (congrArg (Option.bind · some) (if_pos ⟨rfl, hfits⟩))
  have hclosed := ht.close.mp rfl
  revert hclosed
  decide

end Inlet

end GalaLua.Controllers
