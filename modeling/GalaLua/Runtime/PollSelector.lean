import GalaLua.Library.Flags
import GalaLua.Library.Transition

/-!
# What a poll selector polls

`CPollSelector` with whole event masks. A descriptor is polled for what was
registered for it as long as every slot that is handed on is handed on without
foreign bits, and nobody removes a bit that `Remove` does not translate
(`interest_law_iff`).
-/

namespace GalaLua.Runtime

open Library

/-- The flags of an `EV_TYPE`; the word is the set of its flags. -/
inductive EVENTTYPE
  | EV_IN | EV_OUT | EV_RDHUP | EV_PRI | EV_ERR | EV_HUP | EV_ET | EV_ONESHOT | EV_NVALID | EV_TIMEOUT
  deriving DecidableEq, Repr

instance : Fintype EVENTTYPE where
  elems := {.EV_IN, .EV_OUT, .EV_RDHUP, .EV_PRI, .EV_ERR, .EV_HUP, .EV_ET, .EV_ONESHOT, .EV_NVALID,
    .EV_TIMEOUT}
  complete e := by cases e <;> decide

/-- The flags of the `events` word of a `pollfd`. -/
inductive PollFlag
  | POLLIN | POLLPRI | POLLOUT | POLLRDHUP | POLLERR | POLLHUP | POLLNVAL
  deriving DecidableEq, Repr

instance : Fintype PollFlag where
  elems := {.POLLIN, .POLLPRI, .POLLOUT, .POLLRDHUP, .POLLERR, .POLLHUP, .POLLNVAL}
  complete p := by cases p <;> decide

/-- The translation of `Register`. -/
def EVENTTYPE.registered : EVENTTYPE → Option PollFlag
  | .EV_IN => some .POLLIN
  | .EV_PRI => some .POLLPRI
  | .EV_OUT => some .POLLOUT
  | .EV_RDHUP => some .POLLRDHUP
  | .EV_ERR => some .POLLERR
  | .EV_HUP => some .POLLHUP
  | .EV_NVALID => some .POLLNVAL
  | .EV_ET | .EV_ONESHOT | .EV_TIMEOUT => none

/-- The translation of `Remove`. -/
def EVENTTYPE.removed : EVENTTYPE → Option PollFlag
  | .EV_IN => some .POLLIN
  | .EV_PRI => some .POLLPRI
  | .EV_OUT => some .POLLOUT
  | .EV_RDHUP => some .POLLRDHUP
  | _ => none

def evtmp (flag : EVENTTYPE → Option PollFlag) (event : Finset EVENTTYPE) : Finset PollFlag :=
  Finset.univ.filter fun p => ∃ e ∈ event, flag e = some p

structure POLLEVENT where
  fd : Int
  events : Finset PollFlag
  deriving DecidableEq

/-- The constructor. With no capacity it writes to `m_events[0]`, which is not
there. -/
def newSelector (wake : Int) : Nat → Option (List POLLEVENT)
  | 0 => none
  | capacity + 1 => some (⟨wake, {.POLLIN}⟩ :: List.replicate capacity ⟨-1, {.POLLIN}⟩)

/-- The two loops of `Register`: the first slot with the descriptor `old` is
given to `fd`. -/
def orInto (old fd : Int) (flags : Finset PollFlag) : List POLLEVENT → Option (List POLLEVENT)
  | [] => none
  | i :: rest =>
    if i.fd = old then some (⟨fd, flags ∪ i.events⟩ :: rest) else (orInto old fd flags rest).map (i :: ·)

/-- A negative descriptor is refused. -/
def register (fd : Int) (event : Finset EVENTTYPE) (m : List POLLEVENT) : List POLLEVENT :=
  if fd < 0 then m
  else
    let flags := evtmp EVENTTYPE.registered event
    match orInto fd fd flags m with
    | some m' => m'
    | none =>
      match orInto (-1) fd flags m with
      | some m' => m'
      | none => m ++ [⟨fd, flags⟩]

def removeFd (fd : Int) (m : List POLLEVENT) : List POLLEVENT :=
  m.map fun i => if i.fd = fd then { i with fd := -1 } else i

def remove (fd : Int) (event : Finset EVENTTYPE) (m : List POLLEVENT) : List POLLEVENT :=
  let flags := evtmp EVENTTYPE.removed event
  m.map fun i => if i.fd = fd ∧ i.events ∩ flags ≠ ∅ then { i with events := i.events \ flags } else i

inductive SelectorOp
  | register (fd : Int) (event : Finset EVENTTYPE)
  | removeFd (fd : Int)
  | remove (fd : Int) (event : Finset EVENTTYPE)

/-- A selector with what its callers have asked for. -/
structure Polling where
  events : List POLLEVENT
  asked : Int → Finset EVENTTYPE

namespace Polling

/-- What a call asks for; a refused one for nothing. -/
def ask (asked : Int → Finset EVENTTYPE) : SelectorOp → Int → Finset EVENTTYPE
  | .register fd event => if fd < 0 then asked else Function.update asked fd (asked fd ∪ event)
  | .removeFd fd => Function.update asked fd ∅
  | .remove fd event => Function.update asked fd (asked fd \ event)

def next (s : Polling) (op : SelectorOp) : Polling where
  events := match op with
    | .register fd event => register fd event s.events
    | .removeFd fd => removeFd fd s.events
    | .remove fd event => remove fd event s.events
  asked := ask s.asked op

end Polling

/-- The slots of a descriptor. -/
def slots (m : List POLLEVENT) (fd : Int) : List POLLEVENT := m.filter fun i => i.fd = fd

/-- What the selector polls a descriptor for. -/
def polled (m : List POLLEVENT) (fd : Int) : Finset PollFlag :=
  Finset.univ.filter fun p => ∃ i ∈ slots m fd, p ∈ i.events

/-- The interest law, for every descriptor but the wake-up one. -/
structure Polling.Law (wake : Int) (s : Polling) : Prop where
  single : ∀ fd, 0 ≤ fd → fd ≠ wake → (slots s.events fd).length ≤ 1
  exact : ∀ fd, 0 ≤ fd → fd ≠ wake → polled s.events fd = evtmp EVENTTYPE.registered (s.asked fd)

/-- A slot that is handed on has no bit beyond those it is taken for, and no
bit is to be removed that `Remove` does not translate. -/
def Polling.Clean (wake : Int) (s : Polling) : SelectorOp → Prop
  | .register fd event => 0 ≤ fd → fd ≠ wake → slots s.events fd = [] →
      ∀ i, s.events.find? (fun i => i.fd = -1) = some i → i.events ⊆ evtmp EVENTTYPE.registered event
  | .removeFd _ => True
  | .remove fd event => 0 ≤ fd → fd ≠ wake →
      polled s.events fd ∩ evtmp EVENTTYPE.registered event ⊆ evtmp EVENTTYPE.removed event

-- ---------------------------------------------------------------------------
-- Flags
-- ---------------------------------------------------------------------------

variable {a b : Finset EVENTTYPE} {p : PollFlag} {m m' : List POLLEVENT} {fd fd' old : Int}
  {flags : Finset PollFlag} {event : Finset EVENTTYPE} {s : Polling} {wake : Int} {capacity : Nat}

theorem mem_evtmp {flag : EVENTTYPE → Option PollFlag} : p ∈ evtmp flag a ↔ ∃ e ∈ a, flag e = some p :=
  Flags.mem_translate

theorem evtmp_union (flag : EVENTTYPE → Option PollFlag) (a b : Finset EVENTTYPE) :
    evtmp flag (a ∪ b) = evtmp flag a ∪ evtmp flag b :=
  Flags.translate_union flag a b

theorem evtmp_empty (flag : EVENTTYPE → Option PollFlag) : evtmp flag ∅ = ∅ :=
  Flags.translate_empty flag

theorem registered_injective : Flags.Injective EVENTTYPE.registered := by
  unfold Flags.Injective
  decide

theorem evtmp_sdiff (a b : Finset EVENTTYPE) : evtmp EVENTTYPE.registered (a \ b) =
    evtmp EVENTTYPE.registered a \ evtmp EVENTTYPE.registered b :=
  Flags.translate_sdiff registered_injective a b

theorem evtmp_removed_subset (a : Finset EVENTTYPE) :
    evtmp EVENTTYPE.removed a ⊆ evtmp EVENTTYPE.registered a := by
  have hall : ∀ e : EVENTTYPE, e.removed = none ∨ e.removed = e.registered := by decide
  intro p hp
  obtain ⟨e, he, hflag⟩ := mem_evtmp.mp hp
  refine mem_evtmp.mpr ⟨e, he, ?_⟩
  obtain hnone | hsame := hall e
  · rw [hnone] at hflag
    cases hflag
  · exact hsame ▸ hflag

-- ---------------------------------------------------------------------------
-- Slots
-- ---------------------------------------------------------------------------

theorem mem_polled : p ∈ polled m fd ↔ ∃ i ∈ slots m fd, p ∈ i.events := by
  simp [polled]

theorem polled_congr (h : slots m fd = slots m' fd') : polled m fd = polled m' fd' := by
  simp only [polled, h]

theorem polled_nil (h : slots m fd = []) : polled m fd = ∅ := by
  simp [polled, h]

theorem polled_singleton {i : POLLEVENT} (h : slots m fd = [i]) : polled m fd = i.events := by
  ext p
  simp [mem_polled, h]

theorem slots_append (m m' : List POLLEVENT) : slots (m ++ m') fd = slots m fd ++ slots m' fd :=
  List.filter_append ..

theorem slots_cons_self {i : POLLEVENT} (h : i.fd = fd) : slots (i :: m) fd = i :: slots m fd :=
  List.filter_cons_of_pos (decide_eq_true h)

theorem slots_cons_of_ne {i : POLLEVENT} (h : i.fd ≠ fd) : slots (i :: m) fd = slots m fd :=
  List.filter_cons_of_neg (by simpa using h)

theorem slots_eq_nil : slots m fd = [] ↔ ∀ i ∈ m, i.fd ≠ fd := by
  simp [slots, List.filter_eq_nil_iff]

/-- The slot that is taken is the first one with the descriptor `old`. -/
theorem orInto_some (h : orInto old fd flags m = some m') : ∃ pre i post, m = pre ++ i :: post ∧
    i.fd = old ∧ slots pre old = [] ∧ m' = pre ++ ⟨fd, flags ∪ i.events⟩ :: post := by
  induction m generalizing m' with
  | nil => cases h
  | cons j rest ih =>
    simp only [orInto] at h
    split at h
    · next hj =>
      obtain rfl := Option.some.inj h
      exact ⟨[], j, rest, rfl, hj, rfl, rfl⟩
    · next hj =>
      obtain ⟨tl, htl, rfl⟩ := Option.map_eq_some_iff.mp h
      obtain ⟨pre, i, post, rfl, hi, hpre, rfl⟩ := ih htl
      exact ⟨j :: pre, i, post, rfl, hi, by rw [slots_cons_of_ne hj, hpre], rfl⟩

theorem orInto_none (h : orInto old fd flags m = none) : slots m old = [] := by
  induction m with
  | nil => rfl
  | cons j rest ih =>
    simp only [orInto] at h
    split at h
    · cases h
    · next hj =>
      rw [slots_cons_of_ne hj]
      exact ih (Option.map_eq_none_iff.mp h)

/-- `Register` for a descriptor that has a slot. -/
theorem register_again (event : Finset EVENTTYPE) (hfd : 0 ≤ fd) (hs : slots m fd ≠ []) : ∃ i rest,
    slots m fd = i :: rest ∧
      slots (register fd event m) fd = ⟨fd, evtmp EVENTTYPE.registered event ∪ i.events⟩ :: rest ∧
      ∀ g, g ≠ fd → slots (register fd event m) g = slots m g := by
  rw [register, if_neg (Int.not_lt.mpr hfd)]
  dsimp only
  split
  · next m' h =>
    obtain ⟨pre, i, post, rfl, hi, hpre, rfl⟩ := orInto_some h
    refine ⟨i, slots post fd, ?_, ?_, fun g hg => ?_⟩
    · rw [slots_append, hpre, slots_cons_self hi]
      rfl
    · rw [slots_append, hpre, slots_cons_self rfl]
      rfl
    · rw [slots_append, slots_append, slots_cons_of_ne hg.symm, slots_cons_of_ne (hi ▸ hg.symm)]
  · next h => exact absurd (orInto_none h) hs

/-- `Register` for a descriptor without a slot: the bits of the free slot that
it takes are there with its own. -/
theorem register_new (event : Finset EVENTTYPE) (hfd : 0 ≤ fd) (hs : slots m fd = []) : ∃ old,
    (m.find? (fun i => i.fd = -1) = none ∧ old = ∅ ∨
      ∃ i, m.find? (fun i => i.fd = -1) = some i ∧ old = i.events) ∧
    slots (register fd event m) fd = [⟨fd, evtmp EVENTTYPE.registered event ∪ old⟩] ∧
    ∀ g, g ≠ fd → g ≠ -1 → slots (register fd event m) g = slots m g := by
  have hnone : orInto fd fd (evtmp EVENTTYPE.registered event) m = none := by
    cases h : orInto fd fd (evtmp EVENTTYPE.registered event) m with
    | none => rfl
    | some m' =>
      obtain ⟨pre, i, post, rfl, hi, -, -⟩ := orInto_some h
      exact absurd hi (slots_eq_nil.mp hs i (by simp))
  rw [register, if_neg (Int.not_lt.mpr hfd)]
  simp only [hnone]
  split
  · next m' h =>
    obtain ⟨pre, i, post, rfl, hi, hpre, rfl⟩ := orInto_some h
    rw [slots_append, slots_cons_of_ne (by omega)] at hs
    obtain ⟨hspre, hspost⟩ := List.append_eq_nil_iff.mp hs
    refine ⟨i.events, .inr ⟨i, ?_, rfl⟩, ?_, fun g hg hfree => ?_⟩
    · rw [List.find?_append, List.find?_eq_none.mpr (by simpa using slots_eq_nil.mp hpre), Option.none_or]
      simp only [List.find?_cons, hi, decide_true]
    · rw [slots_append, slots_cons_self rfl, hspre, hspost]
      rfl
    · rw [slots_append, slots_append, slots_cons_of_ne hg.symm, slots_cons_of_ne (hi ▸ hfree.symm)]
  · next h =>
    refine ⟨∅, .inl ⟨?_, rfl⟩, ?_, fun g hg _ => ?_⟩
    · exact List.find?_eq_none.mpr (by simpa using slots_eq_nil.mp (orInto_none h))
    · rw [slots_append, hs, slots_cons_self rfl, Finset.union_empty]
      rfl
    · rw [slots_append, slots_cons_of_ne hg.symm]
      exact List.append_nil _

theorem fd_of_mem_slots {i : POLLEVENT} (h : i ∈ slots m fd) : i.fd = fd :=
  of_decide_eq_true (List.mem_filter.mp h).2

theorem slots_map {f : POLLEVENT → POLLEVENT} (h : ∀ i, (f i).fd = i.fd) (m : List POLLEVENT) :
    slots (m.map f) fd = (slots m fd).map f := by
  rw [slots, slots, List.filter_map]
  congr 2
  funext i
  simp [h]

theorem slots_removeFd_self (hfd : fd ≠ -1) (m : List POLLEVENT) : slots (removeFd fd m) fd = [] := by
  refine slots_eq_nil.mpr fun j hj => ?_
  obtain ⟨i, -, rfl⟩ := List.mem_map.mp hj
  split
  · exact hfd.symm
  · assumption

theorem slots_removeFd {g : Int} (hg : g ≠ fd) (hfree : g ≠ -1) (m : List POLLEVENT) :
    slots (removeFd fd m) g = slots m g := by
  induction m with
  | nil => rfl
  | cons i rest ih =>
    simp only [removeFd, List.map_cons] at ih ⊢
    by_cases hi : i.fd = fd
    · rw [if_pos hi, slots_cons_of_ne hfree.symm, slots_cons_of_ne (hi ▸ hg.symm), ih]
    · rw [if_neg hi]
      by_cases hig : i.fd = g
      · rw [slots_cons_self hig, slots_cons_self hig, ih]
      · rw [slots_cons_of_ne hig, slots_cons_of_ne hig, ih]

/-- The test of `Remove` for a bit in common changes nothing. -/
theorem remove_eq (m : List POLLEVENT) : remove fd event m = m.map fun i =>
    if i.fd = fd then { i with events := i.events \ evtmp EVENTTYPE.removed event } else i := by
  refine List.map_congr_left fun i _ => ?_
  by_cases hi : i.fd = fd
  · by_cases hcommon : i.events ∩ evtmp EVENTTYPE.removed event = ∅
    · rw [if_neg (fun h => h.2 hcommon), if_pos hi,
        Finset.sdiff_eq_self_iff_disjoint.mpr (Finset.disjoint_iff_inter_eq_empty.mpr hcommon)]
    · rw [if_pos ⟨hi, hcommon⟩, if_pos hi]
  · rw [if_neg (fun h => hi h.1), if_neg hi]

theorem slots_remove_all (g : Int) (m : List POLLEVENT) : slots (remove fd event m) g =
    (slots m g).map fun i =>
      if i.fd = fd then { i with events := i.events \ evtmp EVENTTYPE.removed event } else i := by
  rw [remove_eq]
  refine slots_map (fun i => ?_) m
  split <;> rfl

theorem slots_remove_self (m : List POLLEVENT) : slots (remove fd event m) fd =
    (slots m fd).map fun i => { i with events := i.events \ evtmp EVENTTYPE.removed event } := by
  rw [slots_remove_all]
  exact List.map_congr_left fun i hi => if_pos (fd_of_mem_slots hi)

theorem slots_remove {g : Int} (hg : g ≠ fd) (m : List POLLEVENT) :
    slots (remove fd event m) g = slots m g := by
  rw [slots_remove_all]
  refine (List.map_congr_left fun i hi => if_neg ?_).trans (List.map_id _)
  exact fd_of_mem_slots hi ▸ hg

-- ---------------------------------------------------------------------------
-- One call
-- ---------------------------------------------------------------------------

namespace Polling

/-- The law for one descriptor. -/
structure At (s : Polling) (fd : Int) : Prop where
  single : (slots s.events fd).length ≤ 1
  exact : polled s.events fd = evtmp EVENTTYPE.registered (s.asked fd)

theorem law_iff : s.Law wake ↔ ∀ fd, 0 ≤ fd → fd ≠ wake → s.At fd :=
  ⟨fun h fd h0 hw => ⟨h.single fd h0 hw, h.exact fd h0 hw⟩,
    fun h => ⟨fun fd h0 hw => (h fd h0 hw).single, fun fd h0 hw => (h fd h0 hw).exact⟩⟩

/-- A call for `fd` leaves the law as it is for every other descriptor. -/
theorem law_of_frame {s' : Polling} (h : s.Law wake)
    (hframe : ∀ g, g ≠ fd → g ≠ -1 → slots s'.events g = slots s.events g ∧ s'.asked g = s.asked g) :
    s'.Law wake ↔ (0 ≤ fd → fd ≠ wake → s'.At fd) := by
  refine ⟨fun h' => law_iff.mp h' fd, fun hfd => law_iff.mpr fun g h0 hw => ?_⟩
  by_cases hg : g = fd
  · subst hg
    exact hfd h0 hw
  · obtain ⟨hslots, hasked⟩ := hframe g hg (by omega)
    have hold := law_iff.mp h g h0 hw
    refine ⟨hslots ▸ hold.single, ?_⟩
    rw [polled_congr hslots, hasked]
    exact hold.exact

theorem slots_of_single (h : s.At fd) : slots s.events fd = [] ∨ ∃ i, slots s.events fd = [i] := by
  have hlen := h.single
  match hs : slots s.events fd with
  | [] => exact .inl rfl
  | [i] => exact .inr ⟨i, rfl⟩
  | i :: j :: rest =>
    rw [hs] at hlen
    simp at hlen

theorem register_law (h : s.Law wake) (fd : Int) (event : Finset EVENTTYPE) :
    (s.next (.register fd event)).Law wake ↔ s.Clean wake (.register fd event) := by
  by_cases hfd : 0 ≤ fd
  · have hasked : (s.next (.register fd event)).asked = Function.update s.asked fd (s.asked fd ∪ event) :=
      if_neg (Int.not_lt.mpr hfd)
    by_cases hnew : slots s.events fd = []
    · obtain ⟨old, hold, hnext, hframe⟩ := register_new event hfd hnew
      rw [law_of_frame h fun g hg hfree => ⟨hframe g hg hfree, by rw [hasked, Function.update_of_ne hg]⟩]
      refine forall_congr' fun _ => forall_congr' fun hw => ?_
      have hslots : slots (s.next (.register fd event)).events fd = _ := hnext
      have hnone := (h.exact fd hfd hw).symm.trans (polled_nil hnew)
      have hiff : (s.next (.register fd event)).At fd ↔ old ⊆ evtmp EVENTTYPE.registered event := by
        refine ⟨fun hat => ?_, fun hsub => ⟨by simp [hslots], ?_⟩⟩
        · have hexact := hat.exact
          rw [polled_singleton hslots, hasked, Function.update_self, evtmp_union, hnone,
            Finset.empty_union] at hexact
          exact Finset.union_eq_left.mp hexact
        · rw [polled_singleton hslots, hasked, Function.update_self, evtmp_union, hnone,
            Finset.empty_union]
          exact Finset.union_eq_left.mpr hsub
      rw [hiff]
      obtain ⟨hfind, rfl⟩ | ⟨i, hfind, rfl⟩ := hold
      · simp [hnew, hfind]
      · simp [hnew, hfind]
    · obtain ⟨i, rest, hs, hnext, hframe⟩ := register_again event hfd hnew
      rw [law_of_frame h fun g hg _ => ⟨hframe g hg, by rw [hasked, Function.update_of_ne hg]⟩]
      refine iff_of_true (fun _ hw => ?_) fun _ _ hnil => absurd hnil hnew
      have hat := law_iff.mp h fd hfd hw
      have hrest : rest = [] := by
        have hlen := hat.single
        rw [hs, List.length_cons] at hlen
        exact List.eq_nil_of_length_eq_zero (by omega)
      subst hrest
      have hslots : slots (s.next (.register fd event)).events fd = _ := hnext
      refine ⟨by simp [hslots], ?_⟩
      rw [polled_singleton hslots, hasked, Function.update_self, evtmp_union, ← hat.exact,
        polled_singleton hs, Finset.union_comm]
  · have hsame : s.next (.register fd event) = s := by
      simp only [next, ask, register, if_pos (Int.not_le.mp hfd)]
    rw [hsame]
    exact iff_of_true h fun h0 => absurd h0 hfd

theorem removeFd_law (h : s.Law wake) (fd : Int) : (s.next (.removeFd fd)).Law wake := by
  rw [law_of_frame h fun g hg hfree => ⟨slots_removeFd hg hfree _, Function.update_of_ne hg _ _⟩]
  intro hfd _
  have hslots : slots (s.next (.removeFd fd)).events fd = [] := slots_removeFd_self (by omega) _
  refine ⟨by simp [hslots], ?_⟩
  rw [polled_nil hslots]
  simp only [next, ask, Function.update_self, evtmp_empty]

theorem remove_law (h : s.Law wake) (fd : Int) (event : Finset EVENTTYPE) :
    (s.next (.remove fd event)).Law wake ↔ s.Clean wake (.remove fd event) := by
  rw [law_of_frame h fun g hg _ => ⟨slots_remove hg _, Function.update_of_ne hg _ _⟩]
  refine forall_congr' fun hfd => forall_congr' fun hw => ?_
  have hat := law_iff.mp h fd hfd hw
  have hslots : slots (s.next (.remove fd event)).events fd = _ := slots_remove_self s.events
  have hpolled : polled (s.next (.remove fd event)).events fd =
      polled s.events fd \ evtmp EVENTTYPE.removed event := by
    obtain hs | ⟨i, hs⟩ := slots_of_single hat
    · rw [polled_nil hs, polled_nil (by rw [hslots, hs]; rfl), Finset.empty_sdiff]
    · rw [hs] at hslots
      rw [polled_singleton hs, polled_singleton hslots]
  have hasked : (s.next (.remove fd event)).asked fd = s.asked fd \ event := Function.update_self ..
  have hsub := evtmp_removed_subset event
  constructor
  · intro hat' p hp
    obtain ⟨hp, hreg⟩ := Finset.mem_inter.mp hp
    by_contra hno
    have hmem : p ∈ polled (s.next (.remove fd event)).events fd := by
      rw [hpolled]
      exact Finset.mem_sdiff.mpr ⟨hp, hno⟩
    rw [hat'.exact, hasked, evtmp_sdiff] at hmem
    exact (Finset.mem_sdiff.mp hmem).2 hreg
  · intro hclean
    refine ⟨?_, ?_⟩
    · rw [hslots, List.length_map]
      exact hat.single
    · rw [hpolled, hasked, evtmp_sdiff, hat.exact]
      ext p
      simp only [Finset.mem_sdiff]
      refine and_congr_right fun hp => not_congr ⟨fun hr => hsub hr, fun hr => ?_⟩
      exact hclean (Finset.mem_inter.mpr ⟨hat.exact ▸ hp, hr⟩)

theorem next_law_iff (h : s.Law wake) (op : SelectorOp) :
    (s.next op).Law wake ↔ s.Clean wake op := by
  cases op with
  | register fd event => exact register_law h fd event
  | removeFd fd => exact iff_of_true (removeFd_law h fd) trivial
  | remove fd event => exact remove_law h fd event

end Polling

-- ---------------------------------------------------------------------------
-- Any number of calls
-- ---------------------------------------------------------------------------

theorem newSelector_law (h : newSelector wake capacity = some m) : Polling.Law wake ⟨m, fun _ => ∅⟩ := by
  cases capacity with
  | zero => cases h
  | succ capacity =>
    obtain rfl := Option.some.inj h
    have hnone : ∀ fd, 0 ≤ fd → fd ≠ wake →
        slots (⟨wake, {.POLLIN}⟩ :: List.replicate capacity ⟨-1, {.POLLIN}⟩) fd = [] := by
      intro fd h0 hw
      refine slots_eq_nil.mpr fun i hi => ?_
      obtain rfl | hi := List.mem_cons.mp hi
      · exact hw.symm
      · obtain rfl := List.eq_of_mem_replicate hi
        show (-1 : Int) ≠ fd
        omega
    refine ⟨fun fd h0 hw => ?_, fun fd h0 hw => ?_⟩
    · rw [hnone fd h0 hw]
      exact Nat.zero_le _
    · rw [polled_nil (hnone fd h0 hw), evtmp_empty]

/-- For every capacity and any calls: there is a selector and the law holds
after each call exactly when the capacity is not zero and every call is clean. -/
theorem interest_law_iff (wake : Int) (capacity : Nat) (ops : List SelectorOp) :
    (∃ m, newSelector wake capacity = some m ∧
      ∀ t ∈ turns Polling.next ⟨m, fun _ => ∅⟩ ops, (t.1.next t.2).Law wake) ↔
    capacity ≠ 0 ∧ ∀ m, newSelector wake capacity = some m →
      ∀ t ∈ turns Polling.next ⟨m, fun _ => ∅⟩ ops, t.1.Clean wake t.2 := by
  have hiff : ∀ m, newSelector wake capacity = some m →
      ((∀ t ∈ turns Polling.next ⟨m, fun _ => ∅⟩ ops, (t.1.next t.2).Law wake) ↔
        ∀ t ∈ turns Polling.next ⟨m, fun _ => ∅⟩ ops, t.1.Clean wake t.2) := fun m hm =>
    forall_turns_iff (I := Polling.Law wake) (fun _ op h => Polling.next_law_iff h op)
      (fun _ _ _ h => h) ops (newSelector_law hm)
  constructor
  · rintro ⟨m, hm, hlaw⟩
    refine ⟨?_, fun m' hm' => ?_⟩
    · rintro rfl
      cases hm
    · obtain rfl := Option.some.inj (hm.symm.trans hm')
      exact (hiff m hm).mp hlaw
  · rintro ⟨hne, hclean⟩
    obtain ⟨capacity, rfl⟩ := Nat.exists_eq_succ_of_ne_zero hne
    exact ⟨_, rfl, (hiff _ rfl).mpr (hclean _ rfl)⟩

/-- Descriptor 5, registered for EV_OUT on a new selector, is polled for POLLIN
too. -/
theorem registered_out_polled_in : ¬ ∀ (wake : Int) (capacity : Nat) (ops : List SelectorOp),
    ∃ m, newSelector wake capacity = some m ∧
      ∀ t ∈ turns Polling.next ⟨m, fun _ => ∅⟩ ops, (t.1.next t.2).Law wake := by
  intro h
  obtain ⟨m, hm, hlaw⟩ := h 3 8 [.register 5 {.EV_OUT}]
  obtain rfl := Option.some.inj hm
  have hexact := (hlaw _ (List.mem_singleton.mpr rfl)).exact 5 (by decide) (by decide)
  revert hexact
  decide

end GalaLua.Runtime
