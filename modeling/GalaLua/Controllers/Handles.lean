import GalaLua.Controllers.Links
import Mathlib.Data.Nat.Bitwise

/-!
# Handles of links

A process names a link by a handle: the descriptor in the low half, and in the
high half a stamp of 16 bits, the second in which the link was created. The
links that were ever made are kept, so that the handle of a link that is gone
can be tried on a later one with its descriptor.
-/

namespace GalaLua.Controllers.Handles

open Library

abbrev mapSize : Nat := 10240

/-- `serial` tells the links apart. -/
structure LinkStack where
  serial : Nat
  fd : Fin mapSize
  stamp : BitVec 32
  deriving DecidableEq, Repr

/-- `CRT_time(NULL) & 0xffff` -/
def stamp (time : BitVec 64) : BitVec 32 := (time &&& 0xffff#64).truncate 32

namespace LinkStack

/-- `(_Stamp<<16) + _Sock->GetFD()` -/
def getDummyFd (l : LinkStack) : BitVec 32 := (l.stamp <<< 16) + BitVec.ofNat 32 l.fd

/-- `(0xffff0000 & fd)>>16` is of an unsigned value. -/
def checkDummyFd (l : LinkStack) (fd : BitVec 32) : Bool :=
  (0xffff0000#32 &&& fd) >>> 16 == l.stamp

def getRealFd (fd : BitVec 32) : BitVec 32 := 0x0000ffff#32 &&& fd

end LinkStack

structure State where
  linkMap : Nat → Option LinkStack
  made : List LinkStack

def State.init : State := ⟨fun _ => none, []⟩

/-- The lookup at the head of every call: `_LinkMap[GetRealFd(fd)]`, and then
`CheckDummyFd(fd)`. -/
def State.lookup (s : State) (fd : BitVec 32) : Option LinkStack :=
  match s.linkMap (LinkStack.getRealFd fd).toNat with
  | none => none
  | some l => if l.checkDummyFd fd then some l else none

inductive Op
  | doServe (fd : Fin mapSize) (time : BitVec 64)
  | doConn (fd : Fin mapSize) (time : BitVec 64)
  /-- the accept of a listening link -/
  | accept (fd : Fin mapSize) (time : BitVec 64)
  | doClose (fd : BitVec 32)
  /-- the worker's removal of a link, after an error or a close -/
  | onErr (fd : Fin mapSize)
  deriving DecidableEq, Repr

def State.newLink (s : State) (fd : Fin mapSize) (time : BitVec 64) : LinkStack :=
  ⟨s.made.length, fd, stamp time⟩

/-- A new link: the kernel gives no descriptor that is still open. -/
def State.put (s : State) (fd : Fin mapSize) (time : BitVec 64) : State :=
  if s.linkMap fd = none then
    ⟨Function.update s.linkMap fd (some (s.newLink fd time)), s.newLink fd time :: s.made⟩
  else s

/-- `DoClose` shuts the socket down, and the link stays in the map until the
worker removes it. -/
def State.next (s : State) : Op → State
  | .doServe fd time | .doConn fd time | .accept fd time => s.put fd time
  | .doClose _ => s
  | .onErr fd => { s with linkMap := Function.update s.linkMap fd none }

-- ---------------------------------------------------------------------------
-- What is asked of the handles
-- ---------------------------------------------------------------------------

/-- The handle of a link is accepted for no other one, and that of an open
link is accepted and decodes to its descriptor. -/
structure State.Sound (s : State) : Prop where
  own : ∀ l ∈ s.made, ∀ m, s.lookup l.getDummyFd = some m → m = l
  live : ∀ fd l, s.linkMap fd = some l →
    s.lookup l.getDummyFd = some l ∧ (LinkStack.getRealFd l.getDummyFd).toNat = fd

/-- The stamp was not used before with this descriptor. -/
def State.Unused (s : State) (fd : Fin mapSize) (time : BitVec 64) : Prop :=
  s.linkMap fd = none → ∀ l ∈ s.made, l.fd = fd → l.stamp ≠ stamp time

def State.Clear (s : State) : Op → Prop
  | .doServe fd time | .doConn fd time | .accept fd time => s.Unused fd time
  | .doClose _ | .onErr _ => True

-- ---------------------------------------------------------------------------
-- The two halves
-- ---------------------------------------------------------------------------

variable {s : State} {l m : LinkStack} {fd : Fin mapSize} {time : BitVec 64}

theorem stamp_lt (time : BitVec 64) : (stamp time).toNat < 0x10000 := by
  have h : (time &&& 0xffff#64).toNat ≤ 0xffff := by
    rw [BitVec.toNat_and]
    exact Nat.and_le_right
  unfold stamp
  rw [BitVec.truncate_eq_setWidth, BitVec.toNat_setWidth]
  omega

theorem getRealFd_toNat (h : BitVec 32) : (LinkStack.getRealFd h).toNat = realFd h.toNat := by
  unfold LinkStack.getRealFd realFd
  rw [BitVec.toNat_and, Nat.and_comm]
  exact Nat.and_two_pow_sub_one_eq_mod _ 16

theorem high_toNat (h : BitVec 32) :
    ((0xffff0000#32 &&& h) >>> 16).toNat = h.toNat / 0x10000 % 0x10000 := by
  rw [BitVec.toNat_ushiftRight, BitVec.toNat_and, Nat.shiftRight_and_distrib, Nat.and_comm]
  have : h.toNat >>> 16 = h.toNat / 0x10000 := Nat.shiftRight_eq_div_pow _ 16
  rw [this]
  exact Nat.and_two_pow_sub_one_eq_mod _ 16

/-- The packing does not run over the sign bit: the halves are the stamp and
the descriptor. -/
theorem getDummyFd_toNat (h : l.stamp.toNat < 0x10000) :
    l.getDummyFd.toNat = l.stamp.toNat * 0x10000 + l.fd := by
  have hfd : (l.fd : Nat) < 10240 := l.fd.isLt
  unfold LinkStack.getDummyFd
  rw [BitVec.toNat_add, BitVec.toNat_shiftLeft, BitVec.toNat_ofNat, Nat.shiftLeft_eq]
  omega

theorem getRealFd_getDummyFd (h : l.stamp.toNat < 0x10000) :
    (LinkStack.getRealFd l.getDummyFd).toNat = l.fd := by
  have hfd : (l.fd : Nat) < 10240 := l.fd.isLt
  rw [getRealFd_toNat, getDummyFd_toNat h, realFd]
  omega

theorem checkDummyFd_getDummyFd (h : l.stamp.toNat < 0x10000) :
    m.checkDummyFd l.getDummyFd ↔ l.stamp = m.stamp := by
  have hfd : (l.fd : Nat) < 10240 := l.fd.isLt
  have hhigh : ((0xffff0000#32 &&& l.getDummyFd) >>> 16).toNat = l.stamp.toNat := by
    rw [high_toNat, getDummyFd_toNat h]
    omega
  unfold LinkStack.checkDummyFd
  rw [beq_iff_eq, BitVec.eq_of_toNat_eq hhigh]

/-- A handle is accepted for the link that has its descriptor, when the stamps
are the same. -/
theorem lookup_getDummyFd_iff (h : l.stamp.toNat < 0x10000) :
    s.lookup l.getDummyFd = some m ↔ s.linkMap l.fd = some m ∧ l.stamp = m.stamp := by
  unfold State.lookup
  rw [getRealFd_getDummyFd h, ← checkDummyFd_getDummyFd h]
  cases hm : s.linkMap l.fd with
  | none => simp
  | some k =>
    simp only [Option.ite_none_right_eq_some, Option.some.injEq]
    constructor
    · rintro ⟨hc, rfl⟩
      exact ⟨rfl, hc⟩
    · rintro ⟨rfl, hc⟩
      exact ⟨hc, rfl⟩

-- ---------------------------------------------------------------------------
-- Runs
-- ---------------------------------------------------------------------------

structure State.Inv (s : State) : Prop where
  made : ∀ fd l, s.linkMap fd = some l → l ∈ s.made ∧ l.fd = fd
  stamp : ∀ l ∈ s.made, l.stamp.toNat < 0x10000
  serial : ∀ l ∈ s.made, l.serial < s.made.length
  /-- no two links had both the descriptor and the stamp -/
  apart : ∀ l ∈ s.made, ∀ m ∈ s.made, l.fd = m.fd → l.stamp = m.stamp → l = m

theorem init_inv : State.init.Inv := ⟨nofun, nofun, nofun, nofun⟩

theorem State.Inv.sound (h : s.Inv) : s.Sound where
  own l hl m hm := by
    obtain ⟨hmap, hstamp⟩ := (lookup_getDummyFd_iff (h.stamp l hl)).mp hm
    obtain ⟨hmade, hfd⟩ := h.made _ m hmap
    exact h.apart m hmade l hl (Fin.ext hfd) hstamp.symm
  live fd l hmap := by
    obtain ⟨hmade, rfl⟩ := h.made fd l hmap
    have hs := h.stamp l hmade
    exact ⟨(lookup_getDummyFd_iff hs).mpr ⟨hmap, rfl⟩, getRealFd_getDummyFd hs⟩

theorem State.Inv.onErr (h : s.Inv) (fd : Fin mapSize) : (s.next (.onErr fd)).Inv where
  made i l hl := by
    simp only [State.next, Function.update_apply] at hl
    split at hl
    · cases hl
    · exact h.made i l hl
  stamp := h.stamp
  serial := h.serial
  apart := h.apart

/-- A stamp that is new for the descriptor keeps the links apart. -/
theorem State.Inv.put (h : s.Inv) (hu : s.Unused fd time) : (s.put fd time).Inv := by
  unfold State.put
  split
  · next hfree =>
    have hu := hu hfree
    refine ⟨fun i l hl => ?_, List.forall_mem_cons.mpr ⟨stamp_lt time, h.stamp⟩,
      List.forall_mem_cons.mpr ⟨Nat.lt_succ_self _, fun l hl => (h.serial l hl).trans_le (by simp)⟩,
      List.forall_mem_cons.mpr ⟨List.forall_mem_cons.mpr ⟨fun _ _ => rfl, fun m hm hfd hst => ?_⟩,
        fun l hl => List.forall_mem_cons.mpr ⟨fun hfd hst => ?_, h.apart l hl⟩⟩⟩
    · simp only [Function.update_apply] at hl
      split at hl
      · next hi =>
        cases hl
        exact ⟨List.mem_cons_self, hi.symm⟩
      · obtain ⟨hm, hfd⟩ := h.made i l hl
        exact ⟨List.mem_cons_of_mem _ hm, hfd⟩
    · exact absurd hst.symm (hu m hm hfd.symm)
    · exact absurd hst (hu l hl hfd)
  · exact h

/-- A stamp that was used with the descriptor: the old handle is accepted for
the new link. -/
theorem put_sound_iff (h : s.Inv) : (s.put fd time).Sound ↔ s.Unused fd time := by
  refine ⟨fun hs hfree l hl hfd hst => ?_, fun hu => (h.put hu).sound⟩
  have hput : s.put fd time =
      ⟨Function.update s.linkMap fd (some (s.newLink fd time)), s.newLink fd time :: s.made⟩ :=
    if_pos hfree
  have hacc : (s.put fd time).lookup l.getDummyFd = some (s.newLink fd time) := by
    rw [lookup_getDummyFd_iff (h.stamp l hl), hput, hfd]
    exact ⟨Function.update_self .., hst⟩
  have heq := hs.own l (by rw [hput]; exact List.mem_cons_of_mem _ hl) _ hacc
  exact absurd (congrArg LinkStack.serial heq) (Nat.ne_of_gt (h.serial l hl))

theorem sound_iff_clear {op : Op} (h : s.Inv) : (s.next op).Sound ↔ s.Clear op := by
  cases op with
  | doServe | doConn | accept => exact put_sound_iff h
  | doClose => exact iff_of_true h.sound trivial
  | onErr fd => exact iff_of_true (h.onErr fd).sound trivial

theorem inv_next {op : Op} (h : s.Inv) (hc : s.Clear op) : (s.next op).Inv := by
  cases op with
  | doServe | doConn | accept => exact h.put hc
  | doClose => exact h
  | onErr fd => exact h.onErr fd

/-- Over any creations and removals of links: the handles are sound after each
of them exactly when no link is created with the descriptor and the stamp of
an earlier one. -/
theorem handles_sound_iff (ops : List Op) :
    (∀ t ∈ turns State.next .init ops, (t.1.next t.2).Sound) ↔
      ∀ t ∈ turns State.next .init ops, t.1.Clear t.2 := by
  refine forall_turns_iff (I := State.Inv) (g := fun s op => (s.next op).Sound)
    (fun _ _ => sound_iff_clear) ?_ ops init_inv
  intro s op h hs
  exact inv_next h ((sound_iff_clear h).mp hs)

/-- A link on descriptor 7 is closed, and in the same second a new one gets the
descriptor. -/
theorem stale_handle_accepted :
    ¬ ∀ ops, ∀ t ∈ turns State.next .init ops, (t.1.next t.2).Sound := by
  intro h
  have hs := h [.doConn 7 1000, .doClose ((1000 <<< 16) + 7), .onErr 7, .doConn 7 1000] _
    (List.getLast_mem (by simp [turns]))
  have heq := hs.own ⟨0, 7, 1000⟩ (by decide) ⟨1, 7, 1000⟩ (by decide)
  exact absurd heq (by decide)

end GalaLua.Controllers.Handles
