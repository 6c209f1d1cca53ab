import GalaLua.Library.Words
import Mathlib.Data.Vector.Defs

/-!
# Interrupts

A call of `_glr.int` carries its device and its timeout in one number:
`int_arg` adds the two up, `Process::Interrupt` takes them apart, and `DoConn`
reads the timeout a second time. Every timeout is a `short`, 0 and -1 are no
limit, and a sum that borrows or carries reaches the device (`faithful_iff`).
-/

namespace GalaLua.GLR

open Library.Words

-- ---------------------------------------------------------------------------
-- The wrappers
-- ---------------------------------------------------------------------------

/-- The devices of the wrappers. -/
inductive IntNo
  | clok
  | sock
  | gbus
  | amq
  deriving DecidableEq, Repr

/-- `CLOK_INT_NO`, `SOCK_INT_NO`, `GBUS_INT_NO` and `AMQ_INT_NO`. -/
def IntNo.no : IntNo → Int
  | clok => 0x00000000
  | sock => 0x01000000
  | gbus => 0x02000000
  | amq => 0x03000000

/-- The number that the constructor of the controller gives it. -/
def IntNo.deviceId : IntNo → Nat
  | clok => 0
  | sock => 1
  | gbus => 2
  | amq => 3

/-- `int_arg`, with a timeout that is nil or an integer. -/
def int_arg (no : Int) : Option Int → Int
  | none => double (no + 0x0000ffff)
  | some timeout => if timeout = -1 then double (no + 0x0000ffff) else double (no + timeout)

/-- The domain of a socket, with what `tcp_conn` and `un_conn` pass for it. -/
inductive Domain
  | inet (host : List UInt8) (port : Int)
  | unix (path : List UInt8)
  deriving DecidableEq, Repr

/-- A call of `_glr.int` for a connection: the first argument and the domain. -/
structure Conn where
  arg : Int
  domain : Domain
  deriving DecidableEq, Repr

def tcp_conn (host : List UInt8) (port : Int) (timeout : Option Int) : Conn :=
  ⟨int_arg IntNo.sock.no timeout, .inet host port⟩

def un_conn (path : List UInt8) (timeout : Option Int) : Conn :=
  ⟨int_arg IntNo.sock.no timeout, .unix path⟩

-- ---------------------------------------------------------------------------
-- The runtime
-- ---------------------------------------------------------------------------

/-- `int dev = luaL_checkinteger(l, 1)` -/
def checkDev (x : Int) : BitVec 32 := BitVec.ofInt 32 (checkInteger x)

/-- `device = (0xff000000&dev)>>24` -/
def device (dev : BitVec 32) : Nat := ((0xff000000#32 &&& dev) >>> 24).toNat

/-- `timeout = 0x0000ffff&dev`, a `short`, and -1 in the place of 0. -/
def timeOut (dev : BitVec 32) : Int :=
  let timeout : BitVec 16 := (0x0000ffff#32 &&& dev).setWidth 16
  if timeout = 0 then -1 else timeout.toInt

def MAX_DEV_NUMBER : Nat := 256

/-- The number of entries of `_Devices`. -/
def DEVICES : Nat := 32

inductive Interrupt (C : Type)
  /-- `wrong int no.` -/
  | wrongNo
  /-- An index behind `_Devices`. -/
  | outside
  /-- The caller gets nil and `Wrong INT id`. -/
  | wrongId
  /-- The controller is asked; the timer is the argument of `SetTimeOut`. -/
  | asked (controller : C) (timer : Option Int)
  deriving DecidableEq, Repr

variable {C : Type}

/-- `Process::Interrupt`; `responds` tells which controllers answer at once. -/
def interrupt (devices : Vector (Option C) DEVICES) (responds : C → Bool) (arg : Int) :
    Interrupt C :=
  let dev := checkDev arg
  if device dev > MAX_DEV_NUMBER then .wrongNo
  else if h : device dev < DEVICES then
    match devices.get ⟨device dev, h⟩ with
    | none => .wrongId
    | some c =>
      if responds c then .asked c none
      else .asked c (if timeOut dev ≠ -1 then some (timeOut dev) else none)
  else .outside

/-- A socket that connects, with its linger and its timeout. -/
inductive SocketClient
  | tcp (host : List UInt8) (port linger timeout : Int)
  | un (path : List UInt8)
  deriving DecidableEq, Repr

/-- `SocketController::DoConn`; the port is narrowed to a `short`. -/
def doConn (c : Conn) : SocketClient :=
  match c.domain with
  | .unix path => .un path
  | .inet host port =>
    .tcp host (BitVec.ofInt 16 (checkInteger port)).toInt 10 (timeOut (checkDev c.arg))

-- ---------------------------------------------------------------------------
-- What is decoded
-- ---------------------------------------------------------------------------

/-- The timeout that a caller asks for; -1 is no limit. -/
def limit : Option Int → Int
  | none => -1
  | some timeout => timeout

/-- The device and the timeout come out as they went in. -/
structure Faithful (no : IntNo) (timeout : Option Int) : Prop where
  device : device (checkDev (int_arg no.no timeout)) = no.deviceId
  inside : GLR.device (checkDev (int_arg no.no timeout)) < DEVICES
  timeOut : timeOut (checkDev (int_arg no.no timeout)) = limit timeout
  conn : ∀ host port, ∃ p,
    doConn ⟨int_arg no.no timeout, .inet host port⟩ = .tcp host p 10 (limit timeout)

theorem device_ofInt (z : Int) : (device (BitVec.ofInt 32 z) : Int) = z / 2 ^ 24 % 2 ^ 8 := by
  rw [device, mask_shiftRight (by decide)]
  exact toNat_ofInt_shiftRight (w := 8) (k := 24) z

theorem timeOut_ofInt (z : Int) :
    timeOut (BitVec.ofInt 32 z) = if z.bmod 65536 = 0 then -1 else z.bmod 65536 := by
  have htimeout := toInt_ofInt_setWidth (k := 16) (w := 32) (by decide) z
  have hmask := mask_setWidth (show (0x0000ffff#32).setWidth 16 = .allOnes 16 by decide)
  simp only [timeOut, hmask]
  rw [show z.bmod 65536 = z.bmod (2 ^ 16) from rfl, ← htimeout]
  simp only [← BitVec.toInt_inj, BitVec.ofNat_eq_ofNat, BitVec.toInt_zero]

theorem timeOut_range (dev : BitVec 32) :
    -32768 ≤ timeOut dev ∧ timeOut dev < 32768 ∧ timeOut dev ≠ 0 := by
  obtain ⟨z, rfl⟩ : ∃ z, dev = BitVec.ofInt 32 z := ⟨dev.toInt, BitVec.ofInt_toInt.symm⟩
  have hle : -32768 ≤ z.bmod 65536 := Int.le_bmod (by decide)
  have hlt : z.bmod 65536 < 32768 := Int.bmod_lt (by decide)
  rw [timeOut_ofInt]
  split
  · decide
  · exact ⟨hle, hlt, by assumption⟩

theorem doConn_inet (arg : Int) (host : List UInt8) (port : Int) :
    ∃ p, doConn ⟨arg, .inet host port⟩ = .tcp host p 10 (timeOut (checkDev arg)) := ⟨_, rfl⟩

theorem deviceId_lt (no : IntNo) : no.deviceId < DEVICES := by cases no <;> decide

theorem no_eq (no : IntNo) : no.no = 2 ^ 24 * no.deviceId := by cases no <;> rfl

/-- No device number is too great for the test in `Process::Interrupt`. -/
theorem device_lt (dev : BitVec 32) : device dev < MAX_DEV_NUMBER := by
  obtain ⟨z, rfl⟩ : ∃ z, dev = BitVec.ofInt 32 z := ⟨dev.toInt, BitVec.ofInt_toInt.symm⟩
  have hdevice := device_ofInt z
  unfold MAX_DEV_NUMBER
  omega

/-- A faithful number asks the controller at the device and starts its timer. -/
theorem Faithful.interrupt {no : IntNo} {timeout : Option Int} (h : Faithful no timeout)
    {devices : Vector (Option C) DEVICES} {c : C}
    (hc : devices.get ⟨no.deviceId, deviceId_lt no⟩ = some c) (responds : C → Bool) :
    interrupt devices responds (int_arg no.no timeout) =
      .asked c (if responds c ∨ limit timeout = -1 then none else some (limit timeout)) := by
  have hmax : ¬GLR.device (checkDev (int_arg no.no timeout)) > MAX_DEV_NUMBER :=
    (device_lt _).not_gt
  have hget : devices.get ⟨_, h.inside⟩ = some c := by simpa only [h.device] using hc
  simp only [GLR.interrupt, if_neg hmax, dif_pos h.inside, hget, h.timeOut]
  by_cases hr : responds c <;> by_cases hl : limit timeout = -1 <;> simp [hr, hl]

-- ---------------------------------------------------------------------------
-- Faithful numbers
-- ---------------------------------------------------------------------------

theorem checkDev_sum (no : IntNo) {t : Int} (h : t.natAbs ≤ 65535) :
    checkDev (double (no.no + t)) = BitVec.ofInt 32 (no.no + t) := by
  have hsmall : (no.no + t).natAbs < 2 ^ 53 := by
    have := deviceId_lt no
    rw [no_eq]
    unfold DEVICES at this
    omega
  rw [checkDev, double_of_small hsmall, checkInteger_of_small hsmall]

theorem faithful_of_sum {no : IntNo} {timeout : Option Int} {t : Int} (h0 : 0 < t) (h : t ≤ 65535)
    (harg : int_arg no.no timeout = double (no.no + t))
    (ht : (if t.bmod 65536 = 0 then -1 else t.bmod 65536) = limit timeout) :
    Faithful no timeout := by
  have hdev : checkDev (int_arg no.no timeout) = BitVec.ofInt 32 (no.no + t) := by
    rw [harg, checkDev_sum no (by omega)]
  have hid := deviceId_lt no
  have hdevice : device (checkDev (int_arg no.no timeout)) = no.deviceId := by
    have := device_ofInt (no.no + t)
    rw [hdev]
    rw [no_eq] at this ⊢
    unfold DEVICES at hid
    omega
  have htimeout : timeOut (checkDev (int_arg no.no timeout)) = limit timeout := by
    have hmod : (no.no + t).bmod 65536 = t.bmod 65536 := by
      have hmul : 2 ^ 24 * (no.deviceId : Int) = ((65536 : Nat) : Int) * (256 * no.deviceId) := by
        omega
      rw [no_eq, Int.add_comm, hmul, Int.add_mul_bmod_self_left]
    rw [hdev, timeOut_ofInt, hmod, ht]
  refine ⟨hdevice, hdevice ▸ hid, htimeout, fun host port => ?_⟩
  exact htimeout ▸ doConn_inet _ host port

theorem faithful_none (no : IntNo) : Faithful no none :=
  faithful_of_sum (by decide) (le_refl _) rfl (by decide)

/-- Exactly the timeouts of a positive `short` and the two that stand for no
limit come out as they went in, with their device. -/
theorem faithful_iff (no : IntNo) (timeout : Option Int) :
    Faithful no timeout ↔
      timeout = none ∨ timeout = some (-1) ∨ ∃ t, timeout = some t ∧ 1 ≤ t ∧ t ≤ 32767 := by
  constructor
  · rintro ⟨hdevice, -, htimeout, -⟩
    cases timeout with
    | none => exact .inl rfl
    | some t =>
      by_cases ht : t = -1
      · exact .inr (.inl (congrArg some ht))
      refine .inr (.inr ⟨t, rfl, ?_⟩)
      have hrange := timeOut_range (checkDev (int_arg no.no (some t)))
      rw [htimeout] at hrange
      simp only [limit] at hrange
      simp only [int_arg, if_neg ht] at hdevice
      -- a negative timeout borrows from the device
      rw [checkDev_sum no (by omega)] at hdevice
      have hfield := device_ofInt (no.no + t)
      have hid := deviceId_lt no
      rw [hdevice, no_eq] at hfield
      unfold DEVICES at hid
      omega
  · rintro (rfl | rfl | ⟨t, rfl, h1, ht⟩)
    · exact faithful_none no
    · exact faithful_of_sum (t := 0x0000ffff) (by decide) (by decide) rfl (by decide)
    · have hbmod : t.bmod 65536 = t := Int.bmod_eq_of_le (by omega) (by omega)
      refine faithful_of_sum (t := t) (by omega) (by omega) ?_ ?_
      · simp only [int_arg, if_neg (show t ≠ -1 by omega)]
      · rw [hbmod, if_neg (by omega)]
        rfl

/-- A timeout of -2 asks the clock instead of the socket controller, 0 is no
limit and 65541 becomes 5. -/
theorem timeouts_changed :
    device (checkDev (int_arg IntNo.sock.no (some (-2)))) = 0 ∧
      timeOut (checkDev (int_arg IntNo.sock.no (some 0))) = -1 ∧
      timeOut (checkDev (int_arg IntNo.sock.no (some 65541))) = 5 ∧
      ¬∀ (no : IntNo) (timeout : Option Int), Faithful no timeout := by
  refine ⟨by decide, by decide, by decide, fun h => ?_⟩
  have htimeout := (h .sock (some 65541)).timeOut
  revert htimeout
  decide

end GalaLua.GLR
