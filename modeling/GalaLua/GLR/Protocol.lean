import GalaLua.Library.Bytes

/-!
# Messages in memory

`GLRPROTOCOL` is packed, so a message is a string of bytes with its fields at
fixed offsets and the content behind them. `Process::SendMsgToNode` fills in
the fields in the order of the host; `BuildMessageReturnValues` is what a
process gets of a message.
-/

namespace GalaLua.GLR.Protocol

open Library

/-- `sizeof(GLRPROTOCOL)` -/
abbrev headerSize : Nat := 64

abbrev REGISTER : Byte := 0

abbrev APP : Byte := 3

abbrev Message := List Byte

-- ---------------------------------------------------------------------------
-- Fields
-- ---------------------------------------------------------------------------

inductive Field
  | length
  | stamp
  | fromGpid
  | toGpid
  | corrId
  | msgId
  | port
  deriving DecidableEq, Repr

def Field.offset : Field → Nat
  | .length => 0
  | .stamp => 8
  | .fromGpid => 16
  | .toGpid => 24
  | .corrId => 28
  | .msgId => 32
  | .port => 60

def getField (e : Endian) (f : Field) (m : Message) : Nat := e.decode (peek f.offset 4 m)

def setField (e : Endian) (f : Field) (v : Nat) (m : Message) : Message :=
  poke f.offset (e.encode 4 v) m

def setType (t : Byte) (m : Message) : Message := poke 7 [t] m

def setVersion (m : Message) : Message := poke 6 [2] m

/-- `_Magic[0] = 'G'`, `_Magic[1] = 'L'` -/
def setMagic (m : Message) : Message := poke 5 [0x4c] (poke 4 [0x47] m)

/-- `CRT_time((time_t*)&head->_Protocol._Stamp)` stores eight bytes. -/
def setTime (e : Endian) (time : BitVec 64) (m : Message) : Message :=
  poke 8 (e.encode 8 time.toNat) m

/-- `memcpy(head->_Host._V2._Host, ...)` of the whole host, into 24 bytes. -/
def setHost (host : List Byte) (m : Message) : Message := poke 36 host m

def setContent (content : List Byte) (m : Message) : Message := poke headerSize content m

-- ---------------------------------------------------------------------------
-- Sending and receiving
-- ---------------------------------------------------------------------------

/-- `Runtime::Host()` and `Runtime::NodeId()` -/
structure Node where
  host : List Byte
  nodeId : BitVec 32
  deriving DecidableEq, Repr

/-- One send: the `__id__` of the sender, the destination, the attributes, the
time at which the header is filled in, and the payload. -/
structure Send where
  self : BitVec 32
  dest : BitVec 32
  msgid : BitVec 32
  corrid : BitVec 32
  time : BitVec 64
  payload : List Byte
  deriving DecidableEq, Repr

/-- What a send returns; `stamp` is there for a send on the same node. -/
structure Attr where
  msgid : Int
  corrid : Int
  stamp : Option Nat
  deriving DecidableEq, Repr

/-- The message `SendMsgToNode` puts together. -/
def pack (e : Endian) (n : Node) (x : Send) : Message :=
  let m : Message := List.replicate (x.payload.length + headerSize) 0
  let m := setType APP m
  let m := setVersion m
  let m := setTime e x.time m
  let m := setField e .msgId x.msgid.toNat m
  let m := setField e .corrId x.corrid.toNat m
  let m := setField e .toGpid x.dest.toNat m
  let m := setField e .length (x.payload.length + headerSize - 4) m
  let m := setField e .fromGpid x.self.toNat m
  let m := setField e .port n.nodeId.toNat m
  let m := setHost n.host m
  setContent x.payload m

/-- The destination, the message it gets and what the sender gets back:
`lua_pushinteger` of unsigned values. -/
def sendMsgToNode (e : Endian) (n : Node) (x : Send) : BitVec 32 × Message × Attr :=
  let m := pack e n x
  (x.dest, m, ⟨x.msgid.toNat, x.corrid.toNat, some (getField e .stamp m)⟩)

/-- What `Recieve` returns. -/
@[ext]
structure Received where
  type : Byte
  host : List Byte
  port : Nat
  gpid : Nat
  stamp : Nat
  msgid : Int
  corrid : Int
  content : Option (List Byte)
  deriving DecidableEq, Repr

/-- `(int)` of a 32-bit value. -/
def toInt (v : Nat) : Int := (BitVec.ofNat 32 v).toInt

def cString (m : List Byte) : List Byte := m.takeWhile (· ≠ 0)

/-- `int len = _Length - sizeof(*head) + 4` -/
def contentLength (e : Endian) (m : Message) : Int := toInt (getField e .length m + (2 ^ 32 - 60))

def buildMessageReturnValues (e : Endian) (m : Message) : Received where
  type := (peek 7 1 m).headD 0
  host := cString (m.drop 36)
  port := getField e .port m
  gpid := getField e .fromGpid m
  stamp := getField e .stamp m
  msgid := toInt (getField e .msgId m)
  corrid := toInt (getField e .corrId m)
  content :=
    if 0 < contentLength e m then some (peek headerSize (contentLength e m).toNat m) else none

-- ---------------------------------------------------------------------------
-- What a message holds
-- ---------------------------------------------------------------------------

/-- The time stamp: the first half of the eight bytes. -/
def Send.stamp (e : Endian) (x : Send) : Nat := e.decode ((e.encode 8 x.time.toNat).take 4)

/-- The bytes of a message of `x`, with the length in the order `l` and the
other fields in the order `o`. -/
structure Holds (l o : Endian) (n : Node) (x : Send) (stamp : Nat) (m : Message) : Prop where
  size : m.length = x.payload.length + headerSize
  type : peek 7 1 m = [APP]
  length : peek 0 4 m = l.encode 4 (x.payload.length + 60)
  stamp : peek 8 4 m = o.encode 4 stamp
  fromGpid : peek 16 4 m = o.encode 4 x.self.toNat
  corrId : peek 28 4 m = o.encode 4 x.corrid.toNat
  msgId : peek 32 4 m = o.encode 4 x.msgid.toNat
  port : peek 60 4 m = o.encode 4 n.nodeId.toNat
  host : peek 36 n.host.length m = n.host
  nul : peek (36 + n.host.length) 1 m = [0]
  content : peek headerSize x.payload.length m = x.payload

/-- The host fits the field, with a zero behind it. -/
def Node.Fits (n : Node) : Prop := n.host.length < 24 ∧ (0 : Byte) ∉ n.host

instance (n : Node) : Decidable n.Fits := inferInstanceAs (Decidable (_ ∧ _))

variable {e l o : Endian} {n : Node} {x : Send} {m : Message} {stamp : Nat}

theorem encode_stamp (e : Endian) (x : Send) :
    e.encode 4 (x.stamp e) = (e.encode 8 x.time.toNat).take 4 := by
  have h := e.encode_decode ((e.encode 8 x.time.toNat).take 4)
  rwa [List.length_take, Endian.length_encode] at h

theorem stamp_lt (e : Endian) (x : Send) : x.stamp e < 2 ^ 32 := by
  have h := e.decode_lt ((e.encode 8 x.time.toNat).take 4)
  rwa [List.length_take, Endian.length_encode] at h

theorem pack_holds (hn : n.Fits) : Holds e e n x (x.stamp e) (pack e n x) := by
  have hhost := hn.1
  constructor
  all_goals
    unfold pack
    simp (disch := first | omega | (simp only [length_poke, List.length_replicate]; omega)) only
      [setField, setType, setVersion, setTime, setHost, setContent, Field.offset, headerSize,
        peek_poke_encode_of_disjoint, peek_poke_one_of_disjoint, peek_poke_of_disjoint, peek_poke_encode_self,
        peek_poke_one_self, peek_poke_self]
  case size => simp
  case length => rfl
  case stamp => rw [encode_stamp, peek_poke_take (by simp) (by simp)]
  case nul => exact peek_replicate (by omega) 0

theorem cString_drop {i : Nat} {h : List Byte} (hm : peek i h.length m = h) (h0 : (0 : Byte) ∉ h)
    (hnul : peek (i + h.length) 1 m = [0]) : cString (m.drop i) = h := by
  have hsplit : m.drop i = h ++ m.drop (i + h.length) := by
    rw [← List.drop_drop]
    conv => lhs; rw [← List.take_append_drop h.length (m.drop i)]
    rw [show (m.drop i).take h.length = h from hm]
  have htail : ∃ t, m.drop (i + h.length) = 0 :: t := by
    cases hd : m.drop (i + h.length) with
    | nil => simp [peek, hd] at hnul
    | cons b t =>
      simp only [peek, hd, List.take_succ_cons, List.take_zero, List.cons.injEq, and_true] at hnul
      exact ⟨t, by rw [hnul]⟩
  obtain ⟨t, ht⟩ := htail
  rw [hsplit, ht, cString, List.takeWhile_append_of_pos]
  · simp
  · intro b hb
    simpa using ne_of_mem_of_not_mem hb h0

/-- What a receiver gets of a send: of an empty payload it gets `nil`. -/
def view (n : Node) (x : Send) (stamp : Nat) : Received where
  type := APP
  host := n.host
  port := n.nodeId.toNat
  gpid := x.self.toNat
  stamp := stamp
  msgid := x.msgid.toInt
  corrid := x.corrid.toInt
  content := if x.payload = [] then none else some x.payload

theorem decode_encode_toNat (e : Endian) (v : BitVec 32) :
    e.decode (e.encode 4 v.toNat) = v.toNat :=
  e.decode_encode_four v.isLt

theorem toInt_toNat (v : BitVec 32) : toInt v.toNat = v.toInt := by
  simp [toInt]

theorem contentLength_eq (hm : peek 0 4 m = e.encode 4 (x.payload.length + 60))
    (hx : x.payload.length < 2 ^ 31) : contentLength e m = x.payload.length := by
  have hget : getField e .length m = x.payload.length + 60 := by
    rw [getField, Field.offset, hm, Endian.decode_encode_four _ (by omega)]
  have hsum : BitVec.ofNat 32 (x.payload.length + 60 + (2 ^ 32 - 60)) =
      BitVec.ofNat 32 x.payload.length := by
    apply BitVec.eq_of_toNat_eq
    rw [BitVec.toNat_ofNat, BitVec.toNat_ofNat]
    omega
  have hnat : (BitVec.ofNat 32 x.payload.length).toNat = x.payload.length := by
    rw [BitVec.toNat_ofNat]
    omega
  rw [contentLength, hget, toInt, hsum, BitVec.toInt_eq_toNat_of_lt (by omega), hnat]

/-- A message with its bytes in the order of the host is read as the send. -/
theorem build_of_holds (h : Holds e e n x stamp m) (hn : n.Fits) (hs : stamp < 2 ^ 32)
    (hx : x.payload.length < 2 ^ 31) : buildMessageReturnValues e m = view n x stamp := by
  have hlen := contentLength_eq h.length hx
  have hget : ∀ (f : Field) (v : BitVec 32), peek f.offset 4 m = e.encode 4 v.toNat →
      getField e f m = v.toNat := by
    intro f v hv
    rw [getField, hv, decode_encode_toNat]
  apply Received.ext
  all_goals simp only [buildMessageReturnValues, view]
  · rw [h.type]
    rfl
  · exact cString_drop h.host hn.2 h.nul
  · exact hget .port _ h.port
  · exact hget .fromGpid _ h.fromGpid
  · rw [getField, Field.offset, h.stamp, Endian.decode_encode_four _ hs]
  · rw [hget .msgId _ h.msgId, toInt_toNat]
  · rw [hget .corrId _ h.corrId, toInt_toNat]
  · rw [hlen, Int.toNat_natCast, h.content]
    cases x.payload with
    | nil => simp
    | cons b bs => simp

end GalaLua.GLR.Protocol
