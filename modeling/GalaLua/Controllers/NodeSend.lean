import GalaLua.Controllers.Framing

/-!
# Messages to another node

`DoNodeSend` on one node and `OnMessage` on the other one, with the link's
stream between them. The sender fills in the header in the order of the
network; `OnRecv` rewrites the length and `OnMessage` most other fields in the
order of the receiver.
-/

namespace GalaLua.Controllers.NodeSend

open Library GLR.Protocol Framing

/-- `assert(buf.size()<100*1024*1024)` -/
abbrev maxPayload : Nat := 104857600

/-- `Task(buf)` -/
def newTask (e : Endian) (buf : List Byte) : Option Message :=
  if buf.length < maxPayload then
    let m : Message := List.replicate (headerSize + buf.length) 0
    let m := setField e .length (e.htonl (buf.length + headerSize - 4)) m
    some (setContent buf m)
  else none

def putSendTask (e : Endian) (n : Node) (x : Send) : Option Message := do
  let m ← newTask e x.payload
  let m := setType APP m
  let m := setMagic m
  let m := setField e .corrId (e.htonl x.corrid.toNat) m
  let m := setField e .msgId (e.htonl x.msgid.toNat) m
  let m := setVersion m
  let m := setField e .toGpid (e.htonl x.dest.toNat) m
  let m := setHost n.host m
  let m := setField e .port (e.htonl n.nodeId.toNat) m
  let m := setField e .fromGpid (e.htonl x.self.toNat) m
  let m := setTime e x.time m
  return setField e .stamp (e.htonl (getField e .stamp m)) m

/-- The bytes for the stream, and what the sender gets back: the attributes
are a map to `int`. -/
def doNodeSend (e : Endian) (n : Node) (x : Send) : Option (Message × Attr) := do
  let m ← putSendTask e n x
  return (m, ⟨x.msgid.toInt, x.corrid.toInt, none⟩)

/-- `OnMessage` of an APP message: the destination and the message it gets. -/
def onApp (e : Endian) (m : Message) : BitVec 32 × Message :=
  let m := setField e .fromGpid (e.ntohl (getField e .fromGpid m)) m
  let m := setField e .port (e.ntohl (getField e .port m)) m
  let m := setField e .stamp (e.ntohl (getField e .stamp m)) m
  let m := setField e .msgId (e.ntohl (getField e .msgId m)) m
  let m := setField e .corrId (e.ntohl (getField e .corrId m)) m
  (BitVec.ofNat 32 (e.ntohl (getField e .toGpid m)), m)

-- ---------------------------------------------------------------------------
-- On the stream
-- ---------------------------------------------------------------------------

variable {e e' : Endian} {n : Node} {x : Send} {m : Message} {stamp : Nat}

/-- The message as `PutSendTask` leaves it. -/
theorem putSendTask_holds (hn : n.Fits) (hx : x.payload.length < maxPayload) :
    ∃ m, putSendTask e n x = some m ∧ Holds .big .big n x (x.stamp e) m ∧
      peek 24 4 m = Endian.big.encode 4 x.dest.toNat := by
  have hhost := hn.1
  simp only [putSendTask, newTask, if_pos hx, bind, Option.bind, pure, Option.some.injEq,
    exists_eq_left']
  refine ⟨?_, ?_⟩
  · constructor
    all_goals
      simp (disch := first | omega | (simp only [length_poke, List.length_replicate]; omega)) only
        [getField, setField, setType, setVersion, setMagic, setTime, setHost, setContent, Field.offset, headerSize,
          peek_poke_encode_of_disjoint, peek_poke_one_of_disjoint, peek_poke_of_disjoint, peek_poke_encode_self,
          peek_poke_one_self, peek_poke_self, Endian.encode_htonl]
    case size =>
      simp only [length_poke, List.length_replicate]
      omega
    case length => rfl
    case stamp => rw [peek_poke_take (by simp; omega) (by simp), Send.stamp]
    case nul => exact peek_replicate (by omega) 0
  · simp (disch := first | omega | (simp only [length_poke, List.length_replicate]; omega)) only
      [getField, setField, setType, setVersion, setMagic, setTime, setHost, setContent, Field.offset, headerSize,
        peek_poke_encode_of_disjoint, peek_poke_of_disjoint, peek_poke_encode_self, Endian.encode_htonl]

theorem length_frame {l o : Endian} (h : Holds l o n x stamp m) :
    (m.drop 4).length = x.payload.length + 60 := by
  rw [List.length_drop, h.size]
  rfl

theorem wire_of_holds (h : Holds .big .big n x stamp m) : Frame.wire (m.drop 4) = m := by
  have hhead : m.take 4 = Endian.big.encode 4 (x.payload.length + 60) := h.length
  rw [Frame.wire, length_frame h, ← hhead, List.take_append_drop]

/-- The buffer of the receiver: the length is in the receiver's order. -/
theorem buffer_of_holds {c : Bool} (h : Holds .big .big n x stamp m) :
    Frame.buffer ⟨e', c⟩ (m.drop 4) = poke 0 (e'.encode 4 (x.payload.length + 60)) m := by
  have hsize : (e'.encode 4 (x.payload.length + 60)).length ≤ m.length := by
    rw [h.size, Endian.length_encode, headerSize]
    omega
  have hpoke := poke_append (m := []) List.length_nil hsize
  rw [List.nil_append, List.nil_append, Endian.length_encode] at hpoke
  rw [Frame.buffer, length_frame h, hpoke]

theorem holds_of_buffer {l : Endian} (h : Holds l .big n x stamp m) :
    Holds e' .big n x stamp (poke 0 (e'.encode 4 (x.payload.length + 60)) m) := by
  have hsize : m.length = x.payload.length + 64 := h.size
  constructor
  case size => rw [length_poke, h.size]
  case length => exact peek_poke_self (by omega) (by simp)
  case type => rw [peek_poke_of_disjoint (by simp), h.type]
  case stamp => rw [peek_poke_of_disjoint (by simp), h.stamp]
  case fromGpid => rw [peek_poke_of_disjoint (by simp), h.fromGpid]
  case corrId => rw [peek_poke_of_disjoint (by simp), h.corrId]
  case msgId => rw [peek_poke_of_disjoint (by simp), h.msgId]
  case port => rw [peek_poke_of_disjoint (by simp), h.port]
  case host => rw [peek_poke_of_disjoint (by simp), h.host]
  case nul => rw [peek_poke_of_disjoint (by simp; omega), h.nul]
  case content => rw [peek_poke_of_disjoint (by simp [headerSize]), h.content]

-- ---------------------------------------------------------------------------
-- At the receiver
-- ---------------------------------------------------------------------------

/-- `OnMessage` brings the fields it converts into the order of the host. -/
theorem onApp_holds (hn : n.Fits) (hs : stamp < 2 ^ 32) (h : Holds e .big n x stamp m) :
    Holds e e n x stamp (onApp e m).2 := by
  have hhost := hn.1
  have hsize : m.length = x.payload.length + 64 := h.size
  have hword : ∀ v : BitVec 32, e.ntohl (e.decode (Endian.big.encode 4 v.toNat)) = v.toNat :=
    fun v => e.ntohl_decode_encode v.isLt
  constructor
  all_goals
    simp (disch := first | omega | (simp only [length_poke]; omega)) only
      [onApp, getField, setField, Field.offset, headerSize, peek_poke_encode_of_disjoint, peek_poke_encode_self,
        h.fromGpid, h.port, h.stamp, h.msgId, h.corrId, hword, e.ntohl_decode_encode hs]
  case size => simpa only [length_poke] using hsize
  case type => exact h.type
  case length => exact h.length
  case host => exact h.host
  case nul => exact h.nul
  case content => exact h.content

theorem onApp_dest (h : peek 24 4 m = Endian.big.encode 4 x.dest.toNat) :
    (onApp e m).1 = x.dest := by
  simp (disch := simp) only [onApp, getField, setField, Field.offset, peek_poke_of_disjoint, h,
    e.ntohl_decode_encode x.dest.isLt, BitVec.ofNat_toNat, BitVec.setWidth_eq]

theorem onMessage_of_holds {l o : Endian} (h : Holds l o n x stamp m) (w : World) :
    onMessage w m = .returned := by
  have hsize : m.length = x.payload.length + 64 := h.size
  have hseven : m[7]? = some APP := by
    have := congrArg (·[0]?) h.type
    simpa [getElem?_peek] using this
  have htype : msgType w m = APP := by
    rw [msgType, List.getElem?_append_left (by omega), hseven]
    rfl
  rw [onMessage, htype, if_neg (by decide)]

/-- The stream brings the message to one call of `OnMessage`, in whatever
portions it arrives. -/
theorem received_of_holds (hx : x.payload.length < maxPayload) (h : Holds .big .big n x stamp m)
    {p : Platform} {w : Nat → World} {ks : List Nat} (hks : ∀ k ∈ ks, 0 < k)
    (heof : NoEOF p w (.init m) ks) (hlen : m.length ≤ ks.length) :
    ((Framing.State.init m).run p w ks).calls =
      [poke 0 (p.endian.encode 4 (x.payload.length + 60)) m] := by
  have hmax : x.payload.length < 104857600 := hx
  have hwire : wires [m.drop 4] = m := by simp [wires, wire_of_holds h]
  have hbuffer : Frame.buffer p (m.drop 4) =
      poke 0 (p.endian.encode 4 (x.payload.length + 60)) m := buffer_of_holds h
  have hproper : ∀ f ∈ [m.drop 4], Frame.Proper f := by
    rintro f hf
    rw [List.mem_singleton.mp hf, Frame.Proper, length_frame h]
    omega
  have hpass : AllPass p w [m.drop 4] := by
    rintro i f hf
    obtain ⟨rfl, rfl⟩ : i = 0 ∧ m.drop 4 = f := by
      cases i with
      | zero => simpa using hf
      | succ i => simp at hf
    refine ⟨by rw [length_frame h, limit]; omega, ?_⟩
    rw [hbuffer]
    exact onMessage_of_holds (holds_of_buffer h) _
  have hinit := init_stage p w [m.drop 4]
  rw [hwire] at hinit
  have hend := run_to_end hproper hks heof hinit hlen
  rw [ended_of_allPass hend hpass, List.map_singleton, hbuffer]

-- ---------------------------------------------------------------------------
-- The two ways
-- ---------------------------------------------------------------------------

/-- A send on the same node and a send to another one, of either byte order:
the destination gets the same, and the sender the same identifiers. -/
theorem node_send_same (e : Endian) (n : Node) (x : Send) (p : Platform) (w : Nat → World)
    (hn : n.Fits) (hx : x.payload.length < maxPayload) :
    ∃ m attr, doNodeSend e n x = some (m, attr) ∧
      -- on the same node
      (sendMsgToNode e n x).1 = x.dest ∧
      buildMessageReturnValues e (sendMsgToNode e n x).2.1 = view n x (x.stamp e) ∧
      -- on the other node, in whatever portions the bytes arrive
      (∀ ks, (∀ k ∈ ks, 0 < k) → NoEOF p w (.init m) ks → m.length ≤ ks.length →
        ∃ b, ((Framing.State.init m).run p w ks).calls = [b] ∧ (onApp p.endian b).1 = x.dest ∧
          buildMessageReturnValues p.endian (onApp p.endian b).2 = view n x (x.stamp e)) ∧
      -- the sender
      attr.msgid = (view n x (x.stamp e)).msgid ∧ attr.corrid = (view n x (x.stamp e)).corrid ∧
      (x.msgid.msb = false → (sendMsgToNode e n x).2.2.msgid = (view n x (x.stamp e)).msgid) ∧
      (x.corrid.msb = false → (sendMsgToNode e n x).2.2.corrid = (view n x (x.stamp e)).corrid) := by
  have hmax : x.payload.length < 104857600 := hx
  have hshort : x.payload.length < 2 ^ 31 := by omega
  have hs := stamp_lt e x
  obtain ⟨m, hm, hholds, hdest⟩ := putSendTask_holds (e := e) hn hx
  have hsend : doNodeSend e n x = some (m, ⟨x.msgid.toInt, x.corrid.toInt, none⟩) := by
    simp [doNodeSend, hm]
  refine ⟨m, _, hsend, ?_⟩
  simp only [sendMsgToNode, view, true_and]
  refine ⟨?_, ?_, ?_, ?_⟩
  · exact build_of_holds (pack_holds hn) hn hs hshort
  · intro ks hks heof hlen
    have hbuffer : Holds p.endian .big n x (x.stamp e) _ := holds_of_buffer hholds
    refine ⟨_, received_of_holds hx hholds hks heof hlen, ?_, ?_⟩
    · exact onApp_dest ((peek_poke_of_disjoint (by simp)).trans hdest)
    · exact build_of_holds (onApp_holds hn hs hbuffer) hn hs hshort
  · exact fun h => (BitVec.toInt_eq_toNat_of_msb h).symm
  · exact fun h => (BitVec.toInt_eq_toNat_of_msb h).symm

/-- A payload with a zero in it, from a little-endian node "n1" to a big-endian
one, byte by byte. -/
theorem node_send_same_nul :
    ∃ m b, (doNodeSend .little ⟨[0x6e, 0x31], 8000⟩ ⟨129, 130, 7, 0, 1360000000, [0x68, 0, 0x69]⟩).map
        Prod.fst = some m ∧
      ((Framing.State.init m).run ⟨.big, false⟩ (fun _ => ⟨0, some true, false⟩)
        (List.replicate m.length 1)).calls = [b] ∧
      buildMessageReturnValues .big (onApp .big b).2 =
        ⟨APP, [0x6e, 0x31], 8000, 129, 1360000000, 7, 0, some [0x68, 0, 0x69]⟩ := by
  obtain ⟨m, attr, hsend, -, -, hremote, -⟩ := node_send_same .little ⟨[0x6e, 0x31], 8000⟩
    ⟨129, 130, 7, 0, 1360000000, [0x68, 0, 0x69]⟩ ⟨.big, false⟩ (fun _ => ⟨0, some true, false⟩)
    (by decide) (by decide)
  obtain ⟨b, hcalls, -, hb⟩ := hremote (List.replicate m.length 1) (by simp)
    (fun t _ h => Bool.false_ne_true h.1) (by simp)
  refine ⟨m, b, by rw [hsend]; rfl, hcalls, hb.trans ?_⟩
  decide

/-- An empty payload is received as `nil`. -/
theorem empty_payload_is_nil :
    ¬ ∀ (e : Endian) (n : Node) (x : Send), n.Fits → x.payload.length < maxPayload →
      (buildMessageReturnValues e (sendMsgToNode e n x).2.1).content = some x.payload := by
  intro h
  have hfits : Node.Fits ⟨[0x6e, 0x31], 8000⟩ := by decide
  have hcontent := h .little ⟨[0x6e, 0x31], 8000⟩ ⟨129, 130, 7, 0, 1360000000, []⟩ hfits
    (by decide)
  rw [sendMsgToNode, build_of_holds (pack_holds hfits) hfits (stamp_lt _ _) (by decide)] at hcontent
  simp [view] at hcontent

end GalaLua.Controllers.NodeSend
