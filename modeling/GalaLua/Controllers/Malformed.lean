import GalaLua.Controllers.NodeSend
import Mathlib.Data.List.TakeWhile

/-!
# Malformed frames

What `OnRecv` and `OnMessage` touch of the receive buffer, for any frame that a
peer can announce. `OnRecv` stays inside; `OnMessage` reads the type of every
frame and only checks the size of a REGISTER, so that a frame is safe exactly if
it reaches up to its type and is no APP message shorter than the header
(`frame_safe_iff`). `onMessage_outcome` ties what is read here to what the bus
does with the frame.
-/

namespace GalaLua.Controllers.Framing

open Library GLR.Protocol

structure Access where
  write : Bool
  off : Nat
  len : Nat
  deriving DecidableEq, Repr

/-- Inside a string of `size` bytes; the zero behind them may be read. -/
def Access.Inside (size : Nat) (a : Access) : Prop :=
  a.off + a.len ≤ if a.write then size else size + 1

instance (size : Nat) (a : Access) : Decidable (a.Inside size) := inferInstanceAs (Decidable (_ ≤ _))

-- ---------------------------------------------------------------------------
-- OnMessage
-- ---------------------------------------------------------------------------

/-- A call of `OnMessage`: the accesses to its buffer, how it ends, and the
destination and the message of `Bus::Send`. -/
structure Trace where
  accesses : List Access
  outcome : Outcome
  delivered : Option (BitVec 32 × List Byte) := none

/-- A host ends with its first zero, at the latest with that of the string. -/
def hostLength (msg : List Byte) : Nat := (((msg ++ [0]).drop 36).takeWhile (· ≠ 0)).length

/-- `_Host` as a string, and `_Port`. -/
def readId (msg : List Byte) : List Access := [⟨false, 36, hostLength msg + 1⟩, ⟨false, 60, 4⟩]

/-- A field is converted in place. -/
def convert (off : Nat) : List Access := [⟨false, off, 4⟩, ⟨true, off, 4⟩]

def OnMessage (p : Platform) (w : World) (msg : List Byte) : Trace :=
  let type : Access := ⟨false, 7, 1⟩
  if msgType w msg = REGISTER then
    if msg.length < headerSize then ⟨[type], .thrown, none⟩
    else
      -- REGISTER_OK and the length are written, and the header is sent back
      let answer := type :: readId msg ++ [⟨true, 7, 1⟩, ⟨true, 0, 4⟩, ⟨false, 0, headerSize⟩]
      match w.segmentSend with
      | none => ⟨answer, .thrown, none⟩
      | some false => ⟨answer, .closed, none⟩
      | some true =>
        if w.hasKey then ⟨answer, .closed, none⟩ else ⟨answer ++ readId msg, .returned, none⟩
  else if msgType w msg = APP then
    ⟨type :: convert 16 ++ convert 60 ++ convert 8 ++ convert 32 ++ convert 28 ++ [⟨false, 24, 4⟩],
      .returned, some (NodeSend.onApp p.endian msg)⟩
  else ⟨[type], .returned, none⟩

structure Trace.Safe (t : Trace) (size : Nat) : Prop where
  inside : ∀ a ∈ t.accesses, a.Inside size
  delivered : t.delivered.isSome → headerSize ≤ size

-- ---------------------------------------------------------------------------
-- OnRecv
-- ---------------------------------------------------------------------------

/-- The accesses of a call of `OnRecv`, each with the size of its object: what
`Recv` may store into the length word or the buffer, and the length at the
front of a new buffer. -/
def State.accesses (p : Platform) (w : Nat → World) (s : State) (k : Nat) : List (Nat × Access) :=
  let s' := s.step p w k
  if s.task.headCurrent < 4 then
    (4, ⟨true, s.task.headCurrent, s.task.request⟩) ::
      if s'.task.headCurrent = 4 ∧ s'.thrown = none then [(s'.task.buffer.length, ⟨true, 0, 4⟩)] else []
  else [(s.task.buffer.length, ⟨true, s.task.current, s.task.request⟩)]

/-- A call of `OnRecv` with the call of `OnMessage` that it makes. -/
structure TurnSafe (p : Platform) (w : Nat → World) (s : State) (k : Nat) : Prop where
  inside : s.thrown = none → ∀ a ∈ s.accesses p w k, a.2.Inside a.1
  message : ∀ b, (s.step p w k).calls = s.calls ++ [b] → (OnMessage p (w s.calls.length) b).Safe b.length

/-- A frame on a link, in any portions, whatever lies behind the buffers. -/
def Frame.Safe (p : Platform) (f : Frame) : Prop :=
  ∀ w ks, ∀ t ∈ turns (State.step p w) (State.init f.wire) ks, TurnSafe p w t.1 t.2

/-- The frame is empty or taken for a close, or it has a type and is as long as
its type demands. -/
def Frame.Covered (p : Platform) (f : Frame) : Prop :=
  f = [] ∨ isEOF p f ∨ 3 ≤ f.length ∧ (f[3]? = some APP → 60 ≤ f.length)

instance (p : Platform) (f : Frame) : Decidable (f.Covered p) := inferInstanceAs (Decidable (_ ∨ _))

-- ---------------------------------------------------------------------------
-- One message
-- ---------------------------------------------------------------------------

variable {p : Platform} {w : World} {ws : Nat → World} {msg : List Byte} {s : State} {k : Nat} {f : Frame}

/-- The calls are those of the model of the link. -/
theorem onMessage_outcome (p : Platform) (w : World) (msg : List Byte) :
    (OnMessage p w msg).outcome = onMessage w msg := by
  unfold OnMessage onMessage
  dsimp only
  split
  · split
    · rfl
    · cases w.segmentSend with
      | none => rfl
      | some b =>
        cases b with
        | false => rfl
        | true =>
          dsimp only
          split <;> rfl
  · split <;> rfl

theorem hostLength_inside (h : 36 ≤ msg.length) : 36 + (hostLength msg + 1) ≤ msg.length + 1 := by
  have hsub := List.takeWhile_prefix (p := fun b : Byte => decide (b ≠ 0)) (l := (msg ++ [0]).drop 36)
  have hle := hsub.length_le
  have hne : hostLength msg ≠ ((msg ++ [0]).drop 36).length := by
    intro hall
    have hzero : (0 : Byte) ∈ (msg ++ [0]).drop 36 := by
      rw [List.drop_append_of_le_length h]
      simp
    rw [← hsub.eq_of_length hall] at hzero
    simpa using List.mem_takeWhile_imp hzero
  rw [List.length_drop, List.length_append, List.length_singleton] at hle hne
  change hostLength msg ≤ _ at hle
  omega

/-- The string of the host is looked at only behind the check of the size. -/
theorem onMessage_safe_iff (p : Platform) (w : World) (msg : List Byte) :
    (OnMessage p w msg).Safe msg.length ↔
      7 ≤ msg.length ∧ (msgType w msg = APP → headerSize ≤ msg.length) := by
  by_cases htype : 7 ≤ msg.length
  · by_cases hreg : msgType w msg = REGISTER
    · refine iff_of_true ?_ ⟨htype, fun happ => absurd (hreg.symm.trans happ) (by decide)⟩
      unfold OnMessage
      by_cases hshort : msg.length < headerSize
      · simp only [if_pos hreg, if_pos hshort]
        exact ⟨by simp [Access.Inside]; omega, nofun⟩
      · have hsize : 64 ≤ msg.length := Nat.le_of_not_lt hshort
        have hhost := hostLength_inside (show 36 ≤ msg.length by omega)
        have hinside : ∀ a ∈ (⟨false, 7, 1⟩ : Access) :: readId msg ++
            [⟨true, 7, 1⟩, ⟨true, 0, 4⟩, ⟨false, 0, headerSize⟩] ++ readId msg, a.Inside msg.length := by
          simp [Access.Inside, readId, headerSize]
          omega
        have hanswer := fun a ha => hinside a (List.mem_append_left _ ha)
        simp only [if_pos hreg, if_neg hshort]
        cases w.segmentSend with
        | none => exact ⟨hanswer, nofun⟩
        | some b =>
          cases b with
          | false => exact ⟨hanswer, nofun⟩
          | true =>
            dsimp only
            split
            · exact ⟨hanswer, nofun⟩
            · exact ⟨hinside, nofun⟩
    · by_cases happ : msgType w msg = APP
      · simp only [OnMessage, htype, happ, true_and, true_implies]
        refine ⟨fun h => h.delivered rfl, fun hsize => ⟨?_, fun _ => hsize⟩⟩
        have hsize : 64 ≤ msg.length := hsize
        simp [Access.Inside, convert]
        omega
      · simp only [OnMessage, if_neg hreg, if_neg happ]
        exact iff_of_true ⟨by simp [Access.Inside]; omega, nofun⟩ ⟨htype, fun h => absurd h happ⟩
  · refine iff_of_false (fun h => htype ?_) fun h => htype h.1
    have hread : (⟨false, 7, 1⟩ : Access).Inside msg.length := by
      refine h.inside _ ?_
      unfold OnMessage
      dsimp only
      split
      · split
        · simp
        · cases w.segmentSend with
          | none => simp
          | some b =>
            cases b with
            | false => simp
            | true =>
              dsimp only
              split <;> simp
      · split <;> simp
    have hle : 7 + 1 ≤ msg.length + 1 := hread
    omega

-- ---------------------------------------------------------------------------
-- One call of OnRecv
-- ---------------------------------------------------------------------------

/-- The cursors of the receive task are inside their objects. -/
structure Task.Ok (t : Task) : Prop where
  head : t.headCurrent ≤ 4
  size : t.headCurrent = 4 → t.buffer.length = t.len + 4
  current : t.headCurrent = 4 → 4 ≤ t.current ∧ t.current ≤ t.len + 4

theorem length_resize (n : Nat) (b : List Byte) : (resize n b).length = n := by
  rw [resize, List.length_append, List.length_take, List.length_replicate]
  omega

theorem openBuffer_ok {t : Task} (h : t.headCurrent = 4) : (t.openBuffer p).Ok where
  head := Nat.le_of_eq h
  size _ := by
    simp only [Task.openBuffer, length_poke, length_resize]
  current _ := ⟨Nat.le_refl 4, Nat.le_add_left 4 _⟩

theorem init_ok : Task.init.Ok := ⟨Nat.zero_le 4, nofun, nofun⟩

theorem recv_ok_iff {n : Nat} {data : List Byte} (h : s.recv p k n = .ok data) :
    s.isOpen ∧ data = s.taken k n ∧ data ≠ [] ∧ ¬isEOF p data := by
  unfold State.recv at h
  split at h
  · cases h
  · next hopen =>
    split at h
    · cases h
    · next hne =>
      split at h
      · cases h
      · next heof =>
        obtain rfl := Except.ok.inj h
        exact ⟨(Bool.not_eq_false _).mp hopen, rfl, hne, heof⟩

/-- A call of `OnRecv`: there is none, `Recv` throws, or it has some bytes. -/
theorem step_cases (p : Platform) (w : Nat → World) (s : State) (k : Nat) :
    s.step p w k = s ∨ (∃ x, s.step p w k = { s with thrown := some x }) ∨
      (s.thrown = none ∧ s.isOpen) ∧ s.taken k s.task.request ≠ [] ∧
        ¬isEOF p (s.taken k s.task.request) ∧
        s.step p w k =
          if s.task.headCurrent < 4 then s.onHead p (s.taken k s.task.request)
          else s.onBody (w s.calls.length) (s.taken k s.task.request) := by
  unfold State.step
  split
  · exact .inl rfl
  · next hrun =>
    have hnone : s.thrown = none := by
      cases ht : s.thrown with
      | none => rfl
      | some x => exact absurd (.inl (by rw [ht]; rfl)) hrun
    unfold State.onRecv
    cases hr : s.recv p k s.task.request with
    | error x => exact .inr (.inl ⟨x, rfl⟩)
    | ok data =>
      obtain ⟨hopen, rfl, hne, heof⟩ := recv_ok_iff hr
      exact .inr (.inr ⟨⟨hnone, hopen⟩, hne, heof, rfl⟩)

theorem length_taken_le (s : State) (k n : Nat) : (s.taken k n).length ≤ n := by
  rw [State.taken, List.length_take]
  omega

theorem onHead_ok {data : List Byte} (hhead : s.task.headCurrent < 4)
    (hdata : data.length ≤ s.task.request) :
    ((s.onHead p data).thrown = none → (s.onHead p data).task.Ok) := by
  rw [Task.request, if_pos hhead] at hdata
  unfold State.onHead
  dsimp only
  split
  · next hfour =>
    split
    · nofun
    · exact fun _ => openBuffer_ok hfour
  · next hmore =>
    intro _
    have hcur : (s.task.putHead p data).headCurrent = s.task.headCurrent + data.length := rfl
    exact ⟨by rw [hcur]; omega, fun h4 => absurd h4 hmore, fun h4 => absurd h4 hmore⟩

theorem onBody_ok {w : World} {data : List Byte} (h : s.task.Ok) (hhead : ¬s.task.headCurrent < 4)
    (hdata : data.length ≤ s.task.request) :
    ((s.onBody w data).thrown = none → (s.onBody w data).task.Ok) := by
  rw [Task.request, if_neg hhead] at hdata
  have hfour : s.task.headCurrent = 4 := Nat.le_antisymm h.head (Nat.le_of_not_lt hhead)
  obtain ⟨hlo, hhi⟩ := h.current hfour
  unfold State.onBody
  dsimp only
  split
  · cases onMessage w (s.task.putBody data).buffer with
    | returned => exact fun _ => init_ok
    | closed => exact fun _ => init_ok
    | thrown => nofun
  · intro _
    refine ⟨h.head, fun _ => ?_, fun _ => ?_⟩
    · simp only [Task.putBody, length_poke]
      exact h.size hfour
    · show 4 ≤ s.task.current + data.length ∧ s.task.current + data.length ≤ s.task.len + 4
      omega

theorem step_ok (h : s.thrown = none → s.task.Ok) (k : Nat) :
    (s.step p ws k).thrown = none → (s.step p ws k).task.Ok := by
  have hdata := length_taken_le s k s.task.request
  obtain hs | ⟨x, hs⟩ | ⟨⟨hnone, -⟩, -, -, hs⟩ := step_cases p ws s k
  · rw [hs]
    exact h
  · rw [hs]
    nofun
  · rw [hs]
    split
    · next hhead => exact onHead_ok hhead hdata
    · next hhead => exact onBody_ok (h hnone) hhead hdata

/-- `OnRecv` itself stays inside, whatever the peer sends. -/
theorem accesses_inside (h : s.thrown = none → s.task.Ok) (k : Nat) (hnone : s.thrown = none) :
    ∀ a ∈ s.accesses p ws k, a.2.Inside a.1 := by
  have hok := h hnone
  unfold State.accesses
  dsimp only
  by_cases hhead : s.task.headCurrent < 4
  · rw [if_pos hhead]
    refine List.forall_mem_cons.mpr ⟨?_, ?_⟩
    · show s.task.headCurrent + s.task.request ≤ 4
      rw [Task.request, if_pos hhead]
      omega
    · split
      · next hopen =>
        refine List.forall_mem_singleton.mpr ?_
        show 0 + 4 ≤ (s.step p ws k).task.buffer.length
        rw [(step_ok h k hopen.2).size hopen.1]
        omega
      · nofun
  · rw [if_neg hhead]
    refine List.forall_mem_singleton.mpr ?_
    have hfour : s.task.headCurrent = 4 := Nat.le_antisymm hok.head (Nat.le_of_not_lt hhead)
    obtain ⟨hlo, hhi⟩ := hok.current hfour
    show s.task.current + s.task.request ≤ s.task.buffer.length
    rw [hok.size hfour, Task.request, if_neg hhead]
    omega

-- ---------------------------------------------------------------------------
-- One frame
-- ---------------------------------------------------------------------------

theorem length_buffer (p : Platform) (f : Frame) : (f.buffer p).length = f.length + 4 := by
  rw [Frame.buffer, List.length_append, Endian.length_encode, Nat.add_comm]

/-- A frame that ends before its type is taken for a REGISTER by the zero behind
it. -/
theorem msgType_buffer (w : World) (h : 3 ≤ f.length) :
    msgType w (f.buffer p) = APP ↔ f[3]? = some APP := by
  have hat : ((f.buffer p) ++ [0])[7]? = (f ++ [0])[3]? := by
    rw [Frame.buffer, List.append_assoc, List.getElem?_append_right (by simp), Endian.length_encode]
  rw [msgType, hat]
  rcases Nat.eq_or_lt_of_le h with hlen | hlt
  · have hzero : (f ++ [0])[3]? = some 0 := by
      rw [List.getElem?_append_right (by omega), ← hlen]
      rfl
    rw [hzero, List.getElem?_eq_none (by omega)]
    exact iff_of_false (by decide : (0 : Byte) ≠ APP) fun hsome => by cases hsome
  · rw [List.getElem?_append_left hlt, List.getElem?_eq_getElem hlt]
    simp

theorem buffer_safe_iff (w : World) (hne : f ≠ []) (heof : ¬isEOF p f) :
    (OnMessage p w (f.buffer p)).Safe (f.buffer p).length ↔ f.Covered p := by
  rw [onMessage_safe_iff, length_buffer, Frame.Covered, headerSize]
  simp only [hne, heof, false_or]
  constructor
  · rintro ⟨hlen, happ⟩
    exact ⟨by omega, fun h => by have := happ ((msgType_buffer w (by omega)).mpr h); omega⟩
  · rintro ⟨hlen, happ⟩
    exact ⟨by omega, fun h => by have := happ ((msgType_buffer w hlen).mp h); omega⟩

/-- An empty frame ends with its length word: there is never a byte for
`OnMessage`. -/
structure Hollow (s : State) : Prop where
  calls : s.calls = []
  word : s.thrown = none → s.task.headCurrent + s.rest.length = 4

theorem hollow_step (h : Hollow s) (k : Nat) : Hollow (s.step p ws k) := by
  obtain hs | ⟨x, hs⟩ | ⟨⟨hnone, -⟩, hne, -, hs⟩ := step_cases p ws s k
  · rw [hs]
    exact h
  · rw [hs]
    exact ⟨h.calls, fun hthrown => by cases hthrown⟩
  · have hword := h.word hnone
    have hle := length_taken_le s k s.task.request
    have hrest : (s.taken k s.task.request).length ≤ s.rest.length := by
      rw [State.taken, List.length_take]
      exact Nat.min_le_right _ _
    have hpos := List.length_pos_iff.mpr hne
    rw [hs, if_pos (by omega)]
    unfold State.onHead
    dsimp only
    have hnext : s.task.headCurrent + (s.taken k s.task.request).length +
        (s.rest.length - (s.taken k s.task.request).length) = 4 := by omega
    split
    · split
      · exact ⟨h.calls, fun hthrown => by cases hthrown⟩
      · refine ⟨h.calls, fun _ => ?_⟩
        simp only [List.length_drop]
        exact hnext
    · refine ⟨h.calls, fun _ => ?_⟩
      simp only [List.length_drop]
      exact hnext

theorem singleton_split {α : Type} {a b : α} {as bs : List α} (h : [a] = as ++ b :: bs) :
    as = [] ∧ b = a ∧ bs = [] := by
  cases as with
  | nil =>
    obtain ⟨hab, hbs⟩ := List.cons.inj h
    exact ⟨rfl, hab.symm, hbs.symm⟩
  | cons x as => simp at h

theorem onHead_calls (p : Platform) (s : State) (data : List Byte) :
    (s.onHead p data).calls = s.calls := by
  unfold State.onHead
  dsimp only
  split
  · split <;> rfl
  · rfl

/-- The link inside its only frame, or after an exception. -/
def Only (p : Platform) (ws : Nat → World) (f : Frame) (s : State) : Prop :=
  s.thrown ≠ none ∨ Stage p ws [f] s

/-- The only message is that of the frame, unless it is taken for a close. -/
theorem only_step (hf : f.Proper) (h : Only p ws f s) (k : Nat) : Only p ws f (s.step p ws k) ∧
    ∀ b, (s.step p ws k).calls = s.calls ++ [b] → b = f.buffer p ∧ ¬isEOF p f := by
  obtain hs | ⟨x, hs⟩ | ⟨⟨hnone, hopen⟩, hne, heof, hs⟩ := step_cases p ws s k
  · rw [hs]
    exact ⟨h, fun b hb => by simp at hb⟩
  · rw [hs]
    exact ⟨.inl nofun, fun b hb => by simp at hb⟩
  · have hk : 0 < k := by
      refine Nat.pos_of_ne_zero ?_
      rintro rfl
      rw [State.taken, Nat.zero_min] at hne
      exact hne rfl
    have hproper : ∀ g ∈ [f], g.Proper := by simpa using hf
    obtain ⟨done, g, fs, n, hw⟩ | hend := h.resolve_left fun ht => ht hnone
    · have hstage := (step_stage hproper hw hk heof).1
      refine ⟨.inr hstage, fun b hb => ?_⟩
      have hfront := calls_front hstage
      rw [hb, List.map_singleton] at hfront
      have hnil : s.calls = [] := by
        have hlen := hfront.length_le
        rw [List.length_append, List.length_singleton, List.length_singleton] at hlen
        exact List.eq_nil_of_length_eq_zero (by omega)
      rw [hnil] at hfront
      refine ⟨List.head_eq_of_cons_eq (hfront.eq_of_length rfl), fun hbyte => ?_⟩
      obtain ⟨rfl, rfl, rfl⟩ := singleton_split hw.split
      by_cases hn : n < 4
      · -- inside the length word
        have hhead : s.task.headCurrent < 4 := by
          rw [hw.state]
          simp [Frame.progress, hn]
        rw [hs, if_pos hhead, onHead_calls, hnil] at hb
        cases hb
      · refine heof ?_
        have hfour : n = 4 := by
          have hinside := hw.inside
          rw [hbyte.2, List.length_singleton] at hinside
          omega
        have hall : s.taken k s.task.request = g := by
          have hreq : s.task.request = 1 := by
            rw [hw.state, request_progress, if_neg hn, hfour, hbyte.2]
            rfl
          have hrest : s.rest = g := by
            rw [hw.state, hfour]
            simp [Frame.wire, wires]
          rw [State.taken, hreq, hrest, hbyte.2, Nat.min_eq_right hk]
          rfl
        rw [hall]
        exact hbyte
    · cases hend with
      | finished _ hfin =>
        rw [State.taken, hfin, List.take_nil] at hne
        exact absurd rfl hne
      | tooLong _ _ _ _ _ _ _ hthrown =>
        rw [hnone] at hthrown
        cases hthrown
      | failed _ _ _ _ _ _ _ _ hclosed =>
        rw [hnone, hopen] at hclosed
        simp at hclosed

/-- The length word in one piece. -/
theorem step_head (w : Nat → World) (hlen : f.length ≤ limit) :
    (State.init f.wire).step p w 4 = ⟨f.progress p 4, true, [], f, none⟩ := by
  have hword : (Endian.big.encode 4 f.length).length = 4 := Endian.length_encode ..
  have htaken : (State.init f.wire).taken 4 4 = Endian.big.encode 4 f.length := by
    simp [State.taken, State.init, Frame.wire]
  have hdata : Endian.big.encode 4 f.length =
      (f.wire.drop 0).take (Endian.big.encode 4 f.length).length := by
    simp [Frame.wire]
  have hput := putHead_progress (p := p) (by decide) (by simp) hdata
  rw [progress_zero, hword] at hput
  have hlt : f.length < 2 ^ 32 := lt_of_le_of_lt hlen (by decide)
  have hnet : p.endian.ntohl (p.endian.decode ((Endian.big.encode 4 f.length).take 4 ++
      List.replicate (4 - 4) 0)) = f.length := by
    rw [Nat.sub_self, List.replicate_zero, List.append_nil, List.take_of_length_le (by simp),
      Endian.ntohl_decode_encode _ hlt]
  have hrecv : (State.init f.wire).recv p 4 (State.init f.wire).task.request =
      .ok (Endian.big.encode 4 f.length) := by
    rw [show (State.init f.wire).task.request = 4 from rfl, ← htaken]
    refine recv_ok rfl (by rw [htaken, hword]; decide) fun heof => ?_
    have hlen := congrArg List.length heof.2
    rw [htaken, hword] at hlen
    cases hlen
  have hne : f.wire ≠ [] := List.ne_nil_of_length_pos (by rw [length_wire]; omega)
  rw [State.step, if_neg (by simp [State.init, hne]), State.onRecv, hrecv]
  have hnot : ¬limit < f.length := Nat.not_lt.mpr hlen
  simp only [State.init, Task.init] at hput ⊢
  simp only [if_pos (show 0 < 4 by decide), State.onHead, hput, Nat.zero_add, if_pos, hnet, hnot, if_false,
    openBuffer_progress, hword]
  simp [Frame.wire, hword]

/-- The body in one piece. -/
theorem step_body (w : Nat → World) (hne : f ≠ []) (heof : ¬isEOF p f) :
    ((⟨f.progress p 4, true, [], f, none⟩ : State).step p w f.length).calls = [f.buffer p] := by
  have hpos := List.length_pos_iff.mpr hne
  have hreq : (f.progress p 4).request = f.length := by
    rw [request_progress, if_neg (by decide)]
    omega
  have htaken : (⟨f.progress p 4, true, [], f, none⟩ : State).taken f.length f.length = f := by
    simp [State.taken]
  have hrecv : (⟨f.progress p 4, true, [], f, none⟩ : State).recv p f.length (f.progress p 4).request =
      .ok f := by
    rw [hreq]
    have hok := recv_ok (p := p) (s := ⟨f.progress p 4, true, [], f, none⟩) (n := f.length) (k := f.length)
      rfl (by rw [htaken]; exact hpos) (by rw [htaken]; exact heof)
    rw [hok, htaken]
  have hdata : f = (f.wire.drop 4).take f.length := by
    simp [Frame.wire]
  have hput := putBody_progress (p := p) (le_refl 4) hdata (by omega)
  rw [State.step, if_neg (by simp [hne]), State.onRecv, hrecv]
  have hhead : ¬(f.progress p 4).headCurrent < 4 := by simp [Frame.progress]
  simp only [hhead, if_false, State.onBody, hput]
  rw [if_pos (by omega)]
  have hbuffer : (p.endian.encode 4 f.length ++ f.take (4 + f.length - 4)) ++
      List.replicate (f.length + 4 - (4 + f.length)) 0 = f.buffer p := by
    rw [Nat.add_comm 4, Nat.add_sub_cancel, Nat.sub_self, List.take_length, List.replicate_zero,
      List.append_nil]
    rfl
  rw [hbuffer]
  cases onMessage (w 0) (f.buffer p) <;> rfl

-- ---------------------------------------------------------------------------
-- Any portions
-- ---------------------------------------------------------------------------

theorem safe_of_covered (hf : f.length ≤ limit) (hcov : f.Covered p) : f.Safe p := by
  intro w ks
  by_cases hne : f = []
  · subst hne
    have hinit : Hollow (State.init (Frame.wire [])) := ⟨rfl, fun _ => rfl⟩
    refine (forall_turns_iff (I := fun s => Hollow s ∧ (s.thrown = none → s.task.Ok)) (o := fun _ _ => True)
      (fun s k h => iff_true_intro ?_) (fun s k h _ => ⟨hollow_step h.1 k, step_ok h.2 k⟩) ks
      ⟨hinit, fun _ => init_ok⟩).mpr fun _ _ => trivial
    refine ⟨accesses_inside h.2 k, fun b hb => ?_⟩
    have hnext : Hollow (s.step p w k) := hollow_step h.1 k
    rw [hnext.calls, h.1.calls] at hb
    cases hb
  · have hproper : f.Proper := ⟨List.length_pos_iff.mpr hne, lt_of_le_of_lt hf (by decide)⟩
    have hinit : Only p w f (State.init f.wire) := by
      have hstage := init_stage p w [f]
      rw [wires, List.map_singleton, List.flatten_singleton] at hstage
      exact .inr hstage
    refine (forall_turns_iff (I := fun s => Only p w f s ∧ (s.thrown = none → s.task.Ok))
      (o := fun _ _ => True) (fun s k h => iff_true_intro ?_)
      (fun s k h _ => ⟨(only_step hproper h.1 k).1, step_ok h.2 k⟩) ks
      ⟨hinit, fun _ => init_ok⟩).mpr fun _ _ => trivial
    refine ⟨accesses_inside h.2 k, fun b hb => ?_⟩
    obtain ⟨rfl, heof⟩ := (only_step hproper h.1 k).2 b hb
    exact (buffer_safe_iff _ hne heof).mpr hcov

/-- For every frame up to the limit: no access leaves its buffer and no message
shorter than the header is delivered, in whatever portions it comes, exactly
when it is empty, taken for a close, or no shorter than its type demands. -/
theorem frame_safe_iff (p : Platform) (f : Frame) (hf : f.length ≤ limit) : f.Safe p ↔ f.Covered p := by
  refine ⟨fun hsafe => ?_, safe_of_covered hf⟩
  by_cases hne : f = []
  · exact .inl hne
  by_cases heof : isEOF p f
  · exact .inr (.inl heof)
  have hturn := hsafe (fun _ => ⟨0, some true, false⟩) [4, f.length] (_, f.length)
    (List.mem_cons_of_mem _ (List.mem_singleton.mpr rfl))
  rw [step_head _ hf] at hturn
  have hmsg := hturn.message (f.buffer p) (step_body _ hne heof)
  exact (buffer_safe_iff _ hne heof).mp hmsg

/-- An unknown type may be short. -/
theorem short_kill_safe : Frame.Safe ⟨.little, true⟩ [2, 0, 0, 4] :=
  (frame_safe_iff ⟨.little, true⟩ [2, 0, 0, 4] (by decide)).mpr (by decide)

/-- An APP message without a body is delivered. -/
theorem short_app_delivered : ¬ ∀ (p : Platform) (f : Frame), f.length ≤ limit → f.Safe p := by
  intro h
  have hturn := h ⟨.little, true⟩ [2, 0, 0, 3] (by decide) (fun _ => ⟨0, some true, false⟩) [4, 4] _
    (List.mem_cons_of_mem _ (List.mem_singleton.mpr rfl))
  have hsize := (hturn.message [4, 0, 0, 0, 2, 0, 0, 3] rfl).delivered rfl
  revert hsize
  decide

end GalaLua.Controllers.Framing
