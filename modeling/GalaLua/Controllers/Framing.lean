import GalaLua.GLR.Protocol
import GalaLua.Library.Transition

/-!
# Frames of a link between nodes

`MessageLinkStack::OnRecv` and its receive task. The kernel has some bytes of
the stream ready when it signals a link; `Recv` takes those it was asked for,
and the task remembers, in three counters, how far it came in the length word
and in the body.
-/

namespace GalaLua.Controllers.Framing

open Library GLR.Protocol

structure Platform where
  endian : Endian
  /-- `char` is a signed type -/
  signedChar : Bool
  deriving DecidableEq, Repr

structure Task where
  current : Nat
  len : Nat
  headCurrent : Nat
  buffer : List Byte
  deriving DecidableEq, Repr

def Task.init : Task := ⟨0, 0, 0, []⟩

/-- `1024*1024*500` -/
abbrev limit : Nat := 524288000

-- ---------------------------------------------------------------------------
-- OnMessage
-- ---------------------------------------------------------------------------

/-- What one call of `OnMessage` meets outside its buffer. -/
structure World where
  /-- what lies behind a buffer that ends before the type -/
  beyond : Byte
  /-- `SegmentSend` of the answer: it may throw or give up -/
  segmentSend : Option Bool
  /-- `_Router.has_key(id)` -/
  hasKey : Bool
  deriving DecidableEq, Repr

/-- The call returns, it returns with the socket closed, or it throws. -/
inductive Outcome
  | returned
  | closed
  | thrown
  deriving DecidableEq, Repr

/-- `pMsg->_Protocol._Type`; a string has a zero after its last byte. -/
def msgType (w : World) (msg : List Byte) : Byte :=
  (msg ++ [0])[7]?.getD w.beyond

def onMessage (w : World) (msg : List Byte) : Outcome :=
  if msgType w msg = REGISTER then
    if msg.length < headerSize then .thrown
    else
      match w.segmentSend with
      | none => .thrown
      | some false => .closed
      | some true => if w.hasKey then .closed else .returned
  else .returned

-- ---------------------------------------------------------------------------
-- OnRecv
-- ---------------------------------------------------------------------------

inductive Exn
  | badHandle
  | peerClose
  /-- "Recv Data Too Long" -/
  | tooLong
  /-- "Fatal Error" -/
  | fatal
  deriving DecidableEq, Repr

/-- A link and the bytes that its peer has still to deliver. After an
exception the worker removes the link. -/
structure State where
  task : Task
  isOpen : Bool
  /-- the buffers `OnMessage` was called with -/
  calls : List (List Byte)
  rest : List Byte
  thrown : Option Exn
  deriving DecidableEq, Repr

def State.init (stream : List Byte) : State := ⟨.init, true, [], stream, none⟩

/-- The bytes `recv` gives when `k` are ready and `n` are asked for. -/
def State.taken (s : State) (k n : Nat) : List Byte := s.rest.take (min k n)

/-- `Recv` compares a single byte with `EOF`. -/
def isEOF (p : Platform) (data : List Byte) : Prop := p.signedChar = true ∧ data = [0xff#8]

instance (p : Platform) (data : List Byte) : Decidable (isEOF p data) :=
  inferInstanceAs (Decidable (_ ∧ _))

def State.recv (p : Platform) (s : State) (k n : Nat) : Except Exn (List Byte) :=
  if s.isOpen = false then .error .badHandle
  else if s.taken k n = [] then .error .peerClose
  else if isEOF p (s.taken k n) then .error .peerClose
  else .ok (s.taken k n)

/-- How much `OnRecv` asks for. -/
def Task.request (t : Task) : Nat :=
  if t.headCurrent < 4 then 4 - t.headCurrent else t.len + 4 - t.current

/-- `Recv(((char*)&Len) + HeadCurrent, ...)` stores into the word. -/
def Task.putHead (p : Platform) (t : Task) (data : List Byte) : Task :=
  { t with
    len := p.endian.decode (poke t.headCurrent data (p.endian.encode 4 t.len))
    headCurrent := t.headCurrent + data.length }

def resize (n : Nat) (b : List Byte) : List Byte := b.take n ++ List.replicate (n - b.length) 0

/-- `Buffer.resize(Len + 4, 0)`, with the length in its first word. -/
def Task.openBuffer (p : Platform) (t : Task) : Task :=
  { t with
    buffer := poke 0 (p.endian.encode 4 t.len) (resize (t.len + 4) t.buffer)
    current := 4 }

def Task.putBody (t : Task) (data : List Byte) : Task :=
  { t with buffer := poke t.current data t.buffer, current := t.current + data.length }

def State.onHead (p : Platform) (s : State) (data : List Byte) : State :=
  let s := { s with rest := s.rest.drop data.length, task := s.task.putHead p data }
  if s.task.headCurrent = 4 then
    let s := { s with task := { s.task with len := p.endian.ntohl s.task.len } }
    if limit < s.task.len then { s with thrown := some .tooLong }
    else { s with task := s.task.openBuffer p }
  else s

def State.onBody (w : World) (s : State) (data : List Byte) : State :=
  let s := { s with rest := s.rest.drop data.length, task := s.task.putBody data }
  if s.task.current - 4 = s.task.len then
    let s := { s with calls := s.calls ++ [s.task.buffer] }
    match onMessage w s.task.buffer with
    | .returned => { s with task := .init }
    | .closed => { s with task := .init, isOpen := false }
    | .thrown => { s with thrown := some .fatal }
  else s

def State.onRecv (p : Platform) (w : World) (s : State) (k : Nat) : State :=
  match s.recv p k s.task.request with
  | .error x => { s with thrown := some x }
  | .ok data => if s.task.headCurrent < 4 then s.onHead p data else s.onBody w data

/-- The worker calls `OnRecv` when there is something to read. The calls of
`OnMessage` are numbered, each with its world. -/
def State.step (p : Platform) (w : Nat → World) (s : State) (k : Nat) : State :=
  if s.thrown.isSome ∨ s.rest = [] then s else s.onRecv p (w s.calls.length) k

/-- Bytes get ready in portions `ks`. -/
def State.run (p : Platform) (w : Nat → World) (s : State) (ks : List Nat) : State :=
  ks.foldl (State.step p w) s

-- ---------------------------------------------------------------------------
-- Frames
-- ---------------------------------------------------------------------------

abbrev Frame := List Byte

/-- A frame in the stream: its length, most significant byte first. -/
def Frame.wire (f : Frame) : List Byte := Endian.big.encode 4 f.length ++ f

def wires (fs : List Frame) : List Byte := (fs.map Frame.wire).flatten

def Frame.buffer (p : Platform) (f : Frame) : List Byte := p.endian.encode 4 f.length ++ f

/-- A frame has a body, and its length fits the word. -/
def Frame.Proper (f : Frame) : Prop := 1 ≤ f.length ∧ f.length < 2 ^ 32

/-- The `i`-th frame leaves the link in order. -/
def Passes (p : Platform) (w : Nat → World) (i : Nat) (f : Frame) : Prop :=
  f.length ≤ limit ∧ onMessage (w i) (f.buffer p) = .returned

instance (p : Platform) (w : Nat → World) (i : Nat) (f : Frame) : Decidable (Passes p w i f) :=
  inferInstanceAs (Decidable (_ ∧ _))

/-- No call of `Recv` takes a byte for `EOF`. -/
def NoEOF (p : Platform) (w : Nat → World) (s : State) (ks : List Nat) : Prop :=
  ∀ t ∈ turns (State.step p w) s ks, ¬ isEOF p (t.1.taken t.2 t.1.task.request)

instance (p : Platform) (w : Nat → World) (s : State) (ks : List Nat) :
    Decidable (NoEOF p w s ks) :=
  inferInstanceAs (Decidable (∀ t ∈ turns (State.step p w) s ks, _))

/-- A link after its peer's frames, which got ready in portions `ks`. -/
def received (p : Platform) (w : Nat → World) (frames : List Frame) (ks : List Nat) : State :=
  (State.init (wires frames)).run p w ks

-- ---------------------------------------------------------------------------
-- The task inside a frame
-- ---------------------------------------------------------------------------

/-- The receive task when `h` bytes of the frame were read, for `h` up to the
last byte but one. -/
def Frame.progress (p : Platform) (f : Frame) (h : Nat) : Task :=
  if h < 4 then
    ⟨0, p.endian.decode ((Endian.big.encode 4 f.length).take h ++ List.replicate (4 - h) 0), h, []⟩
  else
    ⟨h, f.length, 4, (p.endian.encode 4 f.length ++ f.take (h - 4)) ++
      List.replicate (f.length + 4 - h) 0⟩

variable {p : Platform} {w : Nat → World} {f : Frame} {fs frames : List Frame} {h k : Nat}
  {s : State} {data : List Byte}

theorem progress_zero (p : Platform) (f : Frame) : f.progress p 0 = .init := by
  obtain ⟨e, c⟩ := p
  cases e
  · rfl
  · rfl

@[simp] theorem length_wire (f : Frame) : f.wire.length = f.length + 4 := by
  simp [Frame.wire, Nat.add_comm]

theorem request_progress (p : Platform) (f : Frame) (h : Nat) :
    (f.progress p h).request = if h < 4 then 4 - h else f.length + 4 - h := by
  unfold Frame.progress Task.request
  split
  · simp
  · simp

theorem take_wire_head (hd : h + data.length ≤ 4)
    (hdata : data = (f.wire.drop h).take data.length) :
    data = ((Endian.big.encode 4 f.length).drop h).take data.length := by
  have hlen : ((Endian.big.encode 4 f.length).drop h).length = 4 - h := by simp
  rw [Frame.wire, List.drop_append_of_le_length (by simp; omega),
    List.take_append_of_le_length (by omega)] at hdata
  exact hdata

/-- The length word after some more of its bytes. -/
theorem putHead_progress (hh : h < 4) (hd : h + data.length ≤ 4)
    (hdata : data = (f.wire.drop h).take data.length) :
    (f.progress p h).putHead p data =
      ⟨0, p.endian.decode ((Endian.big.encode 4 f.length).take (h + data.length) ++
        List.replicate (4 - (h + data.length)) 0), h + data.length, []⟩ := by
  have hhead := take_wire_head hd hdata
  unfold Frame.progress Task.putHead
  rw [if_pos hh]
  have hlen : ((Endian.big.encode 4 f.length).take h ++ List.replicate (4 - h) (0 : Byte)).length
      = 4 := by
    simp
    omega
  have hencode := p.endian.encode_decode
    ((Endian.big.encode 4 f.length).take h ++ List.replicate (4 - h) 0)
  rw [hlen] at hencode
  simp only [hencode, Task.mk.injEq, true_and, and_true]
  rw [poke_append (by simp; omega) (by simp; omega), List.take_add, ← hhead, List.drop_replicate,
    Nat.sub_sub]

theorem putBody_progress (hh : 4 ≤ h) (hdata : data = (f.wire.drop h).take data.length)
    (hd : h + data.length ≤ f.length + 4) :
    (f.progress p h).putBody data =
      ⟨h + data.length, f.length, 4,
        (p.endian.encode 4 f.length ++ f.take (h + data.length - 4)) ++
          List.replicate (f.length + 4 - (h + data.length)) 0⟩ := by
  have hbody : data = (f.drop (h - 4)).take data.length := by
    have hdrop : f.wire.drop h = f.drop (h - 4) := by
      rw [Frame.wire, List.drop_append, List.drop_eq_nil_of_le (by simpa using hh),
        List.nil_append, Endian.length_encode]
    rwa [hdrop] at hdata
  unfold Frame.progress Task.putBody
  rw [if_neg (by omega)]
  have hsum : h + data.length - 4 = h - 4 + data.length := by omega
  simp only [Task.mk.injEq, true_and]
  rw [poke_append (by simp; omega) (by simp; omega), List.drop_replicate, Nat.sub_sub, hsum, List.take_add,
    ← hbody]
  simp only [List.append_assoc]

theorem taken_progress (hk : 0 < k) (hh : h < f.length + 4)
    (hs : s.rest = f.wire.drop h ++ wires fs) (hp : s.task = f.progress p h) :
    ∃ d, 0 < d ∧ d ≤ s.task.request ∧ (s.taken k s.task.request).length = d ∧
      s.taken k s.task.request = (f.wire.drop h).take d := by
  have hreq : 0 < s.task.request ∧ s.task.request ≤ f.length + 4 - h := by
    rw [hp, request_progress]
    split <;> omega
  refine ⟨min k s.task.request, by omega, by omega, ?_, ?_⟩
  · simp [State.taken, hs]
    omega
  · rw [State.taken, hs, List.take_append_of_le_length (by simp; omega)]

theorem recv_ok (hopen : s.isOpen = true) {n : Nat} (hne : 0 < (s.taken k n).length)
    (heof : ¬ isEOF p (s.taken k n)) : s.recv p k n = .ok (s.taken k n) := by
  unfold State.recv
  rw [if_neg (by simp [hopen]), if_neg (List.ne_nil_of_length_pos hne), if_neg heof]

-- ---------------------------------------------------------------------------
-- One step
-- ---------------------------------------------------------------------------

def AllPass (p : Platform) (w : Nat → World) (fs : List Frame) : Prop :=
  ∀ i f, fs[i]? = some f → Passes p w i f

/-- All the frames in `done` went through, and the link is `h` bytes into the
next one. -/
structure Within (p : Platform) (w : Nat → World) (frames done : List Frame) (f : Frame)
    (fs : List Frame) (h : Nat) (s : State) : Prop where
  split : frames = done ++ f :: fs
  passed : AllPass p w done
  inside : h < f.length + 4
  short : 4 ≤ h → f.length ≤ limit
  state : s = ⟨f.progress p h, true, done.map (Frame.buffer p), f.wire.drop h ++ wires fs, none⟩

/-- The ways a link ends. -/
inductive Ended (p : Platform) (w : Nat → World) (frames : List Frame) (s : State) : Prop
  | finished (hpass : AllPass p w frames)
      (hs : s = ⟨.init, true, frames.map (Frame.buffer p), [], none⟩)
  | tooLong (done : List Frame) (f : Frame) (fs : List Frame) (hsplit : frames = done ++ f :: fs)
      (hpass : AllPass p w done) (hlong : limit < f.length)
      (hcalls : s.calls = done.map (Frame.buffer p)) (hthrown : s.thrown = some .tooLong)
      (hbuffer : s.task.buffer = []) (hrest : s.rest = f ++ wires fs)
  | failed (done : List Frame) (f : Frame) (fs : List Frame) (hsplit : frames = done ++ f :: fs)
      (hpass : AllPass p w done) (hshort : f.length ≤ limit)
      (hfail : onMessage (w done.length) (f.buffer p) ≠ .returned)
      (hcalls : s.calls = (done ++ [f]).map (Frame.buffer p))
      (hend : s.thrown.isSome ∨ s.isOpen = false) (hlong : s.thrown ≠ some .tooLong)

def Stage (p : Platform) (w : Nat → World) (frames : List Frame) (s : State) : Prop :=
  (∃ done f fs h, Within p w frames done f fs h s) ∨ Ended p w frames s

variable {done : List Frame}

theorem allPass_append (hd : AllPass p w done) (hf : Passes p w done.length f) :
    AllPass p w (done ++ [f]) := by
  intro i g hg
  rcases Nat.lt_trichotomy i done.length with hlt | rfl | hgt
  · rw [List.getElem?_append_left hlt] at hg
    exact hd i g hg
  · rw [List.getElem?_concat_length] at hg
    cases hg
    exact hf
  · rw [List.getElem?_eq_none (by simp; omega)] at hg
    cases hg

theorem stage_between (hsplit : frames = done ++ fs) (hd : AllPass p w done)
    (hs : s = ⟨.init, true, done.map (Frame.buffer p), wires fs, none⟩) : Stage p w frames s := by
  cases fs with
  | nil =>
    rw [List.append_nil] at hsplit
    subst hsplit
    exact .inr (.finished hd hs)
  | cons f fs =>
    refine .inl ⟨done, f, fs, 0, hsplit, hd, by omega, by omega, ?_⟩
    rw [hs, progress_zero]
    rfl

/-- A step inside a frame takes some more of its bytes. -/
theorem step_within (hw : Within p w frames done f fs h s) (hk : 0 < k)
    (heof : ¬ isEOF p (s.taken k s.task.request)) :
    ∃ data, 0 < data.length ∧ data.length ≤ (f.progress p h).request ∧
      data = (f.wire.drop h).take data.length ∧
      s.step p w k = if h < 4 then s.onHead p data else s.onBody (w done.length) data := by
  have hrest : s.rest = f.wire.drop h ++ wires fs := by rw [hw.state]
  have htask : s.task = f.progress p h := by rw [hw.state]
  obtain ⟨d, hd, hreq, hlen, htaken⟩ := taken_progress hk hw.inside hrest htask
  refine ⟨s.taken k s.task.request, by omega, htask ▸ (by omega), by rw [hlen, htaken], ?_⟩
  have hne : s.rest ≠ [] := by
    intro hnil
    rw [State.taken, hnil, List.take_nil] at hlen
    simp at hlen
    omega
  have hthrown : s.thrown = none := by rw [hw.state]
  have hcalls : s.calls.length = done.length := by rw [hw.state]; simp
  have hhead : s.task.headCurrent < 4 ↔ h < 4 := by
    rw [htask, Frame.progress]
    split <;> simp_all
  rw [State.step, if_neg (by simp [hthrown, hne]), State.onRecv,
    recv_ok (by rw [hw.state]) (by omega) heof, hcalls]
  simp only [hhead]

theorem rest_drop (hw : Within p w frames done f fs h s)
    (hd : h + data.length ≤ f.length + 4) :
    s.rest.drop data.length = f.wire.drop (h + data.length) ++ wires fs := by
  rw [hw.state, List.drop_append_of_le_length (by simp; omega), List.drop_drop]

theorem openBuffer_progress (p : Platform) (f : Frame) :
    Task.openBuffer p ⟨0, f.length, 4, []⟩ = f.progress p 4 := by
  have hzeros : resize (f.length + 4) [] = [] ++ List.replicate (f.length + 4) 0 := by
    simp [resize]
  unfold Task.openBuffer Frame.progress
  rw [if_neg (by omega)]
  simp only [hzeros, poke_append List.length_nil (show (p.endian.encode 4 f.length).length ≤
    (List.replicate (f.length + 4) (0 : Byte)).length by simp)]
  simp

/-- In the length word: more of it, or the start of the body, or the end of a
frame that is too long. -/
theorem onHead_stage (hf : f.Proper) (hw : Within p w frames done f fs h s) (hh : h < 4)
    (hd : h + data.length ≤ 4) (hdata : data = (f.wire.drop h).take data.length) :
    Stage p w frames (s.onHead p data) := by
  have hrest := rest_drop hw (show h + data.length ≤ f.length + 4 by omega)
  have hput := putHead_progress (p := p) hh hd hdata
  have htask : s.task = f.progress p h := by rw [hw.state]
  unfold State.onHead
  simp only [htask, hput, hrest]
  split
  · next hfour =>
    have hword : p.endian.ntohl (p.endian.decode ((Endian.big.encode 4 f.length).take 4 ++
        List.replicate (4 - 4) 0)) = f.length := by
      rw [Nat.sub_self, List.replicate_zero, List.append_nil, List.take_of_length_le (by simp),
        Endian.ntohl_decode_encode _ hf.2]
    simp only [hfour, hword]
    split
    · next hlong =>
      refine .inr (.tooLong done f fs hw.split hw.passed hlong ?_ rfl rfl ?_)
      · simp only [hw.state]
      · simp [Frame.wire]
    · next hshort =>
      refine .inl ⟨done, f, fs, 4, hw.split, hw.passed, by have := hf.1; omega, by omega, ?_⟩
      rw [openBuffer_progress]
      simp only [hw.state]
  · next hfour =>
    refine .inl ⟨done, f, fs, h + data.length, hw.split, hw.passed, by have := hf.1; omega,
      by omega, ?_⟩
    have hlt : h + data.length < 4 := by omega
    simp only [hw.state, Frame.progress, if_pos hlt]

/-- In the body: more of it, or `OnMessage`. -/
theorem onBody_stage (hw : Within p w frames done f fs h s) (hh : 4 ≤ h)
    (hd : h + data.length ≤ f.length + 4) (hdata : data = (f.wire.drop h).take data.length) :
    Stage p w frames (s.onBody (w done.length) data) := by
  have hrest := rest_drop hw hd
  have hput := putBody_progress (p := p) hh hdata hd
  have htask : s.task = f.progress p h := by rw [hw.state]
  have hshort := hw.short hh
  unfold State.onBody
  simp only [htask, hput, hrest]
  split
  · next hend =>
    have hfull : h + data.length = f.length + 4 := by omega
    have hbuffer : (p.endian.encode 4 f.length ++ f.take (f.length + 4 - 4)) ++
        List.replicate (f.length + 4 - (f.length + 4)) 0 = f.buffer p := by
      simp [Frame.buffer]
    have hnil : f.wire.drop (f.length + 4) = [] := List.drop_eq_nil_of_le (by simp)
    simp only [hfull, hbuffer, hnil, List.nil_append]
    have hcalls : s.calls ++ [f.buffer p] = (done ++ [f]).map (Frame.buffer p) := by
      rw [hw.state]
      simp
    cases hout : onMessage (w done.length) (f.buffer p) with
    | returned =>
      have hsplit : frames = (done ++ [f]) ++ fs := by simp [hw.split]
      refine stage_between hsplit (allPass_append hw.passed ⟨hshort, hout⟩) ?_
      simp only [hcalls]
      simp only [hw.state]
    | closed =>
      refine .inr (.failed done f fs hw.split hw.passed hshort (by simp [hout]) hcalls ?_ ?_)
      · exact .inr rfl
      · simp [hw.state]
    | thrown =>
      refine .inr (.failed done f fs hw.split hw.passed hshort (by simp [hout]) hcalls ?_ ?_)
      · exact .inl rfl
      · simp
  · next hend =>
    refine .inl ⟨done, f, fs, h + data.length, hw.split, hw.passed, by omega, fun _ => hshort, ?_⟩
    have hge : ¬ h + data.length < 4 := by omega
    simp only [hw.state, Frame.progress, if_neg hge]

theorem onHead_rest (p : Platform) (s : State) (data : List Byte) :
    (s.onHead p data).rest = s.rest.drop data.length := by
  unfold State.onHead
  simp only
  repeat' split
  all_goals rfl

theorem onBody_rest (w : World) (s : State) (data : List Byte) :
    (s.onBody w data).rest = s.rest.drop data.length := by
  unfold State.onBody
  simp only
  repeat' split
  all_goals rfl

/-- Inside a frame each step takes something. -/
theorem step_stage (hf : ∀ f ∈ frames, f.Proper) (hw : Within p w frames done f fs h s)
    (hk : 0 < k) (heof : ¬ isEOF p (s.taken k s.task.request)) :
    Stage p w frames (s.step p w k) ∧ (s.step p w k).rest.length < s.rest.length := by
  obtain ⟨data, hpos, hreq, hdata, hstep⟩ := step_within hw hk heof
  have hproper : f.Proper := hf f (by simp [hw.split])
  have hrest : 0 < s.rest.length := by
    rw [hw.state]
    have := hw.inside
    simp
    omega
  rw [request_progress] at hreq
  rw [hstep]
  split
  · next hlt =>
    rw [if_pos hlt] at hreq
    refine ⟨onHead_stage hproper hw hlt (by omega) hdata, ?_⟩
    rw [onHead_rest, List.length_drop]
    omega
  · next hge =>
    rw [if_neg hge] at hreq
    refine ⟨onBody_stage hw (by omega) (by have := hw.inside; omega) hdata, ?_⟩
    rw [onBody_rest, List.length_drop]
    omega

theorem step_ended (h : Ended p w frames s) (k : Nat) : Ended p w frames (s.step p w k) := by
  cases h with
  | finished hpass hs =>
    have hstep : s.step p w k = s := by simp [State.step, hs]
    rw [hstep]
    exact .finished hpass hs
  | tooLong done f fs hsplit hpass hlong hcalls hthrown hbuffer hrest =>
    have hstep : s.step p w k = s := by simp [State.step, hthrown]
    rw [hstep]
    exact .tooLong done f fs hsplit hpass hlong hcalls hthrown hbuffer hrest
  | failed done f fs hsplit hpass hshort hfail hcalls hend hlong =>
    unfold State.step
    split
    · exact .failed done f fs hsplit hpass hshort hfail hcalls hend hlong
    · next hrun =>
      -- the socket is closed, and `Recv` throws
      have hclosed : s.isOpen = false := hend.resolve_left fun ht => hrun (.inl ht)
      rw [State.onRecv, State.recv, if_pos hclosed]
      exact .failed done f fs hsplit hpass hshort hfail hcalls (.inl rfl) (by simp)

-- ---------------------------------------------------------------------------
-- A whole stream
-- ---------------------------------------------------------------------------

theorem run_ended (h : Ended p w frames s) (ks : List Nat) : Ended p w frames (s.run p w ks) := by
  induction ks generalizing s with
  | nil => exact h
  | cons k ks ih => exact ih (step_ended h k)

theorem run_stage (hf : ∀ f ∈ frames, f.Proper) {ks : List Nat} (hks : ∀ k ∈ ks, 0 < k)
    (heof : NoEOF p w s ks) (hs : Stage p w frames s) :
    Stage p w frames (s.run p w ks) ∧ (Ended p w frames (s.run p w ks) ∨
      (s.run p w ks).rest.length + ks.length ≤ s.rest.length) := by
  induction ks generalizing s with
  | nil => exact ⟨hs, .inr (Nat.le_refl _)⟩
  | cons k ks ih =>
    obtain ⟨hk, hks⟩ := List.forall_mem_cons.mp hks
    obtain ⟨heof₀, heof⟩ := List.forall_mem_cons.mp heof
    rcases hs with ⟨done, f, fs, h, hw⟩ | hend
    · obtain ⟨hstage, hless⟩ := step_stage hf hw hk heof₀
      refine (ih hks heof hstage).imp_right (Or.imp_right fun hle => ?_)
      change ((s.step p w k).run p w ks).rest.length + (ks.length + 1) ≤ s.rest.length
      omega
    · have hended := run_ended hend (k :: ks)
      exact ⟨.inr hended, .inl hended⟩

theorem run_to_end (hf : ∀ f ∈ frames, f.Proper) {ks : List Nat} (hks : ∀ k ∈ ks, 0 < k)
    (heof : NoEOF p w s ks) (hs : Stage p w frames s) (hlen : s.rest.length ≤ ks.length) :
    Ended p w frames (s.run p w ks) := by
  obtain ⟨⟨done, f, fs, h, hw⟩ | hend, hmeasure⟩ := run_stage hf hks heof hs
  · rcases hmeasure with hend | hle
    · exact hend
    · have hrest : 0 < (s.run p w ks).rest.length := by
        rw [hw.state]
        have := hw.inside
        simp
        omega
      omega
  · exact hend

theorem init_stage (p : Platform) (w : Nat → World) (frames : List Frame) :
    Stage p w frames (.init (wires frames)) :=
  stage_between (show frames = [] ++ frames from rfl) nofun rfl

theorem calls_front (hs : Stage p w frames s) : s.calls <+: frames.map (Frame.buffer p) := by
  rcases hs with ⟨done, f, fs, h, hw⟩ | hend
  · rw [hw.state, hw.split, List.map_append]
    exact List.prefix_append _ _
  · cases hend with
    | finished hpass hs =>
      subst hs
      exact List.prefix_refl _
    | tooLong done f fs hsplit hpass hlong hcalls =>
      rw [hcalls, hsplit, List.map_append]
      exact List.prefix_append _ _
    | failed done f fs hsplit hpass hshort hfail hcalls =>
      rw [hcalls, hsplit, List.append_cons done f fs]
      exact (List.prefix_append _ fs).map _

theorem split_unique {done' : List Frame} {f' : Frame} {fs' : List Frame}
    (h : done ++ f :: fs = done' ++ f' :: fs') (hd : AllPass p w done) (hd' : AllPass p w done')
    (hf : ¬ Passes p w done.length f) (hf' : ¬ Passes p w done'.length f') :
    done = done' ∧ f = f' ∧ fs = fs' := by
  have hlen : done.length = done'.length := by
    rcases Nat.lt_trichotomy done.length done'.length with hlt | heq | hgt
    · have hat : (done' ++ f' :: fs')[done.length]? = some f := by simp [← h]
      rw [List.getElem?_append_left hlt] at hat
      exact absurd (hd' _ f hat) hf
    · exact heq
    · have hat : (done ++ f :: fs)[done'.length]? = some f' := by simp [h]
      rw [List.getElem?_append_left hgt] at hat
      exact absurd (hd _ f' hat) hf'
  obtain ⟨hdone, hrest⟩ := List.append_inj h hlen
  exact ⟨hdone, List.cons.inj hrest⟩

/-- A step calls `OnMessage` at most once, and after a call that does not throw
the receive task is empty. -/
def OneCall (p : Platform) (w : Nat → World) (s : State) (k : Nat) : Prop :=
  (s.step p w k).calls = s.calls ∨
    ∃ m, (s.step p w k).calls = s.calls ++ [m] ∧
      ((s.step p w k).thrown = none → (s.step p w k).task = .init)

theorem step_oneCall (p : Platform) (w : Nat → World) (s : State) (k : Nat) : OneCall p w s k := by
  unfold OneCall State.step
  split
  · exact .inl rfl
  · unfold State.onRecv
    split
    · exact .inl rfl
    · split
      · left
        unfold State.onHead
        simp only
        repeat' split
        all_goals rfl
      · unfold State.onBody
        simp only
        split
        · cases onMessage (w s.calls.length) (s.task.putBody _).buffer with
          | returned => exact .inr ⟨_, rfl, fun _ => rfl⟩
          | closed => exact .inr ⟨_, rfl, fun _ => rfl⟩
          | thrown => exact .inr ⟨_, rfl, nofun⟩
        · exact .inl rfl

theorem not_allPass_of_split (hsplit : frames = done ++ f :: fs)
    (hf : ¬ Passes p w done.length f) : ¬ AllPass p w frames := by
  intro h
  exact hf (h done.length f (by simp [hsplit]))

theorem ended_of_allPass (h : Ended p w frames s) (hpass : AllPass p w frames) :
    s = ⟨.init, true, frames.map (Frame.buffer p), [], none⟩ := by
  cases h with
  | finished _ hs => exact hs
  | tooLong done f fs hsplit _ hlong =>
    exact absurd hpass (not_allPass_of_split hsplit fun hf => absurd hf.1 (by omega))
  | failed done f fs hsplit _ _ hfail =>
    exact absurd hpass (not_allPass_of_split hsplit fun hf => hfail hf.2)

theorem ended_of_long (h : Ended p w frames s) (hsplit : frames = done ++ f :: fs)
    (hd : AllPass p w done) (hlong : limit < f.length) :
    s.calls = done.map (Frame.buffer p) ∧ s.thrown = some .tooLong ∧ s.task.buffer = [] ∧
      s.rest = f ++ wires fs := by
  have hf : ¬ Passes p w done.length f := fun hf => absurd hf.1 (by omega)
  cases h with
  | finished hpass _ => exact absurd hpass (not_allPass_of_split hsplit hf)
  | tooLong done' f' fs' hsplit' hd' hlong' hcalls hthrown hbuffer hrest =>
    obtain ⟨rfl, rfl, rfl⟩ := split_unique (hsplit.symm.trans hsplit') hd hd' hf
      fun hf' => absurd hf'.1 (by omega)
    exact ⟨hcalls, hthrown, hbuffer, hrest⟩
  | failed done' f' fs' hsplit' hd' hshort' hfail' =>
    obtain ⟨-, rfl, -⟩ := split_unique (hsplit.symm.trans hsplit') hd hd' hf
      fun hf' => hfail' hf'.2
    omega

theorem ended_of_fail (h : Ended p w frames s) (hsplit : frames = done ++ f :: fs)
    (hd : AllPass p w done) (hshort : f.length ≤ limit)
    (hfail : onMessage (w done.length) (f.buffer p) ≠ .returned) :
    s.calls = (done ++ [f]).map (Frame.buffer p) := by
  have hf : ¬ Passes p w done.length f := fun hf => hfail hf.2
  cases h with
  | finished hpass _ => exact absurd hpass (not_allPass_of_split hsplit hf)
  | tooLong done' f' fs' hsplit' hd' hlong' =>
    obtain ⟨-, rfl, -⟩ := split_unique (hsplit.symm.trans hsplit') hd hd' hf
      fun hf' => absurd hf'.1 (by omega)
    omega
  | failed done' f' fs' hsplit' hd' _ hfail' hcalls =>
    obtain ⟨rfl, rfl, -⟩ := split_unique (hsplit.symm.trans hsplit') hd hd' hf
      fun hf' => hfail' hf'.2
    exact hcalls

/-- Any frames, in any portions in which no byte is taken for `EOF`:
`OnMessage` is called once for each of them, in their order and with their
buffers, up to the first one that does not pass. A frame that is too long ends
the link before any byte of its body is read. -/
theorem onRecv_frames (hf : ∀ f ∈ frames, f.Proper) (ks : List Nat) (hks : ∀ k ∈ ks, 0 < k)
    (heof : NoEOF p w (.init (wires frames)) ks) :
    (received p w frames ks).calls <+: frames.map (Frame.buffer p) ∧
    (∀ t ∈ turns (State.step p w) (.init (wires frames)) ks, OneCall p w t.1 t.2) ∧
    ((wires frames).length ≤ ks.length →
      (AllPass p w frames →
        received p w frames ks = ⟨.init, true, frames.map (Frame.buffer p), [], none⟩) ∧
      ∀ done f fs, frames = done ++ f :: fs → AllPass p w done →
        (limit < f.length →
          (received p w frames ks).calls = done.map (Frame.buffer p) ∧
          (received p w frames ks).thrown = some .tooLong ∧
          (received p w frames ks).task.buffer = [] ∧
          (received p w frames ks).rest = f ++ wires fs) ∧
        (f.length ≤ limit → onMessage (w done.length) (f.buffer p) ≠ .returned →
          (received p w frames ks).calls = (done ++ [f]).map (Frame.buffer p))) := by
  have hinit := init_stage p w frames
  refine ⟨calls_front (run_stage hf hks heof hinit).1, fun t _ => step_oneCall p w t.1 t.2, ?_⟩
  intro hlen
  have hend := run_to_end hf hks heof hinit hlen
  refine ⟨ended_of_allPass hend, fun done f fs hsplit hd => ?_⟩
  exact ⟨ended_of_long hend hsplit hd, ended_of_fail hend hsplit hd⟩

/-- Two frames, cut inside a length word and at no boundary. -/
theorem onRecv_two_frames :
    received ⟨.little, true⟩ (fun _ => ⟨0, some true, false⟩)
      [[0x47, 0x4c, 2, 3, 9], [0x47, 0x4c, 2, 3]] ([1, 2, 9, 3] ++ List.replicate 13 4) =
    ⟨.init, true, [[5, 0, 0, 0, 0x47, 0x4c, 2, 3, 9], [4, 0, 0, 0, 0x47, 0x4c, 2, 3]], [],
      none⟩ := by
  refine (((onRecv_frames ?_ _ ?_ ?_).2.2 ?_).1 ?_).trans ?_
  · simp [Frame.Proper]
  · decide
  · decide
  · decide
  · rintro (_ | _ | i) f hf
    · cases hf
      decide
    · cases hf
      decide
    · simp at hf
  · decide

/-- A REGISTER frame that is shorter than the header: `OnMessage` throws, and
is not called for the frame behind it. -/
theorem short_register_ends_link :
    ¬ ∀ (p : Platform) (w : Nat → World) (frames : List Frame) (ks : List Nat),
      (∀ f ∈ frames, 1 ≤ f.length ∧ f.length ≤ limit) → (∀ k ∈ ks, 0 < k) →
      (wires frames).length ≤ ks.length →
      (received p w frames ks).calls = frames.map (Frame.buffer p) := by
  intro h
  have hcalls := h ⟨.little, true⟩ (fun _ => ⟨0, some true, false⟩)
    [[0x47, 0x4c, 2, 0], [0x47, 0x4c, 2, 3]] (List.replicate 16 4) (by simp [limit]) (by simp)
    (by decide)
  exact absurd hcalls (by decide)

end GalaLua.Controllers.Framing
