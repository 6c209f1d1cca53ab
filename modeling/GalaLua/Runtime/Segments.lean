import GalaLua.Controllers.Hangup
import GalaLua.Library.Loop

/-!
# Segmented transfers

`CSocket::SegmentSend` and `CSocket::SegmentRecv` are one loop: wait, move a
segment, take the seconds it took off the time-out. The loop is left as soon as
no time is left, whether or not the segment was the last one, and a time-out of
-1 has no time left after its first segment. What the sockets and the clock
answer in each turn is given.
-/

namespace GalaLua.Runtime

open Controllers Library.Loop

/-- What the socket does in a turn that offers a number of bytes: `thrown` is an
exception after some bytes have crossed. -/
inductive Answer
  | moved (n : Nat)
  | thrown (crossed : Nat)
  deriving DecidableEq, Repr

def Answer.count : Answer → Nat
  | .moved n => n
  | .thrown crossed => crossed

/-- An event of the socket, and the seconds between the two calls of `time`. -/
structure Round (ρ : Type) where
  event : ρ
  elapsed : Int

/-- `SendWait` and `Send`: there is room for one byte and `more`, or one of them
throws. -/
def sendAnswer : Option Nat → Nat → Answer
  | none, _ => .thrown 0
  | some more, len => .moved (min (more + 1) len)

/-- `RecvWait` and `Recv`: the bytes that are there, or one of them throws. -/
def recvAnswer : Option (UInt8 × List UInt8) → Nat → Answer
  | none, _ => .thrown 0
  | some (b, bs), len =>
    let got := (b :: bs).take len
    match socketRecv (.bytes got) with
    | .data got => .moved got.length
    | _ => .thrown got.length

/-- The conversion to SHORT. -/
def short (z : Int) : Int := z.bmod (2 ^ 16)

/-- `sendlen` (`recvlen`) and the time-out, with the pieces of the buffer that
have crossed: the offset and the length of each. -/
structure Segments where
  done : Nat
  timeout : Int
  pieces : List (Nat × Nat)

inductive SegmentResult
  | returned (b : Bool)
  | thrown (crossed : Nat)
  deriving DecidableEq, Repr

structure Report where
  result : SegmentResult
  crossed : Nat
  pieces : List (Nat × Nat)
  deriving DecidableEq, Repr

variable {ρ : Type}

/-- A turn of the loop. -/
def segmentTurn (answer : ρ → Nat → Answer) (length segsize : Nat) (r : Round ρ) (s : Segments) :
    Turn Segments Report :=
  if s.done < length then
    match answer r.event (min (length - s.done) segsize) with
    | .thrown c => .done ⟨.thrown c, s.done + c, s.pieces ++ [(s.done, c)]⟩
    | .moved n =>
      let timeout := short (s.timeout - r.elapsed)
      if timeout ≤ 0 then .done ⟨.returned false, s.done + n, s.pieces ++ [(s.done, n)]⟩
      else .again ⟨s.done + n, timeout, s.pieces ++ [(s.done, n)]⟩
  else .done ⟨.returned true, s.done, s.pieces⟩

def segment (answer : ρ → Nat → Answer) (timeout : Int) (length segsize : Nat)
    (rounds : Nat → Round ρ) : Turn Segments Report :=
  run (segmentTurn answer length segsize) (length + 1) rounds ⟨0, timeout, []⟩

def SegmentSend := segment sendAnswer

def SegmentRecv := segment recvAnswer

/-- The pieces lie one behind the other from `a` to `b`. -/
def Consecutive : Nat → List (Nat × Nat) → Nat → Prop
  | a, [], b => a = b
  | a, p :: ps, b => p.1 = a ∧ Consecutive (a + p.2) ps b

/-- What the result owes to the caller. With -1 the only other way out is an
exception in a turn that moves nothing. -/
structure Report.Truthful (r : Report) (timeout : Int) (length : Nat) : Prop where
  complete : r.result = .returned true ↔ r.crossed = length
  consecutive : Consecutive 0 r.pieces r.crossed
  patient : timeout = -1 → r.result = .returned true ∨ r.result = .thrown 0

-- ---------------------------------------------------------------------------
-- The first turns
-- ---------------------------------------------------------------------------

section

variable (answer : ρ → Nat → Answer) (timeout : Int) (length segsize : Nat) (rounds : Nat → Round ρ)

/-- The bytes that the first `k` segments move. -/
def movedBy : Nat → Nat
  | 0 => 0
  | k + 1 => movedBy k + (answer (rounds k).event (min (length - movedBy k) segsize)).count

/-- The time left after the first `k` segments. -/
def timeLeft : Nat → Int
  | 0 => timeout
  | k + 1 => short (timeLeft k - (rounds k).elapsed)

/-- What the socket answers to the segment after the first `k`. -/
def answerAt (k : Nat) : Answer :=
  answer (rounds k).event (min (length - movedBy answer length segsize rounds k) segsize)

/-- The first `k` segments leave bytes to move and time. -/
def GoesOn (k : Nat) : Prop :=
  ∀ j < k, movedBy answer length segsize rounds j < length ∧
    (∃ n, answerAt answer length segsize rounds j = .moved n) ∧ 0 < timeLeft timeout rounds (j + 1)

/-- The segment moves bytes and ends the loop all the same: no time is left
after it, or it is moved by a call that throws. -/
def CutsOff (k : Nat) : Prop :=
  match answerAt answer length segsize rounds k with
  | .moved _ => timeLeft timeout rounds (k + 1) ≤ 0
  | .thrown c => 0 < c

/-- A segment that ends the loop is not the last one, and the time-out is not
-1. -/
def Spare : Prop :=
  ∀ k, GoesOn answer timeout length segsize rounds k →
    movedBy answer length segsize rounds k < length → CutsOff answer timeout length segsize rounds k →
      movedBy answer length segsize rounds (k + 1) < length ∧ timeout ≠ -1

end

-- ---------------------------------------------------------------------------
-- Pieces
-- ---------------------------------------------------------------------------

variable {a b n : Nat} {ps : List (Nat × Nat)}

theorem Consecutive.concat (h : Consecutive a ps b) (n : Nat) :
    Consecutive a (ps ++ [(b, n)]) (b + n) := by
  induction ps generalizing a with
  | nil =>
    obtain rfl : a = b := h
    exact ⟨rfl, rfl⟩
  | cons p ps ih => exact ⟨h.1, ih h.2⟩

-- ---------------------------------------------------------------------------
-- The loop
-- ---------------------------------------------------------------------------

/-- The socket moves at least one byte of those it is offered, and no more. -/
structure Lawful (answer : ρ → Nat → Answer) : Prop where
  count_le : ∀ e len, (answer e len).count ≤ len
  pos : ∀ e len n, 0 < len → answer e len = .moved n → 0 < n

theorem sendAnswer_lawful : Lawful sendAnswer where
  count_le e len := by
    cases e with
    | none => exact Nat.zero_le _
    | some more => exact Nat.min_le_right _ _
  pos e len n hlen h := by
    cases e with
    | none => cases h
    | some more =>
      obtain rfl := Answer.moved.inj h
      exact Nat.lt_min.mpr ⟨Nat.succ_pos _, hlen⟩

/-- What has crossed is what was there, up to the length asked for. -/
theorem recvAnswer_count (c : UInt8) (cs : List UInt8) (len : Nat) :
    (recvAnswer (some (c, cs)) len).count = min len (cs.length + 1) := by
  have hlen : ((c :: cs).take len).length = min len (cs.length + 1) := by
    rw [List.length_take, List.length_cons]
  by_cases heof : (c :: cs).take len = [EOF]
  · simp only [recvAnswer, socketRecv, if_pos heof]
    exact hlen
  · simp only [recvAnswer, socketRecv, if_neg heof]
    exact hlen

theorem recvAnswer_lawful : Lawful recvAnswer where
  count_le e len := by
    cases e with
    | none => exact Nat.zero_le _
    | some bs =>
      rw [recvAnswer_count]
      exact Nat.min_le_left _ _
  pos e len n hlen h := by
    cases e with
    | none => cases h
    | some bs =>
      have hcount := recvAnswer_count bs.1 bs.2 len
      rw [h] at hcount
      rw [show n = min len (bs.2.length + 1) from hcount]
      exact Nat.lt_min.mpr ⟨hlen, Nat.succ_pos _⟩

section

variable {answer : ρ → Nat → Answer} {timeout : Int} {length segsize : Nat} {rounds : Nat → Round ρ}

theorem movedBy_le (hl : Lawful answer) (k : Nat) :
    movedBy answer length segsize rounds k ≤ length := by
  induction k with
  | zero => exact Nat.zero_le _
  | succ k ih =>
    have hcount := hl.count_le (rounds k).event
      (min (length - movedBy answer length segsize rounds k) segsize)
    have hmin := Nat.min_le_left (length - movedBy answer length segsize rounds k) segsize
    simp only [movedBy]
    omega

theorem movedBy_succ (k : Nat) : movedBy answer length segsize rounds (k + 1) =
    movedBy answer length segsize rounds k + (answerAt answer length segsize rounds k).count := rfl

/-- The ways to leave the loop after `k` segments. -/
inductive Leaves (answer : ρ → Nat → Answer) (timeout : Int) (length segsize : Nat)
    (rounds : Nat → Round ρ) (k : Nat) (r : Report) : Prop
  | complete : movedBy answer length segsize rounds k = length → r.result = .returned true →
      r.crossed = length → Leaves answer timeout length segsize rounds k r
  | thrown {c : Nat} : movedBy answer length segsize rounds k < length →
      answerAt answer length segsize rounds k = .thrown c → r.result = .thrown c →
      r.crossed = movedBy answer length segsize rounds (k + 1) →
      Leaves answer timeout length segsize rounds k r
  | late {n : Nat} : movedBy answer length segsize rounds k < length →
      answerAt answer length segsize rounds k = .moved n → timeLeft timeout rounds (k + 1) ≤ 0 →
      r.result = .returned false → r.crossed = movedBy answer length segsize rounds (k + 1) →
      Leaves answer timeout length segsize rounds k r

/-- The loop at its turn `k`, with turns enough to move what is left. -/
theorem run_leaves (hl : Lawful answer) (hseg : 0 < segsize) (fuel k : Nat) (s : Segments)
    (hgo : GoesOn answer timeout length segsize rounds k)
    (hdone : s.done = movedBy answer length segsize rounds k) (htime : s.timeout = timeLeft timeout rounds k)
    (hpieces : Consecutive 0 s.pieces s.done)
    (hfuel : length - movedBy answer length segsize rounds k < fuel) :
    ∃ r, run (segmentTurn answer length segsize) fuel (fun i => rounds (k + i)) s = .done r ∧
      Consecutive 0 r.pieces r.crossed ∧
      ∃ m, GoesOn answer timeout length segsize rounds m ∧
        Leaves answer timeout length segsize rounds m r := by
  induction fuel generalizing k s with
  | zero => omega
  | succ fuel ih =>
    have hle : movedBy answer length segsize rounds k ≤ length := movedBy_le hl k
    unfold run
    by_cases hmore : movedBy answer length segsize rounds k < length
    · have hoffer : 0 < min (length - movedBy answer length segsize rounds k) segsize :=
        Nat.lt_min.mpr ⟨by omega, hseg⟩
      cases ha : answerAt answer length segsize rounds k with
      | thrown c =>
        have ha' : answer (rounds (k + 0)).event (min (length - s.done) segsize) = .thrown c := by
          rw [hdone]
          exact ha
        refine ⟨⟨.thrown c, s.done + c, s.pieces ++ [(s.done, c)]⟩, ?_, hpieces.concat c, k, hgo,
          .thrown hmore ha rfl ?_⟩
        · simp only [segmentTurn, if_pos (hdone ▸ hmore), ha']
        · rw [movedBy_succ, ha, hdone]
          rfl
      | moved n =>
        have ha' : answer (rounds (k + 0)).event (min (length - s.done) segsize) = .moved n := by
          rw [hdone]
          exact ha
        have hnext : s.done + n = movedBy answer length segsize rounds (k + 1) := by
          rw [movedBy_succ, ha, hdone]
          rfl
        have hleft : short (s.timeout - (rounds (k + 0)).elapsed) = timeLeft timeout rounds (k + 1) := by
          rw [htime]
          rfl
        by_cases hlate : timeLeft timeout rounds (k + 1) ≤ 0
        · refine ⟨⟨.returned false, s.done + n, s.pieces ++ [(s.done, n)]⟩, ?_, hpieces.concat n, k, hgo,
            .late hmore ha hlate rfl hnext⟩
          simp only [segmentTurn, if_pos (hdone ▸ hmore), ha', hleft, if_pos hlate]
        · have hpos := hl.pos _ _ n hoffer ha
          have hgo' : GoesOn answer timeout length segsize rounds (k + 1) := by
            intro j hj
            rcases Nat.lt_succ_iff_lt_or_eq.mp hj with hj | rfl
            · exact hgo j hj
            · exact ⟨hmore, ⟨n, ha⟩, Int.not_le.mp hlate⟩
          obtain ⟨r, hr, hrest⟩ := ih (k + 1) ⟨s.done + n, timeLeft timeout rounds (k + 1),
            s.pieces ++ [(s.done, n)]⟩ hgo' hnext rfl (hpieces.concat n) (by omega)
          refine ⟨r, ?_, hrest⟩
          simp only [segmentTurn, if_pos (hdone ▸ hmore), ha', hleft, if_neg hlate]
          rw [← hr]
          congr 1
          funext i
          rw [later, Nat.add_right_comm, Nat.add_assoc]
    · have hall : movedBy answer length segsize rounds k = length := by omega
      refine ⟨⟨.returned true, s.done, s.pieces⟩, ?_, hpieces, k, hgo, .complete hall rfl (hdone.trans hall)⟩
      simp only [segmentTurn, if_neg (hdone ▸ hmore)]

theorem GoesOn.not_cutsOff {k m : Nat} (hm : GoesOn answer timeout length segsize rounds m) (hlt : k < m) :
    ¬CutsOff answer timeout length segsize rounds k := by
  obtain ⟨-, ⟨n, hn⟩, hleft⟩ := hm k hlt
  simp only [CutsOff, hn]
  exact Int.not_le.mpr hleft

theorem Leaves.le_of_goesOn {k m : Nat} {r : Report} (h : Leaves answer timeout length segsize rounds m r)
    (hk : GoesOn answer timeout length segsize rounds k) : k ≤ m := by
  by_contra hlt
  obtain ⟨hmore, ⟨n, hn⟩, hleft⟩ := hk m (Nat.lt_of_not_le hlt)
  cases h with
  | complete hall => omega
  | thrown _ ha =>
    rw [hn] at ha
    cases ha
  | late _ _ hlate => omega

theorem Leaves.spare_iff {m : Nat} {r : Report} (h : Leaves answer timeout length segsize rounds m r)
    (hgo : GoesOn answer timeout length segsize rounds m) :
    Spare answer timeout length segsize rounds ↔
      (movedBy answer length segsize rounds m < length → CutsOff answer timeout length segsize rounds m →
        movedBy answer length segsize rounds (m + 1) < length ∧ timeout ≠ -1) := by
  refine ⟨fun hs => hs m hgo, fun hm k hk hmore hcut => ?_⟩
  obtain rfl : k = m := Nat.le_antisymm (h.le_of_goesOn hk)
    (Nat.le_of_not_lt fun hlt => hgo.not_cutsOff hlt hcut)
  exact hm hmore hcut

theorem Report.truthful_iff_of_cut {r : Report} (hpieces : Consecutive 0 r.pieces r.crossed)
    (hle : r.crossed ≤ length) (htrue : r.result ≠ .returned true) (hquiet : r.result ≠ .thrown 0) :
    r.Truthful timeout length ↔ r.crossed < length ∧ timeout ≠ -1 := by
  constructor
  · intro ht
    refine ⟨Nat.lt_of_le_of_ne hle fun hall => htrue (ht.complete.mpr hall), fun hneg => ?_⟩
    exact (ht.patient hneg).elim htrue hquiet
  · rintro ⟨hpart, hne⟩
    exact ⟨iff_of_false htrue hpart.ne, hpieces, fun hneg => absurd hneg hne⟩

theorem Leaves.truthful_iff {m : Nat} {r : Report} (hl : Lawful answer)
    (hgo : GoesOn answer timeout length segsize rounds m)
    (h : Leaves answer timeout length segsize rounds m r) (hpieces : Consecutive 0 r.pieces r.crossed) :
    r.Truthful timeout length ↔ Spare answer timeout length segsize rounds := by
  rw [h.spare_iff hgo]
  have hle : movedBy answer length segsize rounds (m + 1) ≤ length := movedBy_le hl (m + 1)
  cases h with
  | complete hall hres hcrossed =>
    refine iff_of_true ⟨iff_of_true hres hcrossed, hpieces, fun _ => .inl hres⟩ fun hmore => ?_
    exact absurd hall hmore.ne
  | @thrown c hmore ha hres hcrossed =>
    cases c with
    | zero =>
      have hstay : movedBy answer length segsize rounds (m + 1) = movedBy answer length segsize rounds m := by
        rw [movedBy_succ, ha]
        rfl
      refine iff_of_true ⟨iff_of_false (by rw [hres]; nofun) ?_, hpieces, fun _ => .inr hres⟩ ?_
      · rw [hcrossed, hstay]
        exact hmore.ne
      · intro _ hcut
        simp only [CutsOff, ha] at hcut
        exact absurd hcut (Nat.lt_irrefl 0)
    | succ c =>
      have hcut : CutsOff answer timeout length segsize rounds m := by
        simp only [CutsOff, ha]
        exact Nat.succ_pos c
      rw [Report.truthful_iff_of_cut hpieces (hcrossed ▸ hle) (by rw [hres]; nofun) (by rw [hres]; nofun),
        hcrossed]
      exact ⟨fun ht _ _ => ht, fun hs => hs hmore hcut⟩
  | @late n hmore ha hlate hres hcrossed =>
    have hcut : CutsOff answer timeout length segsize rounds m := by
      simp only [CutsOff, ha]
      exact hlate
    rw [Report.truthful_iff_of_cut hpieces (hcrossed ▸ hle) (by rw [hres]; nofun) (by rw [hres]; nofun),
      hcrossed]
    exact ⟨fun ht _ _ => ht, fun hs => hs hmore hcut⟩

theorem segment_truthful_iff (hl : Lawful answer) (hseg : 0 < segsize) :
    ∃ r, segment answer timeout length segsize rounds = .done r ∧
      (r.Truthful timeout length ↔ Spare answer timeout length segsize rounds) := by
  obtain ⟨r, hr, hpieces, m, hgo, hleaves⟩ := run_leaves hl hseg (length + 1) 0
    ⟨0, timeout, []⟩ (fun j hj => absurd hj (Nat.not_lt_zero j)) rfl rfl rfl
    (show length - 0 < length + 1 by omega)
  refine ⟨r, ?_, hleaves.truthful_iff hl hgo hpieces⟩
  simp only [Nat.zero_add] at hr
  exact hr

end

/-- For every length, time-out and pattern of transfers: each of the two
returns or throws, and what it reports is true exactly when it is not cut off
by its last segment, and not at all with a time-out of -1. -/
theorem segments_truthful_iff (timeout : Int) (length segsize : Nat) (hseg : 0 < segsize)
    (sends : Nat → Round (Option Nat)) (recvs : Nat → Round (Option (UInt8 × List UInt8))) :
    (∃ r, SegmentSend timeout length segsize sends = .done r ∧
      (r.Truthful timeout length ↔ Spare sendAnswer timeout length segsize sends)) ∧
    ∃ r, SegmentRecv timeout length segsize recvs = .done r ∧
      (r.Truthful timeout length ↔ Spare recvAnswer timeout length segsize recvs) :=
  ⟨segment_truthful_iff sendAnswer_lawful hseg, segment_truthful_iff recvAnswer_lawful hseg⟩

/-- The header of a frame, with a time-out of ten seconds, is sent in one. -/
theorem header_sent_in_time : ∃ r, SegmentSend 10 64 1024 (fun _ => ⟨some 63, 1⟩) = .done r ∧
    r.Truthful 10 64 := by
  obtain ⟨⟨r, hr, hiff⟩, -⟩ := segments_truthful_iff 10 64 1024 (by decide) (fun _ => ⟨some 63, 1⟩)
    fun _ => ⟨none, 0⟩
  refine ⟨r, hr, hiff.mpr fun k hk hmore hcut => ?_⟩
  rcases k with _ | _ | k
  · have hlate : timeLeft 10 (fun _ => (⟨some 63, 1⟩ : Round (Option Nat))) 1 ≤ 0 := hcut
    revert hlate
    decide
  · exact absurd hmore (by decide)
  · exact absurd (hk 1 (by omega)).1 (by decide)

/-- Without a time-out, all 64 bytes are sent in the first segment: the result
is no. -/
theorem sent_but_denied : ¬ ∀ (timeout : Int) (length segsize : Nat), 0 < segsize →
    ∀ sends : Nat → Round (Option Nat), ∃ r, SegmentSend timeout length segsize sends = .done r ∧
      r.Truthful timeout length := by
  intro h
  obtain ⟨r, hr, ht⟩ := h (-1) 64 1024 (by decide) fun _ => ⟨some 63, 0⟩
  obtain rfl := Turn.done.inj ((show SegmentSend (-1) 64 1024 (fun _ => ⟨some 63, 0⟩) =
    .done ⟨.returned false, 64, [(0, 64)]⟩ from rfl).symm.trans hr)
  have hres := ht.complete.mpr rfl
  revert hres
  decide

end GalaLua.Runtime
