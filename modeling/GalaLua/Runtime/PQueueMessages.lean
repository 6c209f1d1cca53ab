import GalaLua.Library.Chain
import GalaLua.Library.Transition
import GalaLua.Runtime.PQueue

/-!
# The messages of a shared-memory queue

The cells of the messages form a chain that starts at the list head and ends at
`Last`. `Put` copies up to 160 bytes to a field of 128 that begins at the 26th
byte of its cell, so a message of more than 134 bytes runs into the next cell,
and one of more than 128 is handed out with what lies behind the field
(`fifo_iff`).
-/

namespace GalaLua.Runtime.PQueue

open Library

variable {q q' : PQueue} {c i k len pg x : Nat} {buf m out : List Byte} {cells : List Nat}
  {sent : List (List Byte)}

/-- `sent` has the messages that were put and not yet got. -/
structure Traffic where
  q : PQueue
  sent : List (List Byte)

inductive Call
  | put (buf : List Byte)
  | get (len : Nat)

def Traffic.new (size : BitVec 64) (mem : Memory) : Traffic := ⟨PQueue.new size mem, []⟩

def Traffic.next (s : Traffic) : Call → Traffic
  | .put buf =>
    match s.q.put buf with
    | .done q => ⟨q, s.sent ++ [buf]⟩
    | _ => s
  | .get len =>
    match s.q.get len with
    | .done (_, q) => ⟨q, s.sent.tail⟩
    | _ => s

/-- The header, the cell of the message, and `Next` of the tail. -/
def MayWrite (q : PQueue) (idx x : Nat) : Prop :=
  x < trunkAt ∨ (cellAt idx ≤ x ∧ x < cellAt idx + unitSize) ∨ (nextAt q.last ≤ x ∧ x < nextAt q.last + 8)

/-- `Put` keeps to its own, and `Get` hands out the oldest message, cut to the
field `MSG` and to the buffer of the reader. -/
def Traffic.Fifo (s : Traffic) : Call → Prop
  | .put buf =>
    match s.q.put buf with
    | .waits => True
    | .outside => False
    | .done q => ∀ w ∈ q.writes, ∀ x, w.1 ≤ x → x < w.1 + w.2.length → s.q.MayWrite q.last x
  | .get len =>
    match s.q.get len with
    | .waits => s.sent = []
    | .outside => False
    | .done (out, _) => ∃ m rest, s.sent = m :: rest ∧ out = (m.take msgSize).take len

/-- The search for a cell stays in the memory, and the cell it finds lies there
and has its page in the map. -/
def Traffic.Within (s : Traffic) : Call → Prop
  | .put _ => ∃ i q, s.q.entered.trunkMalloc = some (i, q) ∧
      (i ≠ 0 → s.q.Fits i ∧ i ≤ 1024 * cellPageSize)
  | .get _ => True

/-- The bytes of a cell from `MSG` on. -/
def room : Nat := 134

/-- A message is put in a cell only when it has room there, and one that is
longer than `MSG` goes to a buffer that is not. -/
def Traffic.Short (s : Traffic) : Call → Prop
  | .put buf => ∀ i q, s.q.entered.trunkMalloc = some (i, q) → i ≠ 0 → buf.length ≤ room
  | .get len => ∀ m ∈ s.sent.head?, m.length ≤ msgSize ∨ len ≤ msgSize

-- ---------------------------------------------------------------------------
-- What a call changes
-- ---------------------------------------------------------------------------

/-- The state after a message went to cell `i`. -/
def putAt (q : PQueue) (i : Nat) (buf : List Byte) : PQueue := (q.entered.taken i).filled i buf

/-- The state after the front message, in cell `c`, was taken. -/
def gotFrom (q : PQueue) (c : Nat) : PQueue := q.entered.unlinked.freed c

@[simp] theorem putAt_size : (q.putAt i buf).size = q.size := by
  simp [putAt, filled]

@[simp] theorem putAt_last : (q.putAt i buf).last = i := rfl

@[simp] theorem gotFrom_size : (q.gotFrom c).size = q.size := by
  simp [gotFrom]

theorem putAt_mem (hlen : buf.length ≤ room) (hi : i ≤ 1024 * cellPageSize) (hx : trunkAt ≤ x)
    (hcell : x < cellAt i ∨ cellAt i + unitSize ≤ x) (hnext : x < nextAt q.last ∨ nextAt q.last + 8 ≤ x) :
    (q.putAt i buf).mem x = q.mem x := by
  have hfield : x < idAt i ∨ msgAt i + min buf.length unitSize ≤ x ∧ msgAt i + msgSize ≤ x := by
    rw [room] at hlen
    rw [unitSize] at hcell
    rw [idAt, msgAt, msgSize]
    omega
  refine (filled_mem hfield ?_).trans (taken_mem ?_ ?_)
  · rwa [taken_last]
  · rw [unitSize] at hcell
    omega
  · rw [trunkAt] at hx
    rw [cellPageSize] at hi
    rw [bitMapAt, cellPageSize]
    omega

theorem gotFrom_mem (hpos : 0 < c) (hc : c ≤ 1024 * cellPageSize) (hx : trunkAt ≤ x) (hcell : x ≠ cellAt c)
    (hnext : x < nextAt 0 ∨ nextAt 0 + 8 ≤ x) : (q.gotFrom c).mem x = q.mem x := by
  refine (freed_mem ?_ hcell).trans (unlinked_mem hnext)
  rw [mapByteOf_eq hpos]
  rw [trunkAt] at hx
  rw [cellPageSize] at hc
  rw [bitMapAt, cellPageSize]
  omega

theorem putAt_next (hi : i < 2 ^ 64) : (q.putAt i buf).mem.load (nextAt q.last) 8 = i := by
  simp only [putAt, filled, store_mem, store_last, taken_last, entered_last]
  exact Memory.load_write_lowBytes hi

/-- The message is in its cell as it was put. -/
theorem putAt_content (hlen : buf.length ≤ room) :
    (q.putAt i buf).mem.load (lenAt i) 2 = buf.length ∧
      (q.putAt i buf).mem.read (msgAt i) buf.length = buf := by
  have hlen' : buf.length ≤ 134 := hlen
  have hmin : min buf.length unitSize = buf.length := by
    rw [unitSize]
    omega
  have hapart (n a : Nat) (ha : cellAt i + 24 ≤ a) (hn : a + n ≤ cellAt i + unitSize) :
      Memory.Apart a n (nextAt q.last) (lowBytes 8 i).length := by
    rw [length_lowBytes, Memory.Apart]
    simp only [nextAt, cellAt, trunkAt, unitSize] at ha hn ⊢
    omega
  simp only [putAt, filled, store_mem, store_last, taken_last, entered_last, hmin]
  constructor
  · rw [Memory.load_write_of_apart (hapart 2 (lenAt i) (Nat.le_refl _) (by rw [lenAt, unitSize]; omega))]
    exact Memory.load_write_lowBytes (by omega)
  · have hmsg : msgAt i + buf.length ≤ cellAt i + unitSize := by
      rw [msgAt, unitSize]
      omega
    rw [Memory.read_write_of_apart (hapart buf.length (msgAt i) (by rw [msgAt]; omega) hmsg),
      Memory.read_write_of_apart, List.take_length, Memory.read_write (Nat.le_refl _), List.take_length]
    rw [length_lowBytes, Memory.Apart, lenAt, msgAt]
    omega

theorem putAt_used : (q.putAt i buf).Used i := by
  have hflag : (q.putAt i buf).mem (cellAt i) = 1 := by
    refine (filled_mem ?_ ?_).trans taken_used
    · rw [idAt]
      omega
    · simp only [nextAt, cellAt, trunkAt, unitSize, taken_last, entered_last]
      omega
  rw [Used, hflag]
  decide

-- ---------------------------------------------------------------------------
-- The chain of messages
-- ---------------------------------------------------------------------------

/-- The cell after `c`. -/
def link (q : PQueue) (c : Nat) : Option Nat :=
  if c = q.last then none else some (q.mem.load (nextAt c) 8)

def Holds (q : PQueue) (c : Nat) (m : List Byte) : Prop :=
  q.mem.load (lenAt c) 2 = m.length ∧ q.mem.read (msgAt c) m.length = m ∧ m.length ≤ room

structure Queued (q : PQueue) (cells : List Nat) (sent : List (List Byte)) : Prop where
  chain : Chain q.link (some 0) (0 :: cells)
  cell : ∀ c ∈ cells, 0 < c ∧ c ≤ 1024 * cellPageSize ∧ q.Fits c ∧ q.Used c
  content : List.Forall₂ q.Holds cells sent

def Traffic.Inv (s : Traffic) : Prop := ∃ cells, s.q.Queued cells s.sent

theorem new_inv (size : BitVec 64) (mem : Memory) : (Traffic.new size mem).Inv :=
  ⟨[], ⟨rfl, if_pos rfl⟩, nofun, .nil⟩

theorem Queued.last_eq {l : List Nat} {a : Nat} (h : Queued q cells sent) (hl : 0 :: cells = l ++ [a]) :
    a = q.last := by
  have hchain := h.chain
  rw [hl] at hchain
  have hend : q.link a = none := hchain.drop.2
  by_contra hne
  rw [link, if_neg hne] at hend
  cases hend

theorem Queued.last_fits (h : Queued q cells sent) (hi : q.Fits i) : q.Fits q.last := by
  obtain ⟨l, a, hl⟩ := List.eq_nil_or_concat' (0 :: cells) |>.resolve_left nofun
  obtain rfl := h.last_eq hl
  have hmem : q.last ∈ 0 :: cells := hl ▸ List.mem_append_right l List.mem_cons_self
  rcases List.mem_cons.mp hmem with hzero | hmem
  · rw [hzero]
    simp only [Fits, cellAt, trunkAt, unitSize] at hi ⊢
    omega
  · exact (h.cell q.last hmem).2.2.1

theorem Queued.not_mem (h : Queued q cells sent) (hi : 0 < i) (hfree : ¬q.Used i) : i ∉ 0 :: cells := by
  intro hmem
  rcases List.mem_cons.mp hmem with rfl | hmem
  · exact Nat.lt_irrefl 0 hi
  · exact hfree (h.cell i hmem).2.2.2

/-- Two memories that agree on the cell `c`, its `Next` apart. -/
theorem Holds.congr (h : q.Holds c m)
    (heq : ∀ x, cellAt c + 24 ≤ x → x < cellAt c + unitSize → q'.mem x = q.mem x) : q'.Holds c m := by
  obtain ⟨hlen, hmsg, hroom⟩ := h
  have hroom' : m.length ≤ 134 := hroom
  refine ⟨?_, ?_, hroom⟩
  · rw [← hlen]
    refine Memory.load_congr fun k hk => heq _ ?_ ?_
    · rw [lenAt]
      omega
    · rw [lenAt, unitSize]
      omega
  · refine (Memory.read_congr fun k hk => heq _ ?_ ?_).trans hmsg
    · rw [msgAt]
      omega
    · rw [msgAt, unitSize]
      omega

theorem Queued.put (h : Queued q cells sent) (hpos : 0 < i) (hfree : ¬q.Used i) (hfit : q.Fits i)
    (hi : i ≤ 1024 * cellPageSize) (hlen : buf.length ≤ room) :
    Queued (q.putAt i buf) (cells ++ [i]) (sent ++ [buf]) := by
  obtain ⟨l, a, hl⟩ := List.eq_nil_or_concat' (0 :: cells) |>.resolve_left nofun
  obtain rfl := h.last_eq hl
  have hnew := h.not_mem hpos hfree
  have hne : q.last ≠ i := fun heq => hnew (hl ▸ heq ▸ List.mem_append_right l List.mem_cons_self)
  have hnodup := h.chain.nodup
  rw [hl, List.nodup_append] at hnodup
  -- the other cells of the chain keep their bytes, the tail's `Next` apart
  have hframe (d : Nat) (hd : d ≠ i) (x : Nat) (hx : cellAt d ≤ x) (hx' : x < cellAt d + unitSize)
      (hnext : x < nextAt q.last ∨ nextAt q.last + 8 ≤ x) : (q.putAt i buf).mem x = q.mem x := by
    refine putAt_mem hlen hi ?_ ?_ hnext
    · rw [cellAt] at hx
      omega
    · simp only [cellAt, trunkAt, unitSize] at hx hx' ⊢
      omega
  have hbytes (d : Nat) (hd : d ≠ i) (x : Nat) (hx : cellAt d + 24 ≤ x) (hx' : x < cellAt d + unitSize) :
      (q.putAt i buf).mem x = q.mem x := by
    refine hframe d hd x (by omega) hx' ?_
    simp only [nextAt, cellAt, trunkAt, unitSize] at hx hx' ⊢
    omega
  have hother {d : Nat} (hd : d ∈ cells) : d ≠ i := fun heq => hnew (heq ▸ List.mem_cons_of_mem 0 hd)
  refine ⟨?_, fun d hd => ?_, ?_⟩
  · have hchain := h.chain
    rw [hl] at hchain hnew
    rw [← List.cons_append, hl]
    refine hchain.snoc hnew ?_ (if_pos rfl) fun d hd => ?_
    · rw [link, putAt_last, if_neg hne, putAt_next (by rw [cellPageSize] at hi; omega)]
    · have hdl : d ≠ q.last := hnodup.2.2 d hd q.last List.mem_cons_self
      have hdi : d ≠ i := fun heq => hnew (heq ▸ List.mem_append_left _ hd)
      have hload : (q.putAt i buf).mem.load (nextAt d) 8 = q.mem.load (nextAt d) 8 := by
        refine Memory.load_congr fun k hk => hframe d hdi _ ?_ ?_ ?_
        · rw [nextAt]
          omega
        · rw [nextAt, unitSize]
          omega
        · simp only [nextAt, cellAt, trunkAt, unitSize]
          omega
      rw [link, link, putAt_last, if_neg hdi, if_neg hdl, hload]
  · rw [Fits, putAt_size]
    rcases List.mem_append.mp hd with hd | hd
    · obtain ⟨hd0, hdle, hdfit, hdused⟩ := h.cell d hd
      refine ⟨hd0, hdle, hdfit, ?_⟩
      rw [Used, hframe d (hother hd) _ (Nat.le_refl _) (by rw [unitSize]; omega)]
      · exact hdused
      · simp only [nextAt, cellAt, trunkAt, unitSize]
        omega
    · obtain rfl := List.mem_singleton.mp hd
      exact ⟨hpos, hi, hfit, putAt_used⟩
  · have hold : List.Forall₂ (q.putAt i buf).Holds cells sent := by
      obtain ⟨hlength, hzip⟩ := List.forall₂_iff_zip.mp h.content
      refine List.forall₂_iff_zip.mpr ⟨hlength, fun hmem => ?_⟩
      exact (hzip hmem).congr (hbytes _ (hother (List.of_mem_zip hmem).1))
    obtain ⟨hnumber, hmsg⟩ := putAt_content (q := q) (i := i) hlen
    exact List.rel_append hold (.cons ⟨hnumber, hmsg, hlen⟩ .nil)

theorem Queued.empty_iff (h : Queued q cells sent) : q.last = 0 ↔ sent = [] := by
  have hcontent := h.content
  cases cells with
  | nil =>
    cases hcontent
    exact iff_of_true (h.last_eq (List.nil_append [0]).symm).symm rfl
  | cons c cells =>
    cases hcontent with
    | cons _ _ =>
      refine iff_of_false (fun h0 => ?_) nofun
      obtain ⟨-, hnext, -⟩ := h.chain
      rw [link, if_pos h0.symm] at hnext
      cases hnext

theorem Queued.get {rest : List (List Byte)} (h : Queued q (c :: cells) (m :: rest)) :
    q.get len = .done (m.take len, q.gotFrom c) ∧ Queued (q.gotFrom c) cells rest := by
  obtain ⟨hpos, hc, hfit, hused⟩ := h.cell c List.mem_cons_self
  obtain ⟨-, hzero, hchain⟩ := h.chain
  have hnodup := h.chain.nodup
  simp only [List.nodup_cons, List.mem_cons, not_or] at hnodup
  obtain ⟨⟨-, h0⟩, hcfresh, -⟩ := hnodup
  obtain ⟨⟨hlen, hmsg, hroom⟩, hcontent⟩ := List.forall₂_cons.mp h.content
  have hroom' : m.length ≤ 134 := hroom
  have hlast : q.last ≠ 0 := fun hl => by
    rw [link, if_pos hl.symm] at hzero
    cases hzero
  have hfront : q.front = c := by
    rw [link, if_neg (Ne.symm hlast)] at hzero
    exact Option.some.inj hzero
  have hfit' : cellAt c + 160 ≤ q.size.toNat := hfit
  have hfit0 : q.entered.Fits 0 := by
    simp only [Fits, cellAt, trunkAt, unitSize, entered_size] at hfit' ⊢
    omega
  -- only `Next` of the list head changes before the message is copied
  have hsame (x : Nat) (hx : cellAt 1 ≤ x) : q.entered.unlinked.mem x = q.mem x := by
    refine unlinked_mem ?_
    simp only [nextAt, cellAt, trunkAt, unitSize] at hx ⊢
    omega
  have hcell : cellAt 1 ≤ cellAt c := by
    simp only [cellAt, trunkAt, unitSize]
    omega
  have hnumber : q.entered.unlinked.mem.load (lenAt c) 2 = m.length := by
    rw [← hlen]
    refine Memory.load_congr fun k hk => hsame _ ?_
    rw [lenAt]
    omega
  have hout : q.entered.unlinked.mem.read (msgAt c) (min m.length len) = m.take len := by
    have hread : q.entered.unlinked.mem.read (msgAt c) m.length = m := by
      refine (Memory.read_congr fun k hk => hsame _ ?_).trans hmsg
      rw [msgAt]
      omega
    rw [Nat.min_comm, ← Memory.take_read, hread]
  have hmap : mapByteOf c < q.size.toNat := by
    rw [mapByteOf_eq hpos]
    rw [cellPageSize] at hc
    simp only [cellAt, trunkAt, unitSize] at hfit'
    simp only [bitMapAt, cellPageSize]
    omega
  refine ⟨?_, ?_⟩
  · have hfits : q.entered.Fits q.entered.front := by
      change q.entered.Fits q.front
      rw [hfront]
      exact hfit
    have hunlink : q.entered.unlink len = some (m.take len, q.gotFrom c) := by
      rw [unlink_of_fits hfit0 hfits]
      change q.entered.unlinked.takeOut q.front len = _
      rw [hfront, takeOut_eq_some, hnumber, unlinked_size, entered_size]
      refine ⟨?_, ?_, hout, hmap, by omega, rfl⟩
      · rw [lenAt]
        omega
      · rw [msgAt]
        omega
    rw [PQueue.get, if_neg hlast, hunlink]
  · have hbytes (d : Nat) (hd : d ≠ c) (hd0 : d ≠ 0) (x : Nat) (hx : cellAt d ≤ x)
        (hx' : x < cellAt d + unitSize) : (q.gotFrom c).mem x = q.mem x := by
      refine gotFrom_mem hpos hc ?_ ?_ ?_
      · rw [cellAt] at hx
        omega
      · simp only [cellAt, trunkAt, unitSize] at hx hx' ⊢
        omega
      · simp only [nextAt, cellAt, trunkAt, unitSize] at hx hx' ⊢
        omega
    have hother {d : Nat} (hd : d ∈ cells) : d ≠ c ∧ d ≠ 0 :=
      ⟨fun heq => hcfresh (heq ▸ hd), fun heq => h0 (heq ▸ hd)⟩
    have hlast' : (q.gotFrom c).last = if c = q.last then 0 else q.last := by
      rw [gotFrom, freed_last, unlinked_last]
      change (if q.front = q.last then 0 else q.last) = _
      rw [hfront]
    refine ⟨⟨rfl, ?_⟩, fun d hd => ?_, ?_⟩
    · by_cases hcl : c = q.last
      · -- the message was the only one
        rw [link, if_pos hcl] at hchain
        obtain rfl : cells = [] := by
          cases cells with
          | nil => rfl
          | cons d cells => cases hchain.1
        rw [link, hlast', if_pos hcl]
        exact if_pos rfl
      · have hchain' : Chain q.link (some (q.mem.load (nextAt c) 8)) cells := by
          rwa [link, if_neg hcl] at hchain
        have hnext : (q.gotFrom c).mem.load (nextAt 0) 8 = q.mem.load (nextAt c) 8 := by
          have hun : q.entered.unlinked =
              q.entered.store (nextAt 0) (lowBytes 8 (q.mem.load (nextAt c) 8)) := by
            have hne : ¬q.entered.front = q.entered.last := by
              change ¬q.front = q.last
              rwa [hfront]
            rw [unlinked, if_neg hne]
            change q.entered.store (nextAt 0) (lowBytes 8 (q.mem.load (nextAt q.front) 8)) = _
            rw [hfront]
          have hfreed : (q.gotFrom c).mem.load (nextAt 0) 8 = q.entered.unlinked.mem.load (nextAt 0) 8 := by
            refine Memory.load_congr fun k hk => freed_mem ?_ ?_
            · rw [mapByteOf_eq hpos]
              rw [cellPageSize] at hc
              simp only [nextAt, cellAt, trunkAt, unitSize, bitMapAt, cellPageSize]
              omega
            · simp only [nextAt, cellAt, trunkAt, unitSize]
              omega
          rw [hfreed, hun, store_mem, Memory.load_write_lowBytes Memory.load_lt]
        rw [link, hlast', if_neg hcl, if_neg (Ne.symm hlast), hnext]
        refine hchain'.congr fun d hd => ?_
        have hload : (q.gotFrom c).mem.load (nextAt d) 8 = q.mem.load (nextAt d) 8 := by
          refine Memory.load_congr fun k hk => hbytes d (hother hd).1 (hother hd).2 _ ?_ ?_
          · rw [nextAt]
            omega
          · rw [nextAt, unitSize]
            omega
        rw [link, link, hlast', if_neg hcl, hload]
    · obtain ⟨hd0, hdle, hdfit, hdused⟩ := h.cell d (List.mem_cons_of_mem c hd)
      refine ⟨hd0, hdle, ?_, ?_⟩
      · rw [Fits, gotFrom_size]
        exact hdfit
      · rw [Used, hbytes d (hother hd).1 (hother hd).2 _ (Nat.le_refl _) (by rw [unitSize]; omega)]
        exact hdused
    · obtain ⟨hlength, hzip⟩ := List.forall₂_iff_zip.mp hcontent
      refine List.forall₂_iff_zip.mpr ⟨hlength, fun hmem => ?_⟩
      obtain ⟨hd, hd0⟩ := hother (List.of_mem_zip hmem).1
      exact (hzip hmem).congr fun x hx hx' => hbytes _ hd hd0 x (by omega) hx'

-- ---------------------------------------------------------------------------
-- The footprint of `Put`
-- ---------------------------------------------------------------------------

theorem putAt_writes : (q.putAt i buf).writes =
    (if i % cellPageSize = 0 then [(bitMapAt + (i - 1) / cellPageSize, [(1 : Byte)])] else []) ++
      [(cellAt i, [1]), (idAt i, lowBytes 8 (q.serialNo + 1).toNat), (msgAt i, List.replicate msgSize 0),
        (msgAt i, buf.take (min buf.length unitSize)), (lenAt i, lowBytes 2 (min buf.length unitSize)),
        (nextAt q.last, lowBytes 8 i)] := by
  by_cases hmod : i % cellPageSize = 0
  · simp [putAt, filled, taken, entered, hmod]
  · simp [putAt, filled, taken, entered, hmod]

theorem putAt_mayWrite (hlen : buf.length ≤ room) (hpos : 0 < i) (hi : i ≤ 1024 * cellPageSize)
    {w : Nat × List Byte} (hw : w ∈ (q.putAt i buf).writes) (hx : w.1 ≤ x) (hx' : x < w.1 + w.2.length) :
    q.MayWrite i x := by
  have hown (hge : cellAt i ≤ x) (hlt : x < cellAt i + 160) : q.MayWrite i x := .inr (.inl ⟨hge, hlt⟩)
  rw [putAt_writes, List.mem_append] at hw
  rw [room] at hlen
  rcases hw with hmap | hcell
  · rw [List.mem_ite_nil_right, List.mem_singleton] at hmap
    obtain ⟨-, rfl⟩ := hmap
    rw [cellPageSize] at hi
    simp only [List.length_singleton, bitMapAt, cellPageSize] at hx'
    refine .inl ?_
    rw [trunkAt]
    omega
  · simp only [List.mem_cons, List.not_mem_nil, or_false] at hcell
    rcases hcell with rfl | rfl | rfl | rfl | rfl | rfl
    · rw [List.length_singleton] at hx'
      exact hown hx (by omega)
    · simp only [length_lowBytes, idAt] at hx hx'
      exact hown (by omega) (by omega)
    · simp only [List.length_replicate, msgAt, msgSize] at hx hx'
      exact hown (by omega) (by omega)
    · simp only [List.length_take, msgAt] at hx hx'
      exact hown (by omega) (by omega)
    · simp only [length_lowBytes, lenAt] at hx hx'
      exact hown (by omega) (by omega)
    · rw [length_lowBytes] at hx'
      exact .inr (.inr ⟨hx, hx'⟩)

theorem putAt_overruns (hlen : room < buf.length) :
    ∃ w ∈ (q.putAt i buf).writes, ∃ x, w.1 ≤ x ∧ x < w.1 + w.2.length ∧ ¬q.MayWrite i x := by
  rw [room] at hlen
  refine ⟨(msgAt i, buf.take (min buf.length unitSize)), ?_, cellAt i + unitSize, ?_, ?_, ?_⟩
  · rw [putAt_writes]
    exact List.mem_append_right _ (by simp)
  · simp only [msgAt, unitSize]
    omega
  · simp only [List.length_take, msgAt, unitSize]
    omega
  · simp only [MayWrite, nextAt, cellAt, trunkAt, unitSize]
    omega

-- ---------------------------------------------------------------------------
-- Runs
-- ---------------------------------------------------------------------------

theorem take_take_iff {n : Nat} : m.take len = (m.take n).take len ↔ m.length ≤ n ∨ len ≤ n := by
  rw [List.take_take]
  constructor
  · intro h
    have hlength := congrArg List.length h
    rw [List.length_take, List.length_take] at hlength
    omega
  · intro h
    rcases Nat.le_total len n with hle | hle
    · rw [Nat.min_eq_left hle]
    · rcases h with hm | hn
      · rw [Nat.min_eq_right hle, List.take_of_length_le hm, List.take_of_length_le (by omega)]
      · rw [Nat.le_antisymm hn hle, Nat.min_self]

theorem Queued.put_eq (h : Queued q cells sent) {s : PQueue} (hpos : 0 < i)
    (hm : q.entered.trunkMalloc = some (i, s)) (hfit : q.Fits i) (hlen : buf.length ≤ room) :
    q.put buf = .done (q.putAt i buf) := by
  have hlast := h.last_fits hfit
  rcases trunkMalloc_spec hm with ⟨rfl, -⟩ | ⟨-, rfl, -⟩
  · exact absurd hpos (Nat.lt_irrefl 0)
  · refine put_of_malloc hpos hm (fill_of_fits ?_ ?_ ?_)
    · rw [Fits, taken_size]
      exact hfit
    · rw [Fits, taken_size, taken_last]
      exact hlast
    · have hfit' : cellAt i + 160 ≤ q.size.toNat := hfit
      rw [room] at hlen
      rw [taken_size, entered_size, msgAt]
      omega

theorem put_found (hpos : 0 < i) (hm : q.entered.trunkMalloc = some (i, q.entered.taken i)) :
    q.put buf = .outside ∨ q.put buf = .done (q.putAt i buf) := by
  obtain ⟨i, rfl⟩ := Nat.exists_eq_succ_of_ne_zero (Nat.pos_iff_ne_zero.mp hpos)
  simp only [put, hm]
  cases hfill : (q.entered.taken i.succ).fill i.succ buf with
  | none => exact .inl rfl
  | some q' =>
    rw [fill_eq hfill]
    exact .inr rfl

variable {s : Traffic} {a : Call}

theorem Traffic.Inv.exact (h : s.Inv) (hw : s.Within a) : s.Fifo a ↔ s.Short a := by
  obtain ⟨cells, h⟩ := h
  cases a with
  | put buf =>
    obtain ⟨i, q', hm, hin⟩ := hw
    rcases trunkMalloc_spec hm with ⟨rfl, -⟩ | ⟨hpos, rfl, -⟩
    · have hput : s.q.put buf = .waits := by simp only [PQueue.put, hm]
      refine iff_of_true ?_ fun i q' hm' hne => ?_
      · simp only [Fifo, hput]
      · rw [hm] at hm'
        cases hm'
        exact absurd rfl hne
    · obtain ⟨hfit, hi⟩ := hin (by omega)
      by_cases hlen : buf.length ≤ room
      · refine iff_of_true ?_ fun _ _ _ _ => hlen
        simp only [Fifo, h.put_eq hpos hm hfit hlen, putAt_last]
        exact fun w hw x hx hx' => putAt_mayWrite hlen hpos hi hw hx hx'
      · refine iff_of_false (fun hfifo => ?_) fun hshort => hlen (hshort i _ hm (by omega))
        have hlong : room < buf.length := by omega
        obtain ⟨w, hw, x, hx, hx', hout⟩ := putAt_overruns (q := s.q) (i := i) hlong
        have houtcome : s.q.put buf = .outside ∨ s.q.put buf = .done (s.q.putAt i buf) := put_found hpos hm
        rcases houtcome with hput | hput
        · simp only [Fifo, hput] at hfifo
        · simp only [Fifo, hput, putAt_last] at hfifo
          exact hout (hfifo w hw x hx hx')
  | get len =>
    obtain ⟨q, sent⟩ := s
    cases sent with
    | nil =>
      have hget : q.get len = .waits := if_pos (h.empty_iff.mpr rfl)
      refine iff_of_true ?_ fun m hm => by cases hm
      simp only [Fifo, hget]
    | cons m rest =>
      obtain ⟨c, cells, -, -, rfl⟩ := List.forall₂_cons_right_iff.mp h.content
      have hget : q.get len = .done (m.take len, q.gotFrom c) := h.get.1
      simp only [Fifo, Short, hget]
      constructor
      · rintro ⟨m', rest', heq, htake⟩ m'' hm''
        cases heq
        cases hm''
        exact take_take_iff.mp htake
      · intro hshort
        exact ⟨m, rest, rfl, take_take_iff.mpr (hshort m rfl)⟩

theorem Traffic.Inv.next (h : s.Inv) (hw : s.Within a) (hs : s.Short a) : (s.next a).Inv := by
  obtain ⟨cells, h⟩ := h
  cases a with
  | put buf =>
    obtain ⟨i, q', hm, hin⟩ := hw
    rcases trunkMalloc_spec hm with ⟨rfl, -⟩ | ⟨hpos, -, pg, hfound⟩
    · have hput : s.q.put buf = .waits := by simp only [PQueue.put, hm]
      simp only [Traffic.next, hput]
      exact ⟨cells, h⟩
    · obtain ⟨hfit, hi⟩ := hin (by omega)
      have hlen := hs i q' hm (by omega)
      simp only [Traffic.next, h.put_eq hpos hm hfit hlen]
      exact ⟨cells ++ [i], h.put hpos hfound.unused hfit hi hlen⟩
  | get len =>
    obtain ⟨q, sent⟩ := s
    cases sent with
    | nil =>
      have hget : q.get len = .waits := if_pos (h.empty_iff.mpr rfl)
      simp only [Traffic.next, hget]
      exact ⟨cells, h⟩
    | cons m rest =>
      obtain ⟨c, cells, -, -, rfl⟩ := List.forall₂_cons_right_iff.mp h.content
      have hget : q.get len = .done (m.take len, q.gotFrom c) := h.get.1
      have hnext : Queued (q.gotFrom c) cells rest := (h.get : q.get len = _ ∧ _).2
      simp only [Traffic.next, hget]
      exact ⟨cells, hnext⟩

/-- `Get` hands out the messages in the order they were put in, and `Put` keeps
to its cell, exactly when no message is longer than its cell has room and those
longer than `MSG` are read with shorter buffers. -/
theorem fifo_iff (size : BitVec 64) (mem : Memory) (calls : List Call)
    (hw : ∀ t ∈ turns Traffic.next (Traffic.new size mem) calls, t.1.Within t.2) :
    (∀ t ∈ turns Traffic.next (Traffic.new size mem) calls, t.1.Fifo t.2) ↔
      ∀ t ∈ turns Traffic.next (Traffic.new size mem) calls, t.1.Short t.2 :=
  forall_turns_iff_of (I := Traffic.Inv) (l := Traffic.Within) (fun _ _ h hl => h.exact hl)
    (fun _ _ h hl hg => h.next hl ((h.exact hl).mp hg)) calls (new_inv size mem) hw

-- ---------------------------------------------------------------------------
-- Memory whose cells have their pages in the map
-- ---------------------------------------------------------------------------

/-- `Count` is the number of cells and at most 2^20 + 1. -/
structure Mapped (size : BitVec 64) : Prop where
  header : headerSize ≤ size.toNat
  pos : 1 ≤ (countOf size).toNat
  le : (countOf size).toNat ≤ 1024 * cellPageSize + 1

theorem Mapped.within {size : BitVec 64} (h : Mapped size) (hs : q.size = size) (hp : q.pages = pagesOf size) :
    ∃ i q', q.entered.trunkMalloc = some (i, q') ∧ (i ≠ 0 → q.Fits i ∧ i ≤ 1024 * cellPageSize) := by
  obtain ⟨n, hn⟩ := Nat.exists_eq_succ_of_ne_zero (Nat.pos_iff_ne_zero.mp h.pos)
  have hle := h.le
  rw [hn, cellPageSize] at hle
  have hcount := count_of_le h.header
  have hheader := h.header
  rw [hn] at hcount
  simp only [headerSize, unitSize] at hcount hheader
  have hpages : q.entered.pages = ((n / cellPageSize : Nat) : Int) := by
    rw [entered_pages, hp, pages_of_count hn, Int.bmod_def, cellPageSize]
    omega
  have hsize : q.entered.size.toNat = size.toNat := by
    rw [entered_size, hs]
  obtain ⟨pg, hpg, hfind⟩ : ∃ r ≤ n / cellPageSize, q.entered.findPage shorts 0 = some r := by
    refine findPage_isSome ?_ hpages (Nat.zero_le _) ?_
    · rw [hsize, bitMapAt, cellPageSize]
      omega
    · rw [shorts, cellPageSize]
      omega
  have hlast (j : Nat) (hj : (j : Int) ≠ q.entered.pages) (hj' : j ≤ n / cellPageSize) (k : Nat)
      (hk : k < 1 + (j + 1) * cellPageSize) : k ≤ n := by
    rw [hpages] at hj
    rw [cellPageSize] at hj hj' hk
    omega
  obtain ⟨i, q', hm⟩ := trunkMalloc_isSome hfind fun hne k _ hk => by
    have hkn := hlast pg hne hpg k (by rw [cellPageSize] at hk ⊢; omega)
    simp only [cellAt, trunkAt, unitSize]
    omega
  refine ⟨i, q', hm, fun hi => ?_⟩
  rcases trunkMalloc_spec hm with ⟨rfl, -⟩ | ⟨-, -, pg', hfound⟩
  · exact absurd rfl hi
  · have hpg' : pg' ≤ n / cellPageSize := by
      by_contra hgt
      exact (hfound.passed (n / cellPageSize) (by omega)).2 hpages.symm
    have hin := hlast pg' hfound.page hpg' i hfound.lt
    refine ⟨?_, by rw [cellPageSize]; omega⟩
    simp only [Fits, cellAt, trunkAt, unitSize, hs]
    omega

theorem next_shape : (s.next a).q.size = s.q.size ∧ (s.next a).q.pages = s.q.pages := by
  cases a with
  | put buf =>
    simp only [Traffic.next]
    split
    next q hput =>
      obtain ⟨pg, i, -, -, hfill⟩ := put_done hput
      rw [fill_eq hfill]
      exact ⟨by simp [filled], by simp [filled]⟩
    next => exact ⟨rfl, rfl⟩
  | get len =>
    simp only [Traffic.next]
    split
    next out q hget =>
      obtain ⟨-, htake⟩ := get_done hget
      obtain ⟨-, -, -, -, -, rfl⟩ := takeOut_eq_some.mp htake
      exact ⟨by simp, by simp⟩
    next => exact ⟨rfl, rfl⟩

/-- In such memory every search stays where it should. -/
theorem Mapped.forall_within {size : BitVec 64} (h : Mapped size) (calls : List Call) (hs : s.q.size = size)
    (hp : s.q.pages = pagesOf size) : ∀ t ∈ turns Traffic.next s calls, t.1.Within t.2 := by
  induction calls generalizing s with
  | nil => exact nofun
  | cons a calls ih =>
    refine List.forall_mem_cons.mpr ⟨?_, ih (next_shape.1.trans hs) (next_shape.2.trans hp)⟩
    cases a with
    | put buf => exact h.within hs hp
    | get len => trivial

theorem mapped_one_page : Mapped 165176#64 := ⟨by decide, by decide, by decide⟩

theorem short_messages_in_order : Mapped 165176#64 ∧
    ∀ t ∈ turns Traffic.next (Traffic.new 165176#64 fun _ => 0) [.put [1, 2, 3], .get 8], t.1.Fifo t.2 := by
  refine ⟨mapped_one_page, (fifo_iff _ _ _ (mapped_one_page.forall_within _ rfl rfl)).mpr ?_⟩
  refine List.forall_mem_cons.mpr ⟨fun _ _ _ _ => ?_, List.forall_mem_cons.mpr ⟨fun _ _ => .inr ?_, nofun⟩⟩
  · decide
  · decide

theorem Traffic.Inv.not_fifo (h : s.Inv) (hw : s.Within (.put buf)) (hlong : room < buf.length)
    (hfound : ∀ q, s.q.entered.trunkMalloc ≠ some (0, q)) : ¬s.Fifo (.put buf) := by
  intro hfifo
  have hshort := (h.exact hw).mp hfifo
  obtain ⟨i, q, hm, -⟩ := hw
  have hi : i ≠ 0 := by
    rintro rfl
    exact hfound q hm
  have hlen := hshort i q hm hi
  omega

theorem new_found {size : BitVec 64} (hpages : pagesOf size ≠ 0) (s : PQueue) :
    (new size fun _ => 0).entered.trunkMalloc ≠ some (0, s) := by
  intro hm
  have hfree : ¬(new size fun _ => 0).Used 1 := not_not.mpr (new_mem (cellAt 1))
  rcases trunkMalloc_spec hm with ⟨-, -, pg, hpassed, hpage⟩ | ⟨hpos, -⟩
  · obtain rfl : pg = 0 := by
      by_contra hne
      exact (hpassed 0 (by omega)).1 (new_mem _)
    rcases hpage with hend | hall
    · exact hpages hend.symm
    · exact hfree (hall 1 (Nat.le_refl 1) (by rw [cellPageSize]; omega))
  · exact Nat.lt_irrefl 0 hpos

/-- The last byte of the message lands in the next cell. -/
theorem long_message_runs_over : ¬(Traffic.new 165176#64 fun _ => 0).Fifo (.put (List.replicate 135 1)) :=
  (new_inv _ _).not_fifo (mapped_one_page.within (q := new 165176#64 fun _ => 0) rfl rfl)
    (by rw [List.length_replicate]; decide) (new_found (by decide))

end GalaLua.Runtime.PQueue
