import GalaLua.Slog.Zones

/-!
# The indexes of a log file

An index is made with the first record of a zone and then at intervals. As long as the
indexes have room in their table, the readers find all of them, each with the time and
the offset of its record, and no head or index is written over a record. The end that
`get_log_timestamp` returns is read behind the last index, so it is right only by
chance.
-/

namespace GalaLua.Slog

open Library

-- ---------------------------------------------------------------------------
-- A run and its history
-- ---------------------------------------------------------------------------

/-- A log with the offsets its records were written at, the time and the number of the
record for each index, and the time of the last write. -/
structure Traced where
  log : Log
  offsets : List Nat
  entries : List (Nat × Nat)
  now : Nat

variable (e : Endian)

/-- The writer when it comes to the index of the record. -/
def WriteStream.entered (w : WriteStream) (t : Times) : WriteStream := (w.roll e t.roll).addIndexZone e t.zone

def Traced.init (startTime endTime : Nat) : Traced := ⟨.init e startTime endTime, [], [], 0⟩

def Traced.step (s : Traced) : Op → Option Traced
  | .writeBinary t d =>
    let w := s.log.stream.entered e t
    some {
      log := ⟨s.log.stream.writeBinary e t d, s.log.written ++ [d]⟩
      offsets := s.offsets ++ [w.dataOffset]
      entries := if w.due t.index then s.entries ++ [(t.index, s.log.written.length)] else s.entries
      now := t.index }
  | op => (s.log.step e op).map fun l => { s with log := l }

def Traced.Clock (s : Traced) : Op → Prop
  | .writeBinary t _ => s.now ≤ t.index ∧ t.index < 2 ^ 32
  | _ => True

def Traced.Roomy (s : Traced) (op : Op) : Prop := s.Clock op ∧ s.log.Roomy e op

/-- The byte belongs to a record that was written. -/
def Traced.Covers (s : Traced) (i : Nat) : Prop :=
  ∃ (k off : Nat) (d : List Byte), s.offsets[k]? = some off ∧ s.log.written[k]? = some d ∧
    off ≤ i ∧ i < off + (record e d).length

/-- The index has the time and the offset of the write that it was made for, and a reader
there gets the records from this one on. -/
structure Traced.Points (s : Traced) (i : Index) (x : Nat × Nat) : Prop where
  time : i.timestamp = x.1
  location : s.offsets[x.2]? = some i.location
  suffix : reads e s.log.stream.file (s.log.written.length - x.2 + 1) i.location =
    some (s.log.written.drop x.2 ++ [[]])

structure Traced.Indexed (s : Traced) : Prop where
  indexes : ∀ g, ∃ turns is, readIndexesByAll e s.log.stream.file turns g = some is ∧
    (is.map Index.timestamp).Pairwise (· ≤ ·) ∧ List.Forall₂ (s.Points e) is s.entries
  itemNum : ∀ g, ∃ turns, getItemNum e s.log.stream.file turns g = some s.log.written.length
  kept : ∀ t d, s.Roomy e (.writeBinary t d) → ∀ i, s.Covers e i →
    ((s.log.stream.entered e t).addIndex e t.index).file.bytes i = s.log.stream.file.bytes i ∧
      (s.log.stream.writeBinary e t d).file.bytes i = s.log.stream.file.bytes i

/-- The indexes in the table of the first zone. -/
structure Table (e : Endian) (f : File) (log : List (List Byte)) (entries : List (Nat × Nat)) : Prop where
  size : 148 ≤ f.size
  time : ∀ k x, entries[k]? = some x → f.word e (60 + 8 * k) = x.1
  location : ∀ k x, entries[k]? = some x → f.word e (60 + 8 * k + 4) = 140 + (records e (log.take x.2)).length
  known : ∀ x ∈ entries, x.2 ≤ log.length
  free : ∀ i, 60 + 8 * entries.length ≤ i → i < 140 → f.bytes i = 0

/-- The head of the first zone, which is the last one. -/
structure Head (e : Endian) (f : File) (indexNum itemNum : Nat) : Prop where
  next : f.word e 36 = 0
  indexNum : f.word e 44 = indexNum
  itemNum : f.word e 52 = itemNum

variable {e} {f : File} {log : List (List Byte)} {entries : List (Nat × Nat)} {w : WriteStream} {d : List Byte}
  {n m : Nat}

theorem getElem?_concat_cases {α : Type} {l : List α} {a x : α} {k : Nat} (h : (l ++ [a])[k]? = some x) :
    l[k]? = some x ∨ k = l.length ∧ x = a := by
  rcases Nat.lt_or_ge k l.length with hk | hk
  · rw [List.getElem?_append_left hk] at h
    exact .inl h
  · rw [List.getElem?_append_right hk, List.getElem?_singleton] at h
    split at h
    · exact .inr ⟨by omega, (Option.some.inj h).symm⟩
    · cases h

theorem head_writeZoneHead {h : IndexZoneHead} (hnext : h.nextIndexZone = 0) (hindex : h.indexNum = n)
    (hitem : h.itemNum = m) (hn : n < 2 ^ 32) (hm : m < 2 ^ 32) : Head e (writeZoneHead e f 24 h) n m where
  next := by
    have hword := @next_writeZoneHead e f 24 h (by rw [hnext]; decide)
    rwa [hnext] at hword
  indexNum := by
    have hword := @File.word_write_ofWords f 24 e h.words 5 _ rfl (by rw [hindex]; exact hn)
    rwa [hindex] at hword
  itemNum := by
    have hword := @File.word_write_ofWords f 24 e h.words 7 _ rfl (by rw [hitem]; exact hm)
    rwa [hitem] at hword

theorem Head.write (h : Head e f n m) {off : Nat} {b : List Byte} (hoff : 60 ≤ off) : Head e (f.write off b) n m where
  next := by rw [File.word_write_of_disjoint (.inl (by omega)), h.next]
  indexNum := by rw [File.word_write_of_disjoint (.inl (by omega)), h.indexNum]
  itemNum := by rw [File.word_write_of_disjoint (.inl (by omega)), h.itemNum]

theorem entry_room (hnum : entries.length ≤ 10) {k : Nat} {x : Nat × Nat} (hx : entries[k]? = some x) :
    60 + 8 * k + 8 ≤ 140 := by
  have hk : k < entries.length := (List.getElem?_eq_some_iff.mp hx).1
  omega

theorem Table.write (h : Table e f log entries) (hnum : entries.length ≤ 10) {off : Nat} {b : List Byte}
    (hoff : off + b.length ≤ 60 ∨ 140 ≤ off) : Table e (f.write off b) log entries where
  size := Nat.le_trans h.size File.size_le_write
  time k x hx := by
    have := entry_room hnum hx
    rw [File.word_write_of_disjoint (by omega), h.time k x hx]
  location k x hx := by
    have := entry_room hnum hx
    rw [File.word_write_of_disjoint (by omega), h.location k x hx]
  known := h.known
  free i hi hlt := by rw [File.bytes_write_of_not_mem (by omega), h.free i hi hlt]

theorem Table.writeZoneHead (h : Table e f log entries) (hnum : entries.length ≤ 10) (x : IndexZoneHead) :
    Table e (Slog.writeZoneHead e f 24 x) log entries :=
  h.write hnum (.inl (by rw [File.length_ofWords, length_zoneWords]))

theorem Table.concat (h : Table e f log entries) (d : List Byte) : Table e f (log ++ [d]) entries where
  size := h.size
  time := h.time
  location k x hx := by
    rw [List.take_append_of_le_length (h.known x (List.mem_of_getElem? hx)), h.location k x hx]
  known x hx := by
    have := h.known x hx
    rw [List.length_append]
    omega
  free := h.free

/-- The next index goes into the first free place. -/
theorem Table.addIndex (h : Table e f log entries) {t : Nat} (ht : t < 2 ^ 32)
    (hfits : 140 + (records e log).length < 2 ^ 32) :
    Table e (f.write (60 + 8 * entries.length) (File.ofWords e [t, 140 + (records e log).length])) log
      (entries ++ [(t, log.length)]) := by
  have hlen : (File.ofWords e [t, 140 + (records e log).length]).length = 8 := File.length_ofWords
  refine ⟨Nat.le_trans h.size File.size_le_write, fun k x hx => ?_, fun k x hx => ?_, fun x hx => ?_,
    fun i hi hlt => ?_⟩
  · rcases getElem?_concat_cases hx with hx | ⟨rfl, rfl⟩
    · have hk : k < entries.length := (List.getElem?_eq_some_iff.mp hx).1
      rw [File.word_write_of_disjoint (.inl (by omega)), h.time k x hx]
    · exact @File.word_write_ofWords f _ e [t, 140 + (records e log).length] 0 _ rfl ht
  · rcases getElem?_concat_cases hx with hx | ⟨rfl, rfl⟩
    · have hk : k < entries.length := (List.getElem?_eq_some_iff.mp hx).1
      rw [File.word_write_of_disjoint (.inl (by omega)), h.location k x hx]
    · rw [List.take_length]
      exact @File.word_write_ofWords f _ e [t, 140 + (records e log).length] 1 _ rfl hfits
  · rcases List.mem_append.mp hx with hx | hx
    · exact h.known x hx
    · rw [List.mem_singleton.mp hx]
  · rw [List.length_append, List.length_singleton] at hi
    rw [File.bytes_write_of_not_mem (.inr (by omega)), h.free i (by omega) hlt]

-- ---------------------------------------------------------------------------
-- One write
-- ---------------------------------------------------------------------------

theorem Laid.table_addIndex (h : Laid e w log) (ht : Table e w.file log entries) (hh : Head e w.file entries.length n)
    (hn : n < 2 ^ 32) (hnum : entries.length = w.indexNumInZone) {t : Nat}
    (hroom : w.due t → w.indexNumInZone < MAX_INDEX_NUM_IN_INDEX_ZONE) (htime : t < 2 ^ 32)
    (hfits : w.dataOffset < 2 ^ 32) {entries' : List (Nat × Nat)}
    (hentries : entries' = if w.due t then entries ++ [(t, log.length)] else entries) :
    Table e (w.addIndex e t).file log entries' ∧ Head e (w.addIndex e t).file entries'.length n ∧
      entries'.length = (w.addIndex e t).indexNumInZone := by
  subst hentries
  by_cases hdue : w.due t
  · have hless : w.indexNumInZone < 10 := hroom hdue
    have hindex : w.indexOffset = 60 + 8 * entries.length := by rw [h.index, hnum]
    have hdata := h.data
    have hwritten : Table e (w.file.write w.indexOffset (File.ofWords e [t, w.dataOffset])) log
        (entries ++ [(t, log.length)]) := by
      rw [hindex, hdata]
      exact ht.addIndex htime (by omega)
    have hhead : Head e (w.file.write w.indexOffset (File.ofWords e [t, w.dataOffset])) entries.length n :=
      hh.write (by omega)
    have hcount : (entries.length + 1) % 2 ^ 32 = entries.length + 1 := Nat.mod_eq_of_lt (by omega)
    have hlen : (entries ++ [(t, log.length)]).length = entries.length + 1 := by
      rw [List.length_append, List.length_singleton]
    rw [WriteStream.addIndex, if_pos hdue, if_pos hdue, hlen]
    simp only [h.zone]
    refine ⟨hwritten.writeZoneHead (by omega) _, ?_, ?_⟩
    · refine head_writeZoneHead hhead.next ?_ hhead.itemNum (by omega) hn
      simp only [readZoneHead, hhead.indexNum, hcount]
    · rw [← hnum]
      omega
  · rw [WriteStream.addIndex, if_neg hdue, if_neg hdue]
    exact ⟨ht, hh, hnum⟩

theorem Laid.table_addData (h : Laid e w log) (ht : Table e w.file log entries) (hh : Head e w.file entries.length n)
    (hnum : entries.length = w.indexNumInZone) (hitem : w.itemNumInZone + 1 < 2 ^ 32)
    (hfits : w.dataOffset + (record e d).length < 2 ^ 32) :
    Table e (w.addData e d).file (log ++ [d]) entries ∧
      Head e (w.addData e d).file entries.length (w.itemNumInZone + 1) := by
  have hdata := h.data
  have hless := h.num
  have hcount : (w.itemNumInZone + 1) % 2 ^ 32 = w.itemNumInZone + 1 := Nat.mod_eq_of_lt hitem
  have htable : Table e (w.file.write w.dataOffset (record e d)) log entries := ht.write (by omega) (.inr (by omega))
  have hhead : Head e (w.file.write w.dataOffset (record e d)) entries.length n := hh.write (by omega)
  rw [WriteStream.addData_eq hfits]
  simp only [WriteStream.count, WriteStream.put, h.zone, hcount]
  refine ⟨(htable.writeZoneHead (by omega) _).concat d, ?_⟩
  exact head_writeZoneHead hhead.next hhead.indexNum rfl (by omega) hitem

-- ---------------------------------------------------------------------------
-- Any number of writes
-- ---------------------------------------------------------------------------

/-- A file that readers find all records and indexes in. -/
structure Readable (e : Endian) (f : File) (log : List (List Byte)) (entries : List (Nat × Nat)) : Prop where
  area : Area e f log
  table : Table e f log entries
  head : Head e f entries.length log.length
  size : 140 + (records e log).length ≤ f.size
  fits : 140 + (records e log).length < 2 ^ 32
  few : entries.length ≤ 10
  numbered : ∀ x ∈ entries, x.2 < log.length

variable (e) in
def offsetsOf (log : List (List Byte)) : List Nat :=
  (List.range log.length).map fun k => 140 + (records e (log.take k)).length

structure Traced.Inv (e : Endian) (s : Traced) : Prop where
  log : s.log.Inv e
  readable : Readable e s.log.stream.file s.log.written s.entries
  num : s.entries.length = s.log.stream.indexNumInZone
  items : s.log.stream.itemNumInZone = s.log.written.length
  offsets : s.offsets = offsetsOf e s.log.written
  sorted : (s.entries.map Prod.fst).Pairwise (· ≤ ·)
  past : ∀ x ∈ s.entries, x.1 ≤ s.now

theorem offsetsOf_concat (log : List (List Byte)) (d : List Byte) :
    offsetsOf e (log ++ [d]) = offsetsOf e log ++ [140 + (records e log).length] := by
  rw [offsetsOf, List.length_append, List.length_singleton, List.range_succ, List.map_append, List.map_singleton,
    List.take_left]
  congr 1
  refine List.map_congr_left fun k hk => ?_
  rw [List.take_append_of_le_length (Nat.le_of_lt (List.mem_range.mp hk))]

theorem sixteen_le_records (log : List (List Byte)) : 16 * log.length ≤ (records e log).length := by
  induction log with
  | nil => exact Nat.zero_le _
  | cons d log ih =>
    rw [records_cons, List.length_append, length_record, List.length_cons]
    omega

/-- The writer in front of the index of a record, whether it has begun the zone now or not. -/
structure Entered (e : Endian) (s : Traced) (t : Times) (d : List Byte) (w : WriteStream) : Prop where
  laid : Laid e w s.log.written
  table : Table e w.file s.log.written s.entries
  head : Head e w.file s.entries.length s.log.written.length
  num : s.entries.length = w.indexNumInZone
  items : w.itemNumInZone = s.log.written.length
  room : w.due t.index → w.indexNumInZone < MAX_INDEX_NUM_IN_INDEX_ZONE
  first : w.indexNumInZone = 0 → s.log.written = []
  fits : w.dataOffset + (record e d).length < 2 ^ 32
  size : w.dataOffset ≤ w.file.size
  behind : ∀ i, 140 ≤ i → w.file.bytes i = s.log.stream.file.bytes i

theorem Traced.Inv.entered {s : Traced} (h : s.Inv e) {t : Times} (hok : s.log.Roomy e (.writeBinary t d)) :
    Entered e s t d (s.log.stream.entered e t) := by
  obtain ⟨hfull, hroom, hfits⟩ := hok
  have hroll : s.log.stream.roll e t.roll = s.log.stream := if_neg (by omega)
  rw [WriteStream.entered, hroll]
  cases h.log with
  | blank hempty hb =>
    obtain ⟨hl, hnum⟩ := hb.addIndexZone t.zone
    have hdata : ((s.log.stream.addIndexZone e t.zone)).dataOffset = 140 := by
      rw [hl.data]
      rfl
    have hentries : s.entries.length = 0 := by rw [h.num, hb.num]
    have hsize := h.readable.table.size
    have hfile : (s.log.stream.addIndexZone e t.zone).file = writeZoneHead e s.log.stream.file 24
        ⟨MAGIC_I_START, t.zone, t.zone, 0, s.log.stream.maxIndexNumInZoneNew, 0, 0, 0, MAGIC_I_END⟩ := by
      rw [WriteStream.addIndexZone, if_pos hb.num, ← hb.zone]
    have hitems : (s.log.stream.addIndexZone e t.zone).itemNumInZone = s.log.stream.itemNumInZone := by
      rw [WriteStream.addIndexZone, if_pos hb.num]
    refine {
      laid := by rw [hempty]; exact hl
      table := by rw [hfile]; exact h.readable.table.writeZoneHead (by omega) _
      head := by
        rw [hfile, hentries, hempty]
        exact head_writeZoneHead rfl rfl rfl (by decide) (by decide)
      num := by rw [hnum, hentries]
      items := by rw [hitems, h.items]
      room := fun _ => by rw [hnum]; decide
      first := fun _ => hempty
      fits := by omega
      size := ?_
      behind := fun i hi => ?_ }
    · rw [hfile, hdata]
      exact Nat.le_trans (by omega) File.size_le_write
    · rw [hfile]
      exact File.bytes_write_of_not_mem (.inr (by rw [File.length_ofWords, length_zoneWords]; omega))
  | laid hl hnum hsize hlt =>
    have hzone : s.log.stream.addIndexZone e t.zone = s.log.stream := if_neg (by omega)
    rw [hzone]
    exact ⟨hl, h.readable.table, h.readable.head, h.num, h.items, hroom, by omega, by omega, hsize, fun _ _ => rfl⟩

theorem Traced.Inv.writeBinary {s s' : Traced} (h : s.Inv e) {t : Times} (hok : s.Roomy e (.writeBinary t d))
    (hs : s.step e (.writeBinary t d) = some s') : s'.Inv e := by
  obtain ⟨⟨hnow, htime⟩, hroomy⟩ := hok
  have he := h.entered hroomy
  cases hs
  generalize hw : s.log.stream.entered e t = w at he
  have hdata := he.laid.data
  have hsixteen := sixteen_le_records (e := e) s.log.written
  have hlen := length_record e d
  have hfits := he.fits
  obtain ⟨hl, hpos⟩ := he.laid.addIndex he.room he.first
  obtain ⟨htable, hhead, hnum⟩ := he.laid.table_addIndex he.table he.head (by omega) he.num he.room htime (by omega) rfl
  have hoff : (w.addIndex e t.index).dataOffset = w.dataOffset := by
    rw [WriteStream.addIndex]
    split <;> rfl
  have hitems : (w.addIndex e t.index).itemNumInZone = s.log.written.length := by
    rw [← he.items, WriteStream.addIndex]
    split <;> rfl
  obtain ⟨hl', -, hsize, hlt⟩ := hl.addData (d := d) hpos (by omega)
  obtain ⟨htable', hhead'⟩ := hl.table_addData (d := d) htable hhead hnum (by omega) (by omega)
  have hfile : s.log.stream.writeBinary e t d = (w.addIndex e t.index).addData e d := by
    rw [← hw]
    rfl
  have hcount : ((w.addIndex e t.index).addData e d).itemNumInZone = s.log.written.length + 1 := by
    rw [WriteStream.addData_eq (by omega)]
    simp only [WriteStream.count, WriteStream.put, hitems]
    exact Nat.mod_eq_of_lt (by omega)
  have hdata' := hl'.data
  have hentries : ∀ x ∈ (if w.due t.index then s.entries ++ [(t.index, s.log.written.length)] else s.entries),
      x ∈ s.entries ∨ x = (t.index, s.log.written.length) := by
    intro x hx
    split at hx
    · exact (List.mem_append.mp hx).imp_right List.mem_singleton.mp
    · exact .inl hx
  refine {
    log := Log.step_inv h.log hroomy rfl
    readable := ?_
    num := ?_
    items := ?_
    offsets := ?_
    sorted := ?_
    past := ?_ }
  all_goals simp only [hfile]
  · refine ⟨hl'.area, htable', ?_, by omega, by omega, ?_, fun x hx => ?_⟩
    · rw [hitems] at hhead'
      rw [List.length_append]
      exact hhead'
    · rw [hnum]
      exact hl.num
    · rw [List.length_append, List.length_singleton]
      rcases hentries x hx with hx | rfl
      · exact Nat.lt_succ_of_lt (h.readable.numbered x hx)
      · exact Nat.lt_succ_self _
  · exact hnum
  · rw [hcount, List.length_append, List.length_singleton]
  · rw [h.offsets, offsetsOf_concat, hdata]
  · split
    · rw [List.map_append, List.pairwise_append]
      refine ⟨h.sorted, List.pairwise_singleton _ _, fun a ha b hb => ?_⟩
      obtain ⟨x, hx, rfl⟩ := List.mem_map.mp ha
      rw [List.map_singleton, List.mem_singleton] at hb
      rw [hb]
      exact Nat.le_trans (h.past x hx) hnow
    · exact h.sorted
  · intro x hx
    rcases hentries x hx with hx | rfl
    · exact Nat.le_trans (h.past x hx) hnow
    · exact Nat.le_refl _

theorem Traced.step_inv {s s' : Traced} {op : Op} (h : s.Inv e) (hok : s.Roomy e op) (hs : s.step e op = some s') :
    s'.Inv e := by
  cases op with
  | writeBinary t d => exact h.writeBinary hok hs
  | setIndexInterval minutes =>
    cases hs
    exact ⟨Log.step_inv h.log hok.2 rfl, h.readable, h.num, h.items, h.offsets, h.sorted, h.past⟩
  | setIndexZoneSize n =>
    cases hs
    exact ⟨Log.step_inv h.log hok.2 rfl, h.readable, h.num, h.items, h.offsets, h.sorted, h.past⟩

theorem fresh_bytes {s t i : Nat} (hi : 24 ≤ i) : (fresh e s t).file.bytes i = 0 := by
  rw [fresh, writeFileHead, File.bytes_write_of_not_mem (.inr (by simp; omega))]
  simp only [File.truncate]
  split <;> rfl

theorem fresh_size (s t : Nat) : 148 ≤ (fresh e s t).file.size := by
  refine Nat.le_trans ?_ File.size_le_write
  decide

theorem Traced.init_inv (s t : Nat) : (Traced.init e s t).Inv e where
  log := Log.init_inv s t
  readable := by
    have hsize : 148 ≤ (fresh e s t).file.size := fresh_size s t
    exact {
      area := fresh_area s t
      table := ⟨hsize, nofun, nofun, nofun, fun i hi _ => fresh_bytes (Nat.le_trans (show 24 ≤ 60 by omega) hi)⟩
      head := ⟨fresh_word (by omega), fresh_word (by omega), fresh_word (by omega)⟩
      size := Nat.le_trans (show 140 ≤ 148 by omega) hsize
      fits := show 140 < 2 ^ 32 by omega
      few := Nat.zero_le _
      numbered := nofun }
  num := rfl
  items := rfl
  offsets := rfl
  sorted := .nil
  past := nofun

-- ---------------------------------------------------------------------------
-- What the readers find
-- ---------------------------------------------------------------------------

/-- A reader at the offset of a record gets it and all behind it. -/
theorem Readable.suffix (h : Readable e f log entries) (k : Nat) :
    reads e f (log.length - k + 1) (140 + (records e (log.take k)).length) = some (log.drop k ++ [[]]) := by
  have hsplit : records e log = records e (log.take k) ++ records e (log.drop k) := by
    rw [records, records, records, ← List.flatMap_append, List.take_append_drop]
  have hlen := congrArg List.length hsplit
  rw [List.length_append] at hlen
  have hbytes := h.area.bytes
  rw [hsplit, List.length_append, File.peek_append] at hbytes
  have hdrop := (List.append_inj hbytes (by rw [File.length_peek])).2
  have hsize := h.size
  have hfits := h.fits
  have hdvd := length_records_dvd (e := e) (log.take k)
  have hreads := @reads_records e f (140 + (records e (log.take k)).length) (log.drop k) hdrop (by omega) (by omega)
    (fun i hi => h.area.behind i (by omega)) (by omega)
  rwa [List.length_drop] at hreads

theorem getElem?_offsetsOf {k : Nat} (hk : k < log.length) :
    (offsetsOf e log)[k]? = some (140 + (records e (log.take k)).length) := by
  rw [offsetsOf, List.getElem?_map, List.getElem?_range hk, Option.map_some]

theorem Traced.Inv.covers {s : Traced} (h : s.Inv e) {i : Nat} (hi : s.Covers e i) :
    140 ≤ i ∧ i < 140 + (records e s.log.written).length := by
  obtain ⟨k, off, d, hoff, hd, hle, hlt⟩ := hi
  obtain ⟨hk, rfl⟩ := List.getElem?_eq_some_iff.mp hd
  rw [h.offsets, getElem?_offsetsOf hk] at hoff
  cases hoff
  have hsplit : records e s.log.written = records e (s.log.written.take k) ++
      (record e s.log.written[k] ++ records e (s.log.written.drop (k + 1))) := by
    rw [← records_cons, List.getElem_cons_drop hk, records, records, records, ← List.flatMap_append,
      List.take_append_drop]
  have hlen := congrArg List.length hsplit
  rw [List.length_append, List.length_append] at hlen
  omega

/-- The index goes into the table, and the head lies in front of it. -/
theorem Laid.bytes_addIndex (h : Laid e w log) {t i : Nat}
    (hroom : w.due t → w.indexNumInZone < MAX_INDEX_NUM_IN_INDEX_ZONE) (hi : 140 ≤ i) :
    (w.addIndex e t).file.bytes i = w.file.bytes i := by
  rw [WriteStream.addIndex]
  split
  · next hdue =>
    have hless : w.indexNumInZone < 10 := hroom hdue
    have hindex := h.index
    have hlen : (File.ofWords e [t, w.dataOffset]).length = 8 := File.length_ofWords
    simp only [h.zone]
    rw [writeZoneHead, File.bytes_write_of_not_mem (.inr (by rw [File.length_ofWords, length_zoneWords]; omega)),
      File.bytes_write_of_not_mem (.inr (by omega))]
  · rfl

theorem Traced.Inv.kept {s : Traced} (h : s.Inv e) {t : Times} (hok : s.Roomy e (.writeBinary t d)) {i : Nat}
    (hi : s.Covers e i) :
    ((s.log.stream.entered e t).addIndex e t.index).file.bytes i = s.log.stream.file.bytes i ∧
      (s.log.stream.writeBinary e t d).file.bytes i = s.log.stream.file.bytes i := by
  obtain ⟨hge, hlt⟩ := h.covers hi
  have he := h.entered hok.2
  have hindex : ((s.log.stream.entered e t).addIndex e t.index).file.bytes i = s.log.stream.file.bytes i := by
    rw [he.laid.bytes_addIndex he.room hge, he.behind i hge]
  refine ⟨hindex, ?_⟩
  obtain ⟨hl, -⟩ := he.laid.addIndex he.room he.first
  have hdata := hl.data
  have hfits := he.fits
  have hsame := he.laid.data
  have hwrite : s.log.stream.writeBinary e t d = ((s.log.stream.entered e t).addIndex e t.index).addData e d := rfl
  rw [hwrite, WriteStream.addData_eq (by omega), ← hindex]
  simp only [WriteStream.count, WriteStream.put, hl.zone]
  rw [writeZoneHead, File.bytes_write_of_not_mem (.inr (by rw [File.length_ofWords, length_zoneWords]; omega)),
    File.bytes_write_of_not_mem (.inl (by omega))]

theorem Traced.inv_of_reach {s t : Nat} {r : Traced}
    (h : Reach (Traced.step e) (Traced.Roomy e) (.init e s t) r) : r.Inv e :=
  h.invariant (Traced.init_inv s t) fun _ _ _ hi hok hs => Traced.step_inv hi hok hs

instance (s : Traced) : (op : Op) → Decidable (s.Clock op)
  | .writeBinary _ _ => inferInstanceAs (Decidable (_ ∧ _))
  | .setIndexInterval _ | .setIndexZoneSize _ => isTrue trivial

instance (s : Traced) (op : Op) : Decidable (s.Roomy e op) := inferInstanceAs (Decidable (_ ∧ _))

end GalaLua.Slog
