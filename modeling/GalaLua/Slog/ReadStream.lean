import GalaLua.Library.Transition
import GalaLua.Slog.Reopen

/-!
# The reader of log files

`read_next` takes the record at the current offset, or looks for the next word
of the format. As long as the records stay in the first zone and its indexes in
the table of `MAX_INDEX_NUM_IN_INDEX_ZONE`, a reader that begins at the first
index finds what was written. The eleventh index is written over the first
record, and at the head of a second zone the reader goes on with the wrong
bytes.
-/

namespace GalaLua.Slog

open Library

variable (e : Endian)

/-- `read` of a word into a variable that has the value `old`. -/
def readWord (f : File) (pos old : Nat) : Nat :=
  e.decode (f.read pos 4 ++ (e.encode 4 old).drop (f.read pos 4).length)

def isMagic (data : Nat) : Bool :=
  data == MAGIC_F_START || data == MAGIC_F_END || data == MAGIC_I_START || data == MAGIC_D_START ||
    data == MAGIC_I_END || data == MAGIC_D_END

/-- The loop of `data_head_invalid`; `pos` is where the file is read. At the end of
the file `data` keeps its value, and the loop has no end if that is no zero. -/
def scan (f : File) : Nat → Nat → Nat → Nat → Nat → Option (Nat × Nat)
  | 0, _, _, _, _ => none
  | fuel + 1, pos, data, zeros, off =>
    if isMagic data then some (data, off)
    else
      let next := readWord e f pos data
      if next = 0 then
        if zeros + 1 > 200 then some (0, off)
        else scan f fuel (pos + (f.read pos 4).length) next (zeros + 1) ((off + 4) % 2 ^ 32)
      else scan f fuel (pos + (f.read pos 4).length) next zeros ((off + 4) % 2 ^ 32)

/-- The offset behind the table of indexes of a zone, as the reader sees it. -/
def behindTable (f : File) (z : Nat) : Nat :=
  (z + zoneHeadSize + indexSize * (readZoneHead e f z).maxIndexNum) % 2 ^ 32

/-- The offset at which `read_next` goes on, or nothing for the result -1. -/
def dataHeadInvalid (f : File) (off : Nat) : Option (Option Nat × Nat) :=
  let off := off - off % 4
  (scan e f (f.size + 300) (off + (f.read off 4).length) (readWord e f off 0) 0
    ((off + 4) % 2 ^ 32)).map fun (data, off) =>
      let back := (off + 2 ^ 32 - 4) % 2 ^ 32
      if data = MAGIC_I_START then (some (behindTable e f back), behindTable e f back)
      else if data = MAGIC_I_END then
        let z := (off + 2 ^ 32 - zoneHeadSize) % 2 ^ 32
        (some (behindTable e f z), behindTable e f z)
      else if data = MAGIC_D_START then (some back, back)
      else if data = MAGIC_D_END then (some off, off)
      else if data = MAGIC_F_START then
        let z := (back + fileHeadSize) % 2 ^ 32
        (some (behindTable e f z), behindTable e f z)
      else if data = MAGIC_F_END then (some (behindTable e f off), behindTable e f off)
      else (none, off)

/-- The part of `read_next` behind the first word: the file is read at `pos`. -/
def readRecord (f : File) (pos off : Nat) : List Byte × Nat :=
  let size := readWord e f pos 0
  let ws := readWord e f (pos + 4) 0
  ((f.read (pos + 8) ((size + ws) % 2 ^ 32)).take size, (off + 12 + size + ws) % 2 ^ 32)

/-- The bytes that `read_next` returns, and the new offset; none when it does not
return. Behind the head of a zone the file is read on, and not at the offset. -/
def readNext (f : File) (off : Nat) : Option (List Byte × Nat) :=
  let start := readWord e f off 0
  if start = MAGIC_D_START then some (readRecord e f (off + 4) (off + 4))
  else if start = MAGIC_I_START then
    some (readRecord e f (off + zoneHeadSize) (behindTable e f off))
  else
    (dataHeadInvalid e f off).map fun r =>
      match r with
      | (none, off) => ([], off)
      | (some off, _) => readRecord e f (off + 4) (off + 4)

/-- The results of `n` calls. -/
def reads (f : File) : Nat → Nat → Option (List (List Byte))
  | 0, _ => some []
  | n + 1, off => (readNext e f off).bind fun (d, off) => (reads f n off).map (d :: ·)

def firstLocation (f : File) : Nat :=
  f.word e ((readFileHead e f).firstIndexZone + zoneHeadSize + 4)

-- ---------------------------------------------------------------------------
-- A writer and what it has written
-- ---------------------------------------------------------------------------

structure Log where
  stream : WriteStream
  written : List (List Byte)

inductive Op
  | writeBinary (t : Times) (d : List Byte)
  | setIndexInterval (minutes : Nat)
  | setIndexZoneSize (n : Nat)

def Log.step (s : Log) : Op → Option Log
  | .writeBinary t d => some ⟨s.stream.writeBinary e t d, s.written ++ [d]⟩
  | .setIndexInterval minutes => some { s with stream := s.stream.setIndexInterval minutes }
  | .setIndexZoneSize n => some { s with stream := s.stream.setIndexZoneSize n }

def Log.init (startTime endTime : Nat) : Log := ⟨fresh e startTime endTime, []⟩

/-- A reader at the first index gets what was written, and then nothing. -/
def Log.ReadBack (s : Log) : Prop :=
  s.written ≠ [] →
    reads e s.stream.file (s.written.length + 1) (firstLocation e s.stream.file) =
      some (s.written ++ [[]])

/-- The zone is not full, an index that is due has room in the table, and the
offsets stay below the limit of their type. -/
def Log.Roomy (s : Log) : Op → Prop
  | .writeBinary t d => s.stream.indexNumInZone ≤ s.stream.maxIndexNumInZoneOld ∧
      (s.stream.due t.index → s.stream.indexNumInZone < MAX_INDEX_NUM_IN_INDEX_ZONE) ∧
      max s.stream.dataOffset 140 + (record e d).length < 2 ^ 32
  | _ => True

-- ---------------------------------------------------------------------------
-- Reading
-- ---------------------------------------------------------------------------

def records (log : List (List Byte)) : List Byte := log.flatMap (record e)

variable {e} {f : File} {off : Nat} {d : List Byte} {log : List (List Byte)}

/-- What is missing behind the end of the file is zero in the variable, too. -/
theorem readWord_zero (pos : Nat) : readWord e f pos 0 = f.word e pos := by
  have hzero : e.encode 4 0 = List.replicate 4 0 := by
    cases e <;> rfl
  rw [readWord, hzero, List.drop_replicate, ← File.peek_eq_read, File.word]

theorem word_of_slice {n v : Nat} {a c : List Byte} (h : f.peek off n = a ++ e.encode 4 v ++ c)
    (hv : v < 2 ^ 32) : f.word e (off + a.length) = v := by
  have hslice := File.peek_slice h
  rw [Endian.length_encode] at hslice
  rw [File.word, hslice, e.decode_encode_four hv]

theorem readNext_record (h : f.peek off (record e d).length = record e d)
    (hsize : off + (record e d).length ≤ f.size) (hlt : off + (record e d).length < 2 ^ 32) :
    readNext e f off = some (d, off + (record e d).length) := by
  have hlen := length_record e d
  have hstart : f.word e off = MAGIC_D_START := by
    exact word_of_slice (e := e) (f := f) (a := []) (v := MAGIC_D_START)
      (h.trans (by rw [record]; simp only [List.nil_append, List.append_assoc]; rfl)) (by decide)
  have hcount : f.word e (off + 4) = d.length := by
    have hword := word_of_slice (e := e) (f := f) (a := e.encode 4 MAGIC_D_START) (v := d.length)
      (h.trans (by rw [record]; simp only [List.append_assoc]; rfl)) (by omega)
    rwa [Endian.length_encode] at hword
  have hpad : f.word e (off + 4 + 4) = padding d.length := by
    have hword := word_of_slice (e := e) (f := f)
      (a := e.encode 4 MAGIC_D_START ++ e.encode 4 d.length) (v := padding d.length)
      (h.trans (by rw [record]; simp only [List.append_assoc]; rfl)) (by omega)
    rwa [List.length_append, Endian.length_encode, Endian.length_encode] at hword
  have hdata : f.peek (off + 4 + 8) (d.length + padding d.length) =
      d ++ List.replicate (padding d.length) 0 := by
    have hslice := File.peek_slice (f := f)
      (a := e.encode 4 MAGIC_D_START ++ e.encode 4 d.length ++ e.encode 4 (padding d.length))
      (b := d ++ List.replicate (padding d.length) 0)
      (h.trans (by rw [record]; simp only [List.append_assoc]; rfl))
    simpa only [List.length_append, Endian.length_encode, List.length_replicate] using hslice
  have hread : f.read (off + 4 + 8) ((d.length + padding d.length) % 2 ^ 32) =
      d ++ List.replicate (padding d.length) 0 := by
    rw [Nat.mod_eq_of_lt (by omega), File.read_of_le (by omega), hdata]
  simp only [readNext, readWord_zero, hstart, if_true, readRecord, hcount, hpad, hread]
  rw [List.take_left, Nat.mod_eq_of_lt (by omega)]
  congr 2
  omega

/-- In the zeros behind the data the loop gives up. -/
theorem scan_zero (h : ∀ i, off ≤ i → f.bytes i = 0) {fuel pos zeros cur : Nat} (hpos : off ≤ pos)
    (hfuel : 201 < fuel + zeros) (hzeros : zeros ≤ 200) : ∃ cur', scan e f fuel pos 0 zeros cur = some (0, cur') := by
  induction fuel generalizing pos zeros cur with
  | zero => omega
  | succ fuel ih =>
    have hword : readWord e f pos 0 = 0 := by
      rw [readWord_zero]
      exact word_of_zero fun i _ => h _ (by omega)
    have hmagic : isMagic 0 = false := by decide
    simp only [scan, hmagic, Bool.false_eq_true, if_false, hword, if_true]
    split
    · exact ⟨cur, rfl⟩
    · exact ih (by omega) (by omega) (by omega)

theorem readNext_end (h : ∀ i, off ≤ i → f.bytes i = 0) (haligned : 4 ∣ off) :
    ∃ off', readNext e f off = some ([], off') := by
  have hword : f.word e off = 0 := word_of_zero fun i _ => h _ (by omega)
  have hoff : off - off % 4 = off := by omega
  obtain ⟨cur, hscan⟩ : ∃ cur, scan e f (f.size + 300) (off + (f.read off 4).length) 0 0
      ((off + 4) % 2 ^ 32) = some (0, cur) := scan_zero h (by omega) (by omega) (by omega)
  refine ⟨cur, ?_⟩
  simp only [readNext, readWord_zero, hword, dataHeadInvalid, hoff, hscan, Option.map_some]
  rfl

theorem records_cons (d : List Byte) (log : List (List Byte)) :
    records e (d :: log) = record e d ++ records e log :=
  rfl

theorem records_concat (log : List (List Byte)) (d : List Byte) :
    records e (log ++ [d]) = records e log ++ record e d := by
  rw [records, List.flatMap_append, List.flatMap_singleton, records]

theorem length_records_dvd (log : List (List Byte)) : 8 ∣ (records e log).length := by
  induction log with
  | nil => exact ⟨0, rfl⟩
  | cons d log ih =>
    have hpad := padding_add d.length
    rw [records_cons, List.length_append, length_record]
    omega

theorem reads_records (h : f.peek off (records e log).length = records e log)
    (hsize : off + (records e log).length ≤ f.size) (hlt : off + (records e log).length < 2 ^ 32)
    (hzero : ∀ i, off + (records e log).length ≤ i → f.bytes i = 0) (haligned : 4 ∣ off) :
    reads e f (log.length + 1) off = some (log ++ [[]]) := by
  induction log generalizing off with
  | nil =>
    obtain ⟨off', hend⟩ : ∃ off', readNext e f off = some ([], off') := readNext_end hzero haligned
    simp only [reads, List.length_nil, hend, Option.bind_some, Option.map_some]
    rfl
  | cons d log ih =>
    rw [records_cons, List.length_append] at h hsize hlt hzero
    rw [File.peek_append] at h
    obtain ⟨hd, hlog⟩ := List.append_inj h (by rw [File.length_peek])
    have hrecord := readNext_record (e := e) hd (by omega) (by omega)
    have hpad := padding_add d.length
    have hrec := length_record e d
    have hrest : reads e f (log.length + 1) (off + (record e d).length) = some (log ++ [[]]) :=
      ih hlog (by omega) (by omega) (fun i hi => hzero i (by omega)) (by omega)
    rw [List.length_cons, reads, hrecord]
    simp only [Option.bind_some, hrest]
    rfl

-- ---------------------------------------------------------------------------
-- Writing
-- ---------------------------------------------------------------------------

/-- The records of `log` lie behind the table of the first zone, and zeros behind
them. -/
structure Area (e : Endian) (f : File) (log : List (List Byte)) : Prop where
  bytes : f.peek 140 (records e log).length = records e log
  behind : ∀ i, 140 + (records e log).length ≤ i → f.bytes i = 0
  first : f.word e 12 = fileHeadSize

theorem Area.write_front {b : List Byte} (h : Area e f log) (hoff : 16 ≤ off)
    (hend : off + b.length ≤ 140) : Area e (f.write off b) log where
  bytes := by rw [File.peek_write_of_disjoint (.inr hend), h.bytes]
  behind i hi := by rw [File.bytes_write_of_not_mem (.inr (by omega)), h.behind i hi]
  first := by rw [File.word_write_of_disjoint (.inl (by omega)), h.first]

theorem Area.write_record (h : Area e f log) (d : List Byte) :
    Area e (f.write (140 + (records e log).length) (record e d)) (log ++ [d]) where
  bytes := by
    have hself := @File.peek_write f (140 + (records e log).length) (record e d).length (record e d)
      0 (by omega)
    rw [Nat.add_zero, List.drop_zero, List.take_length] at hself
    rw [records_concat, List.length_append, File.peek_append,
      File.peek_write_of_disjoint (.inl (by omega)), h.bytes, hself]
  behind i hi := by
    rw [records_concat, List.length_append] at hi
    rw [File.bytes_write_of_not_mem (.inr (by omega)), h.behind i (by omega)]
  first := by rw [File.word_write_of_disjoint (.inl (by omega)), h.first]

/-- A writer in its first zone, with no more indexes than the table has room for. -/
structure Laid (e : Endian) (w : WriteStream) (log : List (List Byte)) : Prop where
  area : Area e w.file log
  zone : w.indexZoneOffset = 24
  index : w.indexOffset = 60 + 8 * w.indexNumInZone
  num : w.indexNumInZone ≤ 10
  data : w.dataOffset = 140 + (records e log).length
  location : 0 < w.indexNumInZone → w.file.word e 64 = 140

variable {w : WriteStream}

theorem fresh_area (s t : Nat) : Area e (fresh e s t).file [] where
  bytes := rfl
  behind i hi := by
    have hi : 140 ≤ i := hi
    rw [fresh, writeFileHead, File.bytes_write_of_not_mem (.inr (by simp; omega))]
    simp only [File.truncate]
    split <;> rfl
  first := fresh_first s t

theorem Area.writeZoneHead (h : Area e f log) (x : IndexZoneHead) :
    Area e (Slog.writeZoneHead e f 24 x) log :=
  h.write_front (by omega) (by rw [File.length_ofWords, length_zoneWords]; omega)

theorem word_writeZoneHead (x : IndexZoneHead) :
    (Slog.writeZoneHead e f 24 x).word e 64 = f.word e 64 :=
  File.word_write_of_disjoint (.inr (by rw [File.length_ofWords, length_zoneWords]; omega))

theorem word_addIndex (h : Laid e w log) (hlog : w.indexNumInZone = 0 → log = []) (t : Nat) :
    (w.file.write w.indexOffset (File.ofWords e [t, w.dataOffset])).word e 64 = 140 := by
  have hindex := h.index
  rcases Nat.eq_zero_or_pos w.indexNumInZone with hzero | hpos
  · have hdata : w.dataOffset = 140 := by
      rw [h.data, hlog hzero]
      rfl
    have hword := @File.word_write_ofWords w.file 60 e [t, w.dataOffset] 1 _ rfl (by omega)
    rw [hindex, hzero]
    exact hword.trans hdata
  · rw [File.word_write_of_disjoint (.inl (by omega)), h.location hpos]

theorem Laid.addIndex (h : Laid e w log) {t : Nat} (hroom : w.due t → w.indexNumInZone < 10)
    (hlog : w.indexNumInZone = 0 → log = []) :
    Laid e (w.addIndex e t) log ∧ 0 < (w.addIndex e t).indexNumInZone := by
  by_cases hdue : w.due t
  · have hnum := hroom hdue
    have hindex := h.index
    have hcount : (w.indexNumInZone + 1) % 2 ^ 16 = w.indexNumInZone + 1 :=
      Nat.mod_eq_of_lt (by omega)
    have hoff : (w.indexOffset + indexSize) % 2 ^ 32 = w.indexOffset + 8 :=
      Nat.mod_eq_of_lt (show w.indexOffset + 8 < 2 ^ 32 by omega)
    have hlen : (File.ofWords e [t, w.dataOffset]).length = 8 := File.length_ofWords
    have harea : Area e (w.file.write w.indexOffset (File.ofWords e [t, w.dataOffset])) log :=
      h.area.write_front (by omega) (by omega)
    have hlocation := word_addIndex h hlog t
    rw [WriteStream.addIndex, if_pos hdue]
    refine ⟨{
      area := ?_
      zone := h.zone
      index := by simp only [hcount, hoff]; omega
      num := by simp only [hcount]; omega
      data := h.data
      location := fun _ => ?_ }, by simp only [hcount]; omega⟩
    · simp only [h.zone]
      exact harea.writeZoneHead _
    · simp only [h.zone]
      exact (word_writeZoneHead _).trans hlocation
  · rw [WriteStream.addIndex, if_neg hdue]
    refine ⟨h, ?_⟩
    simp only [WriteStream.due, Bool.or_eq_true, beq_iff_eq, not_or] at hdue
    omega

theorem Laid.addData (h : Laid e w log) (hnum : 0 < w.indexNumInZone)
    (hfits : w.dataOffset + (record e d).length < 2 ^ 32) :
    Laid e (w.addData e d) (log ++ [d]) ∧ 0 < (w.addData e d).indexNumInZone ∧
      (w.addData e d).dataOffset ≤ (w.addData e d).file.size ∧ (w.addData e d).dataOffset < 2 ^ 32 := by
  have hdata := h.data
  have hoff : (w.dataOffset + (record e d).length) % 2 ^ 32 = w.dataOffset + (record e d).length :=
    Nat.mod_eq_of_lt hfits
  have hne : record e d ≠ [] := by
    intro he
    have := length_record e d
    rw [he] at this
    simp only [List.length_nil] at this
    omega
  rw [WriteStream.addData_eq hfits]
  refine ⟨{
    area := ?_
    zone := h.zone
    index := h.index
    num := h.num
    data := by
      simp only [WriteStream.count, WriteStream.put, hoff, records_concat, List.length_append]
      omega
    location := fun _ => ?_ }, hnum, ?_, by simpa only [WriteStream.count, WriteStream.put, hoff] using hfits⟩
  · simp only [WriteStream.count, WriteStream.put, h.zone, hdata]
    exact (h.area.write_record d).writeZoneHead _
  · simp only [WriteStream.count, WriteStream.put, h.zone]
    rw [word_writeZoneHead, File.word_write_of_disjoint (.inl (by omega)), h.location hnum]
  · simp only [WriteStream.count, WriteStream.put, hoff]
    exact Nat.le_trans (File.le_size_write hne) File.size_le_write

-- ---------------------------------------------------------------------------
-- Any number of writes
-- ---------------------------------------------------------------------------

structure Blank (e : Endian) (w : WriteStream) : Prop where
  area : Area e w.file []
  zone : w.indexZoneOffset = 24
  num : w.indexNumInZone = 0

theorem Blank.addIndexZone (h : Blank e w) (t : Nat) :
    Laid e (w.addIndexZone e t) [] ∧ (w.addIndexZone e t).indexNumInZone = 0 := by
  rw [WriteStream.addIndexZone, if_pos h.num]
  refine ⟨{
    area := ?_
    zone := h.zone
    index := by simp only [h.zone, h.num]; rfl
    num := by simp only [h.num]; omega
    data := by simp only [h.zone]; rfl
    location := fun hpos => absurd hpos (by simp only [h.num]; omega) }, h.num⟩
  simp only [h.zone]
  exact h.area.writeZoneHead _

/-- Before the first write, or in the first zone behind it. -/
inductive Log.Inv (e : Endian) (s : Log) : Prop
  | blank : s.written = [] → Blank e s.stream → s.Inv e
  | laid : Laid e s.stream s.written → 0 < s.stream.indexNumInZone →
      s.stream.dataOffset ≤ s.stream.file.size → s.stream.dataOffset < 2 ^ 32 → s.Inv e

theorem Log.step_inv {s s' : Log} {op : Op} (h : s.Inv e) (hok : s.Roomy e op)
    (hs : s.step e op = some s') : s'.Inv e := by
  cases op with
  | setIndexInterval minutes =>
    cases hs
    cases h with
    | blank hempty hb => exact .blank hempty ⟨hb.area, hb.zone, hb.num⟩
    | laid hl hnum hsize hlt =>
      exact .laid ⟨hl.area, hl.zone, hl.index, hl.num, hl.data, hl.location⟩ hnum hsize hlt
  | setIndexZoneSize n =>
    cases hs
    cases h with
    | blank hempty hb => exact .blank hempty ⟨hb.area, hb.zone, hb.num⟩
    | laid hl hnum hsize hlt =>
      exact .laid ⟨hl.area, hl.zone, hl.index, hl.num, hl.data, hl.location⟩ hnum hsize hlt
  | writeBinary t d =>
    cases hs
    obtain ⟨hfull, hroom, hfits⟩ := hok
    have hroll : s.stream.roll e t.roll = s.stream := if_neg (by omega)
    cases h with
    | blank hempty hb =>
      obtain ⟨hl, hnum⟩ := hb.addIndexZone t.zone
      have hdata := hl.data
      have hlen : (records e []).length = 0 := rfl
      obtain ⟨hi, hpos⟩ := hl.addIndex (t := t.index) (by omega) (fun _ => rfl)
      obtain ⟨hd, hpos, hsize, hlt⟩ := hi.addData (d := d) hpos (by rw [hi.data]; omega)
      refine .laid ?_ ?_ ?_ ?_
      all_goals
        rw [WriteStream.writeBinary, hroll]
      · rw [hempty]
        exact hd
      · exact hpos
      · exact hsize
      · exact hlt
    | laid hl hnum hsize hlt =>
      have hzone : s.stream.addIndexZone e t.zone = s.stream := if_neg (by omega)
      obtain ⟨hi, hpos⟩ := hl.addIndex (t := t.index) hroom (by omega)
      have hdata := hl.data
      obtain ⟨hd, hpos, hsize, hlt⟩ := hi.addData (d := d) hpos (by rw [hi.data]; omega)
      refine .laid ?_ ?_ ?_ ?_
      all_goals
        rw [WriteStream.writeBinary, hroll, hzone]
      · exact hd
      · exact hpos
      · exact hsize
      · exact hlt

theorem Log.init_inv (s t : Nat) : (Log.init e s t).Inv e :=
  .blank rfl ⟨fresh_area s t, rfl, rfl⟩

instance (s : Log) : (op : Op) → Decidable (s.Roomy e op)
  | .writeBinary _ _ => inferInstanceAs (Decidable (_ ∧ (_ → _) ∧ _))
  | .setIndexInterval _ | .setIndexZoneSize _ => isTrue trivial

theorem Log.ReadBack.first {l : Log} (h : l.ReadBack e) (hd : l.written.head? = some d) :
    (readNext e l.stream.file (firstLocation e l.stream.file)).map Prod.fst = some d := by
  obtain ⟨log, hlog⟩ : ∃ log, l.written = d :: log := List.head?_eq_some_iff.mp hd
  have hreads := h (by rw [hlog]; exact List.cons_ne_nil d log)
  rw [hlog, List.length_cons, reads] at hreads
  obtain ⟨r, hr, hrest⟩ := Option.bind_eq_some_iff.mp hreads
  obtain ⟨ds, -, hds⟩ := Option.map_eq_some_iff.mp hrest
  rw [hr, Option.map_some, (List.cons.inj hds).1]

end GalaLua.Slog
