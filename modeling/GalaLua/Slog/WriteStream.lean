import GalaLua.Library.Files

/-!
# The writer of log files

A log file has a head and a chain of index zones. A zone is a head, a table of
indexes and the records behind it; the table has room for
`MAX_INDEX_NUM_IN_INDEX_ZONE` indexes, but a zone takes as many as
`set_index_zone_size` says and one more. The constructor cuts the file to one
mebibyte and finds its counters again by a walk along the chain.
Numbers are in the byte order of the host, and wrap around as their types do.
-/

namespace GalaLua.Slog

open Library

abbrev MAGIC_F_START : Nat := 0x10203040
abbrev MAGIC_I_START : Nat := 0x50607080
abbrev MAGIC_D_START : Nat := 0x90A0B0C0
abbrev MAGIC_F_END : Nat := 0x40302010
abbrev MAGIC_I_END : Nat := 0x80706050
abbrev MAGIC_D_END : Nat := 0xC0B0A090

abbrev MAX_INDEX_NUM_IN_INDEX_ZONE : Nat := 10

structure FileHead where
  startMagic : Nat
  startTime : Nat
  endTime : Nat
  firstIndexZone : Nat
  itemNum : Nat
  endMagic : Nat

structure IndexZoneHead where
  startMagic : Nat
  startTime : Nat
  endTime : Nat
  nextIndexZone : Nat
  maxIndexNum : Nat
  indexNum : Nat
  dataOffset : Nat
  itemNum : Nat
  endMagic : Nat

/-- `sizeof(struct FileHead)`, `sizeof(struct IndexZoneHead)`, `sizeof(struct Index)`. -/
abbrev fileHeadSize : Nat := 24
abbrev zoneHeadSize : Nat := 36
abbrev indexSize : Nat := 8

def FileHead.words (h : FileHead) : List Nat :=
  [h.startMagic, h.startTime, h.endTime, h.firstIndexZone, h.itemNum, h.endMagic]

def IndexZoneHead.words (h : IndexZoneHead) : List Nat :=
  [h.startMagic, h.startTime, h.endTime, h.nextIndexZone, h.maxIndexNum, h.indexNum, h.dataOffset,
    h.itemNum, h.endMagic]

variable (e : Endian)

def readFileHead (f : File) : FileHead :=
  ⟨f.word e 0, f.word e 4, f.word e 8, f.word e 12, f.word e 16, f.word e 20⟩

def readZoneHead (f : File) (z : Nat) : IndexZoneHead :=
  ⟨f.word e z, f.word e (z + 4), f.word e (z + 8), f.word e (z + 12), f.word e (z + 16),
    f.word e (z + 20), f.word e (z + 24), f.word e (z + 28), f.word e (z + 32)⟩

def writeFileHead (f : File) (h : FileHead) : File := f.write 0 (File.ofWords e h.words)

def writeZoneHead (f : File) (z : Nat) (h : IndexZoneHead) : File :=
  f.write z (File.ofWords e h.words)

/-- The log file and the members of `write_stream`. -/
structure WriteStream where
  file : File
  indexZoneOffset : Nat
  indexOffset : Nat
  dataOffset : Nat
  indexZoneNum : Nat
  indexNum : Nat
  itemNum : Nat
  itemNumInZone : Nat
  indexTimestamp : Nat
  startTimestamp : Nat
  endTimestamp : Nat
  indexNumInZone : Nat
  maxIndexNumInZoneOld : Nat
  maxIndexNumInZoneNew : Nat
  indexIntervalTime : Nat

/-- What the three calls of `time` in `write_binary` return, as far as they are made. -/
structure Times where
  roll : Nat
  zone : Nat
  index : Nat
  deriving DecidableEq, Repr

-- ---------------------------------------------------------------------------
-- write_binary
-- ---------------------------------------------------------------------------

/-- The zone is full: its head and the head of the file are brought up to date,
and the next zone will begin behind the data. -/
def WriteStream.roll (w : WriteStream) (t : Nat) : WriteStream :=
  if w.indexNumInZone > w.maxIndexNumInZoneOld then
    let fh := readFileHead e w.file
    let file := writeFileHead e w.file
      { fh with endTime := t, itemNum := (fh.itemNum + w.itemNumInZone) % 2 ^ 32 }
    let file := writeZoneHead e file w.indexZoneOffset
      { readZoneHead e file w.indexZoneOffset with
        endTime := t
        nextIndexZone := w.dataOffset
        indexNum := w.indexNumInZone
        itemNum := w.itemNumInZone }
    { w with
      file := file
      endTimestamp := t
      itemNum := (w.itemNum + w.itemNumInZone) % 2 ^ 32
      itemNumInZone := 0
      indexNumInZone := 0
      indexZoneOffset := w.dataOffset
      maxIndexNumInZoneOld := w.maxIndexNumInZoneNew }
  else w

def WriteStream.addIndexZone (w : WriteStream) (t : Nat) : WriteStream :=
  if w.indexNumInZone = 0 then
    { w with
      file := writeZoneHead e w.file w.indexZoneOffset
        ⟨MAGIC_I_START, t, t, 0, w.maxIndexNumInZoneNew, 0, 0, 0, MAGIC_I_END⟩
      indexTimestamp := t
      indexOffset := (w.indexZoneOffset + zoneHeadSize) % 2 ^ 32
      dataOffset := (w.indexZoneOffset + zoneHeadSize +
        indexSize * MAX_INDEX_NUM_IN_INDEX_ZONE) % 2 ^ 32
      indexZoneNum := (w.indexZoneNum + 1) % 2 ^ 16
      maxIndexNumInZoneOld := w.maxIndexNumInZoneNew }
  else w

/-- An index is due; the difference of the times is one of unsigned numbers. -/
def WriteStream.due (w : WriteStream) (t : Nat) : Bool :=
  w.indexIntervalTime * 60 ≤ (t + 2 ^ 32 - w.indexTimestamp) % 2 ^ 32 || w.indexNumInZone == 0

def WriteStream.addIndex (w : WriteStream) (t : Nat) : WriteStream :=
  if w.due t then
    let file := w.file.write w.indexOffset (File.ofWords e [t, w.dataOffset])
    let izh := readZoneHead e file w.indexZoneOffset
    { w with
      file := writeZoneHead e file w.indexZoneOffset
        { izh with indexNum := (izh.indexNum + 1) % 2 ^ 32 }
      indexTimestamp := t
      endTimestamp := t
      indexOffset := (w.indexOffset + indexSize) % 2 ^ 32
      indexNum := (w.indexNum + 1) % 2 ^ 16
      indexNumInZone := (w.indexNumInZone + 1) % 2 ^ 16 }
  else w

/-- The bytes that fill a record up to a multiple of eight. -/
def padding (size : Nat) : Nat := if size % 8 = 0 then 0 else 8 - size % 8

/-- `addData` -/
def WriteStream.put (w : WriteStream) (d : List Byte) : WriteStream :=
  { w with file := w.file.write w.dataOffset d, dataOffset := (w.dataOffset + d.length) % 2 ^ 32 }

/-- The record is counted, and the head of its zone brought up to date. -/
def WriteStream.count (w : WriteStream) : WriteStream :=
  let itemNumInZone := (w.itemNumInZone + 1) % 2 ^ 32
  { w with
    itemNumInZone := itemNumInZone
    file := writeZoneHead e w.file w.indexZoneOffset
      { readZoneHead e w.file w.indexZoneOffset with
        dataOffset := w.dataOffset
        itemNum := itemNumInZone } }

def WriteStream.addData (w : WriteStream) (d : List Byte) : WriteStream :=
  ((((((w.put (e.encode 4 MAGIC_D_START)).put (e.encode 4 d.length)).put
    (e.encode 4 (padding d.length))).put d).put (List.replicate (padding d.length) 0)).put
    (e.encode 4 MAGIC_D_END)).count e

def WriteStream.writeBinary (w : WriteStream) (t : Times) (d : List Byte) : WriteStream :=
  (((w.roll e t.roll).addIndexZone e t.zone).addIndex e t.index).addData e d

def WriteStream.setIndexInterval (w : WriteStream) (minutes : Nat) : WriteStream :=
  { w with indexIntervalTime := minutes % 2 ^ 8 }

def WriteStream.setIndexZoneSize (w : WriteStream) (n : Nat) : WriteStream :=
  { w with maxIndexNumInZoneNew := n % 2 ^ 16 }

-- ---------------------------------------------------------------------------
-- Records
-- ---------------------------------------------------------------------------

/-- The bytes of a record. -/
def record (d : List Byte) : List Byte :=
  e.encode 4 MAGIC_D_START ++ e.encode 4 d.length ++ e.encode 4 (padding d.length) ++ d ++
    List.replicate (padding d.length) 0 ++ e.encode 4 MAGIC_D_END

@[simp] theorem length_record (d : List Byte) :
    (record e d).length = 16 + d.length + padding d.length := by
  simp only [record, List.length_append, Endian.length_encode, List.length_replicate]
  omega

theorem padding_add (n : Nat) : 8 ∣ n + padding n := by
  unfold padding
  split <;> omega

variable {e} {w : WriteStream}

theorem WriteStream.put_put {a b : List Byte} (h : w.dataOffset + a.length + b.length < 2 ^ 32) :
    (w.put a).put b = w.put (a ++ b) := by
  have hmod : (w.dataOffset + a.length) % 2 ^ 32 = w.dataOffset + a.length :=
    Nat.mod_eq_of_lt (by omega)
  simp only [put, hmod, File.write_write_append, List.length_append, Nat.add_assoc]

/-- As long as the offsets do not wrap around, a record is written in one piece. -/
theorem WriteStream.addData_eq {d : List Byte}
    (h : w.dataOffset + (record e d).length < 2 ^ 32) :
    w.addData e d = (w.put (record e d)).count e := by
  rw [length_record] at h
  have hput := fun {a b : List Byte} (hab : a.length + b.length ≤ 16 + d.length + padding d.length) =>
    WriteStream.put_put (w := w) (a := a) (b := b) (by omega)
  unfold addData record
  rw [hput, hput, hput, hput, hput]
  all_goals
    simp only [List.length_append, Endian.length_encode, List.length_replicate]
    omega

variable (e)

-- ---------------------------------------------------------------------------
-- Getters
-- ---------------------------------------------------------------------------

def WriteStream.getLogSize (w : WriteStream) : Nat := w.dataOffset

def WriteStream.getIzoneNum (w : WriteStream) : Nat := w.indexZoneNum

def WriteStream.getIndexNum (w : WriteStream) : Nat := w.indexNum

def WriteStream.getItemNum (w : WriteStream) : Nat := (w.itemNum + w.itemNumInZone) % 2 ^ 32

-- ---------------------------------------------------------------------------
-- The constructor
-- ---------------------------------------------------------------------------

/-- What the walk along the zones has found: the last zone, its head, and the
number of zones and of their indexes. -/
structure Walk where
  zone : Nat
  head : IndexZoneHead
  zoneNum : Nat
  indexNum : Nat

/-- The walk from `offset`; the file has no more zones than offsets. -/
def walk (f : File) : Nat → Nat → Walk → Option Walk
  | 0, _, _ => none
  | fuel + 1, offset, w =>
    if offset = 0 then some w
    else
      let izh := readZoneHead e f offset
      walk f fuel izh.nextIndexZone
        ⟨offset, izh, (w.zoneNum + 1) % 2 ^ 16, (w.indexNum + izh.indexNum) % 2 ^ 16⟩

/-- The counters that are found again by the walk. The number of indexes is
converted to a signed `count`. -/
def WriteStream.found (f : File) (fh : FileHead) (endTime : Nat) (w : Walk) : WriteStream :=
  let blank := w.head.indexNum = 0 ∨ 2 ^ 31 ≤ w.head.indexNum
  let last := f.word e ((w.zone + zoneHeadSize + indexSize * (w.head.indexNum - 1)) % 2 ^ 32)
  { file := f
    indexZoneOffset := w.zone
    indexOffset := (w.zone + zoneHeadSize + indexSize * w.head.indexNum) % 2 ^ 32
    dataOffset := w.head.dataOffset
    indexZoneNum := w.zoneNum
    indexNum := w.indexNum
    itemNum := fh.itemNum
    itemNumInZone := w.head.itemNum
    indexTimestamp := if blank then 0 else last
    startTimestamp := fh.startTime
    endTimestamp := if blank then endTime else last
    indexNumInZone := w.head.indexNum % 2 ^ 16
    maxIndexNumInZoneOld := w.head.maxIndexNum % 2 ^ 16
    maxIndexNumInZoneNew := 200
    indexIntervalTime := 1 }

def WriteStream.load (f : File) (fh : FileHead) (endTime : Nat) : Option WriteStream :=
  (walk e f (2 ^ 32 + 1) fh.firstIndexZone
    ⟨fh.firstIndexZone, ⟨0, 0, 0, 0, 0, 0, 0, 0, 0⟩, 0, 0⟩).map (found e f fh endTime)

/-- `write_stream` on a file; the times are those at which a new file is begun. The
walk along a chain with a cycle has no end. Members that stay without a value
are zero. -/
def WriteStream.open (f : File) (startTime endTime : Nat) : Option WriteStream :=
  let f := f.truncate (1024 * 1024)
  let fh := readFileHead e f
  if fh.startMagic = 0 then
    let fh : FileHead := ⟨MAGIC_F_START, startTime, endTime, fileHeadSize, 0, MAGIC_F_END⟩
    load e (writeFileHead e f fh) fh endTime
  else if fh.startMagic ≠ MAGIC_F_START then
    some ⟨f, 0, 0, 0, 0, 0, 0, 0, 0, 0, 0, 0, 200, 200, 1⟩
  else load e f fh 0

end GalaLua.Slog
