import GalaLua.Slog.WriteStream
import Mathlib.Algebra.GroupWithZero.Nat
import Mathlib.Data.List.Induction

/-!
# A log file that is opened again

The chain of the zones is kept by every write. A writer of a new file counts
its first zone twice, when it opens the file and when it writes the head of
the zone; a writer that opens the file again counts the zones of the chain, or
of the part of it that the cut to one mebibyte has left.
-/

namespace GalaLua.Slog

open Library

variable (e : Endian)

structure Write where
  times : Times
  data : List Byte

def WriteStream.writes (w : WriteStream) (ws : List Write) : WriteStream :=
  ws.foldl (fun w x => w.writeBinary e x.times x.data) w

/-- What a writer shows; the data that a reader finds is in the file. -/
structure Observation where
  itemNum : Nat
  indexNum : Nat
  izoneNum : Nat
  logSize : Nat
  file : File

def WriteStream.observe (w : WriteStream) : Observation :=
  ⟨w.getItemNum, w.getIndexNum, w.getIzoneNum, w.getLogSize, w.file⟩

/-- A writer on a new file makes the writes `pre`. Another one that opens the file
then, at any time, returns, and shows the same as the first one, both at once and
behind each of the writes `post`. -/
def Transparent (startTime endTime : Nat) (pre post : List Write) : Prop :=
  ∃ w, WriteStream.open e .empty startTime endTime = some w ∧
    ∀ startTime' endTime', ∃ w',
      WriteStream.open e (w.writes e pre).file startTime' endTime' = some w' ∧
      ∀ k, (w'.writes e (post.take k)).observe = ((w.writes e pre).writes e (post.take k)).observe

/-- A bound of the bytes that a write can add: a zone, its indexes, and the record. -/
def Write.volume (x : Write) : Nat := 132 + x.data.length + padding x.data.length

def volume (ws : List Write) : Nat := fileHeadSize + (ws.map Write.volume).sum

-- ---------------------------------------------------------------------------
-- The chain of the zones
-- ---------------------------------------------------------------------------

/-- Each zone has the offset of the next one in its head, and the last one `next`. -/
def Links (f : File) : List Nat → Nat → Prop
  | [], _ => True
  | z :: zs, next => f.word e (z + 12) = zs.head?.getD next ∧ Links f zs next

structure Skeleton (f : File) (zs : List Nat) (next : Nat) : Prop where
  magic : f.word e 0 = MAGIC_F_START
  first : f.word e 12 = fileHeadSize
  head : zs.head?.getD next = fileHeadSize
  aligned : ∀ z ∈ zs, 24 ≤ z ∧ 4 ∣ z
  links : Links e f zs next

variable {e} {f : File} {zs : List Nat} {z next : Nat}

theorem Links.congr {f' : File} (h : Links e f zs next)
    (hw : ∀ z ∈ zs, f'.word e (z + 12) = f.word e (z + 12)) : Links e f' zs next := by
  induction zs with
  | nil => trivial
  | cons z zs ih =>
    obtain ⟨hz, hzs⟩ := List.forall_mem_cons.mp hw
    exact ⟨hz.trans h.1, ih h.2 hzs⟩

theorem Links.relink {f' : File} {next' : Nat} (h : Links e f (zs ++ [z]) next)
    (hw : ∀ z ∈ zs, f'.word e (z + 12) = f.word e (z + 12)) (hz : f'.word e (z + 12) = next') :
    Links e f' (zs ++ [z]) next' := by
  induction zs with
  | nil => exact ⟨hz, trivial⟩
  | cons a zs ih =>
    obtain ⟨ha, hzs⟩ := List.forall_mem_cons.mp hw
    refine ⟨?_, ih h.2 hzs⟩
    rw [ha, h.1]
    cases zs <;> rfl

theorem Links.concat (h : Links e f zs z) (hz : f.word e (z + 12) = next) :
    Links e f (zs ++ [z]) next := by
  induction zs with
  | nil => exact ⟨hz, trivial⟩
  | cons a zs ih =>
    refine ⟨?_, ih h.2⟩
    rw [h.1]
    cases zs <;> rfl

theorem Skeleton.write {off : Nat} {d : List Byte} (h : Skeleton e f zs next) (hfirst : 16 ≤ off)
    (hoff : ∀ z ∈ zs, z + 16 ≤ off) : Skeleton e (f.write off d) zs next := by
  refine ⟨?_, ?_, h.head, h.aligned, h.links.congr fun z hz => ?_⟩
  · rw [File.word_write_of_disjoint (.inl (by omega)), h.magic]
  · rw [File.word_write_of_disjoint (.inl (by omega)), h.first]
  · have := hoff z hz
    rw [File.word_write_of_disjoint (.inl (by omega))]

-- ---------------------------------------------------------------------------
-- Heads
-- ---------------------------------------------------------------------------

@[simp] theorem length_zoneWords (h : IndexZoneHead) : h.words.length = 9 := rfl

@[simp] theorem length_fileWords (h : FileHead) : h.words.length = 6 := rfl

theorem next_writeZoneHead {h : IndexZoneHead} (hnext : h.nextIndexZone < 2 ^ 32) :
    (writeZoneHead e f z h).word e (z + 12) = h.nextIndexZone :=
  File.word_write_ofWords (k := 3) rfl hnext

theorem Skeleton.writeZoneHead {h : IndexZoneHead} (hs : Skeleton e f (zs ++ [z]) next)
    (hz : ∀ a ∈ zs, a + 16 ≤ z) (hnext : h.nextIndexZone < 2 ^ 32) :
    Skeleton e (writeZoneHead e f z h) (zs ++ [z]) h.nextIndexZone := by
  have hz₀ : 24 ≤ z := (hs.aligned z (by simp)).1
  refine ⟨?_, ?_, ?_, hs.aligned, hs.links.relink (fun a ha => ?_) (next_writeZoneHead hnext)⟩
  · rw [Slog.writeZoneHead, File.word_write_of_disjoint (.inl (by omega)), hs.magic]
  · rw [Slog.writeZoneHead, File.word_write_of_disjoint (.inl (by omega)), hs.first]
  · have hhead := hs.head
    cases zs <;> exact hhead
  · have := hz a ha
    rw [Slog.writeZoneHead, File.word_write_of_disjoint (.inl (by omega))]

theorem Skeleton.concat {h : IndexZoneHead} (hs : Skeleton e f zs z) (hz : ∀ a ∈ zs, a + 16 ≤ z)
    (hz₀ : 24 ≤ z) (halign : 4 ∣ z) (hnext : h.nextIndexZone < 2 ^ 32) :
    Skeleton e (Slog.writeZoneHead e f z h) (zs ++ [z]) h.nextIndexZone := by
  have hs' : Skeleton e (Slog.writeZoneHead e f z h) zs z := hs.write (by omega) hz
  refine ⟨hs'.magic, hs'.first, ?_, ?_, hs'.links.concat (next_writeZoneHead hnext)⟩
  · have hhead := hs.head
    cases zs <;> exact hhead
  · simp only [List.mem_append, List.mem_singleton]
    rintro a (ha | rfl)
    · exact hs.aligned a ha
    · exact ⟨hz₀, halign⟩

theorem Skeleton.writeFileHead {h : FileHead} (hs : Skeleton e f zs next)
    (hmagic : h.startMagic = MAGIC_F_START) (hfirst : h.firstIndexZone = fileHeadSize) :
    Skeleton e (Slog.writeFileHead e f h) zs next := by
  refine ⟨?_, ?_, hs.head, hs.aligned, hs.links.congr fun z hz => ?_⟩
  · exact (File.word_write_ofWords (k := 0) rfl (by rw [hmagic]; decide)).trans hmagic
  · exact (@File.word_write_ofWords _ 0 _ _ 3 _ rfl (by rw [hfirst]; decide)).trans hfirst
  · have := (hs.aligned z hz).1
    rw [Slog.writeFileHead, File.word_write_of_disjoint (.inr (by simp; omega))]

-- ---------------------------------------------------------------------------
-- One write
-- ---------------------------------------------------------------------------

/-- The writer is in the zone behind `zs`, with room for `k` records behind the
table of indexes. -/
structure Stage (e : Endian) (w : WriteStream) (zs : List Nat) (k : Nat) : Prop where
  skeleton : Skeleton e w.file (zs ++ [w.indexZoneOffset]) 0
  before : ∀ z ∈ zs, z + 16 ≤ w.indexZoneOffset
  data : w.indexZoneOffset + 116 + 16 * k ≤ w.dataOffset
  aligned : 4 ∣ w.dataOffset
  index : w.indexOffset = w.indexZoneOffset + 36 + 8 * w.indexNumInZone
  zones : w.indexZoneNum = (zs.length + 2) % 2 ^ 16
  length : 116 * zs.length ≤ w.indexZoneOffset
  oldMax : w.maxIndexNumInZoneOld = 200
  newMax : w.maxIndexNumInZoneNew = 200

variable {w : WriteStream} {k : Nat}

theorem Stage.zones_le (h : Stage e w zs k) : ∀ z ∈ zs ++ [w.indexZoneOffset],
    z ≤ w.indexZoneOffset := by
  simp only [List.mem_append, List.mem_singleton]
  rintro z (hz | rfl)
  · have := h.before z hz
    omega
  · exact Nat.le_refl _

theorem Stage.zone_ge (h : Stage e w zs k) : 24 ≤ w.indexZoneOffset :=
  (h.skeleton.aligned _ (by simp)).1

/-- The head of a zone without indexes is written. -/
theorem stage_addIndexZone (hs : Skeleton e w.file zs w.indexZoneOffset)
    (hbefore : ∀ z ∈ zs, z + 16 ≤ w.indexZoneOffset) (hz : 24 ≤ w.indexZoneOffset)
    (halign : 4 ∣ w.indexZoneOffset) (hempty : w.indexNumInZone = 0)
    (hzones : w.indexZoneNum = (zs.length + 1) % 2 ^ 16)
    (hlength : 116 * zs.length ≤ w.indexZoneOffset) (hmax : w.maxIndexNumInZoneNew = 200)
    (hfits : w.indexZoneOffset + 116 < 2 ^ 32) (t : Nat) :
    Stage e (w.addIndexZone e t) zs 0 ∧ (w.addIndexZone e t).indexNumInZone = 0 ∧
      (w.addIndexZone e t).dataOffset = w.indexZoneOffset + 116 := by
  have hindex : (w.indexZoneOffset + zoneHeadSize) % 2 ^ 32 = w.indexZoneOffset + 36 :=
    Nat.mod_eq_of_lt (show w.indexZoneOffset + 36 < 2 ^ 32 by omega)
  have hdata : (w.indexZoneOffset + zoneHeadSize + indexSize * MAX_INDEX_NUM_IN_INDEX_ZONE) % 2 ^ 32 =
      w.indexZoneOffset + 116 := Nat.mod_eq_of_lt (by omega)
  rw [WriteStream.addIndexZone, if_pos hempty]
  refine ⟨{
    skeleton := hs.concat hbefore hz halign (Nat.two_pow_pos 32)
    before := hbefore
    data := by simp only [hdata]; omega
    aligned := by simp only [hdata]; omega
    index := by simp only [hindex, hempty, Nat.mul_zero, Nat.add_zero]
    zones := by simp only [hzones]; omega
    length := hlength
    oldMax := hmax
    newMax := hmax }, hempty, hdata⟩

theorem Stage.roll_skeleton (h : Stage e w zs k) (hfull : w.indexNumInZone > w.maxIndexNumInZoneOld)
    (hfits : w.dataOffset < 2 ^ 32) (t : Nat) :
    Skeleton e (w.roll e t).file (zs ++ [w.indexZoneOffset]) w.dataOffset := by
  rw [WriteStream.roll, if_pos hfull]
  exact (h.skeleton.writeFileHead h.skeleton.magic h.skeleton.first).writeZoneHead h.before hfits

theorem roll_of_full (hfull : w.indexNumInZone > w.maxIndexNumInZoneOld) (t : Nat) :
    (w.roll e t).indexZoneOffset = w.dataOffset ∧ (w.roll e t).indexNumInZone = 0 ∧
      (w.roll e t).indexZoneNum = w.indexZoneNum ∧
      (w.roll e t).maxIndexNumInZoneNew = w.maxIndexNumInZoneNew := by
  rw [WriteStream.roll, if_pos hfull]
  exact ⟨rfl, rfl, rfl, rfl⟩

theorem Stage.roll (h : Stage e w zs k) (hk : w.indexNumInZone ≤ k) (hnum : 0 < w.indexNumInZone)
    (hfits : w.dataOffset + 116 < 2 ^ 32) (t t' : Nat) :
    ∃ zs' k', Stage e ((w.roll e t).addIndexZone e t') zs' k' ∧
      ((w.roll e t).addIndexZone e t').indexNumInZone ≤ k' ∧
      ((w.roll e t).addIndexZone e t').indexNumInZone ≤ 200 ∧
      ((w.roll e t).addIndexZone e t').dataOffset ≤ w.dataOffset + 116 := by
  by_cases hfull : w.indexNumInZone > w.maxIndexNumInZoneOld
  · have hskel := h.roll_skeleton hfull (by omega) t
    obtain ⟨hzone, hempty, hzones, hmax⟩ := roll_of_full (e := e) hfull t
    generalize w.roll e t = r at hskel hzone hempty hzones hmax ⊢
    have hdata := h.data
    have hlast : ∀ z ∈ zs ++ [w.indexZoneOffset], z + 16 ≤ r.indexZoneOffset := by
      intro z hz
      have := h.zones_le z hz
      omega
    have hnew : r.indexZoneNum = ((zs ++ [w.indexZoneOffset]).length + 1) % 2 ^ 16 := by
      rw [hzones, h.zones, List.length_append, List.length_singleton]
    have hlength : 116 * (zs ++ [w.indexZoneOffset]).length ≤ r.indexZoneOffset := by
      have := h.length
      rw [List.length_append, List.length_singleton]
      omega
    have halign := h.aligned
    obtain ⟨hstage, hnum, hoff⟩ := stage_addIndexZone (hzone ▸ hskel) hlast (by omega) (hzone ▸ halign)
      hempty hnew hlength (hmax.trans h.newMax) (by omega) t'
    exact ⟨_, 0, hstage, by omega, by omega, by omega⟩
  · rw [WriteStream.roll, if_neg hfull, WriteStream.addIndexZone, if_neg (by omega)]
    have := h.oldMax
    exact ⟨zs, k, h, hk, by omega, by omega⟩

/-- The head of the zone is read and written again, with the same successor. -/
theorem Skeleton.touch {h : IndexZoneHead} (hs : Skeleton e f (zs ++ [z]) 0)
    (hz : ∀ a ∈ zs, a + 16 ≤ z) (hnext : h.nextIndexZone = (readZoneHead e f z).nextIndexZone) :
    Skeleton e (Slog.writeZoneHead e f z h) (zs ++ [z]) 0 := by
  have hlast : f.word e (z + 12) = 0 := by
    have hlinks := hs.links
    clear hs hz
    induction zs with
    | nil => exact hlinks.1
    | cons a zs ih => exact ih hlinks.2
  have hzero : h.nextIndexZone = 0 := hnext.trans hlast
  exact hzero ▸ hs.writeZoneHead hz (by omega)

theorem Stage.addIndex (h : Stage e w zs k) (hk : w.indexNumInZone ≤ k) (hnum : w.indexNumInZone ≤ 200)
    (hfits : w.dataOffset < 2 ^ 32) (t : Nat) :
    Stage e (w.addIndex e t) zs k ∧ 0 < (w.addIndex e t).indexNumInZone ∧
      (w.addIndex e t).indexNumInZone ≤ k + 1 ∧ (w.addIndex e t).dataOffset = w.dataOffset := by
  have hdata := h.data
  have hindex := h.index
  by_cases hdue : w.due t
  · have hcount : (w.indexNumInZone + 1) % 2 ^ 16 = w.indexNumInZone + 1 :=
      Nat.mod_eq_of_lt (by omega)
    have hoff : (w.indexOffset + indexSize) % 2 ^ 32 = w.indexOffset + 8 :=
      Nat.mod_eq_of_lt (show w.indexOffset + 8 < 2 ^ 32 by omega)
    have hlast : ∀ z ∈ zs ++ [w.indexZoneOffset], z + 16 ≤ w.indexOffset := by
      intro z hz
      have := h.zones_le z hz
      omega
    rw [WriteStream.addIndex, if_pos hdue]
    exact ⟨{
      skeleton := (h.skeleton.write (by have := h.zone_ge; omega) hlast).touch h.before rfl
      before := h.before
      data := hdata
      aligned := h.aligned
      index := by simp only [hcount, hoff]; omega
      zones := h.zones
      length := h.length
      oldMax := h.oldMax
      newMax := h.newMax }, by simp only [hcount]; omega, by simp only [hcount]; omega, rfl⟩
  · rw [WriteStream.addIndex, if_neg hdue]
    refine ⟨h, ?_, by omega, rfl⟩
    simp only [WriteStream.due, Bool.or_eq_true, beq_iff_eq, not_or] at hdue
    omega

theorem Stage.addData (h : Stage e w zs k) {d : List Byte}
    (hfits : w.dataOffset + (16 + d.length + padding d.length) < 2 ^ 32) :
    Stage e (w.addData e d) zs (k + 1) ∧ (w.addData e d).indexNumInZone = w.indexNumInZone ∧
      (w.addData e d).dataOffset = w.dataOffset + (16 + d.length + padding d.length) := by
  have hdata := h.data
  have hrecord := length_record e d
  have hoff : (w.dataOffset + (record e d).length) % 2 ^ 32 =
      w.dataOffset + (16 + d.length + padding d.length) := by
    rw [hrecord]
    exact Nat.mod_eq_of_lt hfits
  have hlast : ∀ z ∈ zs ++ [w.indexZoneOffset], z + 16 ≤ w.dataOffset := by
    intro z hz
    have := h.zones_le z hz
    omega
  have halign := h.aligned
  have hpad := padding_add d.length
  rw [WriteStream.addData_eq (by omega)]
  exact ⟨{
    skeleton := (h.skeleton.write (by have := h.zone_ge; omega) hlast).touch h.before rfl
    before := h.before
    data := by
      simp only [WriteStream.count, WriteStream.put, hoff]
      omega
    aligned := by
      simp only [WriteStream.count, WriteStream.put, hoff]
      omega
    index := h.index
    zones := h.zones
    length := h.length
    oldMax := h.oldMax
    newMax := h.newMax }, rfl, hoff⟩

theorem Stage.rest (h : Stage e w zs k) (hk : w.indexNumInZone ≤ k) (hnum : w.indexNumInZone ≤ 200)
    {d : List Byte} (hfits : w.dataOffset + (16 + d.length + padding d.length) < 2 ^ 32) (t : Nat) :
    Stage e ((w.addIndex e t).addData e d) zs (k + 1) ∧
      0 < ((w.addIndex e t).addData e d).indexNumInZone ∧
      ((w.addIndex e t).addData e d).indexNumInZone ≤ k + 1 ∧
      ((w.addIndex e t).addData e d).dataOffset =
        w.dataOffset + (16 + d.length + padding d.length) := by
  obtain ⟨hindex, hpos, hle, hoff⟩ := h.addIndex hk hnum (by omega) t
  obtain ⟨hstage, hsame, hend⟩ := hindex.addData (d := d) (by omega)
  exact ⟨hstage, by omega, by omega, by omega⟩

/-- A writer that has written to a chain of zones, with offsets below `bound`. -/
def Written (e : Endian) (w : WriteStream) (bound : Nat) : Prop :=
  ∃ zs k, Stage e w zs k ∧ 0 < w.indexNumInZone ∧ w.indexNumInZone ≤ k ∧ w.dataOffset ≤ bound

theorem Written.writeBinary {bound : Nat} (h : Written e w bound) {x : Write}
    (hfits : bound + x.volume < 2 ^ 32) :
    Written e (w.writeBinary e x.times x.data) (bound + x.volume) := by
  obtain ⟨zs, k, hstage, hpos, hle, hbound⟩ := h
  simp only [Write.volume] at hfits ⊢
  obtain ⟨zs', k', hstage, hle, hnum, hoff⟩ := hstage.roll hle hpos (by omega) x.times.roll x.times.zone
  obtain ⟨hstage, hpos, hle, hend⟩ := hstage.rest hle hnum (d := x.data) (by omega) x.times.index
  exact ⟨zs', k' + 1, hstage, hpos, hle, by rw [WriteStream.writeBinary]; omega⟩

-- ---------------------------------------------------------------------------
-- A new file
-- ---------------------------------------------------------------------------

/-- The writer of a new file. -/
def fresh (e : Endian) (startTime endTime : Nat) : WriteStream where
  file := writeFileHead e (File.empty.truncate (1024 * 1024))
    ⟨MAGIC_F_START, startTime, endTime, fileHeadSize, 0, MAGIC_F_END⟩
  indexZoneOffset := 24
  indexOffset := 60
  dataOffset := 0
  indexZoneNum := 1
  indexNum := 0
  itemNum := 0
  itemNumInZone := 0
  indexTimestamp := 0
  startTimestamp := startTime
  endTimestamp := endTime
  indexNumInZone := 0
  maxIndexNumInZoneOld := 0
  maxIndexNumInZoneNew := 200
  indexIntervalTime := 1

theorem word_of_zero {off : Nat} (h : ∀ i < 4, f.bytes (off + i) = 0) : f.word e off = 0 := by
  have hpeek : f.peek off 4 = List.replicate 4 0 := by
    refine List.ext_getElem? fun i => ?_
    rw [File.getElem?_peek, List.getElem?_replicate]
    split
    · next hi => rw [h i hi]
    · rfl
  rw [File.word, hpeek]
  cases e <;> rfl

theorem word_empty (n off : Nat) : (File.empty.truncate n).word e off = 0 := by
  refine word_of_zero fun i _ => ?_
  simp only [File.truncate]
  split <;> rfl

theorem fresh_word {s t off : Nat} (h : 24 ≤ off) : (fresh e s t).file.word e off = 0 := by
  rw [fresh, writeFileHead, File.word_write_of_disjoint (.inr (by simp; omega)), word_empty]

theorem fresh_magic (s t : Nat) : (fresh e s t).file.word e 0 = MAGIC_F_START :=
  File.word_write_ofWords (k := 0) rfl (by decide)

theorem fresh_first (s t : Nat) : (fresh e s t).file.word e 12 = fileHeadSize :=
  @File.word_write_ofWords _ 0 _ _ 3 _ rfl (by decide)

theorem fresh_head {s t : Nat} : readZoneHead e (fresh e s t).file 24 = ⟨0, 0, 0, 0, 0, 0, 0, 0, 0⟩ := by
  simp only [readZoneHead, fresh_word (e := e) (s := s) (t := t), Nat.reduceAdd, Nat.reduceLeDiff]

theorem walk_fresh {s t : Nat} (w : Walk) :
    walk e (fresh e s t).file (2 ^ 32 + 1) 24 w =
      some ⟨24, ⟨0, 0, 0, 0, 0, 0, 0, 0, 0⟩, (w.zoneNum + 1) % 2 ^ 16, w.indexNum % 2 ^ 16⟩ := by
  rw [walk, if_neg (by omega), fresh_head]
  rw [show 2 ^ 32 = (2 ^ 32 - 1) + 1 by omega, walk, if_pos rfl]
  rfl

theorem open_empty (s t : Nat) : WriteStream.open e .empty s t = some (fresh e s t) := by
  have hhead : readFileHead e (File.empty.truncate (1024 * 1024)) = ⟨0, 0, 0, 0, 0, 0⟩ := by
    simp only [readFileHead, word_empty]
  have hwalk := walk_fresh (e := e) (s := s) (t := t) ⟨24, ⟨0, 0, 0, 0, 0, 0, 0, 0, 0⟩, 0, 0⟩
  rw [WriteStream.open]
  simp only [hhead, if_true]
  exact congrArg (Option.map _) hwalk

theorem fresh_write {s t : Nat} {x : Write} (hfits : fileHeadSize + x.volume < 2 ^ 32) :
    Written e ((fresh e s t).writeBinary e x.times x.data) (fileHeadSize + x.volume) := by
  have hskel : Skeleton e (fresh e s t).file [] (fresh e s t).indexZoneOffset :=
    ⟨fresh_magic s t, fresh_first s t, rfl, nofun, trivial⟩
  have hroll : (fresh e s t).roll e x.times.roll = fresh e s t := if_neg (Nat.lt_irrefl 0)
  have hzone : (fresh e s t).indexZoneOffset = 24 := rfl
  obtain ⟨hstage, hempty, hoff⟩ := stage_addIndexZone hskel nofun (Nat.le_refl 24) ⟨6, rfl⟩ rfl rfl
    (Nat.zero_le 24) rfl (by omega) x.times.zone
  simp only [Write.volume, fileHeadSize] at hfits ⊢
  obtain ⟨hstage, hpos, hle, hend⟩ :=
    hstage.rest (by omega) (by omega) (d := x.data) (by omega) x.times.index
  rw [WriteStream.writeBinary, hroll]
  exact ⟨[], 1, hstage, hpos, hle, by omega⟩

theorem writes_written {s t : Nat} {ws : List Write} (hne : ws ≠ []) (hfits : volume ws < 2 ^ 32) :
    Written e ((fresh e s t).writes e ws) (volume ws) := by
  induction ws using List.reverseRecOn with
  | nil => exact absurd rfl hne
  | append_singleton ws x ih =>
    have hvolume : volume (ws ++ [x]) = volume ws + x.volume := by
      simp only [volume, List.map_append, List.sum_append, List.map_cons, List.map_nil, List.sum_cons,
        List.sum_nil]
      omega
    rw [hvolume] at hfits ⊢
    rw [WriteStream.writes, List.foldl_append]
    rcases eq_or_ne ws [] with rfl | hws
    · exact fresh_write hfits
    · exact (ih hws (by omega)).writeBinary hfits

-- ---------------------------------------------------------------------------
-- Opening the file again
-- ---------------------------------------------------------------------------

theorem walk_zone {fuel : Nat} (hz : 24 ≤ z) (w : Walk) :
    walk e f (fuel + 1) z w = walk e f fuel (readZoneHead e f z).nextIndexZone
      ⟨z, readZoneHead e f z, (w.zoneNum + 1) % 2 ^ 16,
        (w.indexNum + (readZoneHead e f z).indexNum) % 2 ^ 16⟩ :=
  if_neg (by omega)

theorem next_truncate {n : Nat} (hn : 4 ∣ n) (hz : 4 ∣ z) (hlinks : Links e f (z :: zs) next) :
    (readZoneHead e (f.truncate n) z).nextIndexZone =
      if z + 12 < n then zs.head?.getD next else 0 := by
  rw [← hlinks.1]
  exact File.word_truncate hn (by omega)

/-- The walk along what is left of the chain counts all zones, or ends at a zone
whose head is cut off. -/
theorem walk_truncate {n : Nat} (hn : 4 ∣ n) (hlinks : Links e f (z :: zs) 0)
    (haligned : ∀ a ∈ z :: zs, 24 ≤ a ∧ 4 ∣ a) {fuel : Nat} (hfuel : zs.length + 1 < fuel) (w : Walk) :
    ∃ r m, walk e (f.truncate n) fuel z w = some r ∧ r.zoneNum = (w.zoneNum + m) % 2 ^ 16 ∧
      (m = zs.length + 1 ∨ r.head.dataOffset = 0) := by
  induction zs generalizing z w fuel with
  | nil =>
    obtain ⟨hz, -⟩ := haligned z (by simp)
    obtain ⟨fuel, rfl⟩ : ∃ k, fuel = k + 1 + 1 := ⟨fuel - 2, by omega⟩
    have hnext := next_truncate hn (haligned z (by simp)).2 hlinks
    rw [walk_zone hz, hnext, List.head?_nil, Option.getD_none, ite_self, walk, if_pos rfl]
    exact ⟨_, 1, rfl, rfl, .inl rfl⟩
  | cons z' zs ih =>
    obtain ⟨hz, hzs⟩ := List.forall_mem_cons.mp haligned
    have hnext := next_truncate hn hz.2 hlinks
    obtain ⟨fuel, rfl⟩ : ∃ k, fuel = k + 1 + 1 := ⟨fuel - 2, by omega⟩
    rw [walk_zone hz.1, hnext]
    by_cases hcut : z + 12 < n
    · rw [if_pos hcut]
      have hfuel' : zs.length + 1 < fuel + 1 := by
        simp only [List.length_cons] at hfuel
        omega
      obtain ⟨r, m, hr, hnum, hend⟩ := ih hlinks.2 hzs hfuel'
        ⟨z, readZoneHead e (f.truncate n) z, (w.zoneNum + 1) % 2 ^ 16,
          (w.indexNum + (readZoneHead e (f.truncate n) z).indexNum) % 2 ^ 16⟩
      refine ⟨r, m + 1, hr, ?_, hend.imp_left fun hm => ?_⟩
      · simp only [hnum]
        omega
      · rw [hm, List.length_cons]
    · -- the rest of this head is cut off as well
      rw [if_neg hcut, walk, if_pos rfl]
      exact ⟨_, 1, rfl, rfl, .inr ((File.word_truncate hn (by omega)).trans (if_neg (by omega)))⟩

/-- The writer that opens the file again. -/
theorem Written.open {bound : Nat} (h : Written e w bound) (hbound : bound < 2 ^ 32) (s t : Nat) :
    ∃ w', WriteStream.open e w.file s t = some w' ∧
      (w'.getIzoneNum ≠ w.getIzoneNum ∨ w'.getLogSize ≠ w.getLogSize) := by
  obtain ⟨zs, k, hstage, -, -, hoff⟩ := h
  have hskel := hstage.skeleton
  have hdata := hstage.data
  have hlength := hstage.length
  have hmagic : (readFileHead e (w.file.truncate (1024 * 1024))).startMagic = MAGIC_F_START :=
    (File.word_truncate (by decide) (by decide)).trans hskel.magic
  have hfirst : (readFileHead e (w.file.truncate (1024 * 1024))).firstIndexZone = fileHeadSize :=
    (File.word_truncate (by decide) (by decide)).trans hskel.first
  obtain ⟨z, rest, hzs⟩ : ∃ z rest, zs ++ [w.indexZoneOffset] = z :: rest := by
    cases zs <;> exact ⟨_, _, rfl⟩
  have hlen : zs.length + 1 = rest.length + 1 := by
    have := congrArg List.length hzs
    simpa using this
  obtain rfl : z = fileHeadSize := by
    have hhead := hskel.head
    rwa [hzs] at hhead
  have hfuel : rest.length + 1 < 2 ^ 32 + 1 := by omega
  obtain ⟨r, m, hwalk, hnum, hend⟩ := walk_truncate (n := 1024 * 1024) (by decide) (hzs ▸ hskel.links)
    (hzs ▸ hskel.aligned) hfuel
    ⟨fileHeadSize, ⟨0, 0, 0, 0, 0, 0, 0, 0, 0⟩, 0, 0⟩
  have hload : WriteStream.open e w.file s t =
      some (.found e (w.file.truncate (1024 * 1024)) (readFileHead e (w.file.truncate (1024 * 1024))) 0
        r) := by
    rw [WriteStream.open]
    simp only [hmagic]
    rw [if_neg (by decide), if_neg (by decide), WriteStream.load, hfirst]
    exact congrArg (Option.map _) hwalk
  refine ⟨_, hload, ?_⟩
  rcases hend with rfl | hzero
  · -- the zones are counted right, and one less than before
    refine .inl ?_
    have hzones := hstage.zones
    simp only [WriteStream.getIzoneNum, WriteStream.found, hnum, hzones]
    omega
  · refine .inr ?_
    simp only [WriteStream.getLogSize, WriteStream.found, hzero]
    omega

-- ---------------------------------------------------------------------------
-- Before the first write
-- ---------------------------------------------------------------------------

/-- The writer with other time stamps, which it shows to nobody. -/
def WriteStream.stamped (w : WriteStream) (s t : Nat) : WriteStream :=
  { w with startTimestamp := s, endTimestamp := t }

theorem roll_stamped (s t t' : Nat) :
    ∃ t'', (w.stamped s t).roll e t' = (w.roll e t').stamped s t'' := by
  by_cases h : w.indexNumInZone > w.maxIndexNumInZoneOld
  · have h' : (w.stamped s t).indexNumInZone > (w.stamped s t).maxIndexNumInZoneOld := h
    rw [WriteStream.roll, WriteStream.roll, if_pos h, if_pos h']
    exact ⟨t', rfl⟩
  · have h' : ¬ (w.stamped s t).indexNumInZone > (w.stamped s t).maxIndexNumInZoneOld := h
    rw [WriteStream.roll, WriteStream.roll, if_neg h, if_neg h']
    exact ⟨t, rfl⟩

theorem addIndexZone_stamped (s t t' : Nat) :
    (w.stamped s t).addIndexZone e t' = (w.addIndexZone e t').stamped s t := by
  by_cases h : w.indexNumInZone = 0
  · have h' : (w.stamped s t).indexNumInZone = 0 := h
    rw [WriteStream.addIndexZone, WriteStream.addIndexZone, if_pos h, if_pos h']
    rfl
  · have h' : ¬ (w.stamped s t).indexNumInZone = 0 := h
    rw [WriteStream.addIndexZone, WriteStream.addIndexZone, if_neg h, if_neg h']

theorem addIndex_stamped (s t t' : Nat) :
    ∃ t'', (w.stamped s t).addIndex e t' = (w.addIndex e t').stamped s t'' := by
  by_cases h : w.due t'
  · have h' : (w.stamped s t).due t' := h
    rw [WriteStream.addIndex, WriteStream.addIndex, if_pos h, if_pos h']
    exact ⟨t', rfl⟩
  · have h' : ¬ (w.stamped s t).due t' := h
    rw [WriteStream.addIndex, WriteStream.addIndex, if_neg h, if_neg h']
    exact ⟨t, rfl⟩

theorem put_stamped (s t : Nat) (d : List Byte) :
    (w.stamped s t).put d = (w.put d).stamped s t :=
  rfl

theorem count_stamped (s t : Nat) : (w.stamped s t).count e = (w.count e).stamped s t :=
  rfl

theorem addData_stamped (s t : Nat) (d : List Byte) :
    (w.stamped s t).addData e d = (w.addData e d).stamped s t := by
  unfold WriteStream.addData
  rw [put_stamped, put_stamped, put_stamped, put_stamped, put_stamped, put_stamped, count_stamped]

theorem writes_stamped (s t : Nat) (ws : List Write) :
    ∃ t', (w.stamped s t).writes e ws = (w.writes e ws).stamped s t' := by
  induction ws generalizing w t with
  | nil => exact ⟨t, rfl⟩
  | cons x ws ih =>
    obtain ⟨t₁, h₁⟩ := roll_stamped (e := e) (w := w) s t x.times.roll
    obtain ⟨t₂, h₂⟩ := addIndex_stamped (e := e)
      (w := (w.roll e x.times.roll).addIndexZone e x.times.zone) s t₁ x.times.index
    have hwrite : (w.stamped s t).writeBinary e x.times x.data =
        (w.writeBinary e x.times x.data).stamped s t₂ := by
      rw [WriteStream.writeBinary, h₁, addIndexZone_stamped, h₂, addData_stamped,
        WriteStream.writeBinary]
    obtain ⟨t', h'⟩ := ih (w := w.writeBinary e x.times x.data) t₂
    refine ⟨t', ?_⟩
    rw [WriteStream.writes, List.foldl_cons, hwrite]
    exact h'

theorem open_fresh (s t s' t' : Nat) :
    ∃ s'' t'', WriteStream.open e (fresh e s t).file s' t' = some ((fresh e s t).stamped s'' t'') := by
  have hsize : (fresh e s t).file.truncate (1024 * 1024) = (fresh e s t).file := by
    refine File.truncate_of_size (File.size_write_of_le ?_)
    rw [File.length_ofWords]
    exact (by decide : 0 + 4 * 6 ≤ 1024 * 1024)
  have hmagic : (readFileHead e (fresh e s t).file).startMagic = MAGIC_F_START := fresh_magic s t
  have hfirst : (readFileHead e (fresh e s t).file).firstIndexZone = fileHeadSize := fresh_first s t
  have hitems : (readFileHead e (fresh e s t).file).itemNum = 0 :=
    @File.word_write_ofWords _ 0 _ _ 4 _ rfl (by decide)
  refine ⟨(readFileHead e (fresh e s t).file).startTime, 0, ?_⟩
  rw [WriteStream.open, hsize]
  simp only [hmagic]
  rw [if_neg (by decide), if_neg (by decide), WriteStream.load, hfirst, walk_fresh]
  simp only [Option.map_some, WriteStream.found, hitems]
  rfl

theorem transparent_nil (s t : Nat) (post : List Write) : Transparent e s t [] post := by
  refine ⟨_, open_empty s t, fun s' t' => ?_⟩
  obtain ⟨s'', t'', hopen⟩ := open_fresh (e := e) s t s' t'
  refine ⟨_, hopen, fun k => ?_⟩
  obtain ⟨t₃, hwrites⟩ := writes_stamped (e := e) (w := fresh e s t) s'' t'' (post.take k)
  rw [hwrites]
  rfl

theorem not_transparent (s t : Nat) {pre : List Write} (post : List Write) (hne : pre ≠ [])
    (hfits : volume pre < 2 ^ 32) : ¬ Transparent e s t pre post := by
  rintro ⟨w, hw, h⟩
  cases (open_empty s t).symm.trans hw
  obtain ⟨w', hw', hobs⟩ := h 0 0
  obtain ⟨w'', hw'', hdiffer⟩ := (writes_written hne hfits).open hfits 0 0
  cases hw'.symm.trans hw''
  have hsame := hobs 0
  simp only [List.take_zero] at hsame
  rcases hdiffer with hz | hl
  · exact hz (congrArg Observation.izoneNum hsame)
  · exact hl (congrArg Observation.logSize hsame)

/-- Opening a file again shows nothing new exactly when nothing was written to it
before. -/
theorem transparent_iff (e : Endian) (s t : Nat) (pre post : List Write)
    (hfits : volume pre < 2 ^ 32) : Transparent e s t pre post ↔ pre = [] := by
  constructor
  · intro h
    by_contra hne
    exact not_transparent s t post hne hfits h
  · rintro rfl
    exact transparent_nil s t post

theorem reopened_before_write :
    volume [] < 2 ^ 32 ∧ Transparent .little 0 0 [] [⟨⟨0, 0, 0⟩, [0]⟩] :=
  ⟨by decide, (transparent_iff .little 0 0 [] [⟨⟨0, 0, 0⟩, [0]⟩] (by decide)).mpr rfl⟩

/-- One write of a byte, and then the file is opened again. -/
theorem reopened_writer_differs :
    ¬ ∀ (e : Endian) (s t : Nat) (pre post : List Write), Transparent e s t pre post :=
  fun h => not_transparent 0 0 [] (List.cons_ne_nil ⟨⟨0, 0, 0⟩, [0]⟩ []) (by decide) (h .little ..)

end GalaLua.Slog
