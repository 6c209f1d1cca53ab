import GalaLua.Library.Orbit
import GalaLua.Slog.ReadStream

/-!
# Readers on damaged files

The readers follow the chain of the zones by the offsets that stand in the file, and
`read_next` looks for the next word of the format. What is missing behind the end of
a file stays in the variable as it was before: a zone whose head is cut off in front
of `izh_nextIndexZone` is followed by itself, and the search goes round at the end of
a file unless its last word is zero.
-/

namespace GalaLua.Slog

open Library

variable (e : Endian)

-- ---------------------------------------------------------------------------
-- Reading into variables
-- ---------------------------------------------------------------------------

/-- `read` into a variable with the bytes `old`. -/
def readInto (f : File) (pos : Nat) (old : List Byte) : List Byte :=
  f.read pos old.length ++ old.drop (f.read pos old.length).length

/-- The word `k` of a structure in memory. -/
def wordOf (b : List Byte) (k : Nat) : Nat := e.decode ((b.drop (4 * k)).take 4)

def zoneHeadOf (b : List Byte) : IndexZoneHead :=
  ⟨wordOf e b 0, wordOf e b 1, wordOf e b 2, wordOf e b 3, wordOf e b 4, wordOf e b 5, wordOf e b 6, wordOf e b 7,
    wordOf e b 8⟩

structure Index where
  timestamp : Nat
  location : Nat
  deriving DecidableEq, Repr

def indexOf (b : List Byte) : Index := ⟨wordOf e b 0, wordOf e b 1⟩

/-- What `read_indexes_by_zone` finds in a zone; without an index the end is undefined. -/
structure ZoneIndexes where
  indexes : List Index
  itemNum : Nat
  start : Nat
  last : Option Nat

/-- Structures that no value was given to. -/
structure Garbage where
  izh : List Byte
  i : List Byte
  offsetB : Nat
  izh_length : izh.length = zoneHeadSize
  i_length : i.length = indexSize

-- ---------------------------------------------------------------------------
-- The readers
-- ---------------------------------------------------------------------------

/-- The loop over the zones, for at most `turns` turns: `visit` is what is done with a
zone. The head of the last zone stays in `izh`. -/
def eachZone {α : Type} (f : File) (visit : Nat → List Byte → α → α) :
    Nat → Nat → List Byte → α → Option (α × List Byte)
  | 0, _, _, _ => none
  | turns + 1, offset, izh, a =>
    if offset = 0 then some (a, izh)
    else
      let izh := readInto f offset izh
      eachZone f visit turns (zoneHeadOf e izh).nextIndexZone izh (visit offset izh a)

/-- `n` indexes from `pos` on, and what is left in `i`. -/
def readIndexes (f : File) : Nat → Nat → List Byte → List Index × List Byte
  | 0, _, i => ([], i)
  | n + 1, pos, i =>
    let i := readInto f pos i
    let rest := readIndexes f n (pos + (f.read pos indexSize).length) i
    (indexOf e i :: rest.1, rest.2)

/-- The indexes behind the head of a zone; their number is converted to an `int`. -/
def zoneIndexes (f : File) (offset : Nat) (izh i : List Byte) : List Index × List Byte :=
  let num := (zoneHeadOf e izh).indexNum
  readIndexes e f (if num < 2 ^ 31 then num else 0) (offset + (f.read offset zoneHeadSize).length) i

section Readers

variable (f : File) (turns : Nat) (g : Garbage)

def first : Nat := (readFileHead e f).firstIndexZone

def readIndexesByAll : Option (List Index) :=
  (eachZone e f (fun offset izh (l, i) => (l ++ (zoneIndexes e f offset izh i).1, (zoneIndexes e f offset izh i).2))
    turns (first e f) g.izh ([], g.i)).map fun r => r.1.1

def getIndexNum : Option Nat :=
  (eachZone e f (fun _ izh n => (n + (zoneHeadOf e izh).indexNum) % 2 ^ 32) turns (first e f) g.izh 0).map Prod.fst

def getItemNum : Option Nat :=
  (eachZone e f (fun _ izh n => (n + (zoneHeadOf e izh).itemNum) % 2 ^ 32) turns (first e f) g.izh 0).map Prod.fst

def getIndexZoneNum : Option Nat :=
  (eachZone e f (fun _ _ n => (n + 1) % 2 ^ 16) turns (first e f) g.izh 0).map Prod.fst

/-- The start and the end; the end is read behind the last index. -/
def getLogTimestamp : Option (Nat × Nat) :=
  (eachZone e f (fun offset _ _ => offset) turns (first e f) g.izh g.offsetB).map fun (offsetB, izh) =>
    let offset := (offsetB + zoneHeadSize + indexSize * (zoneHeadOf e izh).indexNum) % 2 ^ 32
    ((readFileHead e f).startTime, (indexOf e (readInto f offset g.i)).timestamp)

def getLogSize : Option Nat :=
  (eachZone e f (fun _ _ _ => ()) turns (first e f) g.izh ()).map fun r => (zoneHeadOf e r.2).dataOffset

/-- The loop of `read_indexes_by_zone`, which is left at the zone with the number
`zoneId`. -/
def findZone (zoneId : Nat) : Nat → Nat → Nat → List Byte → Option (Option ZoneIndexes)
  | 0, _, _, _ => none
  | turns + 1, zoneNum, offset, izh =>
    if offset = 0 then some none
    else
      let izh := readInto f offset izh
      let zoneNum := (zoneNum + 1) % 2 ^ 16
      if zoneNum < zoneId then findZone zoneId turns zoneNum (zoneHeadOf e izh).nextIndexZone izh
      else
        let indexes := (zoneIndexes e f offset izh g.i).1
        some (some ⟨indexes, (zoneHeadOf e izh).indexNum, (zoneHeadOf e izh).startTime,
          indexes.getLast?.map Index.timestamp⟩)

def readIndexesByZone (zoneId : Nat) : Option (Option ZoneIndexes) := findZone e f g zoneId turns 0 (first e f) g.izh

end Readers

-- ---------------------------------------------------------------------------
-- The offsets of a chain
-- ---------------------------------------------------------------------------

/-- The zone behind the one at `offset`, when `izh_nextIndexZone` is `offset` before the
head is read. -/
def nextZone (f : File) (offset : Nat) : Nat := if offset = 0 then 0 else readWord e f (offset + 12) offset

/-- The second zone of a reader whose variable for the head has `old` in the place of
`izh_nextIndexZone`. -/
def secondZone (f : File) (old : Nat) : Nat := if first e f = 0 then 0 else readWord e f (first e f + 12) old

/-- The zone behind the one at `offset` for the constructor of the writer, which clears
the variable before it reads. -/
def nextZoneCleared (f : File) (offset : Nat) : Nat := if offset = 0 then 0 else f.word e (offset + 12)

variable {e} {f : File} {pos offset n : Nat} {b : List Byte}

@[simp] theorem length_readInto : (readInto f pos b).length = b.length := by
  have hle : (f.read pos b.length).length ≤ b.length := by
    rw [File.read, File.length_peek]
    exact Nat.min_le_left ..
  rw [readInto, List.length_append, List.length_drop]
  omega

theorem readInto_end (h : f.size ≤ pos) : readInto f pos b = b := by
  have hnil : f.read pos b.length = [] := List.eq_nil_of_length_eq_zero (by rw [File.read, File.length_peek]; omega)
  rw [readInto, hnil, List.nil_append, List.length_nil, List.drop_zero]

theorem getElem?_readInto (k : Nat) :
    (readInto f pos b)[k]? = if k < b.length ∧ pos + k < f.size then some (f.bytes (pos + k)) else b[k]? := by
  have hlen : (f.read pos b.length).length = min b.length (f.size - pos) := by rw [File.read, File.length_peek]
  rw [readInto, List.getElem?_append, hlen, List.getElem?_drop, File.read, File.getElem?_peek]
  by_cases hk : k < min b.length (f.size - pos)
  · rw [if_pos hk, if_pos hk, if_pos (by omega)]
  · rw [if_neg hk]
    by_cases hb : k < b.length
    · rw [if_neg (by omega)]
      congr 1
      omega
    · rw [if_neg (by omega), List.getElem?_eq_none (by omega), List.getElem?_eq_none (by omega)]

theorem readWord_eq (old : Nat) : readWord e f pos old = e.decode (readInto f pos (e.encode 4 old)) := by
  rw [readWord, readInto, Endian.length_encode]

theorem slice_readInto (k : Nat) (h : k + n ≤ b.length) :
    ((readInto f pos b).drop k).take n = readInto f (pos + k) ((b.drop k).take n) := by
  have hlen : ((b.drop k).take n).length = n := by rw [List.length_take, List.length_drop]; omega
  refine List.ext_getElem? fun m => ?_
  rw [getElem?_readInto, hlen, List.getElem?_take, List.getElem?_take, List.getElem?_drop, List.getElem?_drop,
    getElem?_readInto]
  by_cases hm : m < n
  · simp only [hm, if_true, true_and, Nat.add_assoc, show k + m < b.length by omega]
  · simp only [hm, if_false, false_and]

theorem wordOf_readInto (k : Nat) (h : 4 * k + 4 ≤ b.length) :
    wordOf e (readInto f pos b) k = readWord e f (pos + 4 * k) (wordOf e b k) := by
  have hlen : ((b.drop (4 * k)).take 4).length = 4 := by rw [List.length_take, List.length_drop]; omega
  have hback : e.encode 4 (wordOf e b k) = (b.drop (4 * k)).take 4 := by
    have hencode := e.encode_decode ((b.drop (4 * k)).take 4)
    rwa [hlen] at hencode
  rw [readWord_eq, hback, wordOf, slice_readInto _ h]


theorem readWord_lt (old : Nat) : readWord e f pos old < 2 ^ 32 := by
  have hlt := e.decode_lt (readInto f pos (e.encode 4 old))
  rwa [length_readInto, Endian.length_encode, ← readWord_eq] at hlt

theorem nextZone_zero : nextZone e f 0 = 0 := if_pos rfl

theorem nextZone_lt (offset : Nat) : nextZone e f offset < 2 ^ 32 := by
  rw [nextZone]
  split
  · exact Nat.two_pow_pos 32
  · exact readWord_lt _

theorem secondZone_lt (old : Nat) : secondZone e f old < 2 ^ 32 := by
  rw [secondZone]
  split
  · exact Nat.two_pow_pos 32
  · exact readWord_lt _

theorem iterate_lt {next : Nat → Nat} {x N : Nat} (hx : x < N) (hnext : ∀ o, next o < N) (k : Nat) :
    next^[k] x < N := by
  cases k with
  | zero => exact hx
  | succ k =>
    rw [Function.iterate_succ_apply']
    exact hnext _

-- ---------------------------------------------------------------------------
-- The walks
-- ---------------------------------------------------------------------------

section Walks

variable {α : Type} {visit : Nat → List Byte → α → α} {a : α} {izh : List Byte}

theorem next_readInto (hlen : izh.length = zoneHeadSize) :
    wordOf e (readInto f offset izh) 3 = readWord e f (offset + 12) (wordOf e izh 3) :=
  wordOf_readInto 3 (by rw [hlen]; decide)

/-- A loop that has read a head already. -/
theorem eachZone_returns_iff (hlen : izh.length = zoneHeadSize) (hnext : wordOf e izh 3 = offset) :
    (∃ turns r, eachZone e f visit turns offset izh a = some r) ↔ ∃ k, (nextZone e f)^[k] offset = 0 := by
  constructor
  · rintro ⟨turns, r, h⟩
    induction turns generalizing offset izh a with
    | zero => cases h
    | succ turns ih =>
      rw [eachZone] at h
      split at h
      · next hzero => exact ⟨0, hzero⟩
      · next hpos =>
        obtain ⟨k, hk⟩ := ih (length_readInto.trans hlen) rfl h
        refine ⟨k + 1, ?_⟩
        rw [Function.iterate_succ_apply, nextZone, if_neg hpos]
        rwa [next_readInto hlen, hnext] at hk
  · rintro ⟨k, hk⟩
    induction k generalizing offset izh a with
    | zero => exact ⟨1, (a, izh), if_pos hk⟩
    | succ k ih =>
      by_cases hzero : offset = 0
      · exact ⟨1, (a, izh), if_pos hzero⟩
      · rw [Function.iterate_succ_apply, nextZone, if_neg hzero] at hk
        obtain ⟨turns, r, h⟩ := @ih _ (visit offset (readInto f offset izh) a) (readInto f offset izh)
          (length_readInto.trans hlen) rfl (by rwa [next_readInto hlen, hnext])
        exact ⟨turns + 1, r, (if_neg hzero).trans h⟩

/-- The whole loop of a reader. -/
theorem eachZone_first_iff (hlen : izh.length = zoneHeadSize) :
    (∃ turns r, eachZone e f visit turns (first e f) izh a = some r) ↔
      Orbit.NoReturn (nextZone e f) (secondZone e f (wordOf e izh 3)) 0 := by
  rw [← Orbit.reaches_iff nextZone_zero (iterate_lt (secondZone_lt _) nextZone_lt)]
  by_cases hzero : first e f = 0
  · exact iff_of_true ⟨1, (a, izh), if_pos hzero⟩ ⟨0, if_pos hzero⟩
  · have hsecond : secondZone e f (wordOf e izh 3) = wordOf e (readInto f (first e f) izh) 3 := by
      rw [secondZone, if_neg hzero, next_readInto hlen]
    have hrest := @eachZone_returns_iff e f (wordOf e (readInto f (first e f) izh) 3) α visit
      (visit (first e f) (readInto f (first e f) izh) a) (readInto f (first e f) izh) (length_readInto.trans hlen) rfl
    rw [hsecond, ← hrest]
    constructor
    · rintro ⟨turns, r, h⟩
      cases turns with
      | zero => cases h
      | succ turns =>
        rw [eachZone, if_neg hzero] at h
        exact ⟨turns, r, h⟩
    · rintro ⟨turns, r, h⟩
      exact ⟨turns + 1, r, (if_neg hzero).trans h⟩

/-- The search for a zone is over when it has counted to its number. -/
theorem findZone_returns (g : Garbage) {zoneId zoneNum : Nat} (hid : zoneId < 2 ^ 16)
    (hnum : zoneNum < zoneId ∨ zoneId = 0) : ∃ turns r, findZone e f g zoneId turns zoneNum offset izh = some r := by
  induction hleft : zoneId - zoneNum using Nat.strong_induction_on generalizing zoneNum offset izh with
  | _ left ih =>
    by_cases hzero : offset = 0
    · exact ⟨1, none, if_pos hzero⟩
    · by_cases hless : (zoneNum + 1) % 2 ^ 16 < zoneId
      · have hcount : (zoneNum + 1) % 2 ^ 16 = zoneNum + 1 := Nat.mod_eq_of_lt (by omega)
        obtain ⟨turns, r, h⟩ := @ih (zoneId - (zoneNum + 1) % 2 ^ 16) (by omega)
          (zoneHeadOf e (readInto f offset izh)).nextIndexZone (readInto f offset izh) _ (.inl hless) rfl
        exact ⟨turns + 1, r, (if_neg hzero).trans ((if_pos hless).trans h)⟩
      · exact ⟨1, _, (if_neg hzero).trans (if_neg hless)⟩

end Walks

-- ---------------------------------------------------------------------------
-- The constructor of the writer
-- ---------------------------------------------------------------------------

theorem walk_returns_iff {turns : Nat} {w : Walk} :
    (∃ w', walk e f turns offset w = some w') ↔ ∃ k < turns, (nextZoneCleared e f)^[k] offset = 0 := by
  induction turns generalizing offset w with
  | zero => exact iff_of_false nofun nofun
  | succ turns ih =>
    rw [walk]
    split
    · next hzero => exact iff_of_true ⟨w, rfl⟩ ⟨0, Nat.zero_lt_succ _, hzero⟩
    · next hpos =>
      have hnext : (readZoneHead e f offset).nextIndexZone = nextZoneCleared e f offset := (if_neg hpos).symm
      simp only [hnext]
      rw [ih]
      constructor
      · rintro ⟨k, hk, h⟩
        exact ⟨k + 1, by omega, h⟩
      · rintro ⟨k, hk, h⟩
        cases k with
        | zero => exact absurd h hpos
        | succ k => exact ⟨k, by omega, h⟩

theorem nextZoneCleared_lt (offset : Nat) : nextZoneCleared e f offset < 2 ^ 32 := by
  rw [nextZoneCleared]
  split
  · exact Nat.two_pow_pos 32
  · exact File.word_lt

theorem load_returns_iff {fh : FileHead} {endTime : Nat} (hfirst : fh.firstIndexZone < 2 ^ 32) :
    (∃ w, WriteStream.load e f fh endTime = some w) ↔
      Orbit.NoReturn (nextZoneCleared e f) fh.firstIndexZone 0 := by
  have hwalk := @walk_returns_iff e f fh.firstIndexZone (2 ^ 32 + 1)
    ⟨fh.firstIndexZone, ⟨0, 0, 0, 0, 0, 0, 0, 0, 0⟩, 0, 0⟩
  have hload : (∃ w, WriteStream.load e f fh endTime = some w) ↔
      ∃ k < 2 ^ 32 + 1, (nextZoneCleared e f)^[k] fh.firstIndexZone = 0 := by
    rw [← hwalk, WriteStream.load]
    simp only [Option.map_eq_some_iff]
    constructor
    · rintro ⟨w, w', hw', -⟩
      exact ⟨w', hw'⟩
    · rintro ⟨w', hw'⟩
      exact ⟨_, w', hw', rfl⟩
  rw [hload]
  constructor
  · rintro ⟨k, -, hk⟩
    exact Orbit.noReturn_of_reaches (if_pos rfl) hk
  · intro h
    obtain ⟨k, hk, hzero⟩ := Orbit.reaches_within (iterate_lt hfirst nextZoneCleared_lt) h
    exact ⟨k, by omega, hzero⟩

variable (e f) in
/-- The file and the offset at which the constructor begins its walk, unless it gives the
file up. -/
def walked (startTime endTime : Nat) : Option (File × Nat) :=
  let f := f.truncate (1024 * 1024)
  let fh := readFileHead e f
  if fh.startMagic = 0 then
    some (writeFileHead e f ⟨MAGIC_F_START, startTime, endTime, fileHeadSize, 0, MAGIC_F_END⟩, fileHeadSize)
  else if fh.startMagic ≠ MAGIC_F_START then none
  else some (f, fh.firstIndexZone)

theorem open_returns_iff (s t : Nat) :
    (∃ w, WriteStream.open e f s t = some w) ↔
      ∀ p ∈ walked e f s t, Orbit.NoReturn (nextZoneCleared e p.1) p.2 0 := by
  rw [WriteStream.open, walked]
  split
  · rw [load_returns_iff (show fileHeadSize < 2 ^ 32 by decide)]
    simp
  · split
    · simp
    · rw [load_returns_iff File.word_lt]
      simp

-- ---------------------------------------------------------------------------
-- The search for the next word of the format
-- ---------------------------------------------------------------------------

variable (e f) in
/-- What `data` is when `k` more words were read behind the first one. -/
def dataAt (off : Nat) : Nat → Nat
  | 0 => readWord e f off 0
  | k + 1 => readWord e f (off + 4 * (k + 1)) (dataAt off k)

variable (e f) in
def zerosAt (off : Nat) : Nat → Nat
  | 0 => 0
  | k + 1 => zerosAt off k + if dataAt e f off (k + 1) = 0 then 1 else 0

/-- The number of words of the file from `off` on, the last one cut off maybe. -/
def wordsFrom (f : File) (off : Nat) : Nat := (f.size - off + 3) / 4

variable (e f) in
/-- One of the words is one of the format, or more than 200 are zero, or the last one is. -/
def Stops (off : Nat) : Prop :=
  (∃ k ≤ wordsFrom f off, isMagic (dataAt e f off k) = true) ∨ 200 < zerosAt e f off (wordsFrom f off) ∨
    dataAt e f off (wordsFrom f off) = 0

variable {off k : Nat}

theorem readWord_end {old : Nat} (h : f.size ≤ pos) (hold : old < 2 ^ 32) : readWord e f pos old = old := by
  rw [readWord_eq, readInto_end h, e.decode_encode_four hold]

theorem dataAt_lt : dataAt e f off k < 2 ^ 32 := by
  cases k <;> exact readWord_lt _

theorem dataAt_end (h : wordsFrom f off ≤ k) : dataAt e f off k = dataAt e f off (wordsFrom f off) := by
  obtain ⟨d, rfl⟩ := Nat.exists_eq_add_of_le h
  clear h
  induction d with
  | zero => rfl
  | succ d ih =>
    have hend : f.size ≤ off + 4 * (wordsFrom f off + d + 1) := by rw [wordsFrom]; omega
    rw [← Nat.add_assoc, dataAt, readWord_end hend dataAt_lt, ih]

theorem zerosAt_mono {k' : Nat} (h : k ≤ k') : zerosAt e f off k ≤ zerosAt e f off k' := by
  obtain ⟨d, rfl⟩ := Nat.exists_eq_add_of_le h
  clear h
  induction d with
  | zero => exact Nat.le_refl _
  | succ d ih => exact ih.trans (Nat.le_add_right ..)

/-- A last word that is zero is counted again and again, another one is not. -/
theorem zerosAt_end (d : Nat) : zerosAt e f off (wordsFrom f off + d) =
    zerosAt e f off (wordsFrom f off) + if dataAt e f off (wordsFrom f off) = 0 then d else 0 := by
  induction d with
  | zero => simp
  | succ d ih =>
    have hdata : dataAt e f off (wordsFrom f off + d + 1) = dataAt e f off (wordsFrom f off) := dataAt_end (by omega)
    rw [← Nat.add_assoc, zerosAt, ih, hdata]
    split <;> omega

theorem Stops.within (h : Stops e f off) :
    ∃ k ≤ wordsFrom f off + 201, isMagic (dataAt e f off k) = true ∨ 200 < zerosAt e f off k := by
  rcases h with ⟨k, hk, hmagic⟩ | hzeros | hlast
  · exact ⟨k, by omega, .inl hmagic⟩
  · exact ⟨wordsFrom f off, by omega, .inr hzeros⟩
  · refine ⟨wordsFrom f off + 201, Nat.le_refl _, .inr ?_⟩
    rw [zerosAt_end, if_pos hlast]
    omega

theorem stops_of (h : isMagic (dataAt e f off k) = true ∨ 200 < zerosAt e f off k) : Stops e f off := by
  by_cases hk : k ≤ wordsFrom f off
  · rcases h with hmagic | hzeros
    · exact .inl ⟨k, hk, hmagic⟩
    · exact .inr (.inl (Nat.lt_of_lt_of_le hzeros (zerosAt_mono hk)))
  · rcases h with hmagic | hzeros
    · rw [dataAt_end (by omega)] at hmagic
      exact .inl ⟨_, Nat.le_refl _, hmagic⟩
    · obtain ⟨d, rfl⟩ := Nat.exists_eq_add_of_le (Nat.le_of_not_le hk)
      rw [zerosAt_end] at hzeros
      split at hzeros
      · next hlast => exact .inr (.inr hlast)
      · exact .inr (.inl (by omega))

/-- The file is read at `pos` as it is at `p`: the offsets are the same, or nothing is left. -/
def SamePos (f : File) (pos p : Nat) : Prop := pos = p ∨ f.size ≤ pos ∧ f.size ≤ p

theorem SamePos.readWord {p old : Nat} (h : SamePos f pos p) (hold : old < 2 ^ 32) :
    readWord e f pos old = Slog.readWord e f p old := by
  rcases h with rfl | ⟨hpos, hp⟩
  · rfl
  · rw [readWord_end hpos hold, readWord_end hp hold]

theorem SamePos.next {p : Nat} (h : SamePos f pos p) : SamePos f (pos + (f.read pos 4).length) (p + 4) := by
  have hlen : (f.read pos 4).length = min 4 (f.size - pos) := by rw [File.read, File.length_peek]
  rw [hlen, SamePos]
  rcases h with rfl | ⟨hpos, hp⟩
  · omega
  · omega

/-- A turn tests the word it has and then counts the next one. -/
theorem scan_returns_iff {turns cur : Nat} (hpos : SamePos f pos (off + 4 * (k + 1)))
    (hzeros : zerosAt e f off k ≤ 200) :
    (∃ r, scan e f turns pos (dataAt e f off k) (zerosAt e f off k) cur = some r) ↔
      ∃ i < turns, isMagic (dataAt e f off (k + i)) = true ∨ 200 < zerosAt e f off (k + i + 1) := by
  induction turns generalizing k pos cur with
  | zero => exact iff_of_false nofun nofun
  | succ turns ih =>
    rw [scan]
    by_cases hmagic : isMagic (dataAt e f off k) = true
    · rw [if_pos hmagic]
      exact iff_of_true ⟨_, rfl⟩ ⟨0, Nat.zero_lt_succ _, .inl hmagic⟩
    · have hnext : readWord e f pos (dataAt e f off k) = dataAt e f off (k + 1) := hpos.readWord dataAt_lt
      rw [if_neg hmagic]
      simp only [hnext]
      by_cases hmany : 200 < zerosAt e f off (k + 1)
      · -- the count has just gone beyond its limit
        have hzero : dataAt e f off (k + 1) = 0 := by
          rw [zerosAt] at hmany
          split at hmany
          · assumption
          · omega
        rw [zerosAt, if_pos hzero] at hmany
        rw [if_pos hzero, if_pos hmany]
        refine iff_of_true ⟨_, rfl⟩ ⟨0, Nat.zero_lt_succ _, .inr ?_⟩
        rw [Nat.add_zero, zerosAt, if_pos hzero]
        exact hmany
      · have hgo : (∃ r, (if dataAt e f off (k + 1) = 0 then
              if zerosAt e f off k + 1 > 200 then some (0, cur)
              else scan e f turns (pos + (f.read pos 4).length) (dataAt e f off (k + 1)) (zerosAt e f off k + 1)
                ((cur + 4) % 2 ^ 32)
            else scan e f turns (pos + (f.read pos 4).length) (dataAt e f off (k + 1)) (zerosAt e f off k)
              ((cur + 4) % 2 ^ 32)) = some r) ↔
            ∃ r, scan e f turns (pos + (f.read pos 4).length) (dataAt e f off (k + 1)) (zerosAt e f off (k + 1))
              ((cur + 4) % 2 ^ 32) = some r := by
          rw [zerosAt] at hmany ⊢
          split
          · next hzero =>
            rw [if_pos hzero] at hmany
            rw [if_neg hmany]
          · rfl
        rw [hgo, ih hpos.next (by omega)]
        constructor
        · rintro ⟨i, hi, h⟩
          refine ⟨i + 1, by omega, ?_⟩
          rwa [← Nat.add_assoc, Nat.add_right_comm k i 1]
        · rintro ⟨i, hi, h⟩
          cases i with
          | zero => exact absurd h (not_or.mpr ⟨hmagic, hmany⟩)
          | succ i =>
            refine ⟨i, by omega, ?_⟩
            rwa [← Nat.add_assoc, Nat.add_right_comm k i 1] at h

variable (e f) in
/-- The loop of `data_head_invalid` at the aligned offset, for at most `turns` turns. -/
def resync (turns off : Nat) : Option (Nat × Nat) :=
  scan e f turns (off + (f.read off 4).length) (readWord e f off 0) 0 ((off + 4) % 2 ^ 32)

theorem resync_returns_iff : (∃ turns r, resync e f turns off = some r) ↔ Stops e f off := by
  have hpos : SamePos f (off + (f.read off 4).length) (off + 4 * (0 + 1)) := SamePos.next (.inl rfl)
  constructor
  · rintro ⟨turns, h⟩
    obtain ⟨i, -, hmagic | hzeros⟩ := (scan_returns_iff (k := 0) hpos (Nat.zero_le _)).mp h
    · exact stops_of (.inl hmagic)
    · exact stops_of (.inr hzeros)
  · intro h
    obtain ⟨k, -, hk⟩ := h.within
    refine ⟨k + 1, (scan_returns_iff (k := 0) hpos (Nat.zero_le _)).mpr ⟨k, Nat.lt_succ_self k, ?_⟩⟩
    rw [Nat.zero_add]
    exact hk.imp_right fun hzeros => Nat.lt_of_lt_of_le hzeros (zerosAt_mono (Nat.le_succ k))

/-- The bound of `data_head_invalid` is none: a loop that ends is over by then. -/
theorem resync_bound (h : Stops e f off) : ∃ r, resync e f (f.size + 300) off = some r := by
  have hpos : SamePos f (off + (f.read off 4).length) (off + 4 * (0 + 1)) := SamePos.next (.inl rfl)
  obtain ⟨k, hk, hend⟩ := h.within
  have hwords : wordsFrom f off ≤ f.size + 1 := by rw [wordsFrom]; omega
  have hbound : k < f.size + 300 := by omega
  refine (scan_returns_iff (k := 0) hpos (Nat.zero_le _)).mpr ⟨k, hbound, ?_⟩
  rw [Nat.zero_add]
  exact hend.imp_right fun hzeros => Nat.lt_of_lt_of_le hzeros (zerosAt_mono (Nat.le_succ k))

theorem dataHeadInvalid_returns_iff :
    (∃ r, dataHeadInvalid e f off = some r) ↔ Stops e f (off - off % 4) := by
  have hmap : (∃ r, dataHeadInvalid e f off = some r) ↔ ∃ r, resync e f (f.size + 300) (off - off % 4) = some r := by
    simp only [dataHeadInvalid, resync, Option.map_eq_some_iff]
    constructor
    · rintro ⟨r, r', hr', -⟩
      exact ⟨r', hr'⟩
    · rintro ⟨r', hr'⟩
      exact ⟨_, r', hr', rfl⟩
  rw [hmap]
  constructor
  · rintro ⟨r, h⟩
    exact resync_returns_iff.mp ⟨_, r, h⟩
  · exact resync_bound

theorem readNext_returns_iff : (∃ r, readNext e f off = some r) ↔
    readWord e f off 0 = MAGIC_D_START ∨ readWord e f off 0 = MAGIC_I_START ∨ Stops e f (off - off % 4) := by
  rw [← dataHeadInvalid_returns_iff]
  simp only [readNext]
  by_cases hdata : readWord e f off 0 = MAGIC_D_START
  · rw [if_pos hdata]
    exact iff_of_true ⟨_, rfl⟩ (.inl hdata)
  · by_cases hindex : readWord e f off 0 = MAGIC_I_START
    · rw [if_neg hdata, if_pos hindex]
      exact iff_of_true ⟨_, rfl⟩ (.inr (.inl hindex))
    · rw [if_neg hdata, if_neg hindex, or_iff_right hdata, or_iff_right hindex]
      simp only [Option.map_eq_some_iff]
      constructor
      · rintro ⟨r, r', hr', -⟩
        exact ⟨r', hr'⟩
      · rintro ⟨r', hr'⟩
        exact ⟨_, r', hr', rfl⟩

-- ---------------------------------------------------------------------------
-- All calls
-- ---------------------------------------------------------------------------

/-- Every call returns, whatever the variables hold that no value was given to; and at
the end of the file a read leaves its target alone. -/
structure Returns (e : Endian) (f : File) (off : Nat) : Prop where
  next : ∃ r, readNext e f off = some r
  indexesByAll : ∀ g, ∃ turns r, readIndexesByAll e f turns g = some r
  indexesByZone : ∀ g, ∀ zoneId < 2 ^ 16, ∃ turns r, readIndexesByZone e f turns g zoneId = some r
  indexNum : ∀ g, ∃ turns r, getIndexNum e f turns g = some r
  itemNum : ∀ g, ∃ turns r, getItemNum e f turns g = some r
  indexZoneNum : ∀ g, ∃ turns r, getIndexZoneNum e f turns g = some r
  logTimestamp : ∀ g, ∃ turns r, getLogTimestamp e f turns g = some r
  logSize : ∀ g, ∃ turns r, getLogSize e f turns g = some r
  opened : ∀ startTime endTime, ∃ w, WriteStream.open e f startTime endTime = some w
  eof : ∀ pos b, f.size ≤ pos → f.read pos b.length = [] ∧ readInto f pos b = b

variable (e f) in
/-- The chain of a reader comes to no zone twice, whatever its variable held. -/
def Acyclic : Prop := ∀ old < 2 ^ 32, Orbit.NoReturn (nextZone e f) (secondZone e f old) 0

theorem Garbage.next_lt (g : Garbage) : wordOf e g.izh 3 < 2 ^ 32 := by
  have hlen : ((g.izh.drop 12).take 4).length = 4 := by
    rw [List.length_take, List.length_drop, g.izh_length]
    decide
  have hlt := e.decode_lt ((g.izh.drop 12).take 4)
  rwa [hlen] at hlt

theorem exists_garbage {old : Nat} (hold : old < 2 ^ 32) : ∃ g : Garbage, wordOf e g.izh 3 = old := by
  refine ⟨⟨List.replicate 12 0 ++ (e.encode 4 old ++ List.replicate 20 0), List.replicate 8 0, 0, ?_, rfl⟩, ?_⟩
  · simp
  · rw [wordOf, List.drop_left' (by simp), List.take_left' (by simp), e.decode_encode_four hold]

/-- A reader that only differs from the others in what it does with a zone. -/
theorem reader_returns {α β : Type} (visit : Nat → List Byte → α → α) (a : Garbage → α)
    (result : Garbage → α × List Byte → β) (h : Acyclic e f) (g : Garbage) :
    ∃ turns r, (eachZone e f visit turns (first e f) g.izh (a g)).map (result g) = some r := by
  have hreturns := @eachZone_first_iff e f α visit (a g) g.izh g.izh_length
  obtain ⟨turns, r, hr⟩ := hreturns.mpr (h _ g.next_lt)
  exact ⟨turns, result g r, by rw [hr]; rfl⟩

/-- For every file and every offset: all calls return if and only if the word at the
offset is that of a record or a zone or the search comes to its end, and neither the
readers nor the constructor of the writer come to a zone twice. -/
theorem returns_iff (e : Endian) (f : File) (off : Nat) : Returns e f off ↔
    (readWord e f off 0 = MAGIC_D_START ∨ readWord e f off 0 = MAGIC_I_START ∨ Stops e f (off - off % 4)) ∧
      Acyclic e f ∧ ∀ s t, ∀ p ∈ walked e f s t, Orbit.NoReturn (nextZoneCleared e p.1) p.2 0 := by
  constructor
  · intro h
    refine ⟨readNext_returns_iff.mp h.next, fun old hold => ?_, fun s t => (open_returns_iff s t).mp (h.opened s t)⟩
    obtain ⟨g, rfl⟩ := exists_garbage (e := e) hold
    obtain ⟨turns, r, hr⟩ := h.logSize g
    obtain ⟨r', hr', -⟩ := Option.map_eq_some_iff.mp hr
    exact (eachZone_first_iff g.izh_length).mp ⟨turns, r', hr'⟩
  · rintro ⟨hnext, hacyclic, hopen⟩
    exact {
      next := readNext_returns_iff.mpr hnext
      indexesByAll := reader_returns _ (fun g => ([], g.i)) (fun _ r => r.1.1) hacyclic
      indexesByZone := fun g zoneId hid =>
        findZone_returns g hid (Nat.eq_zero_or_pos zoneId).symm
      indexNum := reader_returns _ (fun _ => 0) (fun _ => Prod.fst) hacyclic
      itemNum := reader_returns _ (fun _ => 0) (fun _ => Prod.fst) hacyclic
      indexZoneNum := reader_returns _ (fun _ => 0) (fun _ => Prod.fst) hacyclic
      logTimestamp := reader_returns _ Garbage.offsetB _ hacyclic
      logSize := reader_returns _ (fun _ => ()) (fun _ r => (zoneHeadOf e r.2).dataOffset) hacyclic
      opened := fun s t => (open_returns_iff s t).mpr (hopen s t)
      eof := fun pos b hpos =>
        ⟨List.eq_nil_of_length_eq_zero (by rw [File.read, File.length_peek]; omega), readInto_end hpos⟩ }

/-- A file that ends in a word that is not zero, and one whose zone is its own successor. -/
theorem tail_and_cycle :
    ¬ Returns .little (File.empty.write 0 [1, 0, 0, 0]) 0 ∧
    ¬ Returns .little ((File.empty.write 0 (File.ofWords .little [MAGIC_F_START, 0, 0, 24, 0, MAGIC_F_END])).write 24
      (File.ofWords .little [MAGIC_I_START, 0, 0, 24, 200, 0, 0, 0, MAGIC_I_END])) 24 := by
  constructor
  · intro h
    rcases ((returns_iff _ _ _).mp h).1 with hdata | hindex | ⟨k, hk, hmagic⟩ | hzeros | hlast
    · exact absurd hdata (by decide)
    · exact absurd hindex (by decide)
    · have hwords : k ≤ 1 := hk
      rcases Nat.le_one_iff_eq_zero_or_eq_one.mp hwords with rfl | rfl
      · exact absurd hmagic (by decide)
      · exact absurd hmagic (by decide)
    · exact absurd hzeros (by decide)
    · exact absurd hlast (by decide)
  · intro h
    have hzero := ((returns_iff _ _ _).mp h).2.1 0 (by decide) 0 1 (by decide) (by decide)
    exact absurd hzero (by decide)

end GalaLua.Slog
