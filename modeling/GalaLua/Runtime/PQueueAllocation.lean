import GalaLua.Runtime.PQueue

/-!
# Which cells a shared-memory queue finds

`_Pages` counts the pages of 1024 cells that are full of cells, the byte of a
page is set by the cell at its end and cleared by any of its cells. So what
`__trunk_malloc` finds is complete for two shapes of memory only: the list head
alone, and the list head with one page (`complete_iff`).
-/

namespace GalaLua.Runtime.PQueue

open Library

variable {size : BitVec 64} {mem : Memory} {q q' : PQueue} {i k len pg : Nat} {buf out : List Byte}

/-- The states of a queue that was laid over `mem`. -/
inductive Reached (size : BitVec 64) (mem : Memory) : PQueue → Prop
  | new : Reached size mem (new size mem)
  | put {q q' : PQueue} {buf : List Byte} : Reached size mem q → q.put buf = .done q' → Reached size mem q'
  | get {q q' : PQueue} {len : Nat} {out : List Byte} :
      Reached size mem q → q.get len = .done (out, q') → Reached size mem q'

/-- `__trunk_malloc` fails only when all cells are in use, and otherwise returns
a cell of the memory that is not. -/
def Complete (q : PQueue) : Prop :=
  ∃ i q', q.trunkMalloc = some (i, q') ∧ (i = 0 → ∀ k, 1 ≤ k → q.Fits k → q.Used k) ∧
    (i ≠ 0 → ¬q.Used i ∧ q.Fits i)

/-- The cells that fit in the memory, the list head among them. -/
def cellsIn (size : BitVec 64) : Nat := (size.toNat - trunkAt) / unitSize

theorem fits_iff (hs : q.size = size) : q.Fits k ↔ k < cellsIn size := by
  simp only [Fits, cellsIn, cellAt, trunkAt, unitSize, hs]
  omega

theorem Reached.shape (h : Reached size mem q) : q.size = size ∧ q.pages = pagesOf size := by
  induction h with
  | new => exact ⟨rfl, rfl⟩
  | put _ hput ih =>
    obtain ⟨pg, i, -, -, hfill⟩ := put_done hput
    rw [fill_eq hfill]
    simpa [filled] using ih
  | get _ hget ih =>
    obtain ⟨-, htake⟩ := get_done hget
    obtain ⟨-, -, -, -, -, rfl⟩ := takeOut_eq_some.mp htake
    simpa [freed] using ih

-- ---------------------------------------------------------------------------
-- One page
-- ---------------------------------------------------------------------------

/-- The byte of the only page is set only while all its cells are in use. -/
structure OnePage (size : BitVec 64) (q : PQueue) : Prop where
  size_eq : q.size = size
  pages : q.pages = 1
  closed : q.mem bitMapAt ≠ 0 → ∀ k, 1 ≤ k → k ≤ cellPageSize → q.Used k

theorem FoundOn.first (h : q.FoundOn pg i) (hp : q.pages = 1) : pg = 0 := by
  have hpage := h.page
  rcases Nat.lt_or_ge 1 pg with hlt | hle
  · exact absurd (by rw [hp]; rfl) (h.passed 1 hlt).2
  · rw [hp] at hpage
    omega

theorem OnePage.put (h : OnePage size q) (hput : q.put buf = .done q') : OnePage size q' := by
  obtain ⟨pg, i, hpos, hfound, hfill⟩ := put_done hput
  obtain rfl := hfound.first h.pages
  have hle := hfound.le
  have hlt := hfound.lt
  rw [fill_eq hfill]
  refine ⟨by simp [filled, h.size_eq], by simp [filled, h.pages], fun hbyte k hk hk' => ?_⟩
  have hmap : ((q.entered.taken i).filled i buf).mem bitMapAt =
      (q.entered.taken i).mem bitMapAt := by
    refine filled_mem ?_ ?_
    · simp only [idAt, cellAt, trunkAt, bitMapAt]
      omega
    · simp only [nextAt, cellAt, trunkAt, bitMapAt]
      omega
  -- only the last cell of the page sets the byte
  have hlast : i = cellPageSize := by
    by_contra hne
    refine hbyte ?_
    rw [hmap, taken_mem]
    · exact hfound.open_
    · simp only [cellAt, trunkAt, bitMapAt]
      omega
    · intro _
      simp only [cellPageSize] at hle hlt hne ⊢
      omega
  have hflag : ((q.entered.taken i).filled i buf).mem (cellAt k) =
      (q.entered.taken i).mem (cellAt k) := by
    refine filled_mem ?_ ?_
    · simp only [idAt, cellAt, trunkAt, unitSize]
      omega
    · simp only [nextAt, cellAt, trunkAt, unitSize]
      omega
  rw [Used, hflag]
  rcases Nat.lt_or_ge k i with hki | hki
  · rw [taken_mem]
    · exact hfound.used k (by omega) hki
    · simp only [cellAt, trunkAt, unitSize]
      omega
    · simp only [cellAt, trunkAt, unitSize, bitMapAt, cellPageSize] at hlt ⊢
      omega
  · have hik : k = i := by omega
    rw [hik, taken_used]
    decide

theorem OnePage.get (h : OnePage size q) (hs : size.toNat < 165332) (hget : q.get len = .done (out, q')) :
    OnePage size q' := by
  obtain ⟨-, htake⟩ := get_done hget
  obtain ⟨hlen, -, -, hmap, -, rfl⟩ := takeOut_eq_some.mp htake
  refine ⟨by simp [freed, h.size_eq], by simp [freed, h.pages], fun hbyte k hk hk' => ?_⟩
  have hsize : q.entered.unlinked.size.toNat = size.toNat := by
    rw [unlinked_size, entered_size, h.size_eq]
  rw [hsize] at hlen hmap
  have hfront : q.front ≤ 1025 := by
    simp only [lenAt, cellAt, trunkAt, unitSize] at hlen
    omega
  have hpos : 0 < q.front := by
    by_contra h0
    have h0' : q.front = 0 := by omega
    rw [h0', mapByteOf, if_pos rfl, minusOne, bitMapAt, cellPageSize] at hmap
    omega
  have hidx : mapByteOf q.front = bitMapAt + (q.front - 1) / cellPageSize := mapByteOf_eq hpos
  -- a cell of the page clears the byte; one behind it leaves the page alone
  have hlast : q.front = 1025 := by
    by_contra hne
    have h0 : (q.front - 1) / cellPageSize = 0 := by
      simp only [cellPageSize]
      omega
    refine hbyte ?_
    rw [freed, store_mem, Memory.write_of_not_mem, store_mem, hidx, h0]
    · exact Memory.write_singleton
    · simp only [cellAt, trunkAt, bitMapAt]
      omega
  have hother (x : Nat) (hx : x = bitMapAt ∨ ∃ k ≤ 1024, x = cellAt k) :
      (q.entered.unlinked.freed q.front).mem x = q.mem x := by
    refine (freed_mem ?_ ?_).trans (unlinked_mem ?_)
    · rw [hidx, hlast]
      simp only [cellAt, trunkAt, unitSize, bitMapAt, cellPageSize] at hx ⊢
      omega
    · rw [hlast]
      simp only [cellAt, trunkAt, unitSize, bitMapAt] at hx ⊢
      omega
    · simp only [nextAt, cellAt, trunkAt, unitSize, bitMapAt] at hx ⊢
      omega
  rw [hother _ (.inl rfl)] at hbyte
  rw [Used, hother _ (.inr ⟨k, hk', rfl⟩)]
  exact h.closed hbyte k hk hk'

theorem OnePage.complete (h : OnePage size q) (hlo : 165176 ≤ size.toNat) (hhi : size.toNat < 165332) :
    q.Complete := by
  have hsize : q.size.toNat = size.toNat := congrArg BitVec.toNat h.size_eq
  have hbyte (k : Nat) (hk : k ≤ 1) : q.fetchByte (bitMapAt + k) = some (q.mem (bitMapAt + k)) := by
    refine fetchByte_eq_some.mpr ⟨?_, rfl⟩
    rw [bitMapAt]
    omega
  have hfits (k : Nat) : q.Fits k ↔ k ≤ cellPageSize := by
    simp only [Fits, cellAt, trunkAt, unitSize, cellPageSize]
    omega
  by_cases hopen : q.mem bitMapAt = 0
  · have hpg : q.findPage shorts 0 = some 0 :=
      findPage_of_zero (fetchByte_eq_some.mp (hbyte 0 (Nat.zero_le 1))).1 hopen
    obtain ⟨i, q', hm⟩ := trunkMalloc_isSome hpg fun _ k hk hk' => by
      simp only [cellPageSize, cellAt, trunkAt, unitSize] at hk' ⊢
      omega
    refine ⟨i, q', hm, ?_⟩
    rcases trunkMalloc_spec hm with ⟨rfl, -, pg, hpassed, hpage⟩ | ⟨hpos, -, pg, hfound⟩
    · obtain rfl : pg = 0 := by
        by_contra hne
        exact (hpassed 0 (by omega)).1 hopen
      rcases hpage with hend | hall
      · rw [h.pages] at hend
        omega
      · refine ⟨fun _ k hk hfit => hall k (by omega) ?_, fun hne => absurd rfl hne⟩
        have hk' := (hfits k).mp hfit
        omega
    · obtain rfl := hfound.first h.pages
      have hlt := hfound.lt
      exact ⟨fun h0 => by omega, fun _ => ⟨hfound.unused, (hfits i).mpr (by omega)⟩⟩
  · refine ⟨0, q, ?_, fun _ k hk hfit => h.closed hopen k hk ((hfits k).mp hfit), fun hne => absurd rfl hne⟩
    have hin (k : Nat) (hk : k ≤ 1) := (fetchByte_eq_some.mp (hbyte k hk)).1
    have hpg : q.findPage shorts 0 = some 1 :=
      (findPage_of_full (hin 0 (Nat.zero_le 1)) hopen (by rw [h.pages]; decide)).trans
        (findPage_of_end (hin 1 (Nat.le_refl 1)) (by rw [h.pages]; rfl))
    simp only [trunkMalloc, hpg, hbyte 1 (Nat.le_refl 1), Option.bind_eq_bind, Option.bind_some]
    exact if_pos (.inl (by rw [h.pages]; rfl))

-- ---------------------------------------------------------------------------
-- Empty messages, one after the other
-- ---------------------------------------------------------------------------

theorem FoundOn.first_of_open (h : q.FoundOn pg i) (hopen : q.mem bitMapAt = 0) : pg = 0 := by
  by_contra hne
  exact (h.passed 0 (by omega)).1 hopen

/-- The state after an empty message went to cell `i`. -/
def putEmpty (q : PQueue) (i : Nat) : PQueue := (q.entered.taken i).filled i []

/-- The empty message goes to the first cell that is not in use. -/
theorem put_first (hopen : q.mem bitMapAt = 0) (hpages : q.pages ≠ 0) (hsize : cellAt 1026 ≤ q.size.toNat)
    (hlast : q.last ≤ 1025) (hi : 1 ≤ i) (hi' : i ≤ cellPageSize) (hfree : ¬q.Used i)
    (hused : ∀ k, 1 ≤ k → k < i → q.Used k) : q.put [] = .done (q.putEmpty i) := by
  simp only [cellAt, trunkAt, unitSize] at hsize
  have hpg : q.entered.findPage shorts 0 = some 0 := by
    refine findPage_of_zero ?_ hopen
    rw [bitMapAt, entered_size]
    omega
  obtain ⟨r, s, hm⟩ := trunkMalloc_isSome hpg fun _ k hk hk' => by
    simp only [cellPageSize, cellAt, trunkAt, unitSize, entered_size] at hk' ⊢
    omega
  rcases trunkMalloc_spec hm with ⟨rfl, -, pg, hpassed, hpage⟩ | ⟨hpos, rfl, pg, hfound⟩
  · obtain rfl : pg = 0 := by
      by_contra hne
      exact (hpassed 0 (by omega)).1 hopen
    rcases hpage with hend | hall
    · exact absurd hend.symm hpages
    · exact absurd (hall i (by omega) (by omega)) hfree
  · obtain rfl := hfound.first_of_open hopen
    have hle := hfound.le
    have hri : r = i := by
      rcases Nat.lt_trichotomy r i with hlt | heq | hgt
      · exact absurd (hused r (by omega) hlt) hfound.unused
      · exact heq
      · exact absurd (hfound.used i (by omega) hgt) hfree
    subst hri
    rw [cellPageSize] at hi'
    refine put_of_malloc hpos hm (fill_of_fits ?_ ?_ ?_)
    · simp only [Fits, cellAt, trunkAt, unitSize, taken_size, entered_size]
      omega
    · simp only [Fits, cellAt, trunkAt, unitSize, taken_size, taken_last, entered_size, entered_last]
      omega
    · simp only [msgAt, cellAt, trunkAt, unitSize, taken_size, entered_size, List.length_nil]
      omega

theorem putEmpty_used (hi : 1 ≤ i) (hi' : i ≤ cellPageSize) : (q.putEmpty i).Used k ↔ k = i ∨ q.Used k := by
  have hflag : (q.putEmpty i).mem (cellAt k) = (q.entered.taken i).mem (cellAt k) := by
    refine filled_mem ?_ ?_
    · simp only [idAt, msgAt, cellAt, trunkAt, unitSize, msgSize, List.length_nil]
      omega
    · simp only [nextAt, cellAt, trunkAt, unitSize]
      omega
  rw [Used, hflag]
  rcases Decidable.eq_or_ne k i with rfl | hne
  · rw [taken_used]
    exact iff_of_true (by decide) (.inl rfl)
  · rw [taken_mem]
    · simp [hne, Used]
    · simp only [cellAt, trunkAt, unitSize]
      omega
    · simp only [cellAt, trunkAt, unitSize, bitMapAt, cellPageSize] at hi' ⊢
      omega

theorem putEmpty_open (hi : 1 ≤ i) (hi' : i < cellPageSize) : (q.putEmpty i).mem bitMapAt = q.mem bitMapAt := by
  rw [putEmpty, filled_mem, taken_mem]
  · rfl
  · simp only [cellAt, trunkAt, bitMapAt]
    omega
  · intro _
    rw [Nat.mod_eq_of_lt hi']
    omega
  · simp only [idAt, cellAt, trunkAt, bitMapAt]
    omega
  · simp only [nextAt, cellAt, trunkAt, bitMapAt]
    omega

theorem putEmpty_front_of_empty (hi : i ≤ cellPageSize) (hlast : q.last = 0) : (q.putEmpty i).front = i := by
  have hlt : i < 256 ^ 8 := by
    rw [cellPageSize] at hi
    omega
  simp only [putEmpty, front, filled, store_mem, store_last, taken_last, entered_last, hlast]
  exact Memory.load_write_lowBytes hlt

theorem putEmpty_front (hi : 1 ≤ i) (hi' : i ≤ cellPageSize) (hlast : q.last ≠ 0) :
    (q.putEmpty i).front = q.front := by
  refine Memory.load_congr fun k hk => ?_
  rw [putEmpty, filled_mem, taken_mem]
  · rfl
  · simp only [nextAt, cellAt, trunkAt, unitSize]
    omega
  · simp only [nextAt, cellAt, trunkAt, unitSize, bitMapAt, cellPageSize] at hi' ⊢
    omega
  · simp only [idAt, nextAt, cellAt, trunkAt, unitSize]
    omega
  · simp only [nextAt, cellAt, trunkAt, unitSize, taken_last, entered_last]
    omega

/-- The cells up to `n` are in use. -/
structure Filled (n : Nat) (q : PQueue) : Prop where
  last : q.last = n
  used : ∀ k, 1 ≤ k → k ≤ 1025 → (q.Used k ↔ k ≤ n)
  opened : n < cellPageSize → q.mem bitMapAt = 0
  front : 1 ≤ n → q.front = 1

theorem exists_filled (hsize : cellAt 1026 ≤ size.toNat) (hpages : pagesOf size ≠ 0) {n : Nat}
    (hn : n ≤ cellPageSize) : ∃ q, Reached size (fun _ => 0) q ∧ Filled n q := by
  induction n with
  | zero =>
    refine ⟨_, .new, rfl, fun k hk _ => ?_, fun _ => new_mem _, nofun⟩
    refine iff_of_false (not_not.mpr (new_mem _)) (by omega)
  | succ n ih =>
    obtain ⟨q, hq, h⟩ := ih (by omega)
    obtain ⟨hqs, hqp⟩ := hq.shape
    have hpage : cellPageSize = 1024 := rfl
    have hfree : ¬q.Used (n + 1) := fun hu => by
      have hle := (h.used (n + 1) (by omega) (by omega)).mp hu
      omega
    have hput := put_first (h.opened (by omega)) (by rw [hqp]; exact hpages) (by rw [hqs]; exact hsize)
      (by rw [h.last]; omega) (by omega) hn hfree fun k hk hlt => (h.used k hk (by omega)).mpr (by omega)
    refine ⟨_, hq.put hput, rfl, fun k hk hk' => ?_, fun hlt => ?_, fun _ => ?_⟩
    · rw [putEmpty_used (by omega) hn, h.used k hk hk']
      omega
    · rw [putEmpty_open (by omega) hlt]
      exact h.opened (by omega)
    · rcases Nat.eq_zero_or_pos n with rfl | hpos
      · exact putEmpty_front_of_empty hn h.last
      · rw [putEmpty_front (by omega) hn (by rw [h.last]; omega)]
        exact h.front hpos

/-- A full page that is opened by one `Get` and filled again by one `Put`. -/
theorem exists_incomplete (hsize : cellAt 1026 ≤ size.toNat) (hpages : pagesOf size ≠ 0) :
    ∃ q, Reached size (fun _ => 0) q ∧ ¬q.Complete := by
  obtain ⟨q, hq, h⟩ := exists_filled hsize hpages (Nat.le_refl cellPageSize)
  obtain ⟨hqs, hqp⟩ := hq.shape
  have hpage : cellPageSize = 1024 := rfl
  have hfront : q.front = 1 := h.front (by omega)
  have hfits (k : Nat) (hk : k ≤ 1025) : q.entered.Fits k := by
    simp only [cellAt, trunkAt, unitSize] at hsize
    simp only [Fits, cellAt, trunkAt, unitSize, entered_size, hqs]
    omega
  -- the front message leaves the first cell
  have hget : q.get 0 = .done ([], q.entered.unlinked.freed 1) := by
    have hne : ¬q.last = 0 := by
      rw [h.last]
      omega
    have hunlink : q.entered.unlink 0 = some ([], q.entered.unlinked.freed 1) := by
      rw [unlink_of_fits (hfits 0 (by omega)) (by
        change q.entered.Fits q.front
        rw [hfront]
        exact hfits 1 (by omega))]
      change q.entered.unlinked.takeOut q.front 0 = _
      have hin : cellAt 1 + unitSize ≤ q.entered.unlinked.size.toNat := by
        rw [unlinked_size]
        exact hfits 1 (by omega)
      have hmap : bitMapAt + (1 - 1) / cellPageSize < cellAt 1 := by decide
      rw [hfront, takeOut_eq_some, Nat.min_zero, mapByteOf_eq Nat.one_pos]
      rw [unitSize] at hin
      refine ⟨?_, ?_, rfl, by omega, by omega, rfl⟩
      · rw [lenAt]
        omega
      · rw [msgAt]
        omega
    rw [get, if_neg hne, hunlink]
  have hq₁ := hq.get hget
  obtain ⟨hqs₁, hqp₁⟩ := hq₁.shape
  have hopen : (q.entered.unlinked.freed 1).mem bitMapAt = 0 := by
    rw [freed, store_mem, Memory.write_of_not_mem, store_mem, mapByteOf_eq Nat.one_pos]
    · exact Memory.write_singleton
    · simp only [cellAt, trunkAt, bitMapAt]
      omega
  have hused (k : Nat) (hk : 1 ≤ k) (hk' : k ≤ 1025) :
      (q.entered.unlinked.freed 1).Used k ↔ k ≠ 1 ∧ k ≤ cellPageSize := by
    rcases Decidable.eq_or_ne k 1 with rfl | hne
    · rw [Used, freed, store_mem, Memory.write_singleton]
      exact iff_of_false (not_not.mpr rfl) fun hc => hc.1 rfl
    · have hflag : (q.entered.unlinked.freed 1).mem (cellAt k) = q.mem (cellAt k) := by
        refine (freed_mem ?_ ?_).trans (unlinked_mem ?_)
        · rw [mapByteOf_eq Nat.one_pos]
          simp only [cellAt, trunkAt, unitSize, bitMapAt, cellPageSize]
          omega
        · simp only [cellAt, trunkAt, unitSize]
          omega
        · simp only [nextAt, cellAt, trunkAt, unitSize]
          omega
      rw [Used, hflag]
      exact (h.used k hk hk').trans (by simp [hne])
  have hlast : (q.entered.unlinked.freed 1).last ≤ 1025 := by
    rw [freed_last, unlinked_last, entered_last, h.last]
    split
    · omega
    · omega
  -- and the next message goes there
  have hput := put_first hopen (by rw [hqp₁]; exact hpages) (by rw [hqs₁]; exact hsize) hlast (Nat.le_refl 1) (by omega)
    (fun hu => ((hused 1 (Nat.le_refl 1) (by omega)).mp hu).1 rfl) fun k hk hlt => by omega
  refine ⟨_, hq₁.put hput, ?_⟩
  rintro ⟨i, q', hm, hfull, hcell⟩
  have hfree : ¬((q.entered.unlinked.freed 1).putEmpty 1).Used 1025 := by
    rw [putEmpty_used (Nat.le_refl 1) (by omega), hused 1025 (by omega) (Nat.le_refl 1025)]
    omega
  rcases trunkMalloc_spec hm with ⟨rfl, -⟩ | ⟨-, -, pg, hfound⟩
  · refine hfree (hfull rfl 1025 (by omega) ?_)
    simp only [cellAt, trunkAt, unitSize] at hsize
    simp only [Fits, cellAt, trunkAt, unitSize, (hq₁.put hput).shape.1]
    omega
  · have hlt := hfound.lt
    have hle := hfound.le
    obtain rfl := hfound.first_of_open ((putEmpty_open (Nat.le_refl 1) (by omega)).trans hopen)
    refine hfound.unused ((putEmpty_used (Nat.le_refl 1) (by omega)).mpr ?_)
    rw [hused i (by omega) (by omega)]
    omega

-- ---------------------------------------------------------------------------
-- Which memory has a complete allocation
-- ---------------------------------------------------------------------------

theorem pages_of_lt (h : size.toNat < headerSize) : pagesOf size = 26214 := by
  have hmod : (2 ^ 64 - headerSize + size.toNat) % 2 ^ 64 = 2 ^ 64 - headerSize + size.toNat := by
    rw [headerSize] at h ⊢
    omega
  have hcount : (countOf size).toNat = (2 ^ 64 - headerSize + size.toNat) / unitSize := by
    rw [count_toNat, hmod]
  have hpages : (2 ^ 64 - 1 + (countOf size).toNat) % 2 ^ 64 / cellPageSize = 112589990684262 := by
    simp only [headerSize, unitSize] at h hcount
    simp only [cellPageSize]
    omega
  rw [pages_eq hpages]
  rfl

/-- Over empty memory the first call of `__trunk_malloc` already tells. -/
theorem new_complete (h : (new size fun _ => 0).Complete) :
    (pagesOf size = 0 → cellsIn size ≤ 1) ∧ (pagesOf size ≠ 0 → 2 ≤ cellsIn size) := by
  obtain ⟨i, q', hm, hfull, hcell⟩ := h
  have hfree (k : Nat) : ¬(new size fun _ => 0).Used k := not_not.mpr (new_mem _)
  have hfits (k : Nat) : (new size fun _ => 0).Fits k ↔ k < cellsIn size := fits_iff rfl
  rcases trunkMalloc_spec hm with ⟨rfl, -, pg, hpassed, hpage⟩ | ⟨hpos, -, pg, hfound⟩
  · obtain rfl : pg = 0 := by
      by_contra hne
      exact (hpassed 0 (by omega)).1 (new_mem _)
    rcases hpage with hend | hall
    · refine ⟨fun _ => ?_, fun hne => absurd hend.symm hne⟩
      by_contra hlt
      exact hfree 1 (hfull rfl 1 (Nat.le_refl 1) ((hfits 1).mpr (by omega)))
    · exact absurd (hall 1 (Nat.le_refl 1) (by rw [cellPageSize]; omega)) (hfree 1)
  · obtain rfl := hfound.first_of_open (new_mem _)
    refine ⟨fun h0 => absurd h0.symm hfound.page, fun _ => ?_⟩
    have hlt := (hfits i).mp (hcell (by omega)).2
    omega

theorem complete_of_no_page (hsize : trunkAt ≤ q.size.toNat) (hpages : q.pages = 0)
    (hcells : ∀ k, 1 ≤ k → ¬q.Fits k) : q.Complete := by
  have hmap : bitMapAt + 0 < q.size.toNat := by
    rw [trunkAt] at hsize
    rw [bitMapAt]
    omega
  have hpg : q.findPage shorts 0 = some 0 := findPage_of_end hmap (by rw [hpages]; rfl)
  have hb := fetchByte_eq_some.mpr ⟨hmap, rfl⟩
  refine ⟨0, q, ?_, fun _ k hk hfit => absurd hfit (hcells k hk), fun hne => absurd rfl hne⟩
  simp only [trunkMalloc, hpg, hb, Option.bind_eq_bind, Option.bind_some]
  exact if_pos (.inl (by rw [hpages]; rfl))

/-- `__trunk_malloc` is complete in every state of a queue exactly when `Count`
counts all cells of the memory and is 1 or 1025. -/
theorem complete_iff (size : BitVec 64) : (∀ mem q, Reached size mem q → q.Complete) ↔
    cellsIn size = (countOf size).toNat ∧ ((countOf size).toNat = 1 ∨ (countOf size).toNat = 1025) := by
  constructor
  · intro h
    obtain ⟨hnone, hsome⟩ := new_complete (h _ _ .new)
    have hlt : pagesOf size ≠ 0 → cellsIn size ≤ 1025 := by
      intro hne
      by_contra hgt
      have hlarge : cellAt 1026 ≤ size.toNat := by
        simp only [cellsIn, trunkAt, unitSize] at hgt
        simp only [cellAt, trunkAt, unitSize]
        omega
      obtain ⟨q, hq, hbad⟩ := exists_incomplete hlarge hne
      exact hbad (h _ q hq)
    rcases Nat.lt_or_ge size.toNat headerSize with hsmall | hlarge
    · have hle := hsome (by rw [pages_of_lt hsmall]; decide)
      simp only [cellsIn, trunkAt, unitSize, headerSize] at hle hsmall
      omega
    · have hcount := count_of_le hlarge
      have hcells : (countOf size).toNat ≤ cellsIn size ∧ cellsIn size ≤ (countOf size).toNat + 1 := by
        simp only [cellsIn, trunkAt, unitSize, headerSize] at hlarge hcount ⊢
        omega
      obtain ⟨hle, hge⟩ := hcells
      cases hn : (countOf size).toNat with
      | zero =>
        have hneg : pagesOf size ≠ 0 := by
          have hmod : (2 ^ 64 - 1 + (countOf size).toNat) % 2 ^ 64 / cellPageSize = 18014398509481983 := by
            rw [hn]
            decide
          rw [pages_eq hmod]
          decide
        have htwo := hsome hneg
        omega
      | succ n =>
        have hpages := pages_of_count hn
        by_cases h0 : pagesOf size = 0
        · have hone := hnone h0
          omega
        · have hmany := hlt h0
          have hn' : n / cellPageSize ≠ 0 := fun hz => h0 (by rw [hpages, hz]; rfl)
          rw [cellPageSize] at hn'
          omega
  · rintro ⟨hcells, hone | hpage⟩ mem q hq
    · obtain ⟨hqs, hqp⟩ := hq.shape
      refine complete_of_no_page ?_ ?_ fun k hk => ?_
      · simp only [cellsIn, trunkAt, unitSize] at hcells
        rw [hqs, trunkAt]
        omega
      · rw [hqp, pages_of_count hone]
        decide
      · rw [fits_iff hqs]
        omega
    · simp only [cellsIn, trunkAt, unitSize] at hcells
      have hlarge : headerSize ≤ size.toNat := by
        rw [headerSize]
        omega
      have hcount := count_of_le hlarge
      simp only [headerSize, unitSize] at hcount
      have hinv : OnePage size q := by
        induction hq with
        | new =>
          refine ⟨rfl, ?_, fun hbyte => ?_⟩
          · change pagesOf size = 1
            rw [pages_of_count hpage]
            decide
          · have hzero : (new size mem).mem (bitMapAt + 0) = 0 := new_map (by omega)
            rw [Nat.add_zero] at hzero
            exact absurd hzero hbyte
        | put _ hput ih => exact ih.put hput
        | get _ hget ih => exact ih.get (by omega) hget
      exact hinv.complete (by omega) (by omega)

/-- Memory for the list head and nine cells: no page is counted. -/
theorem nine_cells_not_found : ¬∀ q, Reached 2776#64 (fun _ => 0) q → q.Complete := by
  intro h
  have hle := (new_complete (h _ .new)).1 (by decide)
  exact absurd hle (by decide)

end GalaLua.Runtime.PQueue
