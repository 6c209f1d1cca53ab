import GalaLua.AMQ.Infor

/-!
# What `Allocate` returns

`Allocate` chains the pages it takes, in the order of their taking, and returns NULL for
failure. For no bytes it takes no page and returns NULL too, which `Put` reads as a lack
of pages (`allocate_exact_iff`). A page whose header has another size is given the size 0
and not that of the array, so what is allocated can be written only if the pages had their
size before (`allocate_restored_iff`).
-/

namespace GalaLua.AMQ

open Library (Chain)

variable {c : Config} {m : Media} {xs : List Int} {size : Nat}

-- ---------------------------------------------------------------------------
-- The number of pages
-- ---------------------------------------------------------------------------

theorem nPages_eq (hP : 0 < c.pageSize.toNat) : c.nPages size = (size + c.pageSize.toNat - 1) / c.pageSize.toNat := by
  have hdiv := Nat.div_add_mod size c.pageSize.toNat
  have hmod := Nat.mod_lt size hP
  rw [Config.nPages, Nat.mul_comm]
  symm
  split
  · rw [Nat.div_eq_iff hP, Nat.add_mul]
    rw [Nat.mul_comm]
    constructor <;> grind
  · rw [Nat.div_eq_iff hP, Nat.mul_comm]
    constructor <;> grind

theorem le_nPages_mul (c : Config) (size : Nat) (hP : 0 < c.pageSize.toNat) :
    size ≤ c.nPages size * c.pageSize.toNat := by
  have hdiv := Nat.div_add_mod size c.pageSize.toNat
  have hmod := Nat.mod_lt size hP
  rw [Config.nPages]
  split
  · rw [Nat.add_mul, Nat.mul_comm]
    omega
  · omega

theorem nPages_pos (hsize : 0 < size) (hP : 0 < c.pageSize.toNat) : 0 < c.nPages size := by
  have hle := le_nPages_mul c size hP
  rw [Nat.pos_iff_ne_zero]
  intro h0
  rw [h0, Nat.zero_mul] at hle
  omega

theorem nPages_zero (c : Config) : c.nPages 0 = 0 := by
  rw [Config.nPages, Nat.zero_div, Nat.zero_mul]
  rfl

-- ---------------------------------------------------------------------------
-- The pages it takes
-- ---------------------------------------------------------------------------

/-- With enough free pages the chain is that of the first ones, the last taken first. -/
theorem allocate_enough (h : m.free.Repr c.freeListAt m.pages xs) (hle : c.nPages size ≤ xs.length) :
    ∃ p m', m.allocate c size = (p, m') ∧ m'.free.Repr c.freeListAt m'.pages (xs.drop (c.nPages size)) ∧
      Chain (nextPtr m'.pages) p (xs.take (c.nPages size)).reverse ∧
      ∀ b ∈ xs.take (c.nPages size), ∃ d, m'.pages b = Linked.setNext d (repaired c (m.pages b)) := by
  obtain ⟨hrest, hchain, -, htaken⟩ := @takePages_chain c _ _ none _ [] _ h rfl hle (by simp)
  rw [List.append_nil] at hchain
  exact ⟨_, _, by rw [Media.allocate, if_pos (by rw [h.count_eq]; exact hle)], hrest, hchain, htaken⟩

theorem allocate_short (h : m.free.Repr c.freeListAt m.pages xs) (hlt : xs.length < c.nPages size) :
    m.allocate c size = (none, m) := by
  rw [Media.allocate, if_neg]
  rw [h.count_eq]
  omega

/-- A chain of exactly as many formerly free pages as the bytes need, the others left
free, and not NULL, which `Put` and `TimedPut` refuse; or, without enough pages, NULL and
nothing changed. -/
def Exact (c : Config) (m : Media) (xs : List Int) (size : Nat) : Prop :=
  if (size + c.pageSize.toNat - 1) / c.pageSize.toNat ≤ xs.length then
    ∃ p m' ps rest, m.allocate c size = (some p, m') ∧
      ps.length = (size + c.pageSize.toNat - 1) / c.pageSize.toNat ∧ ps.Nodup ∧
      Chain (nextPtr m'.pages) (some p) ps ∧ m'.free.Repr c.freeListAt m'.pages rest ∧ (ps ++ rest).Perm xs
  else m.allocate c size = (none, m)

theorem not_exact_zero (c : Config) (m : Media) (xs : List Int) (hP : 0 < c.pageSize.toNat) : ¬ Exact c m xs 0 := by
  have hneed : (0 + c.pageSize.toNat - 1) / c.pageSize.toNat = 0 := by rw [← nPages_eq hP, nPages_zero]
  rw [Exact, hneed, if_pos (Nat.zero_le _)]
  rintro ⟨p, m', ps, rest, -, hlen, -, hchain, -⟩
  rw [List.length_eq_zero_iff.mp hlen] at hchain
  cases hchain

/-- `Allocate` is exact for every number of bytes but 0. -/
theorem allocate_exact_iff (c : Config) (m : Media) (xs : List Int) (size : Nat) (hP : 64 ≤ c.pageSize.toNat)
    (hfree : m.free.Repr c.freeListAt m.pages xs) : Exact c m xs size ↔ 0 < size := by
  have hpos : 0 < c.pageSize.toNat := by omega
  constructor
  · intro h
    rw [Nat.pos_iff_ne_zero]
    rintro rfl
    exact not_exact_zero c m xs hpos h
  · intro hsize
    rw [Exact, ← nPages_eq hpos]
    split
    · next hle =>
      obtain ⟨p, m', hp, hrest, hchain, -⟩ := allocate_enough hfree hle
      have hlen : (xs.take (c.nPages size)).reverse.length = c.nPages size := by
        rw [List.length_reverse, List.length_take, Nat.min_eq_left hle]
      cases p with
      | none =>
        have hnil := hchain.unique (show Chain (nextPtr m'.pages) none [] from rfl)
        rw [hnil, List.length_nil] at hlen
        exact absurd hlen (nPages_pos hsize hpos).ne
      | some p =>
        refine ⟨p, m', _, _, hp, hlen, hchain.nodup, hchain, hrest, ?_⟩
        refine ((List.reverse_perm _).append_right _).trans ?_
        rw [List.take_append_drop]
    · next hlt => exact allocate_short hfree (by omega)

theorem small_offset_lt : 0 < 12 := by decide

def smallConfig (pages : Nat) : Config :=
  ⟨⟨0, 0, 12, 0, 0, 12, 0, 12, 0, small_offset_lt, small_offset_lt, small_offset_lt, small_offset_lt⟩, 0, 0, 0, 0, pages, 64⟩

def smallMedia : Media := ⟨fun _ => .init, fun _ => ⟨0, 0, []⟩, .init, .init, fun _ => .init (smallConfig 0)⟩

theorem exact_two_pages :
    Exact (smallConfig 3) (smallMedia.initAllocator (smallConfig 3)) ((List.range 3).map (smallConfig 3).pageAt) 65 :=
  (allocate_exact_iff (smallConfig 3) _ _ 65 (by decide) (initAllocator_spec smallMedia).1).mpr (by decide)

/-- Nothing is put into a queue with three free pages. -/
theorem empty_put_refused :
    ¬ Exact (smallConfig 3) (smallMedia.initAllocator (smallConfig 3)) ((List.range 3).map (smallConfig 3).pageAt) 0 ∧
      (smallMedia.initAllocator (smallConfig 3)).allocate (smallConfig 3) 0 =
        (none, smallMedia.initAllocator (smallConfig 3)) :=
  ⟨not_exact_zero _ _ _ (by decide), rfl⟩

-- ---------------------------------------------------------------------------
-- Their sizes
-- ---------------------------------------------------------------------------

/-- `F_MKLength` takes the size from the upper half of an argument that has it in the
lower. -/
theorem pageSize_setPageSize (p : CSQPage) (n : BitVec 16) : (p.setPageSize n).pageSize = 0 := by
  ext i hi
  have hhigh := mask_high (i := 16 + i) (by omega)
  have hlow := mask_low (i := 16 + i) (by omega)
  simp [CSQPage.pageSize, CSQPage.setPageSize, mkLength, hhigh, hlow]

theorem pageSize_repaired (hP : 0 < c.pageSize.toNat) (p : CSQPage) :
    (repaired c p).pageSize = c.pageSize ↔ p.pageSize = c.pageSize := by
  rw [repaired]
  split
  · rfl
  · next hne =>
    refine iff_of_false (fun h => ?_) hne
    rw [← h, pageSize_setPageSize] at hP
    exact absurd hP (by decide)

/-- Every page of the chain that is returned has the size of the array, and all the bytes
can be written to it. -/
def Restored (c : Config) (m : Media) (size : Nat) : Prop :=
  ∀ p m' ps, m.allocate c size = (some p, m') → Chain (nextPtr m'.pages) (some p) ps →
    (∀ a ∈ ps, (m'.pages a).pageSize = c.pageSize) ∧
      ∀ buffer : List UInt8, buffer.length = size → (writeData c.pages m'.pages (some p) buffer).2 = size

theorem length_le_pages (hnodup : xs.Nodup) (hpage : ∀ a ∈ xs, c.IsPage a) : xs.length ≤ c.pages := by
  have hsub : xs ⊆ (List.range c.pages).map c.pageAt := by
    intro a ha
    obtain ⟨k, hk, rfl⟩ := hpage a ha
    exact List.mem_map.mpr ⟨k, List.mem_range.mpr hk, rfl⟩
  have hlen := (hnodup.subperm hsub).length_le
  rwa [List.length_map, List.length_range] at hlen

theorem capacity_eq {pages : Int → CSQPage} (h : ∀ a ∈ xs, (pages a).pageSize = c.pageSize) :
    capacity pages xs = xs.length * c.pageSize.toNat := by
  induction xs with
  | nil => rw [capacity, List.map_nil, List.sum_nil, List.length_nil, Nat.zero_mul]
  | cons a xs ih =>
    obtain ⟨ha, hxs⟩ := List.forall_mem_cons.mp h
    rw [capacity_cons, ha, ih hxs, List.length_cons, Nat.add_mul, Nat.one_mul, Nat.add_comm]

theorem not_restored (hP : 0 < c.pageSize.toNat) (hfree : m.free.Repr c.freeListAt m.pages xs)
    (hle : c.nPages size ≤ xs.length) {a : Int} (ha : a ∈ xs.take (c.nPages size))
    (hne : (m.pages a).pageSize ≠ c.pageSize) : ¬ Restored c m size := by
  intro h
  obtain ⟨p, m', hp, -, hchain, htaken⟩ := allocate_enough hfree hle
  have ha' := List.mem_reverse.mpr ha
  cases p with
  | none =>
    rw [hchain.unique (show Chain (nextPtr m'.pages) none [] from rfl)] at ha'
    exact List.not_mem_nil ha'
  | some p =>
    have hsize := (h p m' _ hp hchain).1 a ha'
    obtain ⟨d, hd⟩ := htaken a ha
    rw [hd, pageSize_setNext, pageSize_repaired hP] at hsize
    exact hne hsize

/-- The capacity is restored if and only if nothing had to be restored: every page that
`Allocate` takes has the size of the array in its header. -/
theorem allocate_restored_iff (c : Config) (m : Media) (xs : List Int) (size : Nat) (hP : 0 < c.pageSize.toNat)
    (hfree : m.free.Repr c.freeListAt m.pages xs) (hpage : ∀ a ∈ xs, c.IsPage a) :
    Restored c m size ↔ (c.nPages size ≤ xs.length →
      ∀ a ∈ xs.take (c.nPages size), (m.pages a).pageSize = c.pageSize) := by
  constructor
  · intro h hle a ha
    by_contra hne
    exact not_restored hP hfree hle ha hne h
  · intro hsizes p m' ps hp hchain
    by_cases hle : c.nPages size ≤ xs.length
    · obtain ⟨p', m'', hp', -, hchain', htaken⟩ := allocate_enough hfree hle
      rw [hp] at hp'
      cases hp'
      obtain rfl := hchain.unique hchain'
      have hsize : ∀ a ∈ (xs.take (c.nPages size)).reverse, (m'.pages a).pageSize = c.pageSize := by
        intro a ha
        rw [List.mem_reverse] at ha
        obtain ⟨d, hd⟩ := htaken a ha
        rw [hd, pageSize_setNext, pageSize_repaired hP]
        exact hsizes hle a ha
      refine ⟨hsize, fun buffer hbuffer => ?_⟩
      have hlen : (xs.take (c.nPages size)).reverse.length = c.nPages size := by
        rw [List.length_reverse, List.length_take, Nat.min_eq_left hle]
      have hfuel : (xs.take (c.nPages size)).reverse.length ≤ c.pages := by
        rw [hlen]
        exact hle.trans (length_le_pages hfree.nodup hpage)
      have hcap := le_nPages_mul c size hP
      rw [writeData_eq hchain hfuel, writePages_snd hchain.nodup, capacity_eq hsize, hlen, hbuffer]
      exact Nat.min_eq_right hcap
    · rw [allocate_short hfree (by omega)] at hp
      cases hp

/-- One page whose header word is 0 on the free list. -/
def damagedMedia : Media :=
  { smallMedia with
    free := (putPages (smallConfig 1) 1 smallMedia.pages).1
    pages := (putPages (smallConfig 1) 1 smallMedia.pages).2 }

theorem restored_after_init :
    Restored (smallConfig 3) (smallMedia.initAllocator (smallConfig 3)) 100 := by
  obtain ⟨hfree, hsize⟩ := initAllocator_spec (c := smallConfig 3) smallMedia
  have hpage : ∀ a ∈ (List.range 3).map (smallConfig 3).pageAt, (smallConfig 3).IsPage a := by
    intro a ha
    obtain ⟨i, hi, rfl⟩ := List.mem_map.mp ha
    exact ⟨i, List.mem_range.mp hi, rfl⟩
  exact (allocate_restored_iff (smallConfig 3) _ _ 100 (by decide) hfree hpage).mpr
    fun _ a ha => hsize a (hpage a (List.mem_of_mem_take ha))

theorem damaged_not_restored : ¬ Restored (smallConfig 1) damagedMedia 1 := by
  have hfree := (putPages_spec (c := smallConfig 1) smallMedia.pages (le_refl 1)).1
  exact not_restored (c := smallConfig 1) (m := damagedMedia) (a := (smallConfig 1).pageAt 0) (by decide) hfree
    (by decide) (by decide) (by decide)

end GalaLua.AMQ
