import Mathlib.Data.Rat.Floor
import Mathlib.Logic.Function.Basic

/-!
# Time differences

The type `timedelta` of `datetime`, with exact arithmetic. `init` gives the normal form
of every total (`init_normal`). The operators work on the object of their first operand
and carry towards zero, which is right for sums only (`operators_iff`).
-/

namespace GalaLua.Modules.Datetime

def fix (n : ℚ) : ℤ := if n > 0 then ⌊n⌋ else ⌈n⌉

structure Timedelta where
  days : ℤ
  seconds : ℤ
  microseconds : ℤ
  deriving DecidableEq, Repr

/-- One of the carries of `init`: what goes to the next unit, and what is left. -/
def carry (unit n : ℤ) : ℤ × ℤ :=
  if n < 0 then
    let sztemp := fix ((n - (unit - 1) : ℤ) / unit)
    (sztemp, n - sztemp * unit)
  else (fix (n / unit), n % unit)

def init (days seconds microseconds milliseconds minutes hours weeks : Option ℤ) : Timedelta :=
  let calculatemsec := microseconds.getD 0 + milliseconds.getD 0 * 1000
  let us := carry 1000000 calculatemsec
  let s := carry 60 (seconds.getD 0 + us.1)
  let m := carry 60 (minutes.getD 0 + s.1)
  let h := carry 24 (hours.getD 0 + m.1)
  ⟨days.getD 0 + h.1 + weeks.getD 0 * 7, s.2 + (h.2 * 60 + m.2) * 60, us.2⟩

/-- One of the carries of `__retimedelta__`. -/
def recarry (unit n : ℤ) : ℤ × ℤ :=
  if n < 0 then
    let sztemp := fix (n / unit)
    (sztemp, n - sztemp * unit)
  else (fix (n / unit), n % unit)

def retimedelta (self : Timedelta) : Timedelta :=
  let us := recarry 1000000 self.microseconds
  let s := recarry 86400 (self.seconds + us.1)
  ⟨self.days + s.1, s.2, us.2⟩

abbrev Heap := Nat → Timedelta

/-- The loop over the fields of `a`, both operands being read before a field is set. -/
def pointwise (f : ℤ → ℤ → ℤ) (x y : Timedelta) : Timedelta :=
  ⟨f x.days y.days, f x.seconds y.seconds, f x.microseconds y.microseconds⟩

/-- `add` of two timedeltas: the result, and the heap. -/
def add (h : Heap) (a b : Nat) : Nat × Heap :=
  (a, Function.update h a (retimedelta (pointwise (· + ·) (h a) (h b))))

def sub (h : Heap) (a b : Nat) : Nat × Heap :=
  (a, Function.update h a (retimedelta (pointwise (· - ·) (h a) (h b))))

-- ---------------------------------------------------------------------------
-- Totals
-- ---------------------------------------------------------------------------

def Timedelta.total (x : Timedelta) : ℤ := (x.days * 86400 + x.seconds) * 1000000 + x.microseconds

structure Timedelta.Normal (x : Timedelta) : Prop where
  microseconds : 0 ≤ x.microseconds ∧ x.microseconds < 1000000
  seconds : 0 ≤ x.seconds ∧ x.seconds < 86400

/-- What `init` makes of a number of microseconds. -/
def ofTotal (n : ℤ) : Timedelta := init none none (some n) none none none none

variable {x y z : Timedelta} {n unit : ℤ}

theorem fix_div (n : ℤ) (h : 0 < unit) : fix (n / unit) = n.tdiv unit := by
  obtain ⟨d, rfl⟩ := Int.eq_ofNat_of_zero_le (Int.le_of_lt h)
  have hd : (0 : ℚ) < d := Nat.cast_pos.mpr (Int.natCast_pos.mp h)
  rw [fix, Int.cast_natCast, Rat.floor_intCast_div_natCast, Rat.ceil_intCast_div_natCast]
  by_cases hn : 0 < n
  · rw [if_pos (div_pos (Int.cast_pos.mpr hn) hd), Int.tdiv_eq_ediv_of_nonneg (Int.le_of_lt hn)]
  · have hle : (n : ℚ) / d ≤ 0 :=
      div_nonpos_of_nonpos_of_nonneg (Int.cast_nonpos.mpr (Int.not_lt.mp hn)) (le_of_lt hd)
    have hneg : (-n).tdiv d = -n / d := Int.tdiv_eq_ediv_of_nonneg (by omega)
    rw [if_neg (not_lt.mpr hle), ← hneg, Int.neg_tdiv, Int.neg_neg]

theorem mod_eq (n unit : ℤ) : n - n / unit * unit = n % unit := by
  rw [Int.emod_def, Int.mul_comm]

/-- The offset of the negative branch turns the truncation into a division that rounds down. -/
theorem carry_eq (h : 0 < unit) (n : ℤ) : carry unit n = (n / unit, n % unit) := by
  rw [carry]
  split
  next hneg =>
    have hlt := Int.emod_lt_of_pos n h
    have hge := Int.emod_nonneg n (Int.ne_of_gt h)
    have hsplit := Int.mul_ediv_add_emod n unit
    have hquot : (unit - 1 - n) / unit = -(n / unit) := by
      refine ((Int.ediv_emod_unique (r := unit - 1 - n % unit) h).mpr ⟨?_, by omega, by omega⟩).1
      rw [Int.mul_neg]
      omega
    have hdown : fix ((n - (unit - 1) : ℤ) / unit) = n / unit := by
      rw [fix_div _ h, ← Int.neg_sub, Int.neg_tdiv, Int.tdiv_eq_ediv_of_nonneg (by omega), hquot, Int.neg_neg]
    rw [hdown]
    exact congrArg (n / unit, ·) (mod_eq n unit)
  next hpos => rw [fix_div n h, Int.tdiv_eq_ediv_of_nonneg (Int.not_lt.mp hpos)]

theorem recarry_eq (h : 0 < unit) (n : ℤ) : recarry unit n = (n.tdiv unit, n.tmod unit) := by
  rw [recarry, fix_div n h]
  split
  next => rw [Int.tmod_def, Int.mul_comm]
  next hpos => rw [Int.tmod_eq_emod_of_nonneg (Int.not_lt.mp hpos)]

/-- `init` keeps the total, and the result is normal. -/
theorem init_normal (days seconds microseconds milliseconds minutes hours weeks : Option ℤ) :
    (init days seconds microseconds milliseconds minutes hours weeks).Normal ∧
      (init days seconds microseconds milliseconds minutes hours weeks).total =
        (((((days.getD 0 + weeks.getD 0 * 7) * 24 + hours.getD 0) * 60 + minutes.getD 0) * 60 + seconds.getD 0) *
          1000000 + milliseconds.getD 0 * 1000 + microseconds.getD 0) := by
  simp only [init, carry_eq (show (0 : ℤ) < 1000000 by decide), carry_eq (show (0 : ℤ) < 60 by decide),
    carry_eq (show (0 : ℤ) < 24 by decide), Timedelta.total]
  refine ⟨⟨?_, ?_⟩, ?_⟩
  · dsimp only
    omega
  · dsimp only
    omega
  · omega

-- ---------------------------------------------------------------------------
-- Sums and differences
-- ---------------------------------------------------------------------------

theorem Timedelta.Normal.eq_of_total (hx : x.Normal) (hy : y.Normal) (h : x.total = y.total) : x = y := by
  obtain ⟨hxu, hxs⟩ := hx
  obtain ⟨hyu, hys⟩ := hy
  obtain ⟨xd, xs, xu⟩ := x
  obtain ⟨yd, ys, yu⟩ := y
  simp only [Timedelta.total, Timedelta.mk.injEq] at *
  omega

theorem normal_ofTotal (n : ℤ) : (ofTotal n).Normal ∧ (ofTotal n).total = n := by
  obtain ⟨hnormal, htotal⟩ := init_normal none none (some n) none none none none
  exact ⟨hnormal, by rw [ofTotal, htotal]; simp⟩

theorem eq_ofTotal (h : x.Normal) : x = ofTotal n ↔ x.total = n := by
  obtain ⟨hnormal, htotal⟩ := normal_ofTotal n
  exact ⟨fun heq => by rw [heq, htotal], fun heq => h.eq_of_total hnormal (heq.trans htotal.symm)⟩

theorem total_retimedelta (x : Timedelta) : (retimedelta x).total = x.total := by
  have hus := Int.mul_tdiv_add_tmod x.microseconds 1000000
  have hs := Int.mul_tdiv_add_tmod (x.seconds + x.microseconds.tdiv 1000000) 86400
  rw [retimedelta, recarry_eq (by decide), recarry_eq (by decide)]
  simp only [Timedelta.total]
  omega

theorem retimedelta_of_nonneg (hu : 0 ≤ x.microseconds) (hs : 0 ≤ x.seconds) : retimedelta x = ofTotal x.total := by
  have hdiv : 0 ≤ x.microseconds / 1000000 := by omega
  rw [eq_ofTotal, total_retimedelta]
  rw [retimedelta, recarry_eq (by decide), recarry_eq (by decide), Int.tdiv_eq_ediv_of_nonneg hu,
    Int.tmod_eq_emod_of_nonneg hu, Int.tmod_eq_emod_of_nonneg (Int.add_nonneg hs hdiv)]
  exact ⟨⟨Int.emod_nonneg _ (by decide), Int.emod_lt_of_pos _ (by decide)⟩,
    ⟨Int.emod_nonneg _ (by decide), Int.emod_lt_of_pos _ (by decide)⟩⟩

theorem recarry_small (hlt : n < unit) (hgt : -unit < n) : recarry unit n = (0, n) := by
  have hzero : n.tdiv unit = 0 := by
    rcases Int.le_total 0 n with hn | hn
    · exact Int.tdiv_eq_zero_of_lt hn hlt
    · rw [← Int.neg_neg n, Int.neg_tdiv, Int.tdiv_eq_zero_of_lt (by omega) (by omega), Int.neg_zero]
  rw [recarry_eq (by omega), hzero, Int.tmod_def, hzero, Int.mul_zero, Int.sub_zero]

/-- The truncation carries nothing from a field that is below its unit, also from one that is
negative. -/
theorem retimedelta_small (hu : -1000000 < x.microseconds ∧ x.microseconds < 1000000)
    (hs : -86400 < x.seconds ∧ x.seconds < 86400) : retimedelta x = x := by
  rw [retimedelta, recarry_small hu.2 hu.1]
  dsimp only
  rw [Int.add_zero, recarry_small hs.2 hs.1, Int.add_zero]

theorem retimedelta_add (hx : x.Normal) (hy : y.Normal) :
    retimedelta (pointwise (· + ·) x y) = ofTotal (x.total + y.total) := by
  have htotal : (pointwise (· + ·) x y).total = x.total + y.total := by
    simp only [pointwise, Timedelta.total]
    omega
  rw [← htotal]
  exact retimedelta_of_nonneg (Int.add_nonneg hx.1.1 hy.1.1) (Int.add_nonneg hx.2.1 hy.2.1)

theorem retimedelta_sub (hx : x.Normal) (hy : y.Normal) :
    retimedelta (pointwise (· - ·) x y) = pointwise (· - ·) x y := by
  obtain ⟨hxu, hxs⟩ := hx
  obtain ⟨hyu, hys⟩ := hy
  refine retimedelta_small ?_ ?_
  · dsimp only [pointwise]
    omega
  · dsimp only [pointwise]
    omega

theorem total_sub (x y : Timedelta) : (pointwise (· - ·) x y).total = x.total - y.total := by
  simp only [pointwise, Timedelta.total]
  omega

theorem sub_normal_iff (hx : x.Normal) (hy : y.Normal) : (pointwise (· - ·) x y).Normal ↔
    y.microseconds ≤ x.microseconds ∧ y.seconds ≤ x.seconds := by
  obtain ⟨hxu, hxs⟩ := hx
  obtain ⟨hyu, hys⟩ := hy
  constructor
  · rintro ⟨hu, hs⟩
    dsimp only [pointwise] at hu hs
    omega
  · intro hle
    refine ⟨?_, ?_⟩
    · dsimp only [pointwise]
      omega
    · dsimp only [pointwise]
      omega

theorem sub_eq_iff (hz : z.Normal) (hx : x.Normal) (hy : y.Normal) (htotal : z.total = x.total + y.total) :
    pointwise (· - ·) z y = x ↔ y.total = 0 ∨
      x.microseconds + y.microseconds < 1000000 ∧ x.seconds + y.seconds < 86400 := by
  obtain ⟨hxu, hxs⟩ := hx
  obtain ⟨hyu, hys⟩ := hy
  obtain ⟨hzu, hzs⟩ := hz
  obtain ⟨xd, xs, xu⟩ := x
  obtain ⟨yd, ys, yu⟩ := y
  obtain ⟨zd, zs, zu⟩ := z
  simp only [pointwise, Timedelta.total, Timedelta.mk.injEq] at *
  omega

theorem eq_zero_of_total (hy : y.Normal) (h : y.total = 0) : y = ⟨0, 0, 0⟩ :=
  hy.eq_of_total ⟨by decide, by decide⟩ h

-- ---------------------------------------------------------------------------
-- Objects
-- ---------------------------------------------------------------------------

/-- The result is what `init` gives for the total that `f` says. -/
def Right (op : Heap → Nat → Nat → Nat × Heap) (f : ℤ → ℤ → ℤ) (h : Heap) (a b : Nat) : Prop :=
  (op h a b).2 (op h a b).1 = ofTotal (f (h a).total (h b).total)

def Untouched (op : Heap → Nat → Nat → Nat × Heap) (h : Heap) (a b : Nat) : Prop :=
  (op h a b).2 a = h a ∧ (op h a b).2 b = h b

def Commutes (h : Heap) (a b : Nat) : Prop := (add h a b).2 (add h a b).1 = (add h b a).2 (add h b a).1

/-- `(a + b) + c` and `a + (b + c)`, the operands from left to right. -/
def Associates (h : Heap) (a b c : Nat) : Prop :=
  let (r, h₁) := add h a b
  let (r₁, h₁) := add h₁ r c
  let (q, h₂) := add h b c
  let (r₂, h₂) := add h₂ a q
  h₁ r₁ = h₂ r₂

/-- `(a + b) - b` -/
def Undone (h : Heap) (a b : Nat) : Prop :=
  let (r, h₁) := add h a b
  let (r, h₁) := sub h₁ r b
  h₁ r = h a

variable {h : Heap} {a b c : Nat}

@[simp] theorem add_fst : (add h a b).1 = a := rfl

@[simp] theorem sub_fst : (sub h a b).1 = a := rfl

theorem add_snd (ha : (h a).Normal) (hb : (h b).Normal) :
    (add h a b).2 = Function.update h a (ofTotal ((h a).total + (h b).total)) := by
  rw [add, retimedelta_add ha hb]

theorem sub_snd (ha : (h a).Normal) (hb : (h b).Normal) :
    (sub h a b).2 = Function.update h a (pointwise (· - ·) (h a) (h b)) := by
  rw [sub, retimedelta_sub ha hb]

theorem right_add (ha : (h a).Normal) (hb : (h b).Normal) : Right add (· + ·) h a b := by
  rw [Right, add_fst, add_snd ha hb, Function.update_self]

theorem right_sub_iff (ha : (h a).Normal) (hb : (h b).Normal) : Right sub (· - ·) h a b ↔
    (h b).microseconds ≤ (h a).microseconds ∧ (h b).seconds ≤ (h a).seconds := by
  obtain ⟨hnormal, htotal⟩ := normal_ofTotal ((h a).total - (h b).total)
  rw [Right, sub_fst, sub_snd ha hb, Function.update_self, ← sub_normal_iff ha hb]
  exact ⟨fun heq => heq ▸ hnormal, fun hsub => hsub.eq_of_total hnormal ((total_sub _ _).trans htotal.symm)⟩

theorem untouched_add_iff (ha : (h a).Normal) (hb : (h b).Normal) : Untouched add h a b ↔ (h b).total = 0 := by
  obtain ⟨hnormal, htotal⟩ := normal_ofTotal ((h a).total + (h b).total)
  rw [Untouched, add_snd ha hb, Function.update_self]
  constructor
  · rintro ⟨heq, -⟩
    rw [heq] at htotal
    omega
  · intro hzero
    have heq : ofTotal ((h a).total + (h b).total) = h a := hnormal.eq_of_total ha (by rw [htotal, hzero, Int.add_zero])
    rw [heq, Function.update_eq_self]
    exact ⟨rfl, rfl⟩

theorem untouched_sub_iff (ha : (h a).Normal) (hb : (h b).Normal) : Untouched sub h a b ↔ (h b).total = 0 := by
  rw [Untouched, sub_snd ha hb, Function.update_self]
  constructor
  · rintro ⟨heq, -⟩
    have htotal := total_sub (h a) (h b)
    rw [heq] at htotal
    omega
  · intro hzero
    have heq : pointwise (· - ·) (h a) (h b) = h a := by
      rw [eq_zero_of_total hb hzero]
      simp [pointwise]
    rw [heq, Function.update_eq_self]
    exact ⟨rfl, rfl⟩

theorem add_normal (hn : ∀ r, (h r).Normal) (a b : Nat) : (∀ r, ((add h a b).2 r).Normal) ∧
    ∀ r, ((add h a b).2 r).total = if r = a then (h a).total + (h b).total else (h r).total := by
  obtain ⟨hnormal, htotal⟩ := normal_ofTotal ((h a).total + (h b).total)
  rw [add_snd (hn a) (hn b)]
  refine ⟨fun r => ?_, fun r => ?_⟩
  · by_cases hr : r = a
    · rw [hr, Function.update_self]
      exact hnormal
    · rw [Function.update_of_ne hr]
      exact hn r
  · by_cases hr : r = a
    · rw [if_pos hr, hr, Function.update_self, htotal]
    · rw [if_neg hr, Function.update_of_ne hr]

theorem commutes (hn : ∀ r, (h r).Normal) (a b : Nat) : Commutes h a b := by
  obtain ⟨hab, htab⟩ := add_normal hn a b
  obtain ⟨hba, htba⟩ := add_normal hn b a
  rw [Commutes, add_fst, add_fst]
  refine (hab a).eq_of_total (hba b) ?_
  rw [htab, htba, if_pos rfl, if_pos rfl, Int.add_comm]

/-- An operand that stands twice is taken as the first sum has left it. -/
theorem associates_iff (hn : ∀ r, (h r).Normal) (a b c : Nat) : Associates h a b c ↔
    (a = b → c ≠ a → (h c).total = 0) ∧ (a = c → a ≠ b → (h b).total = 0) := by
  obtain ⟨h₁n, h₁t⟩ := add_normal hn a b
  obtain ⟨h₂n, h₂t⟩ := add_normal h₁n a c
  obtain ⟨h₃n, h₃t⟩ := add_normal hn b c
  obtain ⟨h₄n, h₄t⟩ := add_normal h₃n a b
  have hiff : Associates h a b c ↔ ((add (add h a b).2 a c).2 a).total = ((add (add h b c).2 a b).2 a).total :=
    ⟨fun heq => congrArg Timedelta.total heq, fun heq => (h₂n a).eq_of_total (h₄n a) heq⟩
  rw [hiff, h₂t, h₄t, if_pos rfl, if_pos rfl, h₁t, h₁t, h₃t, h₃t, if_pos rfl, if_pos rfl]
  by_cases hab : a = b
  · subst hab
    by_cases hca : c = a
    · subst hca
      simp
    · simp [hca, Ne.symm hca]
      omega
  · by_cases hca : c = a
    · subst hca
      simp [hab]
      omega
    · simp [hab, hca, Ne.symm hca]
      omega

theorem undone_iff (hn : ∀ r, (h r).Normal) (a b : Nat) : Undone h a b ↔ (h b).total = 0 ∨
    a ≠ b ∧ (h a).microseconds + (h b).microseconds < 1000000 ∧ (h a).seconds + (h b).seconds < 86400 := by
  obtain ⟨h₁n, h₁t⟩ := add_normal hn a b
  have hundone : Undone h a b ↔ pointwise (· - ·) ((add h a b).2 a) ((add h a b).2 b) = h a := by
    have hsub : (sub (add h a b).2 a b).2 a = pointwise (· - ·) ((add h a b).2 a) ((add h a b).2 b) := by
      rw [sub_snd (h₁n a) (h₁n b), Function.update_self]
    rw [← hsub]
    rfl
  have hta := h₁t a
  rw [if_pos rfl] at hta
  have hna := h₁n a
  rw [hundone]
  by_cases hab : a = b
  · subst hab
    have hzero : pointwise (· - ·) ((add h a a).2 a) ((add h a a).2 a) = ⟨0, 0, 0⟩ := by simp [pointwise]
    rw [hzero]
    refine ⟨fun heq => .inl (by rw [← heq]; rfl), fun hor => ?_⟩
    rcases hor with htotal | ⟨hne, -⟩
    · exact (eq_zero_of_total (hn a) htotal).symm
    · exact absurd rfl hne
  · have hb : (add h a b).2 b = h b := by rw [add_snd (hn a) (hn b), Function.update_of_ne (Ne.symm hab)]
    rw [hb, and_iff_right hab]
    exact sub_eq_iff hna (hn a) (hn b) hta

/-- The operators on timedeltas that `init` has made. -/
theorem operators_iff (h : Heap) (hn : ∀ r, (h r).Normal) (a b c : Nat) :
    (Right add (· + ·) h a b ∧ Right sub (· - ·) h a b ∧ Untouched add h a b ∧ Untouched sub h a b ↔
      (h b).total = 0) ∧
    Right add (· + ·) h a b ∧
    (Right sub (· - ·) h a b ↔ (h b).microseconds ≤ (h a).microseconds ∧ (h b).seconds ≤ (h a).seconds) ∧
    (Untouched add h a b ↔ (h b).total = 0) ∧ (Untouched sub h a b ↔ (h b).total = 0) ∧
    Commutes h a b ∧
    (Associates h a b c ↔ (a = b → c ≠ a → (h c).total = 0) ∧ (a = c → a ≠ b → (h b).total = 0)) ∧
    (Undone h a b ↔ (h b).total = 0 ∨
      a ≠ b ∧ (h a).microseconds + (h b).microseconds < 1000000 ∧ (h a).seconds + (h b).seconds < 86400) := by
  refine ⟨?_, right_add (hn a) (hn b), right_sub_iff (hn a) (hn b), untouched_add_iff (hn a) (hn b),
    untouched_sub_iff (hn a) (hn b), commutes hn a b, associates_iff hn a b c, undone_iff hn a b⟩
  rw [right_sub_iff (hn a) (hn b), untouched_add_iff (hn a) (hn b), untouched_sub_iff (hn a) (hn b),
    and_iff_right (right_add (hn a) (hn b))]
  refine ⟨fun hall => hall.2.1, fun htotal => ⟨?_, htotal, htotal⟩⟩
  rw [eq_zero_of_total (hn b) htotal]
  exact ⟨(hn a).1.1, (hn a).2.1⟩

/-- Half a second less than nothing. -/
def halves : Heap
  | 0 => ofTotal 0
  | _ => ofTotal 500000

theorem halves_normal (r : Nat) : (halves r).Normal := by
  unfold halves
  split <;> exact (normal_ofTotal _).1

theorem halves_sum : Right add (· + ·) halves 1 2 ∧ Undone halves 0 1 :=
  have hall := operators_iff halves halves_normal
  ⟨(hall 1 2 0).2.1, (hall 0 1 0).2.2.2.2.2.2.2.mpr (.inr ⟨by decide, by decide +kernel, by decide +kernel⟩)⟩

/-- The difference has negative microseconds. -/
theorem halves_difference : ¬ Right sub (· - ·) halves 0 1 := by
  rw [right_sub_iff (halves_normal 0) (halves_normal 1)]
  decide +kernel

end GalaLua.Modules.Datetime
