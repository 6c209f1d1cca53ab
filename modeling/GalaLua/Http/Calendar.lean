import GalaLua.Library.LuaString
import GalaLua.Http.Dates
import Mathlib.Order.Monotone.Basic

/-!
# Dates in the order of time

`diff_date` compares the parts of two dates, most of them as strings of digits. On the
dates that `get_date` writes this is the order of the times (`diffDate_getDate`).
-/

namespace GalaLua.Http

open Library.Lua

-- ---------------------------------------------------------------------------
-- The civil calendar
-- ---------------------------------------------------------------------------

def leap (y : Nat) : Bool := y % 4 = 0 && (y % 100 ≠ 0 || y % 400 = 0)

def monthDays (y : Nat) (m : Fin 12) : Nat :=
  if m.val = 1 then if leap y then 29 else 28
  else if m.val = 3 ∨ m.val = 5 ∨ m.val = 8 ∨ m.val = 10 then 30
  else 31

/-- The days of the years before `y`. -/
def daysBefore : Nat → Nat
  | 0 => 0
  | y + 1 => daysBefore y + if leap y then 366 else 365

/-- The days of the year `y` before the month `m`. -/
def daysBeforeMonth (y : Nat) : Nat → Nat
  | 0 => 0
  | m + 1 => daysBeforeMonth y m + if h : m < 12 then monthDays y ⟨m, h⟩ else 0

def Date.days (d : Date) : Nat := daysBefore d.year + daysBeforeMonth d.year d.month + d.day

/-- The seconds since the beginning of the calendar. -/
def Date.seconds (d : Date) : Nat := ((d.days * 24 + d.hour) * 60 + d.min) * 60 + d.sec

def epoch : Nat := daysBefore 1970 * 86400

/-- `d` has the civil fields of the time `t` in a zone that is `offset` seconds east. -/
structure Civil (offset t : Int) (d : Date) : Prop where
  valid : d.day < monthDays d.year d.month
  seconds : d.seconds = t + offset + epoch
  wday : (d.wday : Nat) = (d.days + 6) % 7

def FourDigits (d : Date) : Prop := 1000 ≤ d.year ∧ d.year ≤ 9999

/-- `get_date(delay, timezone)` -/
def getDateIn (osDate : Int → Date) (time delay timezone : Int) : Str :=
  (osDate (time - 3600 * timezone + delay)).toString

variable {d e : Date} {y y' : Nat} {m m' : Nat} {offset t : Int}

theorem daysBefore_mono : Monotone daysBefore :=
  monotone_nat_of_le_succ fun _ => Nat.le_add_right ..

theorem daysBeforeMonth_mono (y : Nat) : Monotone (daysBeforeMonth y) :=
  monotone_nat_of_le_succ fun _ => Nat.le_add_right ..

theorem daysBeforeMonth_year (y : Nat) : daysBefore y + daysBeforeMonth y 12 = daysBefore (y + 1) := by
  rw [daysBefore]
  cases hleap : leap y <;> simp [daysBeforeMonth, monthDays, hleap]

/-- The day is in front of the next month, and that in front of the next year. -/
theorem Civil.days_lt (h : Civil offset t d) :
    daysBeforeMonth d.year d.month + d.day < daysBeforeMonth d.year (d.month + 1) ∧
      d.days < daysBefore (d.year + 1) := by
  have hmonth : daysBeforeMonth d.year (d.month + 1) =
      daysBeforeMonth d.year d.month + monthDays d.year d.month := by
    rw [daysBeforeMonth, dif_pos d.month.isLt]
  have hyear := daysBeforeMonth_mono d.year (show (d.month : Nat) + 1 ≤ 12 from d.month.isLt)
  have hnext := daysBeforeMonth_year d.year
  have hvalid := h.valid
  rw [Date.days]
  omega

-- ---------------------------------------------------------------------------
-- AllDigits
-- ---------------------------------------------------------------------------

theorem digitChar_plain : ∀ n < 10, isspace n.digitChar = false ∧ n.digitChar ≠ ':' := by
  decide

theorem digitChar_lt : ∀ a < 10, ∀ b < 10,
    (a.digitChar < b.digitChar ↔ a < b) ∧ (a.digitChar = b.digitChar ↔ a = b) := by
  decide

/-- One digit in front of texts that are in the order of two numbers. -/
theorem cons_lt_iff {a b k m n : Nat} {s s' : Str} (ha : a < 10) (hb : b < 10) (hm : m < k) (hn : n < k)
    (h : s < s' ↔ m < n) : a.digitChar :: s < b.digitChar :: s' ↔ a * k + m < b * k + n := by
  obtain ⟨hlt, heq⟩ := digitChar_lt a ha b hb
  rw [List.cons_lt_cons_iff, hlt, heq, h]
  constructor
  · rintro (hab | ⟨rfl, hmn⟩)
    · have := Nat.mul_le_mul_right k (Nat.succ_le_of_lt hab)
      rw [Nat.succ_mul] at this
      omega
    · omega
  · intro hsum
    by_cases hab : a < b
    · exact .inl hab
    · have hle := Nat.mul_le_mul_right k (Nat.not_lt.mp hab)
      have hba : a = b := by
        by_contra hne
        have := Nat.mul_le_mul_right k (show b + 1 ≤ a by omega)
        rw [Nat.succ_mul] at this
        omega
      exact .inr ⟨hba, by subst hba; omega⟩

/-- The number that digits stand for. -/
def value : List Nat → Nat
  | [] => 0
  | d :: ds => d * 10 ^ ds.length + value ds

def AllDigits (ds : List Nat) : Prop := ∀ d ∈ ds, d < 10

theorem value_lt {ds : List Nat} (h : AllDigits ds) : value ds < 10 ^ ds.length := by
  induction ds with
  | nil => exact Nat.one_pos
  | cons d ds ih =>
    obtain ⟨hd, hds⟩ := List.forall_mem_cons.mp h
    have hle := Nat.mul_le_mul_right (10 ^ ds.length) (Nat.le_of_lt_succ hd)
    have hrest := ih hds
    rw [value, List.length_cons, Nat.pow_succ]
    omega

/-- Texts of equally many digits are in the order of their numbers. -/
theorem digits_lt_iff : ∀ {ds es : List Nat}, AllDigits ds → AllDigits es → ds.length = es.length →
    (ds.map Nat.digitChar < es.map Nat.digitChar ↔ value ds < value es)
  | [], [], _, _, _ => iff_of_false (List.lt_irrefl []) (Nat.lt_irrefl 0)
  | d :: ds, e :: es, hds, hes, hlen => by
    obtain ⟨hd, hds⟩ := List.forall_mem_cons.mp hds
    obtain ⟨he, hes⟩ := List.forall_mem_cons.mp hes
    have hlen := Nat.succ.inj hlen
    have hvalue := value_lt hds
    rw [hlen] at hvalue
    rw [List.map_cons, List.map_cons, value, value, hlen]
    exact cons_lt_iff hd he hvalue (value_lt hes) (digits_lt_iff hds hes hlen)

theorem num_lt_num {a b : Nat} (ha : a < 100) (hb : b < 100) : num a < num b ↔ a < b := by
  have h (n : Nat) (hn : n < 100) : AllDigits [n / 10, n % 10] ∧ value [n / 10, n % 10] = n := by
    constructor
    · simp [AllDigits]
      omega
    · simp [value]
      omega
  have hiff := digits_lt_iff (h a ha).1 (h b hb).1 rfl
  rwa [(h a ha).2, (h b hb).2] at hiff

theorem tostring_four (hy : 1000 ≤ y ∧ y ≤ 9999) :
    tostring y = [y / 10 / 10 / 10, y / 10 / 10 % 10, y / 10 % 10, y % 10].map Nat.digitChar := by
  rw [tostring, Nat.toDigits_of_base_le (by decide) (by omega), Nat.toDigits_of_base_le (by decide) (by omega),
    Nat.toDigits_of_base_le (by decide) (by omega), Nat.toDigits_of_lt_base (by omega)]
  rfl

theorem year_lt_year (hy : 1000 ≤ y ∧ y ≤ 9999) (hy' : 1000 ≤ y' ∧ y' ≤ 9999) :
    tostring y < tostring y' ↔ y < y' := by
  have h (n : Nat) (hn : n ≤ 9999) : AllDigits [n / 10 / 10 / 10, n / 10 / 10 % 10, n / 10 % 10, n % 10] ∧
      value [n / 10 / 10 / 10, n / 10 / 10 % 10, n / 10 % 10, n % 10] = n := by
    constructor
    · simp [AllDigits]
      omega
    · simp [value]
      omega
  have hiff := digits_lt_iff (h y hy.2).1 (h y' hy'.2).1 rfl
  rwa [(h y hy.2).2, (h y' hy'.2).2, ← tostring_four hy, ← tostring_four hy'] at hiff

-- ---------------------------------------------------------------------------
-- The text
-- ---------------------------------------------------------------------------

/-- Words without blanks are read back. -/
theorem words_intercalate {ps : List Str} (h : ∀ p ∈ ps, p ≠ [] ∧ ∀ c ∈ p, isspace c = false) :
    words (blank.intercalate ps) = ps := by
  induction ps with
  | nil => rfl
  | cons p ps ih =>
    obtain ⟨⟨hne, hp⟩, hps⟩ := List.forall_mem_cons.mp h
    cases ps with
    | nil => rw [List.intercalate_singleton, words, List.splitOnP_eq_singleton hp]; simp [hne]
    | cons q qs =>
      have hcons : blank.intercalate (p :: q :: qs) = p ++ ' ' :: blank.intercalate (q :: qs) := by
        rw [List.intercalate_cons_cons, List.append_assoc]
        rfl
      have hrest := ih hps
      rw [words] at hrest ⊢
      rw [hcons, List.splitOnP_append_cons_of_forall_mem hp ' ' rfl, List.filter_cons_of_pos (by simpa using hne),
        hrest]

theorem mem_num {n : Nat} (h : n < 100) : ∀ c ∈ num n, isspace c = false ∧ c ≠ ':' := by
  intro c hc
  simp only [num, List.mem_cons, List.not_mem_nil, or_false] at hc
  rcases hc with rfl | rfl
  · exact digitChar_plain _ (by omega)
  · exact digitChar_plain _ (Nat.mod_lt n (by decide))

theorem clock_eq (p q r : Str) : [':'].intercalate [p, q, r] = p ++ ':' :: (q ++ ':' :: r) := by
  simp [List.intercalate_cons_cons, List.intercalate_singleton]

theorem split_clock {a b c : Nat} (ha : a < 100) (hb : b < 100) (hc : c < 100) :
    split ':' ([':'].intercalate [num a, num b, num c]) = [num a, num b, num c] := by
  have hplain {n : Nat} (hn : n < 100) : ':' ∉ num n := fun hmem => (mem_num hn _ hmem).2 rfl
  rw [clock_eq, split, pieces_append (hplain ha), pieces_append (hplain hb),
    pieces_of_notMem (hplain hc)]
  rfl

theorem monthIndex_months : ∀ m : Fin 12, monthIndex.lookup (months.get m) = some ((m : Nat) + 1) := by
  decide

/-- A word that `split` keeps in one piece. -/
def Word (p : Str) : Prop := p ≠ [] ∧ ∀ c ∈ p, isspace c = false

theorem plain_of_all {p : Str} (h : (!p.isEmpty && p.all fun c => !isspace c) = true) : Word p := by
  simpa [Word] using h

theorem week_plain (w : Fin 7) : Word (week.get w) := by
  refine plain_of_all ?_
  revert w
  decide

theorem months_plain (m : Fin 12) : Word (months.get m) := by
  refine plain_of_all ?_
  revert m
  decide

theorem num_plain {n : Nat} (h : n < 100) : Word (num n) :=
  ⟨List.cons_ne_nil _ _, fun c hc => (mem_num h c hc).1⟩

theorem year_plain (h : FourDigits d) : Word (tostring d.year) := by
  obtain ⟨hlow, hhigh⟩ := h
  rw [tostring_four ⟨hlow, hhigh⟩]
  refine ⟨List.cons_ne_nil _ _, fun c hc => ?_⟩
  obtain ⟨n, hn, rfl⟩ := List.mem_map.mp hc
  refine (digitChar_plain n ?_).1
  simp only [List.mem_cons, List.not_mem_nil, or_false] at hn
  omega

/-- What `parse_date` makes of a date. -/
theorem parseDate_toString (h : FourDigits d) : ∃ wday, parseDate d.toString =
    .ok ⟨wday, some (num (d.day + 1)), some (d.month + 1), some (tostring d.year), some (num d.hour), some (num d.min),
      some (num d.sec)⟩ := by
  have hwords : words d.toString = [week.get d.wday, num (d.day + 1), months.get d.month, tostring d.year,
      [':'].intercalate [num d.hour, num d.min, num d.sec], "GMT".toList] := by
    refine words_intercalate ?_
    simp only [List.forall_mem_cons]
    refine ⟨week_plain _, num_plain (by omega), months_plain _, year_plain h, ⟨?_, fun c hc => ?_⟩,
      plain_of_all (by decide), fun p hp => absurd hp List.not_mem_nil⟩
    · exact List.cons_ne_nil _ _
    · rw [clock_eq, List.mem_append, List.mem_cons, List.mem_append, List.mem_cons] at hc
      rcases hc with hc | rfl | hc | rfl | hc
      · exact (mem_num (by omega) c hc).1
      · rfl
      · exact (mem_num (by omega) c hc).1
      · rfl
      · exact (mem_num (by omega) c hc).1
  refine ⟨weekIndex.lookup (week.get d.wday), ?_⟩
  rw [parseDate, hwords]
  dsimp only
  rw [split_clock (by omega) (by omega) (by omega), monthIndex_months]
  rfl

-- ---------------------------------------------------------------------------
-- The order
-- ---------------------------------------------------------------------------

def timeOrder (m n : Int) : Int := if m < n then -1 else if n < m then 1 else 0

/-- One part of the comparison: it decides unless the parts are equal. -/
theorem diffPart_order {α : Type} [LT α] [DecidableLT α] {a b : α} {m n : Nat} {i j : Int} {next : Res Int}
    (hab : a < b ↔ m < n) (hba : b < a ↔ n < m) (hlt : m < n → i < j) (hgt : n < m → j < i)
    (heq : m = n → next = .ok (timeOrder i j)) : diffPart (some a) (some b) next = .ok (timeOrder i j) := by
  rw [diffPart]
  by_cases hmn : m < n
  · rw [if_pos (hab.mpr hmn), timeOrder, if_pos (hlt hmn)]
  rw [if_neg fun h => hmn (hab.mp h)]
  by_cases hnm : n < m
  · rw [if_pos (hba.mpr hnm), timeOrder, if_neg (by have := hgt hnm; omega), if_pos (hgt hnm)]
  · rw [if_neg fun h => hnm (hba.mp h), heq (by omega)]

theorem diffPart_self {α : Type} [LT α] [DecidableLT α] {a : α} (h : ¬ a < a) (next : Res Int) :
    diffPart (some a) (some a) next = next := by
  rw [diffPart, if_neg h, if_neg h]

/-- A date of an earlier year, or of an earlier month of the year, has less seconds. -/
theorem Civil.seconds_lt (hd : Civil offset t d) (e : Date) :
    (d.year < e.year → d.seconds < e.seconds) ∧
      (d.year = e.year → (d.month : Nat) < e.month → d.seconds < e.seconds) := by
  have hlt (hdays : d.days < e.days) : d.seconds < e.seconds := by
    simp only [Date.seconds]
    omega
  obtain ⟨hmonth, hyear⟩ := hd.days_lt
  constructor
  · intro hlow
    refine hlt (Nat.lt_of_lt_of_le hyear (Nat.le_trans (daysBefore_mono (Nat.succ_le_of_lt hlow)) ?_))
    rw [Date.days, Nat.add_assoc]
    exact Nat.le_add_right ..
  · intro hsame hlow
    have hmono := daysBeforeMonth_mono d.year (show (d.month : Nat) + 1 ≤ e.month from hlow)
    refine hlt ?_
    rw [Date.days, Date.days, ← hsame]
    omega

/-- The parts in the order in which they are compared. -/
theorem diff_parts {t' : Int} (hd : Civil offset t d) (he : Civil offset t' e) (hfd : FourDigits d) (hfe : FourDigits e)
    (w w' : Option Nat) :
    DateItem.diff ⟨w, some (num (d.day + 1)), some (d.month + 1), some (tostring d.year), some (num d.hour),
        some (num d.min), some (num d.sec)⟩
      ⟨w', some (num (e.day + 1)), some (e.month + 1), some (tostring e.year), some (num e.hour), some (num e.min),
        some (num e.sec)⟩ = .ok (timeOrder t t') := by
  obtain ⟨hyear, hmonth⟩ := hd.seconds_lt e
  obtain ⟨hyear', hmonth'⟩ := he.seconds_lt d
  have hs := hd.seconds
  have hs' := he.seconds
  refine diffPart_order (year_lt_year hfd hfe) (year_lt_year hfe hfd) (fun h => ?_) (fun h => ?_) fun hy => ?_
  · have := hyear h
    omega
  · have := hyear' h
    omega
  refine diffPart_order Iff.rfl Iff.rfl (fun h => ?_) (fun h => ?_) fun hm => ?_
  · have := hmonth hy (Nat.lt_of_succ_lt_succ h)
    omega
  · have := hmonth' hy.symm (Nat.lt_of_succ_lt_succ h)
    omega
  -- from here on the two days differ as the two dates do
  have hdays : d.days + e.day = e.days + d.day := by
    rw [Date.days, Date.days, hy, Nat.succ.inj hm]
    omega
  simp only [Date.seconds] at hs hs'
  refine diffPart_order (num_lt_num (by omega) (by omega)) (num_lt_num (by omega) (by omega)) (fun h => by omega)
    (fun h => by omega) fun hday => ?_
  refine diffPart_order (num_lt_num (by omega) (by omega)) (num_lt_num (by omega) (by omega)) (fun h => by omega)
    (fun h => by omega) fun hhour => ?_
  refine diffPart_order (num_lt_num (by omega) (by omega)) (num_lt_num (by omega) (by omega)) (fun h => by omega)
    (fun h => by omega) fun hmin => ?_
  refine diffPart_order (num_lt_num (by omega) (by omega)) (num_lt_num (by omega) (by omega)) (fun h => by omega)
    (fun h => by omega) fun hsec => ?_
  rw [timeOrder, if_neg (by omega), if_neg (by omega)]

/-- `diff_date` compares the times of two dates that `get_date` has written. -/
theorem diffDate_getDate (osDate : Int → Date) (offset delay timezone t₁ t₂ : Int)
    (h₁ : Civil offset (t₁ - 3600 * timezone + delay) (osDate (t₁ - 3600 * timezone + delay)))
    (h₂ : Civil offset (t₂ - 3600 * timezone + delay) (osDate (t₂ - 3600 * timezone + delay)))
    (hy₁ : FourDigits (osDate (t₁ - 3600 * timezone + delay)))
    (hy₂ : FourDigits (osDate (t₂ - 3600 * timezone + delay))) :
    diffDate (getDateIn osDate t₁ delay timezone) (getDateIn osDate t₂ delay timezone) = .ok (timeOrder t₁ t₂) := by
  have horder : timeOrder (t₁ - 3600 * timezone + delay) (t₂ - 3600 * timezone + delay) = timeOrder t₁ t₂ := by
    simp only [timeOrder, Int.add_lt_add_iff_right, Int.sub_lt_sub_right_iff]
  obtain ⟨w₁, hparse₁⟩ := parseDate_toString hy₁
  obtain ⟨w₂, hparse₂⟩ := parseDate_toString hy₂
  have hdiff := diff_parts h₁ h₂ hy₁ hy₂ w₁ w₂
  rw [horder] at hdiff
  rw [diffDate]
  split
  next heq =>
    have hitem := Except.ok.inj (hparse₁.symm.trans ((congrArg parseDate heq).trans hparse₂))
    rw [← hitem, DateItem.diff, diffPart_self (List.lt_irrefl _), diffPart_self (Nat.lt_irrefl _),
      diffPart_self (List.lt_irrefl _), diffPart_self (List.lt_irrefl _), diffPart_self (List.lt_irrefl _),
      diffPart_self (List.lt_irrefl _)] at hdiff
    exact hdiff
  next hne =>
    rw [getDateIn, getDateIn, hparse₁, hparse₂]
    exact hdiff

/-- Two times in one zone, and what `os.date` gives for them. -/
def moments (time : Int) : Date :=
  if time = 0 then
    ⟨1970, ⟨0, by decide⟩, ⟨0, by decide⟩, ⟨4, by decide⟩, ⟨0, by decide⟩, ⟨0, by decide⟩, ⟨0, by decide⟩⟩
  else ⟨1999, .last 11, .last 30, ⟨5, by decide⟩, .last 23, .last 59, .last 59⟩

theorem moments_compared : diffDate (getDateIn moments 28800 0 8) (getDateIn moments 946713599 0 8) = .ok (-1) :=
  diffDate_getDate moments 0 0 8 28800 946713599 ⟨by decide, by decide +kernel, by decide +kernel⟩
    ⟨by decide, by decide +kernel, by decide +kernel⟩ ⟨by decide, by decide⟩ ⟨by decide, by decide⟩

end GalaLua.Http
