import Mathlib.Logic.Equiv.Basic
import Mathlib.Tactic.IntervalCases

/-!
# The proleptic Gregorian calendar

Dates are valid by construction, in every year, negative ones included. Days are counted from
1 January 1970, which is day 0.

* `Date.dayNumber_next` — the day after has the next number;
* `Date.dayNumber_bijective` — every day has one date, `Date.ofDay`;
* `Moment.seconds_ofSeconds`, `Moment.ofSeconds_seconds` — and every second one moment;
* `monthStart_eq_march` — in years that begin on 1 March the months before a month take
  `(153 * m + 2) / 5` days, leap year or not;
* `yearOfEra_eq`, `monthOfYear_eq` — such a year and such a month from the number of a day.
-/

namespace Gregorian

-- ---------------------------------------------------------------------------
-- Years and months
-- ---------------------------------------------------------------------------

def IsLeap (y : Int) : Prop := y % 4 = 0 ∧ (y % 100 ≠ 0 ∨ y % 400 = 0)

instance : DecidablePred IsLeap := fun _ => inferInstanceAs (Decidable (_ ∧ _))

/-- The days of the months from January, 1, to December, 12. -/
def monthLength (y m : Int) : Int :=
  if m = 2 then if IsLeap y then 29 else 28
  else if m = 4 ∨ m = 6 ∨ m = 9 ∨ m = 11 then 30
  else 31

def yearLength (y : Int) : Int := if IsLeap y then 366 else 365

/-- The days from 1 January of year 1 to 1 January of a year. -/
def yearStart (y : Int) : Int := 365 * (y - 1) + (y - 1) / 4 - (y - 1) / 100 + (y - 1) / 400

/-- The days of a year before a month of it, month by month. -/
def daysBefore (y : Int) : Nat → Int
  | 0 => 0
  | m + 1 => daysBefore y m + monthLength y (m + 1)

/-- The number of the first day of a month. -/
def monthStart (y m : Int) : Int := yearStart y + daysBefore y (m - 1).toNat - 719162

theorem yearStart_succ (y : Int) : yearStart (y + 1) = yearStart y + yearLength y := by
  by_cases h : IsLeap y
  · rw [yearLength, if_pos h]
    unfold IsLeap at h
    unfold yearStart
    omega
  · rw [yearLength, if_neg h]
    unfold IsLeap at h
    unfold yearStart
    omega

theorem yearStart_mono {y y' : Int} (h : y ≤ y') : yearStart y ≤ yearStart y' := by
  unfold yearStart
  omega

/-- The twelve months make the year. -/
theorem daysBefore_year (y : Int) : daysBefore y 12 = yearLength y := by
  by_cases h : IsLeap y
  · simp [daysBefore, monthLength, yearLength, h]
  · simp [daysBefore, monthLength, yearLength, h]

theorem monthLength_pos (y m : Int) : 28 ≤ monthLength y m := by
  unfold monthLength
  split_ifs <;> omega

theorem monthLength_le (y m : Int) : monthLength y m ≤ 31 := by
  unfold monthLength
  split_ifs <;> omega

theorem daysBefore_mono (y : Int) {a b : Nat} (h : a ≤ b) : daysBefore y a ≤ daysBefore y b := by
  induction b with
  | zero =>
    obtain rfl : a = 0 := Nat.le_zero.mp h
    exact le_refl _
  | succ b ih =>
    have hpos := monthLength_pos y (b + 1)
    rcases Nat.lt_or_ge b a with hlt | hge
    · obtain rfl : a = b + 1 := by omega
      exact le_refl _
    · have hle := ih hge
      rw [daysBefore]
      omega

theorem monthStart_succ (y : Int) {m : Int} (h : 1 ≤ m) :
    monthStart y (m + 1) = monthStart y m + monthLength y m := by
  obtain ⟨k, rfl⟩ : ∃ k : Nat, m = k + 1 := ⟨(m - 1).toNat, by omega⟩
  have hm : (((k : Int) + 1 + 1) - 1).toNat = k + 1 := by omega
  have hk : ((k : Int) + 1 - 1).toNat = k := by omega
  rw [monthStart, monthStart, hm, hk, daysBefore]
  omega

theorem monthStart_year_succ (y : Int) :
    monthStart (y + 1) 1 = monthStart y 12 + monthLength y 12 := by
  have hyear := daysBefore_year y
  have hstart := yearStart_succ y
  rw [daysBefore] at hyear
  show yearStart (y + 1) + 0 - 719162 = yearStart y + daysBefore y 11 - 719162 + monthLength y 12
  simp only [Nat.cast_ofNat, Int.reduceAdd] at hyear
  omega

-- ---------------------------------------------------------------------------
-- Dates
-- ---------------------------------------------------------------------------

structure Date where
  year : Int
  month : Int
  day : Int
  month_mem : 1 ≤ month ∧ month ≤ 12
  day_mem : 1 ≤ day ∧ day ≤ monthLength year month
  deriving DecidableEq

namespace Date

/-- The first day of a month. -/
def first (y m : Int) (h : 1 ≤ m ∧ m ≤ 12) : Date where
  year := y
  month := m
  day := 1
  month_mem := h
  day_mem := ⟨le_refl _, le_trans (by decide) (monthLength_pos y m)⟩

/-- The day after. -/
def next (t : Date) : Date :=
  if h : t.day < monthLength t.year t.month then
    { t with day := t.day + 1, day_mem := ⟨by have := t.day_mem; omega, h⟩ }
  else if h : t.month < 12 then first t.year (t.month + 1) (by have := t.month_mem; omega)
  else first (t.year + 1) 1 (by decide)

/-- The days from 1 January 1970 on. -/
def dayNumber (t : Date) : Int := monthStart t.year t.month + t.day - 1

/-- The days of the year before it. -/
def dayOfYear (t : Date) : Int := daysBefore t.year (t.month - 1).toNat + t.day - 1

/-- Days since Sunday; 1 January 1970 was a Thursday. -/
def weekday (t : Date) : Int := (t.dayNumber + 4) % 7

/-- **The day after has the next number.** -/
theorem dayNumber_next (t : Date) : t.next.dayNumber = t.dayNumber + 1 := by
  obtain ⟨hmonth, hmonth'⟩ := t.month_mem
  obtain ⟨-, hday⟩ := t.day_mem
  unfold next
  split_ifs with hlt hm
  · simp only [dayNumber]
    omega
  · have hsucc := monthStart_succ t.year hmonth
    simp only [dayNumber, first]
    omega
  · obtain hm : t.month = 12 := by omega
    have hsucc := monthStart_year_succ t.year
    rw [hm] at hday hlt
    simp only [dayNumber, first, hm]
    omega

theorem dayNumber_eq_year (t : Date) : t.dayNumber = yearStart t.year + t.dayOfYear - 719162 := by
  unfold dayNumber dayOfYear monthStart
  omega

theorem dayOfYear_mem (t : Date) : 0 ≤ t.dayOfYear ∧ t.dayOfYear < yearLength t.year := by
  obtain ⟨hmonth, hmonth'⟩ := t.month_mem
  obtain ⟨hday, hday'⟩ := t.day_mem
  have hzero := daysBefore_mono t.year (Nat.zero_le (t.month - 1).toNat)
  have hyear := daysBefore_mono t.year (show (t.month - 1).toNat + 1 ≤ 12 by omega)
  have hcast : (((t.month - 1).toNat : Int) + 1) = t.month := by omega
  rw [daysBefore_year, daysBefore, hcast] at hyear
  rw [daysBefore] at hzero
  unfold dayOfYear
  omega

/-- The dates from a year on. -/
theorem le_year_iff (t : Date) (y : Int) : y ≤ t.year ↔ yearStart y - 719162 ≤ t.dayNumber := by
  have hmem := t.dayOfYear_mem
  rw [dayNumber_eq_year]
  refine ⟨?_, ?_⟩
  · intro h
    have := yearStart_mono h
    omega
  · intro h
    by_contra hlt
    have hsucc := yearStart_succ t.year
    have := yearStart_mono (show t.year + 1 ≤ y by omega)
    omega

/-- A date of an earlier year has a smaller number. -/
theorem dayNumber_lt_of_year {t u : Date} (h : t.year < u.year) : t.dayNumber < u.dayNumber := by
  have ht := mt (t.le_year_iff u.year).mpr (not_le_of_gt h)
  have hu := (u.le_year_iff u.year).mp (le_refl _)
  omega

/-- So has a date of an earlier month of the year. -/
theorem dayNumber_lt_of_month {t u : Date} (hyear : t.year = u.year) (h : t.month < u.month) :
    t.dayNumber < u.dayNumber := by
  have hpos := t.month_mem.1
  have hday := t.day_mem.2
  have hday' := u.day_mem.1
  have hmono := daysBefore_mono u.year
    (show (t.month - 1).toNat + 1 ≤ (u.month - 1).toNat by omega)
  have hcast : (((t.month - 1).toNat : Int) + 1) = t.month := by omega
  rw [daysBefore, hcast] at hmono
  rw [hyear] at hday
  rw [dayNumber_eq_year, dayNumber_eq_year, hyear]
  unfold dayOfYear
  rw [hyear]
  omega

theorem dayNumber_injective : Function.Injective dayNumber := by
  intro t u heq
  have hyear : t.year = u.year := by
    rcases lt_trichotomy t.year u.year with h | h | h
    · exact absurd heq (ne_of_lt (dayNumber_lt_of_year h))
    · exact h
    · exact absurd heq (ne_of_gt (dayNumber_lt_of_year h))
  have hmonth : t.month = u.month := by
    rcases lt_trichotomy t.month u.month with h | h | h
    · exact absurd heq (ne_of_lt (dayNumber_lt_of_month hyear h))
    · exact h
    · exact absurd heq (ne_of_gt (dayNumber_lt_of_month hyear.symm h))
  have hday : t.day = u.day := by
    unfold dayNumber at heq
    rw [hyear, hmonth] at heq
    omega
  cases t
  cases u
  simp only at hyear hmonth hday
  subst hyear hmonth hday
  rfl

/-- Some date is so many days later. -/
theorem exists_later (t : Date) (k : Nat) : ∃ u : Date, u.dayNumber = t.dayNumber + k := by
  induction k with
  | zero => exact ⟨t, by simp⟩
  | succ k ih =>
    obtain ⟨u, hu⟩ := ih
    refine ⟨u.next, ?_⟩
    rw [dayNumber_next, hu]
    omega

theorem dayNumber_surjective : Function.Surjective dayNumber := by
  intro n
  -- every 400 years have the same number of days, so there are dates far enough back
  have hback : (first (1970 - 400 * n.natAbs) 1 (by decide)).dayNumber = -146097 * n.natAbs := by
    simp only [dayNumber, first, monthStart, yearStart]
    simp only [Int.sub_self, Int.toNat_zero, daysBefore]
    omega
  obtain ⟨u, hu⟩ := exists_later (first (1970 - 400 * n.natAbs) 1 (by decide))
    (n + 146097 * n.natAbs).toNat
  refine ⟨u, ?_⟩
  rw [hu, hback]
  omega

theorem dayNumber_bijective : Function.Bijective dayNumber :=
  ⟨dayNumber_injective, dayNumber_surjective⟩

/-- The date of a day. -/
noncomputable def ofDay (n : Int) : Date := (Equiv.ofBijective dayNumber dayNumber_bijective).symm n

@[simp] theorem dayNumber_ofDay (n : Int) : (ofDay n).dayNumber = n :=
  (Equiv.ofBijective dayNumber dayNumber_bijective).apply_symm_apply n

@[simp] theorem ofDay_dayNumber (t : Date) : ofDay t.dayNumber = t :=
  (Equiv.ofBijective dayNumber dayNumber_bijective).symm_apply_apply t

end Date

-- ---------------------------------------------------------------------------
-- Times of day
-- ---------------------------------------------------------------------------

/-- A second of a day. -/
structure Moment where
  date : Date
  hour : Int
  min : Int
  sec : Int
  hour_mem : 0 ≤ hour ∧ hour ≤ 23
  min_mem : 0 ≤ min ∧ min ≤ 59
  sec_mem : 0 ≤ sec ∧ sec ≤ 59
  deriving DecidableEq

namespace Moment

/-- The seconds from the start of 1970 on. -/
def seconds (c : Moment) : Int := c.date.dayNumber * 86400 + c.hour * 3600 + c.min * 60 + c.sec

theorem seconds_div (c : Moment) : c.seconds / 86400 = c.date.dayNumber := by
  obtain ⟨date, hour, min, sec, hhour, hmin, hsec⟩ := c
  simp only [seconds]
  omega

theorem seconds_mod (c : Moment) : c.seconds % 86400 = c.hour * 3600 + c.min * 60 + c.sec := by
  obtain ⟨date, hour, min, sec, hhour, hmin, hsec⟩ := c
  simp only [seconds]
  omega

/-- The moment of a second. -/
noncomputable def ofSeconds (n : Int) : Moment where
  date := Date.ofDay (n / 86400)
  hour := n % 86400 / 3600
  min := n % 3600 / 60
  sec := n % 60
  hour_mem := by omega
  min_mem := by omega
  sec_mem := by omega

@[simp] theorem seconds_ofSeconds (n : Int) : (ofSeconds n).seconds = n := by
  simp only [seconds, ofSeconds, Date.dayNumber_ofDay]
  omega

@[simp] theorem ofSeconds_seconds (c : Moment) : ofSeconds c.seconds = c := by
  have hdiv := c.seconds_div
  have hmod := c.seconds_mod
  generalize c.seconds = n at hdiv hmod
  obtain ⟨date, hour, min, sec, hhour, hmin, hsec⟩ := c
  simp only at hdiv hmod
  simp only [ofSeconds, mk.injEq]
  refine ⟨?_, by omega, by omega, by omega⟩
  rw [hdiv, Date.ofDay_dayNumber]

end Moment

-- ---------------------------------------------------------------------------
-- Years from March to February
-- ---------------------------------------------------------------------------

/-- The year a month belongs to, if years begin in March. -/
def marchYear (y m : Int) : Int := if m ≤ 2 then y - 1 else y

/-- The months of that year before a month. -/
def marchMonth (m : Int) : Int := if m ≤ 2 then m + 9 else m - 3

/-- The days of such a year before the first of a month; the leap day is the last of all. -/
def marchOffset (mp : Int) : Int := (153 * mp + 2) / 5

/-- The first day of such a year. -/
def marchStart (y : Int) : Int := 365 * y + y / 4 - y / 100 + y / 400 - 719468

theorem marchMonth_mem {m : Int} (h : 1 ≤ m ∧ m ≤ 12) : 0 ≤ marchMonth m ∧ marchMonth m ≤ 11 := by
  unfold marchMonth
  split_ifs <;> omega

theorem marchOffset_nonneg {mp : Int} (h : 0 ≤ mp) : 0 ≤ marchOffset mp := by
  unfold marchOffset
  omega

/-- The days before a month, by its place from March on. -/
theorem daysBefore_eq_march (y : Int) {m : Int} (h : 1 ≤ m ∧ m ≤ 12) :
    daysBefore y (m - 1).toNat =
      if m ≤ 2 then 31 * (m - 1) else yearLength y - 306 + marchOffset (m - 3) := by
  obtain ⟨hlow, hhigh⟩ := h
  by_cases hleap : IsLeap y
  · interval_cases m <;> simp [daysBefore, monthLength, yearLength, marchOffset, hleap]
  · interval_cases m <;> simp [daysBefore, monthLength, yearLength, marchOffset, hleap]

theorem monthStart_eq_march (y : Int) {m : Int} (h : 1 ≤ m ∧ m ≤ 12) :
    monthStart y m = marchStart (marchYear y m) + marchOffset (marchMonth m) := by
  have hsucc := yearStart_succ y
  rw [monthStart, daysBefore_eq_march y h, marchYear, marchMonth]
  unfold yearStart at hsucc ⊢
  unfold marchStart marchOffset
  split_ifs with hm <;> omega

/-- All but the last month end where the next one begins. -/
theorem monthLength_le_march (y : Int) {m : Int} (h : 1 ≤ m ∧ m ≤ 12) (hm : m ≠ 2) :
    monthLength y m = marchOffset (marchMonth m + 1) - marchOffset (marchMonth m) := by
  obtain ⟨hlow, hhigh⟩ := h
  unfold marchOffset marchMonth monthLength
  interval_cases m <;> simp at hm ⊢

/-- The first day of a year, by the 400 years after which the calendar repeats itself. -/
theorem marchStart_eq_era (y : Int) :
    marchStart y =
      146097 * (y / 400) + (365 * (y % 400) + y % 400 / 4 - y % 400 / 100) - 719468 := by
  unfold marchStart
  omega

theorem isLeap_mod (y : Int) : IsLeap (y % 400 + 1) ↔ IsLeap (y + 1) := by
  unfold IsLeap
  omega

/-- The days since the last 1 March. -/
def Date.marchDay (t : Date) : Int := marchOffset (marchMonth t.month) + (t.day - 1)

theorem Date.dayNumber_eq_march (t : Date) :
    t.dayNumber = marchStart (marchYear t.year t.month) + t.marchDay := by
  rw [dayNumber, monthStart_eq_march t.year t.month_mem, marchDay]
  omega

/-- They stay within the month. -/
theorem Date.marchDay_lt (t : Date) : t.marchDay < marchOffset (marchMonth t.month + 1) := by
  have hday := t.day_mem.2
  by_cases hm : t.month = 2
  · have hlen : monthLength t.year t.month ≤ 29 := by
      rw [hm]
      unfold monthLength
      split_ifs <;> omega
    rw [marchDay, hm]
    show marchOffset 11 + _ < marchOffset 12
    unfold marchOffset
    omega
  · rw [monthLength_le_march t.year t.month_mem hm] at hday
    unfold marchDay
    omega

/-- They stay within the year. -/
theorem Date.marchDay_mem (t : Date) :
    0 ≤ t.marchDay ∧
      (t.marchDay ≤ 364 ∨ t.marchDay = 365 ∧ IsLeap (marchYear t.year t.month + 1)) := by
  obtain ⟨hpos, hday⟩ := t.day_mem
  have hmem := marchMonth_mem t.month_mem
  have hoffset := marchOffset_nonneg hmem.1
  refine ⟨by unfold marchDay; omega, ?_⟩
  by_cases hm : t.month = 2
  · rw [hm] at hday
    unfold marchDay marchYear
    simp only [hm, le_refl, if_true, sub_add_cancel]
    show marchOffset 11 + _ ≤ 364 ∨ marchOffset 11 + _ = 365 ∧ _
    by_cases hleap : IsLeap t.year
    · simp only [monthLength, if_true, if_pos hleap] at hday
      unfold marchOffset
      rcases Int.lt_or_eq_of_le hday with hlt | heq
      · exact Or.inl (by omega)
      · exact Or.inr ⟨by omega, hleap⟩
    · simp only [monthLength, if_true, if_neg hleap] at hday
      unfold marchOffset
      omega
  · -- the tenth month after March ends where February begins
    have hlt := t.marchDay_lt
    have hmonth := t.month_mem
    have hlast : marchMonth t.month + 1 ≤ 11 := by
      unfold marchMonth
      split_ifs <;> omega
    unfold marchOffset at hlt
    omega

/-- **The year of a day**: the number of a year within 400 years, from the number of a day within
them. -/
theorem yearOfEra_eq {yoe doy doe : Int} (hyoe : 0 ≤ yoe ∧ yoe ≤ 399) (hdoy : 0 ≤ doy)
    (hlast : doy ≤ 364 ∨ doy = 365 ∧ IsLeap (yoe + 1))
    (hdoe : doe = 365 * yoe + yoe / 4 - yoe / 100 + doy) :
    (doe - doe / 1460 + doe / 36524 - doe / 146096) / 365 = yoe := by
  -- centuries, leap cycles and years
  obtain ⟨c, q, r, rfl, hc, hq, hr⟩ : ∃ c q r, yoe = 100 * c + 4 * q + r ∧ (0 ≤ c ∧ c ≤ 3) ∧
      (0 ≤ q ∧ q ≤ 24) ∧ 0 ≤ r ∧ r ≤ 3 :=
    ⟨yoe / 100, yoe % 100 / 4, yoe % 4, by omega, by omega, by omega, by omega⟩
  have hcycles : doe = 36524 * c + 1461 * q + 365 * r + doy := by omega
  clear hdoe
  have hlast : doy ≤ 364 ∨ doy = 365 ∧ r = 3 ∧ (q ≤ 23 ∨ c = 3) := by
    refine hlast.imp_right fun ⟨hday, hleap⟩ => ⟨hday, ?_⟩
    unfold IsLeap at hleap
    omega
  have hcentury : doe / 36524 - doe / 146096 = c := by
    rcases (by omega : 1461 * q + 365 * r + doy ≤ 36523 ∨
      1461 * q + 365 * r + doy = 36524 ∧ c = 3) with hin | ⟨hend, hc3⟩
    · omega
    · omega
  have hextra : doe / 1460 = 25 * c + q + (24 * c + q + 365 * r + doy) / 1460 := by omega
  have hsum : doe - doe / 1460 + doe / 36524 - doe / 146096 =
      365 * (100 * c + 4 * q + r) + (doy - (24 * c + q + 365 * r + doy) / 1460) := by omega
  rw [hsum]
  omega

/-- **The month of a day**: the number of a month within a year from March on, from the number
of a day within it. -/
theorem monthOfYear_eq {mp d : Int} (hd : 0 ≤ d)
    (hlt : marchOffset mp + d < marchOffset (mp + 1)) :
    (5 * (marchOffset mp + d) + 2) / 153 = mp := by
  unfold marchOffset at hlt ⊢
  omega

end Gregorian
