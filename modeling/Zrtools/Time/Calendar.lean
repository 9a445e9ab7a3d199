import Zrtools.Lib.CInteger
import Zrtools.Lib.Gregorian

/-!
# zrtools — Seconds and calendar fields (`zrt_time.h`)

`days_from_civil`, `fast_timegm` and `civil_from_epoch_utc`, between seconds since 1970 and the
fields of a `struct tm`. `int` arithmetic that overflows is undefined, and the result is `none`;
no step in 64 bits can overflow. Unsigned arithmetic wraps.

* `daysFromCivil_eq` — `days_from_civil` for any month and day, wrap and all;
* `days_and_dates` — on valid dates it numbers the days, and `civil_from_epoch_utc` inverts it;
* `civilFromEpochUtc_eq` — the fields of a second, with the time of day as the code has it;
* `isUtc_iff` — they are the UTC fields from 1970 on, and before it only at midnight.
-/

namespace Zrtools.Time

open CInteger Gregorian

-- ---------------------------------------------------------------------------
-- The code
-- ---------------------------------------------------------------------------

/-- `struct tm`. -/
structure Tm where
  sec : Int := 0
  min : Int := 0
  hour : Int := 0
  mday : Int := 0
  mon : Int := 0
  year : Int := 0
  wday : Int := 0
  yday : Int := 0
  isdst : Int := 0
  gmtoff : Int := 0
  zone : String := ""
  deriving DecidableEq

/-- `detail::days_from_civil(y, m, d)`. -/
def daysFromCivil (y : Int) (m d : UInt32) : Option Int := do
  let y ← int32 (y - if m ≤ 2 then 1 else 0)
  let numerator ← (if 0 ≤ y then some y else int32 (y - 399))
  let era := numerator.tdiv 400
  let yoe := UInt32.ofInt (y - era * 400)
  let doy := (153 * (m + if 2 < m then -3 else 9) + 2) / 5 + d - 1
  let doe := yoe * 365 + yoe / 4 - yoe / 100 + doy
  some (era * 146097 + toInt doe - 719468)

/-- `detail::fast_timegm(tm)`. -/
def fastTimegm (tm : Tm) : Option Int := do
  let year ← int32 (tm.year + 1900)
  let month := UInt32.ofInt (← int32 (tm.mon + 1))
  let day := UInt32.ofInt tm.mday
  let days ← daysFromCivil year month day
  let hours ← int32 (tm.hour * 3600)
  let mins ← int32 (tm.min * 60)
  some (days * 86400 + hours + mins + tm.sec)

/-- The days of a common year before each month. -/
def monthDays : List Int := [0, 31, 59, 90, 120, 151, 181, 212, 243, 273, 304, 334]

/-- `detail::civil_from_epoch_utc(epoch)`. -/
def civilFromEpochUtc (epoch : Int) : Option Tm := do
  let daySeconds := epoch.tmod 86400
  let days := epoch.tdiv 86400
  let days := if epoch < 0 ∧ daySeconds ≠ 0 then days - 1 else days
  let days := days + 719468
  let era := (if 0 ≤ days then days else days - 146096).tdiv 146097
  let doe := UInt32.ofInt (days - era * 146097)
  let yoe := (doe - doe / 1460 + doe / 36524 - doe / 146096) / 365
  let y := toInt yoe + era * 400
  let doy := doe - (365 * yoe + yoe / 4 - yoe / 100)
  let mp := (5 * doy + 2) / 153
  let mday := toInt (doy - (153 * mp + 2) / 5 + 1)
  let mon := toInt (if mp < 10 then mp + 2 else mp - 10)
  let year ← int32 (narrow32 (y + if mon ≤ 1 then 1 else 0) - 1900)
  let wday := (epoch.tdiv 86400 + 4).tmod 7
  let isLeap := if y.tmod 4 = 0 ∧ (y.tmod 100 ≠ 0 ∨ y.tmod 400 = 0) then 1 else 0
  let yday := monthDays.getD mon.toNat 0 + mday - 1
  some
    { hour := daySeconds.tdiv 3600
      min := (daySeconds.tmod 3600).tdiv 60
      sec := daySeconds.tmod 60
      mday
      mon
      year
      wday := if wday < 0 then wday + 7 else wday
      yday := if 1 < mon then yday + isLeap else yday
      isdst := 0
      gmtoff := 0
      zone := "UTC" }

-- ---------------------------------------------------------------------------
-- days_from_civil
-- ---------------------------------------------------------------------------

/-- The year `days_from_civil` counts in, and the days it adds for the month. -/
def civilYear (y : Int) (m : UInt32) : Int := y - if m ≤ 2 then 1 else 0

def civilMonthDays (m : UInt32) : Int :=
  (153 * ((toInt m + if 2 < m then -3 else 9) % 4294967296) + 2) % 4294967296 / 5

/-- The days of an era before a year of it. -/
def eraDays (yoe : Int) : Int := 365 * yoe + yoe / 4 - yoe / 100

theorem toInt_eraDays {yoe : UInt32} (h : toInt yoe ≤ 399) :
    toInt (yoe * 365 + yoe / 4 - yoe / 100) = eraDays (toInt yoe) := by
  have hpos : 0 ≤ toInt yoe := Int.natCast_nonneg _
  have h365 : toInt 365 = 365 := rfl
  have h4 : toInt 4 = 4 := rfl
  have h100 : toInt 100 = 100 := rfl
  rw [toInt_sub, toInt_add, toInt_mul, toInt_div, toInt_div, h365, h4, h100, eraDays]
  omega

theorem toInt_civilMonthDays (m : UInt32) :
    toInt ((153 * (m + if 2 < m then -3 else 9) + 2) / 5) = civilMonthDays m := by
  have h153 : toInt 153 = 153 := rfl
  have h2 : toInt 2 = 2 := rfl
  have h5 : toInt 5 = 5 := rfl
  have hmonth : toInt (m + if 2 < m then -3 else 9) =
      (toInt m + if 2 < m then -3 else 9) % 4294967296 := by
    rw [toInt_add]
    split_ifs
    · have h3 : toInt (-3) = 4294967293 := rfl
      rw [h3]
      omega
    · rfl
  rw [toInt_div, toInt_add, toInt_mul, hmonth, h153, h2, h5, civilMonthDays]
  omega

/-- **`days_from_civil`** for any month and day. -/
theorem daysFromCivil_eq {y : Int} {m : UInt32} (d : UInt32) (hyear : InInt32 (civilYear y m))
    (hera : 0 ≤ civilYear y m ∨ InInt32 (civilYear y m - 399)) :
    daysFromCivil y m d = some (146097 * (civilYear y m / 400) - 719468 +
      (eraDays (civilYear y m % 400) + civilMonthDays m + toInt d - 1) % 4294967296) := by
  generalize hY : civilYear y m = Y at hyear hera ⊢
  have hnum : (if 0 ≤ Y then some Y else int32 (Y - 399)) =
      some (if 0 ≤ Y then Y else Y - (400 - 1)) := by
    split_ifs with hpos
    · rfl
    · exact int32_of_mem (hera.resolve_left hpos)
  have hyear : int32 (y - if m ≤ 2 then 1 else 0) = some Y := by
    rw [← hY]
    rw [← hY] at hyear
    exact int32_of_mem hyear
  have hyoe : toInt (UInt32.ofInt (Y - Y / 400 * 400)) = Y % 400 := by
    rw [toInt_ofInt]
    omega
  have hone : toInt 1 = 1 := rfl
  unfold daysFromCivil
  simp only [hyear, hnum, Option.bind_eq_bind, Option.bind_some,
    tdiv_floor Y (k := 400) (by decide), Option.some.injEq]
  generalize UInt32.ofInt (Y - Y / 400 * 400) = yoe at hyoe ⊢
  rw [toInt_add, toInt_eraDays (by omega), toInt_sub, toInt_add, toInt_civilMonthDays, hyoe, hone]
  omega

-- ---------------------------------------------------------------------------
-- Valid dates
-- ---------------------------------------------------------------------------

/-- The year is an `int`, and the `int` arithmetic of `days_from_civil` stays in range. -/
structure InRange (t : Date) : Prop where
  year : InInt32 t.year
  march : InInt32 (marchYear t.year t.month)
  era : 0 ≤ marchYear t.year t.month ∨ InInt32 (marchYear t.year t.month - 399)

/-- `days_from_civil` of a date. -/
def daysOf (t : Date) : Option Int :=
  daysFromCivil t.year (UInt32.ofInt t.month) (UInt32.ofInt t.day)

theorem toInt_two : toInt 2 = 2 := rfl

/-- Months from December before to February after. -/
theorem civilYear_ofInt (y : Int) {k : Int} (h : 0 ≤ k ∧ k ≤ 14) :
    civilYear y (UInt32.ofInt k) = marchYear y k := by
  have hk : toInt (UInt32.ofInt k) = k := by
    rw [toInt_ofInt]
    omega
  unfold civilYear marchYear
  simp only [toInt_le_iff, hk, toInt_two]
  split_ifs <;> omega

theorem civilMonthDays_ofInt {k : Int} (h : 0 ≤ k ∧ k ≤ 14) :
    civilMonthDays (UInt32.ofInt k) = marchOffset (marchMonth k) := by
  have hk : toInt (UInt32.ofInt k) = k := by
    rw [toInt_ofInt]
    omega
  unfold civilMonthDays marchOffset marchMonth
  simp only [toInt_lt_iff, hk, toInt_two]
  split_ifs <;> omega

/-- **`days_from_civil` numbers the days.** -/
theorem daysOf_eq {t : Date} (h : InRange t) : daysOf t = some t.dayNumber := by
  have hmonth : 0 ≤ t.month ∧ t.month ≤ 14 := by
    have := t.month_mem
    omega
  have hday : toInt (UInt32.ofInt t.day) = t.day := by
    have := t.day_mem
    have := monthLength_le t.year t.month
    rw [toInt_ofInt]
    omega
  have hyear := civilYear_ofInt t.year hmonth
  have hmarch := t.marchDay_mem
  rw [daysOf, daysFromCivil_eq _ (by rw [hyear]; exact h.march) (by rw [hyear]; exact h.era), hyear,
    civilMonthDays_ofInt hmonth, hday, t.dayNumber_eq_march, marchStart_eq_era, eraDays,
    Option.some.injEq]
  unfold Date.marchDay at hmarch ⊢
  omega

-- ---------------------------------------------------------------------------
-- civil_from_epoch_utc
-- ---------------------------------------------------------------------------

/-- The day, rounded down. -/
theorem floorDays (epoch : Int) :
    (if epoch < 0 ∧ epoch.tmod 86400 ≠ 0 then epoch.tdiv 86400 - 1 else epoch.tdiv 86400) =
      epoch / 86400 := by
  rw [tdiv_of_pos epoch (k := 86400) (by decide), tmod_of_pos epoch (k := 86400) (by decide)]
  split_ifs <;> omega

/-- The year of an era and the day of a year. -/
theorem toInt_yoe {doe : UInt32} (h : toInt doe ≤ 146096) :
    toInt ((doe - doe / 1460 + doe / 36524 - doe / 146096) / 365) =
      (toInt doe - toInt doe / 1460 + toInt doe / 36524 - toInt doe / 146096) / 365 := by
  have hpos := toInt_nonneg doe
  have h1460 : toInt 1460 = 1460 := rfl
  have h36524 : toInt 36524 = 36524 := rfl
  have h146096 : toInt 146096 = 146096 := rfl
  have h365 : toInt 365 = 365 := rfl
  have hfirst : toInt (doe - doe / 1460) = toInt doe - toInt doe / 1460 := by
    rw [toInt_sub, toInt_div, h1460]
    omega
  have hsecond : toInt (doe - doe / 1460 + doe / 36524) =
      toInt doe - toInt doe / 1460 + toInt doe / 36524 := by
    rw [toInt_add, hfirst, toInt_div, h36524]
    omega
  have hthird : toInt (doe - doe / 1460 + doe / 36524 - doe / 146096) =
      toInt doe - toInt doe / 1460 + toInt doe / 36524 - toInt doe / 146096 := by
    rw [toInt_sub, hsecond, toInt_div, h146096]
    omega
  rw [toInt_div, hthird, h365]

theorem toInt_doy {doe yoe : UInt32} (hyoe : toInt yoe ≤ 399)
    (h : eraDays (toInt yoe) ≤ toInt doe) :
    toInt (doe - (365 * yoe + yoe / 4 - yoe / 100)) = toInt doe - eraDays (toInt yoe) := by
  have hlt := toInt_lt doe
  have hpos : 0 ≤ eraDays (toInt yoe) := by
    have := toInt_nonneg yoe
    unfold eraDays
    omega
  rw [toInt_sub, UInt32.mul_comm, toInt_eraDays hyoe]
  omega

/-- The month and the day of it. -/
theorem toInt_mp {doy : UInt32} (h : toInt doy ≤ 365) :
    toInt ((5 * doy + 2) / 153) = (5 * toInt doy + 2) / 153 := by
  have hpos := toInt_nonneg doy
  have h5 : toInt 5 = 5 := rfl
  have h153 : toInt 153 = 153 := rfl
  rw [toInt_div, toInt_add, toInt_mul, h5, h153, toInt_two]
  omega

theorem toInt_mday {doy mp : UInt32} (hmp : toInt mp ≤ 11)
    (h : marchOffset (toInt mp) ≤ toInt doy) (hdoy : toInt doy ≤ 365) :
    toInt (doy - (153 * mp + 2) / 5 + 1) = toInt doy - marchOffset (toInt mp) + 1 := by
  have hpos := toInt_nonneg mp
  have h153 : toInt 153 = 153 := rfl
  have h5 : toInt 5 = 5 := rfl
  have h1 : toInt 1 = 1 := rfl
  have hoffset : toInt ((153 * mp + 2) / 5) = marchOffset (toInt mp) := by
    rw [toInt_div, toInt_add, toInt_mul, h153, h5, toInt_two, marchOffset]
    omega
  have hnonneg := marchOffset_nonneg hpos
  rw [toInt_add, toInt_sub, hoffset, h1]
  omega

theorem toInt_mon {mp : UInt32} (hmp : toInt mp ≤ 11) :
    toInt (if mp < 10 then mp + 2 else mp - 10) =
      if toInt mp < 10 then toInt mp + 2 else toInt mp - 10 := by
  have hpos := toInt_nonneg mp
  have h10 : toInt 10 = 10 := rfl
  simp only [toInt_lt_iff, h10]
  split_ifs with h
  · rw [toInt_add, toInt_two]
    omega
  · rw [toInt_sub, h10]
    omega

/-- The day of an era leads to the fields of its date. -/
theorem decode {t : Date} {doe yoe doy mp : UInt32}
    (hdoe : toInt doe = eraDays (marchYear t.year t.month % 400) + t.marchDay)
    (hyoe : yoe = (doe - doe / 1460 + doe / 36524 - doe / 146096) / 365)
    (hdoy : doy = doe - (365 * yoe + yoe / 4 - yoe / 100)) (hmp : mp = (5 * doy + 2) / 153) :
    toInt yoe = marchYear t.year t.month % 400 ∧
      toInt (doy - (153 * mp + 2) / 5 + 1) = t.day ∧
      toInt (if mp < 10 then mp + 2 else mp - 10) = t.month - 1 := by
  generalize hY : marchYear t.year t.month = Y at hdoe ⊢
  have hmarch := t.marchDay_mem
  rw [hY] at hmarch
  have hera : 0 ≤ Y % 400 ∧ Y % 400 ≤ 399 := by omega
  have hleap : t.marchDay ≤ 364 ∨ t.marchDay = 365 ∧ IsLeap (Y % 400 + 1) := by
    rw [isLeap_mod]
    exact hmarch.2
  have hle : t.marchDay ≤ 365 := by omega
  have hyear : toInt yoe = Y % 400 := by
    rw [hyoe, toInt_yoe (by rw [hdoe]; unfold eraDays; omega)]
    exact yearOfEra_eq hera hmarch.1 hleap hdoe
  have hday : toInt doy = t.marchDay := by
    rw [hdoy, toInt_doy (by omega) (by rw [hdoe, hyear]; omega), hdoe, hyear]
    omega
  have hmonth : toInt mp = marchMonth t.month := by
    rw [hmp, toInt_mp (by omega), hday]
    exact monthOfYear_eq (Int.sub_nonneg_of_le t.day_mem.1) t.marchDay_lt
  have hmem := marchMonth_mem t.month_mem
  have hlow := t.day_mem.1
  refine ⟨hyear, ?_, ?_⟩
  · rw [toInt_mday (by omega) (by rw [hmonth, hday]; unfold Date.marchDay; omega) (by omega),
      hmonth, hday]
    unfold Date.marchDay
    omega
  · have := t.month_mem
    rw [toInt_mon (by omega), hmonth]
    unfold marchMonth
    split_ifs <;> omega

/-- The day of the year, from the table of common years. -/
theorem yday_eq (t : Date) :
    (let yday := monthDays.getD (t.month - 1).toNat 0 + t.day - 1
      if 1 < t.month - 1 then yday + if IsLeap t.year then 1 else 0 else yday) = t.dayOfYear := by
  obtain ⟨hlow, hhigh⟩ := t.month_mem
  rw [Date.dayOfYear, daysBefore_eq_march t.year t.month_mem, yearLength]
  generalize t.month = m at hlow hhigh ⊢
  generalize t.day = d
  by_cases hleap : IsLeap t.year
  · interval_cases m <;> simp [monthDays, marchOffset, hleap] <;> omega
  · interval_cases m <;> simp [monthDays, marchOffset, hleap]

theorem tmod_eq_zero_iff (y k : Int) : y.tmod k = 0 ↔ y % k = 0 := by
  rw [← Int.dvd_iff_tmod_eq_zero, Int.dvd_iff_emod_eq_zero]

/-- The code looks for a leap year only after February, when the year from March on is the year. -/
theorem civilYday_eq (t : Date) :
    (if 1 < t.month - 1 then
      monthDays.getD (t.month - 1).toNat 0 + t.day - 1 +
        if (marchYear t.year t.month).tmod 4 = 0 ∧ ((marchYear t.year t.month).tmod 100 ≠ 0 ∨
          (marchYear t.year t.month).tmod 400 = 0) then 1 else 0
      else monthDays.getD (t.month - 1).toNat 0 + t.day - 1) = t.dayOfYear := by
  rw [← yday_eq]
  by_cases hmarch : 1 < t.month - 1
  · have hsame : marchYear t.year t.month = t.year := if_neg (by omega)
    simp only [if_pos hmarch, hsame, Ne, tmod_eq_zero_iff]
    rfl
  · simp only [if_neg hmarch]

/-- **The fields of a second**: the date of its day, and the time of day as the code has it. -/
theorem civilFromEpochUtc_eq {epoch : Int} {t : Date} (hday : epoch / 86400 = t.dayNumber)
    (hyear : InInt32 t.year) :
    civilFromEpochUtc epoch = (int32 (t.year - 1900)).map fun year =>
      { hour := (epoch.tmod 86400).tdiv 3600
        min := ((epoch.tmod 86400).tmod 3600).tdiv 60
        sec := (epoch.tmod 86400).tmod 60
        mday := t.day
        mon := t.month - 1
        year
        wday := if (epoch.tdiv 86400 + 4).tmod 7 < 0 then (epoch.tdiv 86400 + 4).tmod 7 + 7
          else (epoch.tdiv 86400 + 4).tmod 7
        yday := t.dayOfYear
        isdst := 0
        gmtoff := 0
        zone := "UTC" } := by
  have hmarch := t.marchDay_mem
  have hnumber := t.dayNumber_eq_march
  rw [marchStart_eq_era] at hnumber
  have hera : (if 0 ≤ t.dayNumber + 719468 then t.dayNumber + 719468
      else t.dayNumber + 719468 - 146096).tdiv 146097 = marchYear t.year t.month / 400 := by
    rw [show (146096 : Int) = 146097 - 1 from rfl, tdiv_floor _ (by decide)]
    omega
  have hdoe : toInt (UInt32.ofInt
      (t.dayNumber + 719468 - marchYear t.year t.month / 400 * 146097)) =
        eraDays (marchYear t.year t.month % 400) + t.marchDay := by
    rw [toInt_ofInt, eraDays]
    omega
  unfold civilFromEpochUtc
  simp only [floorDays, hday, hera]
  generalize UInt32.ofInt (t.dayNumber + 719468 - marchYear t.year t.month / 400 * 146097) = doe
    at hdoe ⊢
  obtain ⟨hyoe, hmday, hmon⟩ := decode hdoe rfl rfl rfl
  simp only [hyoe, hmday, hmon]
  have hjoin : marchYear t.year t.month % 400 + marchYear t.year t.month / 400 * 400 =
      marchYear t.year t.month := by omega
  have hcivil : (marchYear t.year t.month + if t.month - 1 ≤ 1 then 1 else 0) = t.year := by
    unfold marchYear
    split_ifs <;> omega
  rw [hjoin, hcivil, narrow32_of_mem hyear, civilYday_eq]
  cases int32 (t.year - 1900) with
  | none => rfl
  | some year => rfl

/-- **Day numbers and dates.** `days_from_civil` gives the day after the next number and day 0 to
1 January 1970, and `civil_from_epoch_utc` gives the date of a number back, as long as no `int`
overflows on the way. -/
theorem days_and_dates :
    (∀ t : Date, InRange t → InRange t.next →
      ∃ n, daysOf t = some n ∧ daysOf t.next = some (n + 1)) ∧
    daysFromCivil 1970 1 1 = some 0 ∧
    ∀ t : Date, InRange t → InInt32 (t.year - 1900) →
      ∃ n tm, daysOf t = some n ∧ civilFromEpochUtc (86400 * n) = some tm ∧
        tm.year + 1900 = t.year ∧ tm.mon + 1 = t.month ∧ tm.mday = t.day := by
  refine ⟨fun t h hnext => ?_, rfl, fun t h hyear => ?_⟩
  · refine ⟨t.dayNumber, daysOf_eq h, ?_⟩
    rw [daysOf_eq hnext, t.dayNumber_next]
  · have hday : 86400 * t.dayNumber / 86400 = t.dayNumber := by omega
    have hcivil := civilFromEpochUtc_eq hday h.year
    rw [int32_of_mem hyear] at hcivil
    exact ⟨t.dayNumber, _, daysOf_eq h, hcivil, Int.sub_add_cancel .., Int.sub_add_cancel .., rfl⟩

/-- The leap day of 2000, and the last day of February 1900. -/
theorem days_and_dates_february :
    ∃ t u : Date, t.day = 29 ∧ u.next.month = 3 ∧
      (∃ n tm, daysOf t = some n ∧ civilFromEpochUtc (86400 * n) = some tm ∧
        tm.year + 1900 = t.year ∧ tm.mon + 1 = t.month ∧ tm.mday = t.day) ∧
      ∃ n, daysOf u = some n ∧ daysOf u.next = some (n + 1) := by
  let t : Date := ⟨2000, 2, 29, by decide, by decide⟩
  let u : Date := ⟨1900, 2, 28, by decide, by decide⟩
  have ht : InRange t := ⟨by decide, by decide, by decide⟩
  have hu : InRange u := ⟨by decide, by decide, by decide⟩
  have hnext : InRange u.next := ⟨by decide, by decide, by decide⟩
  exact ⟨t, u, rfl, rfl, days_and_dates.2.2 t ht (by decide), days_and_dates.1 u hu hnext⟩

-- ---------------------------------------------------------------------------
-- UTC
-- ---------------------------------------------------------------------------

/-- The UTC fields of a second. -/
structure IsUtc (epoch : Int) (tm : Tm) : Prop where
  hour : 0 ≤ tm.hour ∧ tm.hour ≤ 23
  min : 0 ≤ tm.min ∧ tm.min ≤ 59
  sec : 0 ≤ tm.sec ∧ tm.sec ≤ 59
  time : tm.hour * 3600 + tm.min * 60 + tm.sec = epoch % 86400
  year : tm.year + 1900 = (Date.ofDay (epoch / 86400)).year
  mon : tm.mon + 1 = (Date.ofDay (epoch / 86400)).month
  mday : tm.mday = (Date.ofDay (epoch / 86400)).day
  wday : tm.wday = (Date.ofDay (epoch / 86400)).weekday
  yday : tm.yday = (Date.ofDay (epoch / 86400)).dayOfYear
  isdst : tm.isdst = 0

/-- The time of day adds up to what is left of the seconds, in the code's way. -/
theorem time_adds_up (s : Int) :
    s.tdiv 3600 * 3600 + (s.tmod 3600).tdiv 60 * 60 + s.tmod 60 = s := by
  have hhour := Int.mul_tdiv_add_tmod s 3600
  have hmin := Int.mul_tdiv_add_tmod (s.tmod 3600) 60
  rw [Int.tmod_tmod_of_dvd s (by decide)] at hmin
  omega

/-- Within a day its parts are on the clock. -/
theorem time_mem {s : Int} (h : 0 ≤ s ∧ s < 86400) :
    (0 ≤ s.tdiv 3600 ∧ s.tdiv 3600 ≤ 23) ∧
      (0 ≤ (s.tmod 3600).tdiv 60 ∧ (s.tmod 3600).tdiv 60 ≤ 59) ∧
      0 ≤ s.tmod 60 ∧ s.tmod 60 ≤ 59 := by
  have hrest : 0 ≤ s.tmod 3600 := Int.tmod_nonneg _ h.1
  rw [Int.tdiv_eq_ediv_of_nonneg hrest, Int.tdiv_eq_ediv_of_nonneg h.1,
    Int.tmod_eq_emod_of_nonneg h.1, Int.tmod_eq_emod_of_nonneg h.1]
  omega

/-- From 1970 on, and at midnight, nothing is rounded up. -/
theorem tmod_day_eq_iff (epoch : Int) :
    epoch.tmod 86400 = epoch % 86400 ↔ 0 ≤ epoch ∨ 86400 ∣ epoch := by
  rw [tmod_of_pos epoch (by decide)]
  split_ifs with h
  · exact iff_of_true (Int.sub_zero _) h
  · exact iff_of_false (by omega) h

/-- The remainder is moved into the week. -/
theorem weekday_eq (n : Int) :
    (if (n + 4).tmod 7 < 0 then (n + 4).tmod 7 + 7 else (n + 4).tmod 7) =
      (Date.ofDay n).weekday := by
  rw [Date.weekday, Date.dayNumber_ofDay, tmod_of_pos _ (by decide : (0 : Int) < 7)]
  split_ifs <;> omega

/-- **When the fields are those of UTC**, in a year that is an `int`: from 1970 on and at each
midnight before, if `tm_year` can hold the year. -/
theorem isUtc_iff {epoch : Int} (hyear : InInt32 (Date.ofDay (epoch / 86400)).year) :
    (∃ tm, civilFromEpochUtc epoch = some tm ∧ IsUtc epoch tm) ↔
      (0 ≤ epoch ∨ 86400 ∣ epoch) ∧ InInt32 ((Date.ofDay (epoch / 86400)).year - 1900) := by
  have hcivil := civilFromEpochUtc_eq (Date.dayNumber_ofDay (epoch / 86400)).symm hyear
  rw [← tmod_day_eq_iff]
  refine ⟨?_, ?_⟩
  · rintro ⟨tm, htm, hutc⟩
    rw [hcivil, Option.map_eq_some_iff] at htm
    obtain ⟨year, hfits, rfl⟩ := htm
    exact ⟨(time_adds_up _).symm.trans hutc.time, (int32_eq_some_iff.mp hfits).1⟩
  · rintro ⟨hmod, hfits⟩
    rw [int32_of_mem hfits] at hcivil
    refine ⟨_, hcivil, ?_⟩
    have hpos : 0 ≤ epoch % 86400 ∧ epoch % 86400 < 86400 := by omega
    have hdays : epoch.tdiv 86400 = epoch / 86400 := by
      have := tdiv_of_pos epoch (k := 86400) (by decide)
      rwa [if_pos ((tmod_day_eq_iff epoch).mp hmod), Int.add_zero] at this
    simp only [hmod, hdays]
    obtain ⟨hhour, hmin, hsec⟩ := time_mem hpos
    exact
      { hour := hhour
        min := hmin
        sec := hsec
        time := time_adds_up _
        year := Int.sub_add_cancel ..
        mon := Int.sub_add_cancel ..
        mday := rfl
        wday := weekday_eq _
        yday := rfl
        isdst := rfl }

/-- One second before 1970, `tm_sec` is -1. -/
theorem isUtc_minus_one :
    InInt32 (Date.ofDay (-1 / 86400)).year ∧
      ¬∃ tm, civilFromEpochUtc (-1) = some tm ∧ IsUtc (-1) tm := by
  let t : Date := ⟨1969, 12, 31, by decide, by decide⟩
  have hdate : Date.ofDay (-1 / 86400) = t := Date.ofDay_dayNumber t
  rw [hdate]
  refine ⟨by decide, ?_⟩
  rintro ⟨tm, htm, hutc⟩
  have hsec : (civilFromEpochUtc (-1)).map Tm.sec = some (-1) := by decide
  rw [htm, Option.map_some, Option.some.injEq] at hsec
  have := hutc.sec
  omega

/-- The leap day of 2000, at midnight. -/
theorem isUtc_leap_day : ∃ tm, civilFromEpochUtc 951782400 = some tm ∧ IsUtc 951782400 tm := by
  let t : Date := ⟨2000, 2, 29, by decide, by decide⟩
  have hdate : Date.ofDay (951782400 / 86400) = t := Date.ofDay_dayNumber t
  refine (isUtc_iff ?_).mpr ⟨Or.inl (by decide), ?_⟩
  · rw [hdate]
    decide
  · rw [hdate]
    decide

end Zrtools.Time
