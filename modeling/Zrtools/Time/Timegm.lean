import Zrtools.Time.Calendar

/-!
# zrtools — `fast_timegm` and `timegm` (`zrt_time.h`)

`timegm` carries the months into the year and adds everything else up. `fast_timegm` feeds the
fields to the day formula as they are.

* `monthDays_ne` — a month more than a year away from March: the formula does not even give the
  right days up to a multiple of 2³²;
* `fastTimegm_eq_iff` — when the two agree.
-/

namespace Zrtools.Time

open CInteger Gregorian

/-- The day `timegm` gives the fields. -/
def timegmDay (tm : Tm) : Int :=
  monthStart (tm.year + 1900 + tm.mon / 12) (tm.mon % 12 + 1) + (tm.mday - 1)

/-- `timegm`: the seconds of the fields, in or out of their ranges. -/
def timegm (tm : Tm) : Int := timegmDay tm * 86400 + tm.hour * 3600 + tm.min * 60 + tm.sec

/-- The fields are `int`s, and no operation of `fast_timegm` on one of them overflows. -/
structure Fits (tm : Tm) : Prop where
  sec : InInt32 tm.sec
  min : InInt32 (tm.min * 60)
  hour : InInt32 (tm.hour * 3600)
  mday : InInt32 tm.mday
  mon : InInt32 tm.mon
  mon_succ : InInt32 (tm.mon + 1)
  year : InInt32 tm.year
  year_add : InInt32 (tm.year + 1900)

/-- A year from March on that `days_from_civil` can work with. -/
def YearFits (y : Int) : Prop := InInt32 y ∧ (0 ≤ y ∨ InInt32 (y - 399))

instance : DecidablePred YearFits := fun _ => inferInstanceAs (Decidable (_ ∧ _))

-- ---------------------------------------------------------------------------
-- Months from March on
-- ---------------------------------------------------------------------------

/-- Any month, counted from March of a year, starts in some year from March on. -/
theorem monthStart_carry (y mon : Int) :
    monthStart (y + mon / 12) (mon % 12 + 1) =
      marchStart (y + (mon - 2) / 12) + marchOffset ((mon - 2) % 12) := by
  rw [monthStart_eq_march _ (by omega)]
  have hyear : marchYear (y + mon / 12) (mon % 12 + 1) = y + (mon - 2) / 12 := by
    unfold marchYear
    split_ifs <;> omega
  have hmonth : marchMonth (mon % 12 + 1) = (mon - 2) % 12 := by
    unfold marchMonth
    split_ifs <;> omega
  rw [hyear, hmonth]

/-- Whole years have at most one leap day in four years. -/
theorem marchStart_add (y : Int) {a : Int} (h : 0 ≤ a) :
    365 * a ≤ marchStart (y + a) - marchStart y ∧
      4 * (marchStart (y + a) - marchStart y) ≤ 1461 * a + 3 := by
  have hcentury : (y + a) / 400 = (y + a) / 100 / 4 := by omega
  have hcentury' : y / 400 = y / 100 / 4 := by omega
  unfold marchStart
  omega

/-- Five times the days of other years differ from 1836 a year, but by less than 2³². -/
theorem marchStart_ne (y : Int) {a : Int} (h : a ≠ 0) (hbound : -178956971 ≤ a ∧ a ≤ 178956970) :
    (4 < 5 * (marchStart (y + a) - marchStart y) - 1836 * a ∨
        5 * (marchStart (y + a) - marchStart y) - 1836 * a < -4) ∧
      -4294967000 ≤ 5 * (marchStart (y + a) - marchStart y) - 1836 * a ∧
      5 * (marchStart (y + a) - marchStart y) - 1836 * a ≤ 4294967000 := by
  rcases Int.lt_or_gt_of_ne h with hneg | hpos
  · have hback := marchStart_add (y + a) (Int.neg_nonneg_of_nonpos hneg.le)
    rw [Int.add_neg_cancel_right] at hback
    omega
  · have hlater := marchStart_add y hpos.le
    omega

/-- **A month a year or more from March**: the days the formula adds for it are not those of the
calendar, not even up to a multiple of 2³². -/
theorem monthDays_ne (y : Int) {k : Int} (hk : -2147483651 ≤ k ∧ k ≤ 2147483648)
    (hyear : k / 12 ≠ 0) :
    (marchStart (y + k / 12) - marchStart y + marchOffset (k % 12) -
      (153 * (k % 4294967296) + 2) % 4294967296 / 5) % 4294967296 ≠ 0 := by
  obtain ⟨hne, hlow, hhigh⟩ := marchStart_ne y hyear (by omega)
  generalize marchStart (y + k / 12) - marchStart y = days at hne hlow hhigh ⊢
  intro hmod
  have hwrap : (153 * (k % 4294967296) + 2) % 4294967296 = (153 * k + 2) % 4294967296 := by omega
  rw [hwrap] at hmod
  unfold marchOffset at hmod
  -- five times the days, without the remainders of the divisions by 5
  obtain ⟨t, ht⟩ : ∃ t, days + (153 * (k % 12) + 2) / 5 - (153 * k + 2) % 4294967296 / 5 =
    4294967296 * t := ⟨_, (Int.mul_ediv_cancel' (Int.dvd_of_emod_eq_zero hmod)).symm⟩
  obtain ⟨q, hq⟩ : ∃ q, (153 * k + 2) % 4294967296 = 153 * k + 2 - 4294967296 * q :=
    ⟨_, Int.emod_def ..⟩
  have hfive : -4 ≤ 5 * days - 1836 * (k / 12) - 4294967296 * (5 * t - q) ∧
      5 * days - 1836 * (k / 12) - 4294967296 * (5 * t - q) ≤ 4 := by
    rw [hq] at ht
    omega
  generalize 5 * days - 1836 * (k / 12) = x at hne hlow hhigh hfive
  generalize 5 * t - q = turns at hfive
  omega

-- ---------------------------------------------------------------------------
-- Days
-- ---------------------------------------------------------------------------

theorem daysFromCivil_eq_some_iff {y : Int} {m d : UInt32} {n : Int} :
    daysFromCivil y m d = some n ↔ YearFits (civilYear y m) ∧
      n = 146097 * (civilYear y m / 400) - 719468 +
        (eraDays (civilYear y m % 400) + civilMonthDays m + toInt d - 1) % 4294967296 := by
  refine ⟨?_, ?_⟩
  · intro h
    have hfits : YearFits (civilYear y m) := by
      unfold daysFromCivil at h
      obtain ⟨_, hyear, h⟩ := Option.bind_eq_some_iff.mp h
      obtain ⟨hmem, rfl⟩ := int32_eq_some_iff.mp hyear
      obtain ⟨_, hnum, -⟩ := Option.bind_eq_some_iff.mp h
      refine ⟨hmem, ?_⟩
      by_cases hpos : 0 ≤ y - if m ≤ 2 then 1 else 0
      · exact Or.inl hpos
      · rw [if_neg hpos] at hnum
        exact Or.inr (int32_eq_some_iff.mp hnum).1
    rw [daysFromCivil_eq d hfits.1 hfits.2, Option.some.injEq] at h
    exact ⟨hfits, h.symm⟩
  · rintro ⟨hfits, rfl⟩
    exact daysFromCivil_eq d hfits.1 hfits.2

/-- Everything but the days is the same sum. -/
theorem fastTimegm_eq_days {tm : Tm} (h : Fits tm) :
    fastTimegm tm = some (timegm tm) ↔
      daysFromCivil (tm.year + 1900) (UInt32.ofInt (tm.mon + 1)) (UInt32.ofInt tm.mday) =
        some (timegmDay tm) := by
  unfold fastTimegm timegm
  simp only [int32_of_mem h.year_add, int32_of_mem h.mon_succ, int32_of_mem h.hour,
    int32_of_mem h.min, Option.bind_eq_bind, Option.bind_some]
  cases daysFromCivil (tm.year + 1900) (UInt32.ofInt (tm.mon + 1)) (UInt32.ofInt tm.mday) with
  | none => simp
  | some days =>
    simp only [Option.bind_some, Option.some.injEq]
    omega

/-- From December before to February after, only a day before the era goes wrong. -/
theorem daysFromCivil_near {tm : Tm} (h : Fits tm) (hmon : -1 ≤ tm.mon ∧ tm.mon ≤ 13) :
    daysFromCivil (tm.year + 1900) (UInt32.ofInt (tm.mon + 1)) (UInt32.ofInt tm.mday) =
        some (timegmDay tm) ↔
      YearFits (marchYear (tm.year + 1900) (tm.mon + 1)) ∧
        marchStart (400 * (marchYear (tm.year + 1900) (tm.mon + 1) / 400)) ≤ timegmDay tm := by
  have hmem : 0 ≤ tm.mon + 1 ∧ tm.mon + 1 ≤ 14 := by omega
  have hyear : tm.year + 1900 + (tm.mon - 2) / 12 = marchYear (tm.year + 1900) (tm.mon + 1) := by
    unfold marchYear
    split_ifs <;> omega
  have hmonth : (tm.mon - 2) % 12 = marchMonth (tm.mon + 1) := by
    unfold marchMonth
    split_ifs <;> omega
  have hoffset : 0 ≤ marchOffset (marchMonth (tm.mon + 1)) ∧
      marchOffset (marchMonth (tm.mon + 1)) ≤ 337 := by
    rw [← hmonth]
    unfold marchOffset
    omega
  have hday := h.mday
  have hera : 400 * (marchYear (tm.year + 1900) (tm.mon + 1) / 400) % 400 = 0 :=
    Int.mul_emod_right ..
  rw [daysFromCivil_eq_some_iff, civilYear_ofInt _ hmem, civilMonthDays_ofInt hmem, toInt_ofInt,
    timegmDay, monthStart_carry, hyear, hmonth, marchStart_eq_era, marchStart_eq_era, hera,
    Int.mul_ediv_cancel_left _ (by decide)]
  generalize marchYear (tm.year + 1900) (tm.mon + 1) = y
  generalize marchOffset (marchMonth (tm.mon + 1)) = offset at hoffset
  refine and_congr_right fun _ => ?_
  unfold InInt32 at hday
  have hdays : 0 ≤ eraDays (y % 400) ∧ eraDays (y % 400) ≤ 146000 := by
    unfold eraDays
    omega
  have hsum : 365 * (y % 400) + y % 400 / 4 - y % 400 / 100 = eraDays (y % 400) := rfl
  rw [hsum]
  generalize eraDays (y % 400) = days at hdays ⊢
  omega

/-- Any other month goes wrong. -/
theorem daysFromCivil_far {tm : Tm} (h : Fits tm) (hmon : ¬(-1 ≤ tm.mon ∧ tm.mon ≤ 13)) :
    daysFromCivil (tm.year + 1900) (UInt32.ofInt (tm.mon + 1)) (UInt32.ofInt tm.mday) ≠
      some (timegmDay tm) := by
  have hint := h.mon
  unfold InInt32 at hint
  have hm : toInt (UInt32.ofInt (tm.mon + 1)) = (tm.mon + 1) % 4294967296 := toInt_ofInt _
  have hyear : civilYear (tm.year + 1900) (UInt32.ofInt (tm.mon + 1)) = tm.year + 1900 := by
    unfold civilYear
    rw [if_neg (by rw [toInt_le_iff, hm, toInt_two]; omega), Int.sub_zero]
  have hmonth : civilMonthDays (UInt32.ofInt (tm.mon + 1)) =
      (153 * ((tm.mon - 2) % 4294967296) + 2) % 4294967296 / 5 := by
    have hmarch : ((tm.mon + 1) % 4294967296 + -3) % 4294967296 = (tm.mon - 2) % 4294967296 := by
      omega
    unfold civilMonthDays
    rw [if_pos (by rw [toInt_lt_iff, hm, toInt_two]; omega), hm, hmarch]
  have hne := monthDays_ne (tm.year + 1900) (k := tm.mon - 2) (by omega) (by omega)
  intro heq
  obtain ⟨-, heq⟩ := daysFromCivil_eq_some_iff.mp heq
  rw [hyear, hmonth, toInt_ofInt, timegmDay, monthStart_carry] at heq
  rw [marchStart_eq_era (tm.year + 1900)] at hne
  have hsum : 365 * ((tm.year + 1900) % 400) + (tm.year + 1900) % 400 / 4 -
      (tm.year + 1900) % 400 / 100 = eraDays ((tm.year + 1900) % 400) := rfl
  rw [hsum] at hne
  generalize (153 * ((tm.mon - 2) % 4294967296) + 2) % 4294967296 / 5 = code at hne heq
  omega

/-- **When `fast_timegm` is `timegm`**: for the months from December before to February after, if
`days_from_civil` can work with the year and the day is not before the 400 years it is in. -/
theorem fastTimegm_eq_iff {tm : Tm} (h : Fits tm) :
    fastTimegm tm = some (timegm tm) ↔
      (-1 ≤ tm.mon ∧ tm.mon ≤ 13) ∧ YearFits (marchYear (tm.year + 1900) (tm.mon + 1)) ∧
        marchStart (400 * (marchYear (tm.year + 1900) (tm.mon + 1) / 400)) ≤ timegmDay tm := by
  rw [fastTimegm_eq_days h]
  by_cases hmon : -1 ≤ tm.mon ∧ tm.mon ≤ 13
  · rw [daysFromCivil_near h hmon]
    exact ⟨fun hcond => ⟨hmon, hcond⟩, fun hcond => hcond.2⟩
  · exact iff_of_false (daysFromCivil_far h hmon) fun hcond => hmon hcond.1

/-- `SetMon(15)` in 2024. -/
theorem fastTimegm_march_after :
    Fits { year := 124, mon := 14, mday := 1 } ∧
      fastTimegm { year := 124, mon := 14, mday := 1 } ≠
        some (timegm { year := 124, mon := 14, mday := 1 }) :=
  ⟨⟨by decide, by decide, by decide, by decide, by decide, by decide, by decide, by decide⟩,
    by decide⟩

/-- The day before 1 January 2024, as 0 January. -/
theorem fastTimegm_day_zero :
    fastTimegm { year := 124, mon := 0, mday := 0 } =
      some (timegm { year := 124, mon := 0, mday := 0 }) :=
  (fastTimegm_eq_iff
    ⟨by decide, by decide, by decide, by decide, by decide, by decide, by decide, by decide⟩).mpr
    (by decide)

end Zrtools.Time
