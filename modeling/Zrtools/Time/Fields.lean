import Mathlib.Logic.Function.Basic
import Zrtools.Time.DateTime

/-!
# zrtools — The calendar setters of `DateTime<kUTC>` (`zrt_time.h`)

From 1970 to 9999 a second and its calendar fields determine each other, and the code has both
directions right. A setter then changes one field of the moment, and an offset moves it.

* `civil_moment`, `timegm_moment` — both directions;
* `step_moves` — a call moves the moment as it should;
* `setters_change_one_field` — so does every call of a chain.
-/

namespace Zrtools.Time

open CInteger Gregorian

-- ---------------------------------------------------------------------------
-- The calendar
-- ---------------------------------------------------------------------------

/-- The calendar fields, numbered as people do. -/
def Tm.field (tm : Tm) : Field → Int
  | .year => tm.year + 1900
  | .mon => tm.mon + 1
  | .day => tm.mday
  | .hour => tm.hour
  | .min => tm.min
  | .sec => tm.sec

def field (c : Moment) : Field → Int
  | .year => c.date.year
  | .mon => c.date.month
  | .day => c.date.day
  | .hour => c.hour
  | .min => c.min
  | .sec => c.sec

/-- The fields as the digits of one number. -/
def digits (c : Moment) : Int :=
  (c.date.year * 10000 + c.date.month * 100 + c.date.day) * 1000000 +
    (c.hour * 10000 + c.min * 100 + c.sec)

def InYears (c : Moment) : Prop := 1970 ≤ c.date.year ∧ c.date.year ≤ 9999

/-- What a call should do to the calendar. -/
inductive Moves (c : Moment) : Call → Moment → Prop
  | set {f value c'} (h : field c' = Function.update (field c) f value) : Moves c (.set f value) c'
  | get : Moves c (.get .ymdHMS) c
  | offset {unit length amount c'} (hunit : Offset.seconds unit = some length)
      (h : c'.seconds = c.seconds + amount * length) : Moves c (.offset unit amount) c'

/-- The first second of 1970 and the last one of 9999. -/
theorem inYears_iff (c : Moment) : InYears c ↔ 0 ≤ c.seconds ∧ c.seconds ≤ 253402300799 := by
  have hfirst := c.date.le_year_iff 1970
  have hlast := c.date.le_year_iff 10000
  have hdiv := c.seconds_div
  have h1970 : yearStart 1970 - 719162 = 0 := by decide
  have h10000 : yearStart 10000 - 719162 = 2932897 := by decide
  rw [h1970] at hfirst
  rw [h10000] at hlast
  unfold InYears
  omega

-- ---------------------------------------------------------------------------
-- Both directions
-- ---------------------------------------------------------------------------

theorem inRange_of_inYears {c : Moment} (h : InYears c) : InRange c.date := by
  obtain ⟨hlow, hhigh⟩ := h
  refine ⟨?_, ?_, Or.inl ?_⟩
  · unfold InInt32
    omega
  · unfold InInt32 marchYear
    split_ifs <;> omega
  · unfold marchYear
    split_ifs <;> omega

/-- **Decoding** a second gives its moment. -/
theorem civil_moment {c : Moment} (h : InYears c) :
    ∃ tm, civilFromEpochUtc c.seconds = some tm ∧ tm.field = field c := by
  have hyear : InInt32 (c.date.year - 1900) := by
    unfold InYears at h
    unfold InInt32
    omega
  have hpos := ((inYears_iff c).mp h).1
  have hmod := c.seconds_mod
  have hcivil := civilFromEpochUtc_eq c.seconds_div (inRange_of_inYears h).year
  rw [int32_of_mem hyear, Int.tmod_eq_emod_of_nonneg hpos, hmod] at hcivil
  refine ⟨_, hcivil, ?_⟩
  obtain ⟨date, hour, min, sec, hhour, hmin, hsec⟩ := c
  have hday : 0 ≤ hour * 3600 + min * 60 + sec := by omega
  have hrest := Int.tmod_nonneg 3600 hday
  funext f
  cases f with
  | year => exact Int.sub_add_cancel ..
  | mon => exact Int.sub_add_cancel ..
  | day => rfl
  | hour =>
    show (hour * 3600 + min * 60 + sec).tdiv 3600 = hour
    rw [Int.tdiv_eq_ediv_of_nonneg hday]
    omega
  | min =>
    show ((hour * 3600 + min * 60 + sec).tmod 3600).tdiv 60 = min
    rw [Int.tdiv_eq_ediv_of_nonneg hrest, Int.tmod_eq_emod_of_nonneg hday]
    omega
  | sec =>
    show (hour * 3600 + min * 60 + sec).tmod 60 = sec
    rw [Int.tmod_eq_emod_of_nonneg hday]
    omega

/-- **Encoding** the fields of a moment gives its second. -/
theorem timegm_moment {tm : Tm} {c : Moment} (h : InYears c) (hfield : tm.field = field c) :
    fastTimegm tm = some c.seconds := by
  have hyear : tm.year + 1900 = c.date.year := congrFun hfield .year
  have hmon : tm.mon + 1 = c.date.month := congrFun hfield .mon
  have hday : tm.mday = c.date.day := congrFun hfield .day
  have hhour : tm.hour = c.hour := congrFun hfield .hour
  have hmin : tm.min = c.min := congrFun hfield .min
  have hsec : tm.sec = c.sec := congrFun hfield .sec
  have hrange := inRange_of_inYears h
  have hmonth := c.date.month_mem
  have hdays := daysOf_eq hrange
  unfold daysOf at hdays
  unfold fastTimegm
  rw [hyear, hmon, hday, hhour, hmin, hsec, int32_of_mem hrange.year,
    int32_of_mem (by unfold InInt32; omega)]
  simp only [Option.bind_eq_bind, Option.bind_some, hdays]
  have hhours := c.hour_mem
  have hmins := c.min_mem
  rw [int32_of_mem (by unfold InInt32; omega), int32_of_mem (by unfold InInt32; omega)]
  rfl

/-- What a setter writes into the fields of a moment. -/
theorem write_field {tm : Tm} {c c' : Moment} {f : Field} {value : Int} (h : InYears c')
    (hfield : tm.field = field c) (hset : field c' = Function.update (field c) f value) :
    ∃ tm', DateTime.write f value tm = some tm' ∧ tm'.field = field c' := by
  have hvalue : field c' f = value := by rw [hset, Function.update_self]
  rw [hset, ← hfield]
  cases f with
  | year =>
    obtain ⟨hlow, hhigh⟩ := h
    have hint : InInt32 (value - 1900) := by
      unfold InInt32
      rw [← hvalue]
      simp only [field]
      omega
    refine ⟨{ tm with year := value - 1900 }, ?_, ?_⟩
    · rw [DateTime.write, int32_of_mem hint]
      rfl
    · funext g
      cases g <;> simp [Tm.field, Function.update]
  | mon =>
    have hmem := c'.date.month_mem
    have hint : InInt32 (value - 1) := by
      unfold InInt32
      rw [← hvalue]
      simp only [field]
      omega
    refine ⟨{ tm with mon := value - 1 }, ?_, ?_⟩
    · rw [DateTime.write, int32_of_mem hint]
      rfl
    · funext g
      cases g <;> simp [Tm.field, Function.update]
  | day | hour | min | sec =>
    refine ⟨_, rfl, ?_⟩
    funext g
    cases g <;> simp [Tm.field, Function.update]

theorem hms_moment {tm : Tm} {c : Moment} (hfield : tm.field = field c) :
    tm.hms = some (c.hour * 10000 + c.min * 100 + c.sec) := by
  have hhour : tm.hour = c.hour := congrFun hfield .hour
  have hmin : tm.min = c.min := congrFun hfield .min
  have hsec : tm.sec = c.sec := congrFun hfield .sec
  have hhours := c.hour_mem
  have hmins := c.min_mem
  have hsecs := c.sec_mem
  unfold Tm.hms
  rw [hhour, hmin, hsec, int32_bind (by unfold InInt32; omega),
    int32_bind (by unfold InInt32; omega), int32_bind (by unfold InInt32; omega),
    int32_of_mem (by unfold InInt32; omega)]

/-- The number `GetYmdHMS` makes of the fields of a moment. -/
theorem ymdHMS_moment {tm : Tm} {c : Moment} (h : InYears c) (hfield : tm.field = field c) :
    tm.ymdHMS = some (digits c) := by
  have hyear : tm.year + 1900 = c.date.year := congrFun hfield .year
  have hmon : tm.mon + 1 = c.date.month := congrFun hfield .mon
  have hday : tm.mday = c.date.day := congrFun hfield .day
  have hmonth := c.date.month_mem
  have hdays := c.date.day_mem
  have hlen := monthLength_le c.date.year c.date.month
  have hhours := c.hour_mem
  have hmins := c.min_mem
  have hsecs := c.sec_mem
  unfold InYears at h
  unfold Tm.ymdHMS digits
  rw [hyear, hmon, hday, hms_moment hfield, int32_bind (by unfold InInt32; omega),
    int64_bind (by unfold InInt64; omega), int32_bind (by unfold InInt32; omega),
    int32_bind (by unfold InInt32; omega), int64_bind (by unfold InInt64; omega),
    int64_bind (by unfold InInt64; omega), int64_bind (by unfold InInt64; omega)]
  exact int64_of_mem (by unfold InInt64; omega)

-- ---------------------------------------------------------------------------
-- Calls
-- ---------------------------------------------------------------------------

theorem updateTM_moment {d : DateTime} {c : Moment} (hok : d.CacheOk) (hsec : d.tvSec = c.seconds)
    (h : InYears c) :
    ∃ tm, d.updateTM = some { d with tm, cachedEpoch := d.tvSec } ∧ tm.field = field c ∧
      civilFromEpochUtc d.tvSec = some tm := by
  obtain ⟨tm, htm, hfield⟩ := civil_moment h
  have hpos := ((inYears_iff c).mp h).1
  refine ⟨tm, ?_, hfield, by rw [hsec, htm]⟩
  rw [DateTime.updateTM_eq hok (by omega), hsec, htm]
  rfl

theorem set_moment {d : DateTime} {c c' : Moment} {f : Field} {value : Int} (hok : d.CacheOk)
    (hsec : d.tvSec = c.seconds) (h : InYears c) (h' : InYears c')
    (hset : field c' = Function.update (field c) f value) :
    ∃ tm, d.set f value =
      some { tvSec := c'.seconds, tvNsec := d.tvNsec, tm, cachedEpoch := -1 } := by
  obtain ⟨tm, hupdate, hfield, -⟩ := updateTM_moment hok hsec h
  obtain ⟨tm', hwrite, hfield'⟩ := write_field h' hfield hset
  refine ⟨tm', ?_⟩
  rw [DateTime.set_eq, DateTime.setTm, hupdate]
  simp only [Option.bind_eq_bind, Option.bind_some, hwrite, DateTime.updateEpoch,
    timegm_moment h' hfield']

theorem get_moment {d : DateTime} {c : Moment} (hok : d.CacheOk) (hsec : d.tvSec = c.seconds)
    (h : InYears c) :
    ∃ tm, d.call .ymdHMS = some (digits c, { d with tm, cachedEpoch := d.tvSec }) ∧
      civilFromEpochUtc d.tvSec = some tm := by
  obtain ⟨tm, hupdate, hfield, htm⟩ := updateTM_moment hok hsec h
  refine ⟨tm, ?_, htm⟩
  rw [DateTime.call_eq, DateTime.get, hupdate]
  simp only [Option.bind_eq_bind, Option.bind_some, Getter.read, ymdHMS_moment h hfield]

theorem offset_moment {d : DateTime} {c c' : Moment} {unit : Offset} {length amount : Int}
    (hsec : d.tvSec = c.seconds) (h : InYears c) (h' : InYears c')
    (hunit : unit.seconds = some length) (hmove : c'.seconds = c.seconds + amount * length) :
    d.offset unit amount = some { d with tvSec := c'.seconds, cachedEpoch := -1 } := by
  have hrange := (inYears_iff c).mp h
  have hrange' := (inYears_iff c').mp h'
  have hlength : InInt64 (amount * length) := by
    unfold InInt64
    omega
  have hsum : InInt64 (d.tvSec + amount * length) := by
    unfold InInt64
    omega
  have hoffset : d.offsetSec (amount * length) =
      some { d with tvSec := c'.seconds, cachedEpoch := -1 } := by
    rw [DateTime.offsetSec, int64_of_mem hsum, hsec, ← hmove]
    rfl
  cases unit with
  | day | hour | min =>
    cases hunit
    rw [← hoffset]
    exact int64_bind hlength d.offsetSec
  | sec =>
    cases hunit
    rw [← hoffset, Int.mul_one]
    rfl
  | mSec | uSec | nano => cases hunit

/-- **A call does to the calendar what it should**, and the nanoseconds stay. -/
theorem step_moves {d : DateTime} {c c' : Moment} {a : Call} (hok : d.CacheOk)
    (hsec : d.tvSec = c.seconds) (h : InYears c) (h' : InYears c') (hmove : Moves c a c') :
    ∃ d', d.step a = some d' ∧ d'.CacheOk ∧ d'.tvSec = c'.seconds ∧ d'.tvNsec = d.tvNsec := by
  cases hmove with
  | set hset =>
    obtain ⟨tm, hd'⟩ := set_moment hok hsec h h' hset
    exact ⟨_, hd', Or.inl rfl, rfl, rfl⟩
  | get =>
    obtain ⟨tm, hget, htm⟩ := get_moment hok hsec h
    refine ⟨{ d with tm, cachedEpoch := d.tvSec }, ?_, Or.inr ⟨rfl, htm⟩, hsec, rfl⟩
    rw [DateTime.step, hget]
    rfl
  | offset hunit hoffset =>
    exact ⟨_, offset_moment hsec h h' hunit hoffset, Or.inl rfl, rfl, rfl⟩

-- ---------------------------------------------------------------------------
-- Chains
-- ---------------------------------------------------------------------------

/-- The moment a `DateTimeUTC` stands for. -/
noncomputable def moment (d : DateTime) : Moment := Moment.ofSeconds d.tvSec

/-- The call leads to a calendar time from 1970 to 9999. -/
def Allowed (d : DateTime) (a : Call) : Prop := ∃ c', InYears c' ∧ Moves (moment d) a c'

/-- An allowed call does what it should to the moment. -/
theorem step_allowed {d : DateTime} {a : Call} (hinv : d.CacheOk ∧ InYears (moment d))
    (hallowed : Allowed d a) :
    ∃ d', d.step a = some d' ∧ (d'.CacheOk ∧ InYears (moment d')) ∧
      Moves (moment d) a (moment d') ∧ d'.tvNsec = d.tvNsec := by
  obtain ⟨c', h', hmove⟩ := hallowed
  have hsec : d.tvSec = (moment d).seconds := (Moment.seconds_ofSeconds _).symm
  obtain ⟨d', hstep, hok', hsec', hnsec⟩ := step_moves hinv.1 hsec hinv.2 h' hmove
  have hmoment : moment d' = c' := by rw [moment, hsec', Moment.ofSeconds_seconds]
  refine ⟨d', hstep, ⟨hok', ?_⟩, ?_, hnsec⟩
  · rw [hmoment]
    exact h'
  · rw [hmoment]
    exact hmove

/-- **Setters change one field**, in any chain of allowed calls on any `DateTimeUTC` from 1970 to
9999: each call does what it should to the moment, the nanoseconds stay, and `GetYmdHMS` shows
the moment. -/
theorem setters_change_one_field {start d : DateTime} {calls acts : List Call}
    (hstart : start.cachedEpoch = -1) (hrun : Schedule.run DateTime.step start calls = some d)
    (hsec : 0 ≤ d.tvSec ∧ d.tvSec ≤ 253402300799)
    (hacts : Schedule.StepsMeet DateTime.step Allowed d acts) :
    ∀ front a rest, acts = front ++ a :: rest →
      ∃ t t', Schedule.run DateTime.step d front = some t ∧ t.step a = some t' ∧
        Moves (moment t) a (moment t') ∧ t'.tvNsec = t.tvNsec ∧
        (t'.call .ymdHMS).map Prod.fst = some (digits (moment t')) := by
  rintro front a rest rfl
  have hinv : d.CacheOk ∧ InYears (moment d) := by
    refine ⟨DateTime.run_cacheOk hstart hrun, ?_⟩
    rwa [inYears_iff, moment, Moment.seconds_ofSeconds]
  obtain ⟨hfront, hrest⟩ := (Schedule.stepsMeet_append DateTime.step).mp hacts
  have hstep : ∀ t b, t.CacheOk ∧ InYears (moment t) → Allowed t b →
      ∃ t', t.step b = some t' ∧ t'.CacheOk ∧ InYears (moment t') := by
    intro t b ht hb
    obtain ⟨t', ht', hinv', -⟩ := step_allowed ht hb
    exact ⟨t', ht', hinv'⟩
  obtain ⟨t, ht, htinv⟩ := Schedule.exists_run_of_meets DateTime.step
    (fun t => t.CacheOk ∧ InYears (moment t)) hstep hinv hfront
  obtain ⟨t', ht', hinv', hmoves, hnsec⟩ := step_allowed htinv (hrest t ht).1
  obtain ⟨tm, hget, -⟩ :=
    get_moment hinv'.1 (c := moment t') (Moment.seconds_ofSeconds _).symm hinv'.2
  exact ⟨t, t', ht, ht', hmoves, hnsec, by rw [hget]; rfl⟩

/-- Five o'clock on the leap day of 2000. -/
theorem setters_change_one_field_hour :
    ∃ t t', Schedule.run DateTime.step (.ofEpoch10 951782400) [] = some t ∧
      t.step (.set .hour 5) = some t' ∧ Moves (moment t) (.set .hour 5) (moment t') ∧
      t'.tvNsec = t.tvNsec ∧ (t'.call .ymdHMS).map Prod.fst = some (digits (moment t')) := by
  let c : Moment := ⟨⟨2000, 2, 29, by decide, by decide⟩, 0, 0, 0, by decide, by decide, by decide⟩
  let c' : Moment := { c with hour := 5, hour_mem := by decide }
  have hmoment : moment (.ofEpoch10 951782400) = c := Moment.ofSeconds_seconds c
  have hset : field c' = Function.update (field c) .hour 5 := by
    funext f
    cases f <;> rfl
  have hallowed : Allowed (.ofEpoch10 951782400) (.set .hour 5) := by
    refine ⟨c', by unfold InYears; decide, ?_⟩
    rw [hmoment]
    exact .set hset
  exact @setters_change_one_field (.ofEpoch10 951782400) _ [] [.set .hour 5] rfl rfl (by decide)
    ⟨hallowed, fun _ _ => trivial⟩ [] _ [] rfl

end Zrtools.Time
