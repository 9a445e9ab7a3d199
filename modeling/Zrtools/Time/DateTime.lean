import Zrtools.Lib.Schedule
import Zrtools.Time.Calendar

/-!
# zrtools — `DateTime<kUTC>` (`zrt_time.h`, `zrt_time-inl.h`)

A `DateTimeUTC` is a `timespec`, with its calendar fields decoded on demand: `UpdateTM` keeps the
last second it decoded, and -1 says that there is none. Arithmetic that overflows has no result.

* `DateTime.step_cacheOk` — what the kept fields are worth;
* `getters_fresh` — after any calls, whatever the getters did before, they show the second that
  `tv_sec` holds, as long as that is not -1.
-/

namespace Zrtools.Time

open CInteger

-- ---------------------------------------------------------------------------
-- The code
-- ---------------------------------------------------------------------------

/-- The numbers the getters make of the fields. -/
def Tm.hms (tm : Tm) : Option Int := do
  let hour ← int32 (tm.hour * 10000)
  let min ← int32 (tm.min * 100)
  let time ← int32 (hour + min)
  int32 (time + tm.sec)

def Tm.ymd (tm : Tm) : Option Int := do
  let year ← int32 (tm.year + 1900)
  let year ← int32 (year * 10000)
  let mon ← int32 (tm.mon + 1)
  let mon ← int32 (mon * 100)
  let date ← int32 (year + mon)
  int32 (date + tm.mday)

def Tm.ymdHMS (tm : Tm) : Option Int := do
  let year ← int32 (tm.year + 1900)
  let year ← int64 (year * 10000)
  let mon ← int32 (tm.mon + 1)
  let mon ← int32 (mon * 100)
  let date ← int64 (year + mon)
  let date ← int64 (date + tm.mday)
  let date ← int64 (date * 1000000)
  let time ← tm.hms
  int64 (date + time)

/-- `DateTime<kUTC>`: `m_ts`, `m_tm` and `m_cached_epoch`. -/
structure DateTime where
  tvSec : Int
  tvNsec : Int
  tm : Tm := {}
  cachedEpoch : Int := -1
  deriving DecidableEq

namespace DateTime

/-- `DateTime(epoch10)`. -/
def ofEpoch10 (epoch10 : Int) : DateTime where
  tvSec := epoch10
  tvNsec := 0

/-- `DateTime(epoch, digits)`; the assertion on the digits is compiled out. -/
def ofEpoch (epoch digits : Int) : DateTime :=
  if digits = 10 then { tvSec := epoch, tvNsec := 0 }
  else if digits = 13 then { tvSec := epoch.tdiv 1000, tvNsec := epoch.tmod 1000 * 1000000 }
  else if digits = 16 then { tvSec := epoch.tdiv 1000000, tvNsec := epoch.tmod 1000000 * 1000 }
  else if digits = 19 then
    { tvSec := epoch.tdiv 1000000000, tvNsec := epoch.tmod 1000000000 }
  else { tvSec := 0, tvNsec := 0 }

/-- `Epoch19()`. -/
def epoch19 (d : DateTime) : Option Int := do
  let nano ← int64 (d.tvSec * 1000000000)
  int64 (nano + d.tvNsec)

/-- `Epoch10()`. -/
def epoch10 (d : DateTime) : Int := d.tvSec

/-- `UpdateEpoch()`. -/
def updateEpoch (d : DateTime) : Option DateTime := do
  let tvSec ← fastTimegm d.tm
  some { d with tvSec, cachedEpoch := -1 }

/-- `UpdateTM()`. -/
def updateTM (d : DateTime) : Option DateTime :=
  if d.tvSec = d.cachedEpoch then some d
  else do
    let tm ← civilFromEpochUtc d.tvSec
    some { d with tm, cachedEpoch := d.tvSec }

/-- The getters read their number off the updated fields. -/
def get (d : DateTime) (read : Tm → Option Int) : Option (Int × DateTime) := do
  let d ← d.updateTM
  let n ← read d.tm
  some (n, d)

/-- `GetHMS()`, `GetYmd()`, `GetYmdHMS()`. -/
def getHMS (d : DateTime) : Option (Int × DateTime) := d.get Tm.hms

def getYmd (d : DateTime) : Option (Int × DateTime) := d.get Tm.ymd

def getYmdHMS (d : DateTime) : Option (Int × DateTime) := d.get Tm.ymdHMS

/-- The setters write one of the updated fields, and update the second. -/
def setTm (d : DateTime) (write : Tm → Option Tm) : Option DateTime := do
  let d ← d.updateTM
  let tm ← write d.tm
  { d with tm }.updateEpoch

/-- `SetYear(year)` to `SetSec(sec)`. -/
def setYear (d : DateTime) (year : Int) : Option DateTime :=
  d.setTm fun tm => (int32 (year - 1900)).map fun year => { tm with year }

def setMon (d : DateTime) (mon : Int) : Option DateTime :=
  d.setTm fun tm => (int32 (mon - 1)).map fun mon => { tm with mon }

def setDay (d : DateTime) (day : Int) : Option DateTime :=
  d.setTm fun tm => some { tm with mday := day }

def setHour (d : DateTime) (hour : Int) : Option DateTime :=
  d.setTm fun tm => some { tm with hour }

def setMin (d : DateTime) (min : Int) : Option DateTime :=
  d.setTm fun tm => some { tm with min }

def setSec (d : DateTime) (sec : Int) : Option DateTime :=
  d.setTm fun tm => some { tm with sec }

/-- `SetNano(nano)`. -/
def setNano (d : DateTime) (nano : Int) : DateTime := { d with tvNsec := nano }

/-- `OffsetSec(sec)`, and `OffsetDay(day)` to `OffsetMin(min)`, which multiply first. -/
def offsetSec (d : DateTime) (sec : Int) : Option DateTime := do
  let tvSec ← int64 (d.tvSec + sec)
  some { d with tvSec, cachedEpoch := -1 }

def offsetDay (d : DateTime) (day : Int) : Option DateTime :=
  (int64 (day * 86400)).bind d.offsetSec

def offsetHour (d : DateTime) (hour : Int) : Option DateTime :=
  (int64 (hour * 3600)).bind d.offsetSec

def offsetMin (d : DateTime) (min : Int) : Option DateTime :=
  (int64 (min * 60)).bind d.offsetSec

/-- `OffsetNano(nano)`, and `OffsetMSec(ms)` and `OffsetUSec(us)`, which multiply first. -/
def offsetNano (d : DateTime) (nano : Int) : Option DateTime := do
  let epoch19 ← d.epoch19
  let time ← int64 (epoch19 + nano)
  some { d with
    tvSec := time.tdiv 1000000000
    tvNsec := time.tmod 1000000000
    cachedEpoch := -1 }

def offsetMSec (d : DateTime) (ms : Int) : Option DateTime :=
  (int64 (ms * 1000)).bind fun us => (int64 (us * 1000)).bind d.offsetNano

def offsetUSec (d : DateTime) (us : Int) : Option DateTime :=
  (int64 (us * 1000)).bind d.offsetNano

end DateTime

-- ---------------------------------------------------------------------------
-- Calls
-- ---------------------------------------------------------------------------

inductive Getter
  | hms
  | ymd
  | ymdHMS
  deriving DecidableEq

def Getter.read : Getter → Tm → Option Int
  | hms => Tm.hms
  | ymd => Tm.ymd
  | ymdHMS => Tm.ymdHMS

inductive Field
  | year
  | mon
  | day
  | hour
  | min
  | sec
  deriving DecidableEq

inductive Offset
  | day
  | hour
  | min
  | sec
  | mSec
  | uSec
  | nano
  deriving DecidableEq

/-- The seconds, or the nanoseconds, an offset counts in. -/
def Offset.seconds : Offset → Option Int
  | day => some 86400
  | hour => some 3600
  | min => some 60
  | sec => some 1
  | mSec | uSec | nano => none

def Offset.nanos : Offset → Option Int
  | mSec => some 1000000
  | uSec => some 1000
  | nano => some 1
  | day | hour | min | sec => none

/-- A call on a `DateTime`. -/
inductive Call
  | get (g : Getter)
  | set (f : Field) (value : Int)
  | setNano (nano : Int)
  | offset (unit : Offset) (amount : Int)
  deriving DecidableEq

namespace DateTime

def call (d : DateTime) (g : Getter) : Option (Int × DateTime) :=
  match g with
  | .hms => d.getHMS
  | .ymd => d.getYmd
  | .ymdHMS => d.getYmdHMS

def set (d : DateTime) (f : Field) (value : Int) : Option DateTime :=
  match f with
  | .year => d.setYear value
  | .mon => d.setMon value
  | .day => d.setDay value
  | .hour => d.setHour value
  | .min => d.setMin value
  | .sec => d.setSec value

def offset (d : DateTime) (unit : Offset) (amount : Int) : Option DateTime :=
  match unit with
  | .day => d.offsetDay amount
  | .hour => d.offsetHour amount
  | .min => d.offsetMin amount
  | .sec => d.offsetSec amount
  | .mSec => d.offsetMSec amount
  | .uSec => d.offsetUSec amount
  | .nano => d.offsetNano amount

/-- One call. -/
def step (d : DateTime) : Call → Option DateTime
  | .get g => (d.call g).map Prod.snd
  | .set f value => d.set f value
  | .setNano nano => some (d.setNano nano)
  | .offset unit amount => d.offset unit amount

theorem call_eq (d : DateTime) (g : Getter) : d.call g = d.get g.read := by
  cases g <;> rfl

/-- What a setter writes. -/
def write (f : Field) (value : Int) (tm : Tm) : Option Tm :=
  match f with
  | .year => (int32 (value - 1900)).map fun year => { tm with year }
  | .mon => (int32 (value - 1)).map fun mon => { tm with mon }
  | .day => some { tm with mday := value }
  | .hour => some { tm with hour := value }
  | .min => some { tm with min := value }
  | .sec => some { tm with sec := value }

theorem set_eq (d : DateTime) (f : Field) (value : Int) :
    d.set f value = d.setTm (write f value) := by
  cases f <;> rfl

-- ---------------------------------------------------------------------------
-- The kept fields
-- ---------------------------------------------------------------------------

/-- The fields are those of `tv_sec`, or count as not decoded. -/
def CacheOk (d : DateTime) : Prop :=
  d.cachedEpoch = -1 ∨ d.cachedEpoch = d.tvSec ∧ civilFromEpochUtc d.tvSec = some d.tm

/-- Except at -1, `UpdateTM` leaves the fields of `tv_sec`. -/
theorem updateTM_eq {d : DateTime} (hok : CacheOk d) (hsec : d.tvSec ≠ -1) :
    d.updateTM =
      (civilFromEpochUtc d.tvSec).map fun tm => { d with tm, cachedEpoch := d.tvSec } := by
  unfold updateTM
  split_ifs with hhit
  · rcases hok with hnone | ⟨hcached, htm⟩
    · exact absurd (hhit.trans hnone) hsec
    · cases d
      simp only at hcached htm
      rw [htm, hcached]
      rfl
  · cases civilFromEpochUtc d.tvSec <;> rfl

theorem updateTM_cacheOk {d d' : DateTime} (hok : CacheOk d) (h : d.updateTM = some d') :
    CacheOk d' := by
  unfold updateTM at h
  split_ifs at h with hhit
  · cases h
    exact hok
  · obtain ⟨tm, htm, h⟩ := Option.bind_eq_some_iff.mp h
    cases h
    exact Or.inr ⟨rfl, htm⟩

theorem set_uncached {d d' : DateTime} {f : Field} {value : Int} (h : d.set f value = some d') :
    d'.cachedEpoch = -1 := by
  rw [set_eq] at h
  obtain ⟨_, -, h⟩ := Option.bind_eq_some_iff.mp h
  obtain ⟨_, -, h⟩ := Option.bind_eq_some_iff.mp h
  obtain ⟨_, -, h⟩ := Option.bind_eq_some_iff.mp h
  cases h
  rfl

theorem offsetSec_uncached {d d' : DateTime} {sec : Int} (h : d.offsetSec sec = some d') :
    d'.cachedEpoch = -1 := by
  obtain ⟨_, -, h⟩ := Option.bind_eq_some_iff.mp h
  cases h
  rfl

theorem offsetNano_uncached {d d' : DateTime} {nano : Int} (h : d.offsetNano nano = some d') :
    d'.cachedEpoch = -1 := by
  obtain ⟨_, -, h⟩ := Option.bind_eq_some_iff.mp h
  obtain ⟨_, -, h⟩ := Option.bind_eq_some_iff.mp h
  cases h
  rfl

theorem offset_uncached {d d' : DateTime} {unit : Offset} {amount : Int}
    (h : d.offset unit amount = some d') : d'.cachedEpoch = -1 := by
  cases unit with
  | sec => exact offsetSec_uncached h
  | nano => exact offsetNano_uncached h
  | day | hour | min =>
    obtain ⟨_, -, h⟩ := Option.bind_eq_some_iff.mp h
    exact offsetSec_uncached h
  | uSec =>
    obtain ⟨_, -, h⟩ := Option.bind_eq_some_iff.mp h
    exact offsetNano_uncached h
  | mSec =>
    obtain ⟨_, -, h⟩ := Option.bind_eq_some_iff.mp h
    obtain ⟨_, -, h⟩ := Option.bind_eq_some_iff.mp h
    exact offsetNano_uncached h

/-- **No call leaves the fields of another second.** -/
theorem step_cacheOk {d d' : DateTime} {c : Call} (hok : CacheOk d) (h : d.step c = some d') :
    CacheOk d' := by
  cases c with
  | get g =>
    rw [step, call_eq] at h
    obtain ⟨⟨_, _⟩, hget, rfl⟩ := Option.map_eq_some_iff.mp h
    obtain ⟨_, hupdate, hget⟩ := Option.bind_eq_some_iff.mp hget
    obtain ⟨_, -, hget⟩ := Option.bind_eq_some_iff.mp hget
    cases hget
    exact updateTM_cacheOk hok hupdate
  | set f value => exact Or.inl (set_uncached h)
  | setNano nano =>
    cases h
    exact hok
  | offset unit amount => exact Or.inl (offset_uncached h)

theorem run_cacheOk {start d : DateTime} {calls : List Call} (hstart : start.cachedEpoch = -1)
    (hrun : Schedule.run step start calls = some d) : CacheOk d :=
  Schedule.run_invariant step CacheOk (fun _ _ _ => step_cacheOk) (Or.inl hstart) hrun

/-- What a getter returns of fields that are fresh. -/
theorem call_of_cacheOk {d : DateTime} (hok : CacheOk d) (hsec : d.tvSec ≠ -1) (g : Getter) :
    (d.call g).map Prod.fst = (civilFromEpochUtc d.tvSec).bind g.read := by
  rw [call_eq, get, updateTM_eq hok hsec]
  cases civilFromEpochUtc d.tvSec with
  | none => rfl
  | some tm =>
    simp only [Option.map_some, Option.bind_eq_bind, Option.bind_some]
    cases g.read tm <;> rfl

end DateTime

/-- The constructors from an epoch. -/
inductive Origin
  | epoch10 (epoch10 : Int)
  | epoch (epoch digits : Int)
  deriving DecidableEq

def Origin.start : Origin → DateTime
  | epoch10 n => .ofEpoch10 n
  | epoch n digits => .ofEpoch n digits

theorem Origin.start_undecoded (o : Origin) : o.start.tm = {} ∧ o.start.cachedEpoch = -1 := by
  cases o with
  | epoch10 n => exact ⟨rfl, rfl⟩
  | epoch n digits =>
    show (DateTime.ofEpoch n digits).tm = {} ∧ (DateTime.ofEpoch n digits).cachedEpoch = -1
    unfold DateTime.ofEpoch
    split_ifs <;> exact ⟨rfl, rfl⟩

/-- **Getters are fresh, except at -1**: after any calls, a getter shows the fields of the second
in `tv_sec`. -/
theorem getters_fresh {o : Origin} {calls : List Call} {d : DateTime}
    (hrun : Schedule.run DateTime.step o.start calls = some d) (hsec : d.tvSec ≠ -1) (g : Getter) :
    (d.call g).map Prod.fst = (civilFromEpochUtc d.tvSec).bind g.read :=
  DateTime.call_of_cacheOk (DateTime.run_cacheOk o.start_undecoded.2 hrun) hsec g

/-- At -1 nothing is decoded. -/
theorem getters_minus_one :
    ∃ o : Origin, (o.start.call .ymdHMS).map Prod.fst ≠
      (civilFromEpochUtc o.start.tvSec).bind Tm.ymdHMS :=
  ⟨.epoch10 (-1), by decide⟩

/-- A day past the end of 1969. -/
theorem getters_fresh_offset :
    ∃ d, Schedule.run DateTime.step (Origin.epoch10 (-1)).start [.get .ymd, .offset .day 1] =
        some d ∧
      (d.call .ymdHMS).map Prod.fst = (civilFromEpochUtc d.tvSec).bind Tm.ymdHMS :=
  ⟨⟨86399, 0, {}, -1⟩, by decide,
    getters_fresh (o := .epoch10 (-1)) (show Schedule.run DateTime.step (Origin.epoch10 (-1)).start
      [.get .ymd, .offset .day 1] = some ⟨86399, 0, {}, -1⟩ by decide) (by decide) .ymdHMS⟩

end Zrtools.Time
