import Mathlib.Data.List.TakeWhile
import Mathlib.Tactic.Ring
import Zrtools.Lib.Strings
import Zrtools.Time.Fields
import Zrtools.Time.Normal
import Zrtools.Time.Timegm

/-!
# zrtools — Formatting and parsing a `DateTime` (`zrt_time-inl.h`)

`ToFormat` and the constructor from a string leave the whole seconds to `std::put_time` and
`std::get_time`, which are parameters here, and do the fraction themselves: `.%f` stands for a
dot and digits of the nanoseconds, and without digits for nothing at all. The constructor looks
for the dot in any case.

* `ofString_isValue_iff` — the strings that the constructor can take;
* `roundTrips_iff` — the precisions at which a formatted time can be parsed;
* `fraction_survives` — both.
-/

namespace Zrtools.Time

open CInteger Gregorian Strings

-- ---------------------------------------------------------------------------
-- The code
-- ---------------------------------------------------------------------------

/-- How a call ends: with a value, with an exception, or with undefined behaviour. -/
inductive Outcome (α : Type)
  | value (a : α)
  | threw
  | undefined
  deriving DecidableEq

/-- `decimal_fmt`. -/
def decimalFmt : List Char := ['.', '%', 'f']

/-- `fmt::format("{:09}", n)`. -/
def format09 (n : Int) : List Char :=
  if n < 0 then '-' :: pad 8 n.natAbs else pad 9 n.natAbs

/-- `ToFormat(format, decimal_places)`. -/
def DateTime.toFormat (putTime : Tm → List Char → List Char) (d : DateTime) (format : List Char)
    (decimalPlaces : Nat) : Option (List Char × DateTime) := do
  let d ← d.updateTM
  let ret := putTime d.tm format
  match find decimalFmt ret with
  | some pos =>
    let decimals := (format09 d.tvNsec).take decimalPlaces
    let suffix := if decimals.isEmpty then [] else '.' :: decimals
    some (ret.take pos ++ suffix ++ ret.drop (pos + decimalFmt.length), d)
  | none => some (ret, d)

/-- `std::stol(decimals) * static_cast<int64_t>(std::pow(10, 9 - decimals.size()))`. -/
def scaleDecimals (decimals : List Char) : Outcome Int :=
  if decimals.length ≤ 9 then .value (value decimals * 10 ^ (9 - decimals.length))
  -- the size is unsigned, so the power is infinite
  else if 9223372036854775808 ≤ value decimals then .threw
  else .undefined

/-- The end of the constructor: `std::get_time`, and `UpdateEpoch` unless that fails. -/
def parseWhole (update : Tm → Option Int) (getTime : List Char → List Char → Tm → Tm × Bool)
    (tvNsec : Int) (timeStr format : List Char) : Outcome DateTime :=
  let (tm, good) := getTime timeStr format {}
  if good then
    match update tm with
    | some tvSec => .value { tvSec, tvNsec, tm }
    | none => .undefined
  else .value { tvSec := 0, tvNsec, tm }

/-- `DateTime(time_str, format)`, with the `TSUpdater` of the time zone. -/
def DateTime.ofString (update : Tm → Option Int)
    (getTime : List Char → List Char → Tm → Tm × Bool) (timeStr format : List Char) :
    Outcome DateTime :=
  if timeStr.isEmpty then .value { tvSec := 0, tvNsec := 0 }
  else
    match find decimalFmt format with
    | none => parseWhole update getTime 0 timeStr format
    | some fmtDotPos =>
      let timeDotPos := findLast (· == '.') timeStr
      -- `npos + 1` is 0
      let timeDecimalPos := (timeDotPos.map (· + 1)).getD 0
      let decimals := (timeStr.drop timeDecimalPos).takeWhile Char.isDigit
      match if decimals.isEmpty then .value 0 else scaleDecimals decimals with
      | .threw => .threw
      | .undefined => .undefined
      | .value tvNsec =>
        let format := format.take fmtDotPos ++ format.drop (fmtDotPos + decimalFmt.length)
        match timeDotPos with
        -- `erase` at `npos`
        | none => .threw
        | some pos =>
          let timeStr := timeStr.take pos ++ timeStr.drop (pos + (decimals.length + 1))
          parseWhole update getTime tvNsec timeStr format

/-- The one place of `.%f` at the end of a format. -/
theorem find_decimalFmt {s : List Char} (h : ¬decimalFmt <:+: s) :
    find decimalFmt (s ++ decimalFmt) = some s.length := by
  have hfind := find_append (by decide : '.' ∉ ['%', 'f']) h []
  rwa [List.append_nil] at hfind

-- ---------------------------------------------------------------------------
-- The strings the constructor takes
-- ---------------------------------------------------------------------------

/-- The digits after the last dot of a string. -/
def fraction (timeStr : List Char) : List Char :=
  match findLast (· == '.') timeStr with
  | some pos => (timeStr.drop (pos + 1)).takeWhile Char.isDigit
  | none => []

/-- The nanoseconds that the first nine digits of a fraction make. -/
def firstNine (digits : List Char) : Int :=
  value (digits.take 9) * 10 ^ (9 - (digits.take 9).length)

/-- Fields that `std::get_time` can leave: in their ranges, or still 0. -/
structure Parsed (tm : Tm) : Prop where
  year : -1900 ≤ tm.year ∧ tm.year ≤ 8099
  mon : 0 ≤ tm.mon ∧ tm.mon ≤ 11
  hour : 0 ≤ tm.hour ∧ tm.hour ≤ 23
  min : 0 ≤ tm.min ∧ tm.min ≤ 59

theorem fastTimegm_of_parsed {tm : Tm} (h : Parsed tm) : ∃ n, fastTimegm tm = some n := by
  obtain ⟨hyear, hmon, hhour, hmin⟩ := h
  have hmem : 0 ≤ tm.mon + 1 ∧ tm.mon + 1 ≤ 14 := by omega
  have hfits : YearFits (civilYear (tm.year + 1900) (UInt32.ofInt (tm.mon + 1))) := by
    rw [civilYear_ofInt _ hmem]
    unfold YearFits InInt32 marchYear
    split_ifs <;> omega
  have hdays := daysFromCivil_eq (UInt32.ofInt tm.mday) hfits.1 hfits.2
  unfold fastTimegm
  rw [int32_bind (by unfold InInt32; omega), int32_bind (by unfold InInt32; omega)]
  simp only [hdays, Option.bind_eq_bind, Option.bind_some]
  rw [int32_of_mem (by unfold InInt32; omega), int32_of_mem (by unfold InInt32; omega)]
  exact ⟨_, rfl⟩

/-- A few digits give their nanoseconds. -/
theorem scaleDecimals_few {decimals : List Char} (h : decimals.length ≤ 9) :
    (if decimals.isEmpty then .value 0 else scaleDecimals decimals) =
      .value (firstNine decimals) := by
  cases decimals with
  | nil => rfl
  | cons c decimals =>
    rw [List.isEmpty_cons, if_neg Bool.false_ne_true, scaleDecimals, if_pos h, firstNine,
      List.take_of_length_le h]

theorem scaleDecimals_many {decimals : List Char} (h : 9 < decimals.length) (n : Int) :
    (if decimals.isEmpty then .value 0 else scaleDecimals decimals) ≠ .value n := by
  have hne : decimals.isEmpty = false := by
    cases decimals with
    | nil => cases h
    | cons c decimals => rfl
  rw [hne, if_neg Bool.false_ne_true, scaleDecimals, if_neg (Nat.not_le_of_gt h)]
  split_ifs <;> exact nofun

/-- Without a dot there is nowhere to erase from. -/
theorem ofString_no_dot {update : Tm → Option Int}
    {getTime : List Char → List Char → Tm → Tm × Bool} {timeStr format : List Char}
    (hne : timeStr ≠ []) (hformat : (find decimalFmt format).isSome) (hdot : '.' ∉ timeStr)
    (d : DateTime) : DateTime.ofString update getTime timeStr format ≠ .value d := by
  obtain ⟨fmtDotPos, hfind⟩ := Option.isSome_iff_exists.mp hformat
  have hnone : findLast (· == '.') timeStr = none := by
    refine findLast_eq_none_iff.mpr fun c hc => ?_
    rw [beq_eq_false_iff_ne]
    rintro rfl
    exact hdot hc
  intro h
  simp only [DateTime.ofString, List.isEmpty_eq_false_iff.mpr hne, Bool.false_eq_true, if_false,
    hfind, hnone] at h
  split at h <;> cases h

section

variable {update : Tm → Option Int} {getTime : List Char → List Char → Tm → Tm × Bool}
  (hupdate : ∀ s f tm, getTime s f {} = (tm, true) → ∃ n, update tm = some n)

include hupdate

theorem parseWhole_isValue (tvNsec : Int) (timeStr format : List Char) :
    ∃ d, parseWhole update getTime tvNsec timeStr format = .value d ∧ d.tvNsec = tvNsec := by
  unfold parseWhole
  obtain ⟨tm, good, hget⟩ : ∃ tm good, getTime timeStr format {} = (tm, good) := ⟨_, _, rfl⟩
  rw [hget]
  cases good with
  | false => exact ⟨_, rfl, rfl⟩
  | true =>
    obtain ⟨n, hn⟩ := hupdate timeStr format tm hget
    exact ⟨{ tvSec := n, tvNsec, tm }, by simp only [hn, if_true], rfl⟩

/-- **The strings that the constructor takes**: those with a dot, and at most nine digits after
the last one. -/
theorem ofString_isValue_iff {timeStr format : List Char}
    (hformat : (find decimalFmt format).isSome) :
    (∃ d, DateTime.ofString update getTime timeStr format = .value d ∧
        d.tvNsec = firstNine (fraction timeStr)) ↔
      timeStr = [] ∨ '.' ∈ timeStr ∧ (fraction timeStr).length ≤ 9 := by
  rcases List.eq_nil_or_concat timeStr with rfl | ⟨_, _, hcons⟩
  · exact iff_of_true ⟨_, rfl, rfl⟩ (Or.inl rfl)
  have hne : timeStr ≠ [] := by simp [hcons]
  by_cases hmem : '.' ∈ timeStr
  · obtain ⟨fmtDotPos, hfind⟩ := Option.isSome_iff_exists.mp hformat
    obtain ⟨pos, hdot⟩ : ∃ pos, findLast (· == '.') timeStr = some pos := by
      refine Option.ne_none_iff_exists'.mp fun hnone => ?_
      have := findLast_eq_none_iff.mp hnone '.' hmem
      cases this
    have hfraction : fraction timeStr = (timeStr.drop (pos + 1)).takeWhile Char.isDigit := by
      rw [fraction, hdot]
    simp only [DateTime.ofString, List.isEmpty_eq_false_iff.mpr hne, Bool.false_eq_true, if_false,
      hfind, hdot, Option.map_some, Option.getD_some, ← hfraction, hne, hmem, false_or, true_and]
    rcases Nat.lt_or_ge 9 (fraction timeStr).length with hmany | hfew
    · refine iff_of_false ?_ (Nat.not_le_of_gt hmany)
      rintro ⟨d, h, -⟩
      split at h
      · cases h
      · cases h
      · rename_i n hscale
        exact scaleDecimals_many hmany n hscale
    · rw [scaleDecimals_few hfew]
      exact iff_of_true (parseWhole_isValue hupdate _ _ _) hfew
  · refine iff_of_false ?_ fun h => h.elim hne fun h => hmem h.1
    rintro ⟨d, h, -⟩
    exact ofString_no_dot hne hformat hmem d h

end

-- ---------------------------------------------------------------------------
-- Round trips
-- ---------------------------------------------------------------------------

/-- `%Y-%m-%dT%H:%M:%S`. -/
def wholeFmt : List Char := "%Y-%m-%dT%H:%M:%S".toList

/-- What `std::put_time` and `std::get_time` do with the whole seconds of a time: a conversion that
`put_time` does not know is copied, and `get_time` reads back the six fields. -/
structure PutGet (putTime : Tm → List Char → List Char)
    (getTime : List Char → List Char → Tm → Tm × Bool) (tm : Tm) : Prop where
  unknown : putTime tm (wholeFmt ++ decimalFmt) = putTime tm wholeFmt ++ decimalFmt
  ne_nil : putTime tm wholeFmt ≠ []
  no_dot : '.' ∉ putTime tm wholeFmt
  inverts : ∃ tm', getTime (putTime tm wholeFmt) wholeFmt {} = (tm', true) ∧ tm'.field = tm.field

section

variable {putTime : Tm → List Char → List Char}
  {getTime : List Char → List Char → Tm → Tm × Bool} {tm : Tm}

/-- What `ToFormat` makes of the fraction. -/
theorem toFormat_eq {d d' : DateTime} (h : PutGet putTime getTime tm) (htm : d'.tm = tm)
    (hupdate : d.updateTM = some d') (decimalPlaces : Nat) :
    d.toFormat putTime (wholeFmt ++ decimalFmt) decimalPlaces =
      some (putTime tm wholeFmt ++
        (if ((format09 d'.tvNsec).take decimalPlaces).isEmpty then []
          else '.' :: (format09 d'.tvNsec).take decimalPlaces), d') := by
  have hinfix : ¬decimalFmt <:+: putTime tm wholeFmt := fun hin =>
    h.no_dot (hin.subset (List.mem_cons_self ..))
  unfold DateTime.toFormat
  simp only [hupdate, Option.bind_eq_bind, Option.bind_some, htm, h.unknown, find_decimalFmt hinfix]
  simp

/-- The dot of a fraction. -/
theorem findLast_dot {whole digits : List Char} (h : ∀ c ∈ digits, c.isDigit = true) :
    findLast (· == '.') (whole ++ '.' :: digits) = some whole.length := by
  refine findLast_append rfl (fun c hc => ?_) whole
  have hdigit := h c hc
  rw [beq_eq_false_iff_ne]
  rintro rfl
  exact absurd hdigit (by decide)

/-- What the constructor makes of it. -/
theorem ofString_fraction {update : Tm → Option Int} {whole wfmt decimals : List Char}
    (hfmt : ¬decimalFmt <:+: wfmt) (hdigits : ∀ c ∈ decimals, c.isDigit = true)
    (hfew : decimals.length ≤ 9) :
    DateTime.ofString update getTime (whole ++ '.' :: decimals) (wfmt ++ decimalFmt) =
      parseWhole update getTime (firstNine decimals) whole wfmt := by
  have hdot : findLast (· == '.') (whole ++ '.' :: decimals) = some whole.length :=
    findLast_dot hdigits
  have htake : (decimals.takeWhile Char.isDigit) = decimals :=
    List.takeWhile_eq_self_iff.mpr hdigits
  have hne : (whole ++ '.' :: decimals).isEmpty = false := by simp
  unfold DateTime.ofString
  rw [hne, if_neg Bool.false_ne_true, find_decimalFmt hfmt]
  have hdrop : (whole ++ '.' :: decimals).drop (whole.length + 1) = decimals := by simp
  have herase : (whole ++ '.' :: decimals).drop (whole.length + (decimals.length + 1)) = [] := by
    simp
  simp only [hdot, Option.map_some, Option.getD_some, hdrop, htake, herase]
  rw [scaleDecimals_few hfew]
  simp

/-- The nanoseconds of the first digits of a fraction. -/
theorem firstNine_take {n : Nat} (h : n < 1000000000) (places : Nat) :
    firstNine ((pad 9 n).take places) =
      (n / 10 ^ (9 - min places 9) * 10 ^ (9 - min places 9) : Nat) := by
  have hlen : (pad 9 n).length = 9 := length_pad (by decide) h
  have hvalue := value_take (fun c (hc : c ∈ pad 9 n) => pad_digits hc) (min 9 places)
  rw [value_pad, hlen] at hvalue
  rw [firstNine, List.take_take, hvalue, List.length_take, hlen, min_comm 9 places, min_assoc,
    min_self]
  push_cast
  rfl

/-- The nanoseconds since 1970, to so many decimals of a second. -/
def truncate (epoch19 : Int) (places : Nat) : Int :=
  epoch19 / 10 ^ (9 - min places 9) * 10 ^ (9 - min places 9)

/-- The seconds stay. -/
theorem truncate_nanos (sec : Int) (n places : Nat) :
    truncate (sec * 1000000000 + n) places = sec * 1000000000 +
      (n / 10 ^ (9 - min places 9) * 10 ^ (9 - min places 9) : Nat) := by
  have hle : 9 - min places 9 ≤ 9 := Nat.sub_le ..
  rw [truncate]
  generalize 9 - min places 9 = k at hle
  have hsplit : (1000000000 : Int) = 10 ^ (9 - k) * 10 ^ k := by
    rw [← Int.pow_add, Nat.sub_add_cancel hle]
    rfl
  have hpow : (10 : Int) ^ k ≠ 0 := Int.pow_ne_zero (by decide)
  rw [hsplit, ← Int.mul_assoc, Int.add_comm, Int.add_mul_ediv_right _ _ hpow, Int.add_mul]
  push_cast
  ring

/-- Formatting and parsing give the time back, to so many decimals. -/
def RoundTrips (putTime : Tm → List Char → List Char)
    (getTime : List Char → List Char → Tm → Tm × Bool) (d : DateTime) (decimalPlaces : Nat) :
    Prop :=
  ∃ epoch19 timeStr d' parsed, d.epoch19 = some epoch19 ∧
    d.toFormat putTime (wholeFmt ++ decimalFmt) decimalPlaces = some (timeStr, d') ∧
    DateTime.ofString fastTimegm getTime timeStr (wholeFmt ++ decimalFmt) = .value parsed ∧
    parsed.epoch19 = some (truncate epoch19 decimalPlaces)

/-- The whole seconds come back. -/
theorem wholeSeconds_back {sec : Int} (htm : civilFromEpochUtc sec = some tm)
    (h : PutGet putTime getTime tm) (hsec : 0 ≤ sec ∧ sec ≤ 253402300799) :
    ∃ tm', getTime (putTime tm wholeFmt) wholeFmt {} = (tm', true) ∧
      fastTimegm tm' = some sec := by
  have hyears : InYears (Moment.ofSeconds sec) := by
    rwa [inYears_iff, Moment.seconds_ofSeconds]
  obtain ⟨tm₀, htm₀, hfield⟩ := civil_moment hyears
  rw [Moment.seconds_ofSeconds, htm, Option.some.injEq] at htm₀
  subst htm₀
  obtain ⟨tm', hget, hfield'⟩ := h.inverts
  have hback := timegm_moment hyears (hfield'.trans hfield)
  rw [Moment.seconds_ofSeconds] at hback
  exact ⟨tm', hget, hback⟩

/-- The digits of a fraction, unless none are asked for. -/
theorem take_pad_isEmpty {n places : Nat} (h : n < 1000000000) (hplaces : places ≠ 0) :
    ((pad 9 n).take places).isEmpty = false := by
  rw [List.isEmpty_eq_false_iff, Ne, List.take_eq_nil_iff]
  rintro (hzero | hnil)
  · exact hplaces hzero
  · have hlen : (pad 9 n).length = 9 := length_pad (by decide) h
    rw [hnil] at hlen
    cases hlen

/-- **The precisions at which a time survives**: all but 0, which leaves no dot. -/
theorem roundTrips_iff {d : DateTime} {epoch19 : Int} (hok : d.CacheOk)
    (htm : civilFromEpochUtc d.tvSec = some tm) (h : PutGet putTime getTime tm)
    (hepoch : d.epoch19 = some epoch19) (hpos : 0 ≤ epoch19)
    (hnsec : 0 ≤ d.tvNsec ∧ d.tvNsec < 1000000000) (decimalPlaces : Nat) :
    RoundTrips putTime getTime d decimalPlaces ↔ decimalPlaces ≠ 0 := by
  obtain ⟨n, hn⟩ : ∃ n : Nat, d.tvNsec = n := ⟨d.tvNsec.toNat, by omega⟩
  have hlt : n < 1000000000 := by omega
  have hnanos := DateTime.epoch19_eq hepoch
  unfold DateTime.nanos at hnanos
  have hmax : epoch19 ≤ 9223372036854775807 := by
    obtain ⟨_, -, hsum⟩ := Option.bind_eq_some_iff.mp hepoch
    obtain ⟨hmem, rfl⟩ := int64_eq_some_iff.mp hsum
    exact hmem.2
  have hsec : 0 ≤ d.tvSec ∧ d.tvSec ≤ 9223372036 := by omega
  have hupdate := DateTime.updateTM_eq hok (show d.tvSec ≠ -1 by omega)
  rw [htm, Option.map_some] at hupdate
  have hformat := toFormat_eq h rfl hupdate decimalPlaces
  have hformat09 : format09 d.tvNsec = pad 9 n := by
    rw [hn, format09, if_neg (by omega)]
    rfl
  simp only [hformat09] at hformat
  refine ⟨?_, ?_⟩
  · rintro ⟨_, _, _, parsed, -, hprint, hparse, -⟩ rfl
    rw [hformat, Option.some.injEq, Prod.mk.injEq] at hprint
    obtain ⟨rfl, -⟩ := hprint
    rw [List.take_zero, List.isEmpty_nil, if_pos rfl, List.append_nil] at hparse
    exact ofString_no_dot h.ne_nil (by decide) h.no_dot parsed hparse
  · intro hplaces
    rw [take_pad_isEmpty hlt hplaces, if_neg Bool.false_ne_true] at hformat
    have hlen : (pad 9 n).length = 9 := length_pad (by decide) hlt
    have hparse : DateTime.ofString fastTimegm getTime
        (putTime tm wholeFmt ++ '.' :: (pad 9 n).take decimalPlaces) (wholeFmt ++ decimalFmt) = _ :=
      ofString_fraction (by decide) (fun c hc => pad_digits (List.mem_of_mem_take hc))
        (by rw [List.length_take, hlen]; omega)
    obtain ⟨tm', hget, hback⟩ := wholeSeconds_back htm h (by omega)
    rw [parseWhole, hget] at hparse
    simp only [if_true, hback, firstNine_take hlt] at hparse
    refine ⟨epoch19, _, _, _, hepoch, hformat, hparse, ?_⟩
    have hround : n / 10 ^ (9 - min decimalPlaces 9) * 10 ^ (9 - min decimalPlaces 9) ≤ n :=
      Nat.div_mul_le_self ..
    rw [hnanos, hn, truncate_nanos, DateTime.epoch19,
      int64_bind (by unfold InInt64; simp only; omega)]
    exact int64_of_mem (by unfold InInt64; simp only; omega)

end

/-- **Fractions survive** formatting and parsing except without digits, and the constructor takes
the strings with a dot, and at most nine digits after the last one. -/
theorem fraction_survives {getTime : List Char → List Char → Tm → Tm × Bool}
    (hparsed : ∀ timeStr format tm, getTime timeStr format {} = (tm, true) → Parsed tm) :
    (∀ (putTime : Tm → List Char → List Char) (d : DateTime) (tm : Tm) (epoch19 : Int)
      (decimalPlaces : Nat), d.CacheOk → civilFromEpochUtc d.tvSec = some tm →
      PutGet putTime getTime tm → d.epoch19 = some epoch19 → 0 ≤ epoch19 →
      0 ≤ d.tvNsec ∧ d.tvNsec < 1000000000 →
        (RoundTrips putTime getTime d decimalPlaces ↔ decimalPlaces ≠ 0)) ∧
    ∀ timeStr format, (find decimalFmt format).isSome →
      ((∃ d, DateTime.ofString fastTimegm getTime timeStr format = .value d ∧
          d.tvNsec = firstNine (fraction timeStr)) ↔
        timeStr = [] ∨ '.' ∈ timeStr ∧ (fraction timeStr).length ≤ 9) := by
  have hupdate : ∀ timeStr format tm, getTime timeStr format {} = (tm, true) →
      ∃ n, fastTimegm tm = some n := fun _ _ _ hget => fastTimegm_of_parsed (hparsed _ _ _ hget)
  exact ⟨fun _ d tm epoch19 decimalPlaces hok htm h hepoch hpos hnsec =>
      roundTrips_iff hok htm h hepoch hpos hnsec decimalPlaces,
    fun timeStr format hformat => ofString_isValue_iff hupdate hformat⟩

/-- 29 February 2000, as `std::put_time` writes it and `std::get_time` reads it. -/
def leapDayTm : Tm := { mday := 29, mon := 1, year := 100, wday := 2, yday := 59, zone := "UTC" }

def leapDayStr : List Char := "2000-02-29T00:00:00".toList

def putLeapDay (_ : Tm) (format : List Char) : List Char :=
  if format = wholeFmt ++ decimalFmt then leapDayStr ++ decimalFmt else leapDayStr

def getLeapDay (timeStr _ : List Char) (tm : Tm) : Tm × Bool :=
  if timeStr = leapDayStr then ({ tm with mday := 29, mon := 1, year := 100 }, true)
  else (tm, false)

/-- Without decimals the constructor throws, and so it does without a dot. -/
theorem fraction_survives_no_decimals :
    (¬RoundTrips putLeapDay getLeapDay ⟨951782400, 500000000, {}, -1⟩ 0) ∧
      DateTime.ofString fastTimegm getLeapDay leapDayStr (wholeFmt ++ decimalFmt) = .threw ∧
      DateTime.ofString fastTimegm getLeapDay (leapDayStr ++ ".0123456789".toList)
        (wholeFmt ++ decimalFmt) = .undefined := by
  refine ⟨?_, by decide, by decide⟩
  rintro ⟨_, timeStr, d', parsed, -, hprint, hparse, -⟩
  have heq : DateTime.toFormat putLeapDay ⟨951782400, 500000000, {}, -1⟩
      (wholeFmt ++ decimalFmt) 0 =
        some (leapDayStr, ⟨951782400, 500000000, leapDayTm, 951782400⟩) := by decide
  rw [heq, Option.some.injEq, Prod.mk.injEq] at hprint
  have hthrow : DateTime.ofString fastTimegm getLeapDay leapDayStr (wholeFmt ++ decimalFmt) =
    .threw := by decide
  rw [← hprint.1, hthrow] at hparse
  cases hparse

/-- Half a second to one decimal. -/
theorem fraction_survives_one_decimal :
    RoundTrips putLeapDay getLeapDay ⟨951782400, 500000000, {}, -1⟩ 1 ∧
      ∃ d, DateTime.ofString fastTimegm getLeapDay (leapDayStr ++ ".5".toList)
        (wholeFmt ++ decimalFmt) = .value d ∧ d.tvNsec = firstNine ['5'] := by
  have hparsed : ∀ timeStr format tm, getLeapDay timeStr format {} = (tm, true) → Parsed tm := by
    intro timeStr format tm hget
    unfold getLeapDay at hget
    split_ifs at hget
    · cases hget
      exact ⟨by decide, by decide, by decide, by decide⟩
    · cases hget
  have hput : PutGet putLeapDay getLeapDay leapDayTm :=
    ⟨by decide, by decide, by decide, ⟨_, rfl, by funext f; cases f <;> rfl⟩⟩
  exact ⟨((fraction_survives hparsed).1 putLeapDay _ leapDayTm 951782400500000000 1 (Or.inl rfl)
      (by decide) hput (by decide) (by decide) (by decide)).mpr (by decide),
    ((fraction_survives hparsed).2 _ _ (by decide)).mpr (Or.inr (by decide))⟩

end Zrtools.Time
