import Mathlib.Tactic.IntervalCases
import Zrtools.Time.Format
import Zrtools.Wal.Log

/-!
# zrtools — Strings to milliseconds (`zrt_time.h`, `zrt_time-inl.h`)

`get_epoch13` and `DateTimeLocal` both take a string apart at its fraction. The constructor scales
the digits by their number; `get_epoch13` adds them as they are, as if there were always three.

* `stoi_digits` — a few digits are an `int`;
* `epoch13_paths_agree_iff` — when both give the same milliseconds.
-/

namespace Zrtools.Time

open CInteger Strings
open Wal (isSpace splitSign digit_facts)

-- ---------------------------------------------------------------------------
-- The code
-- ---------------------------------------------------------------------------

/-- `std::stoi(s)`. -/
def stoi (s : List Char) : Outcome Int :=
  let (negative, s) := splitSign (s.dropWhile isSpace)
  let digits := s.takeWhile Char.isDigit
  if digits.isEmpty then .threw
  else
    let n : Int := if negative then -value digits else value digits
    if InInt32 n then .value n else .threw

/-- `get_epoch13(time_str, format)`. -/
def getEpoch13 (strptime : List Char → List Char → Tm → Tm) (mktime : Tm → Int)
    (timeStr format : List Char) : Outcome Int :=
  if timeStr.isEmpty then .value 0
  else
    let ft := mktime (strptime timeStr format {})
    -- `format[format.find_last_of("%f") - 2]`
    match (findLast (fun c => c == '%' || c == 'f') format).bind fun pos =>
      if 2 ≤ pos then format[pos - 2]? else none with
    | none => .undefined
    | some delimiter =>
      let pos := ((findLast (· == delimiter) timeStr).map (· + 1)).getD 0
      match stoi (timeStr.drop pos) with
      | .threw => .threw
      | .undefined => .undefined
      | .value mill =>
        match (int64 (ft * 1000)).bind fun ms => int64 (ms + mill) with
        | some n => .value n
        | none => .undefined

/-- `Epoch13()`. -/
def DateTime.epoch13 (d : DateTime) : Option Int :=
  d.epoch19.map fun n => (n.tdiv 1000).tdiv 1000

-- ---------------------------------------------------------------------------
-- Both paths
-- ---------------------------------------------------------------------------

theorem stoi_digits {digits : List Char} (hne : digits ≠ []) (hlen : digits.length ≤ 9)
    (hdigits : ∀ c ∈ digits, c.isDigit = true) : stoi digits = .value (value digits) := by
  have hlt : value digits < 1000000000 :=
    lt_of_lt_of_le (value_lt hdigits) (Nat.pow_le_pow_right (by decide) hlen)
  have htake : digits.takeWhile Char.isDigit = digits := List.takeWhile_eq_self_iff.mpr hdigits
  have hplain : splitSign (digits.dropWhile isSpace) = (false, digits) := by
    cases digits with
    | nil => exact absurd rfl hne
    | cons c rest =>
      obtain ⟨-, -, hminus, hplus, hspace⟩ := digit_facts (hdigits c (List.mem_cons_self ..))
      rw [List.dropWhile_cons_of_neg (by simp [hspace]), splitSign]
      · exact fun t h => hminus (List.cons.inj h).1
      · exact fun t h => hplus (List.cons.inj h).1
  have hint : InInt32 (value digits) := by
    unfold InInt32
    omega
  rw [stoi, hplain]
  simp only [htake, List.isEmpty_eq_false_iff.mpr hne, Bool.false_eq_true, if_false, if_pos hint]

/-- The digits as `get_epoch13` takes them. -/
theorem getEpoch13_fraction {strptime : List Char → List Char → Tm → Tm} {mktime : Tm → Int}
    {whole wfmt digits : List Char} (hne : digits ≠ []) (hlen : digits.length ≤ 9)
    (hdigits : ∀ c ∈ digits, c.isDigit = true) :
    getEpoch13 strptime mktime (whole ++ '.' :: digits) (wfmt ++ decimalFmt) =
      match (int64 (mktime (strptime (whole ++ '.' :: digits) (wfmt ++ decimalFmt) {}) * 1000)).bind
        fun ms => int64 (ms + value digits) with
      | some n => .value n
      | none => .undefined := by
  have hpercent : findLast (fun c => c == '%' || c == 'f') (wfmt ++ decimalFmt) =
      some (wfmt.length + 2) := by
    have hlast := findLast_append (p := fun c => c == '%' || c == 'f') (c := 'f') (by decide)
      (List.forall_mem_nil _) (wfmt ++ ['.', '%'])
    simpa [decimalFmt] using hlast
  have hdelimiter : (wfmt ++ decimalFmt)[wfmt.length + 2 - 2]? = some '.' := by
    simp [decimalFmt]
  have hdot : findLast (· == '.') (whole ++ '.' :: digits) = some whole.length :=
    findLast_dot hdigits
  have hdrop : (whole ++ '.' :: digits).drop (whole.length + 1) = digits := by simp
  have hempty : (whole ++ '.' :: digits).isEmpty = false := by simp
  rw [getEpoch13, hempty, if_neg Bool.false_ne_true, hpercent]
  simp only [Option.bind_some, if_pos (Nat.le_add_left 2 _), hdelimiter, hdot, Option.map_some,
    Option.getD_some, hdrop, stoi_digits hne hlen hdigits]

/-- The digits as `Epoch13()` takes them: scaled, and rounded to zero. -/
theorem epoch13_eq (sec : Int) {nsec : Int} {tm : Tm}
    (hfits : InInt64 (sec * 1000000000) ∧ InInt64 (sec * 1000000000 + nsec)) :
    ({ tvSec := sec, tvNsec := nsec, tm } : DateTime).epoch13 =
      some ((sec * 1000000000 + nsec).tdiv 1000000) := by
  rw [DateTime.epoch13, DateTime.epoch19, int64_bind hfits.1, int64_of_mem hfits.2,
    Option.map_some, tdiv_tdiv _ (by decide)]
  rfl

theorem epoch13_eq_some {sec nsec n : Int} {tm : Tm}
    (h : ({ tvSec := sec, tvNsec := nsec, tm } : DateTime).epoch13 = some n) :
    InInt64 (sec * 1000000000) ∧ InInt64 (sec * 1000000000 + nsec) := by
  obtain ⟨_, hepoch, -⟩ := Option.map_eq_some_iff.mp h
  obtain ⟨_, hmul, hsum⟩ := Option.bind_eq_some_iff.mp hepoch
  obtain ⟨hmem, rfl⟩ := int64_eq_some_iff.mp hmul
  exact ⟨hmem, (int64_eq_some_iff.mp hsum).1⟩

/-- **Plain and scaled digits**: three of them are milliseconds, a fraction of 0 is none, and before
1970 a 1 after zeros is rounded to one. -/
theorem scaled_eq_plain_iff (sec : Int) {n k : Nat} (hk : 1 ≤ k ∧ k ≤ 9) (hn : n < 10 ^ k) :
    (sec * 1000000000 + n * 10 ^ (9 - k)).tdiv 1000000 = sec * 1000 + n ↔
      k = 3 ∨ n = 0 ∨ sec < 0 ∧ 3 < k ∧ n = 1 := by
  rw [tdiv_of_pos _ (by decide)]
  obtain ⟨hlow, hhigh⟩ := hk
  interval_cases k <;> norm_num at hn ⊢ <;> split_ifs <;> omega

/-- **When both paths give the same milliseconds**, if they read the whole seconds alike: the time
in nanoseconds fits into 64 bits, and the digits are milliseconds. -/
theorem epoch13_paths_agree_iff {strptime : List Char → List Char → Tm → Tm}
    {getTime : List Char → List Char → Tm → Tm × Bool} {mktime : Tm → Int}
    {whole wfmt digits : List Char} {tm : Tm} (hfmt : ¬decimalFmt <:+: wfmt)
    (hlen : 1 ≤ digits.length ∧ digits.length ≤ 9) (hdigits : ∀ c ∈ digits, c.isDigit = true)
    (hstrptime : strptime (whole ++ '.' :: digits) (wfmt ++ decimalFmt) {} = tm)
    (hgetTime : getTime whole wfmt {} = (tm, true)) :
    (∃ n d, getEpoch13 strptime mktime (whole ++ '.' :: digits) (wfmt ++ decimalFmt) = .value n ∧
      DateTime.ofString (fun tm => some (mktime tm)) getTime (whole ++ '.' :: digits)
        (wfmt ++ decimalFmt) = .value d ∧ d.epoch13 = some n) ↔
      (InInt64 (mktime tm * 1000000000) ∧
        InInt64 (mktime tm * 1000000000 + firstNine digits)) ∧
        (digits.length = 3 ∨ value digits = 0 ∨
          mktime tm < 0 ∧ 3 < digits.length ∧ value digits = 1) := by
  have hne : digits ≠ [] := List.ne_nil_of_length_pos hlen.1
  have hlt := value_lt hdigits
  have hmill : value digits < 1000000000 :=
    lt_of_lt_of_le hlt (Nat.pow_le_pow_right (by decide) hlen.2)
  have hnano : firstNine digits = value digits * 10 ^ (9 - digits.length) := by
    rw [firstNine, List.take_of_length_le hlen.2]
  rw [getEpoch13_fraction hne hlen.2 hdigits, hstrptime, ofString_fraction hfmt hdigits hlen.2,
    parseWhole, hgetTime, ← scaled_eq_plain_iff (mktime tm) hlen hlt, ← hnano]
  simp only [if_true]
  generalize mktime tm = ft
  refine ⟨?_, ?_⟩
  · rintro ⟨n, d, hplain, heq, hscaled⟩
    cases heq
    have hfits := epoch13_eq_some hscaled
    rw [epoch13_eq ft hfits, Option.some.injEq] at hscaled
    refine ⟨hfits, hscaled.trans ?_⟩
    split at hplain
    · rename_i m hsum
      obtain ⟨_, hms, hsum⟩ := Option.bind_eq_some_iff.mp hsum
      obtain ⟨-, rfl⟩ := int64_eq_some_iff.mp hms
      cases hplain
      exact (int64_eq_some_iff.mp hsum).2
    · cases hplain
  · rintro ⟨hfits, hscaled⟩
    refine ⟨ft * 1000 + value digits, _, ?_, rfl, ?_⟩
    · unfold InInt64 at hfits
      rw [int64_of_mem (by unfold InInt64; omega), Option.bind_some,
        int64_of_mem (by unfold InInt64; omega)]
    · rw [epoch13_eq ft hfits, hscaled]

/-- `mktime` where local time is UTC. -/
def utcMktime (tm : Tm) : Int := (fastTimegm tm).getD (-1)

def strptimeLeapDay (_ _ : List Char) (tm : Tm) : Tm :=
  { tm with mday := 29, mon := 1, year := 100 }

/-- Half a second is 5 milliseconds to one path, and 500 to the other. -/
theorem epoch13_paths_one_digit :
    getEpoch13 strptimeLeapDay utcMktime (leapDayStr ++ ".5".toList) (wholeFmt ++ decimalFmt) =
        .value 951782400005 ∧
      ∃ d, DateTime.ofString (fun tm => some (utcMktime tm)) getLeapDay
          (leapDayStr ++ ".5".toList) (wholeFmt ++ decimalFmt) = .value d ∧
        d.epoch13 = some 951782400500 :=
  ⟨by decide, ⟨951782400, 500000000, { mday := 29, mon := 1, year := 100 }, -1⟩, by decide,
    by decide⟩

/-- With three digits both give 500. -/
theorem epoch13_paths_three_digits :
    ∃ n d, getEpoch13 strptimeLeapDay utcMktime (leapDayStr ++ '.' :: "500".toList)
        (wholeFmt ++ decimalFmt) = .value n ∧
      DateTime.ofString (fun tm => some (utcMktime tm)) getLeapDay
        (leapDayStr ++ '.' :: "500".toList) (wholeFmt ++ decimalFmt) = .value d ∧
      d.epoch13 = some n :=
  (@epoch13_paths_agree_iff strptimeLeapDay getLeapDay utcMktime _ _ _ _ (by decide) (by decide)
    (List.all_eq_true.mp (by decide)) rfl rfl).mpr (by decide)

end Zrtools.Time
