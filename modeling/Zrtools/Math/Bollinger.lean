import Mathlib.Algebra.Order.Field.Rat
import Zrtools.Lib.Moments
import Zrtools.Lib.Schedule

/-!
# zrtools — Bollinger bands (`bollinger.h`)

A window of values with the sum and the sum of squares of them, which are kept up to date as values
come and go. The window may grow. The arithmetic is exact, and the square root is any function.

* `getBollinger_eq_bounds` — all bands at once, or one at a time;
* `step_recent` — what a call keeps;
* `getStdDev_eq`, `getBollinger_eq` — what the bands are computed from;
* `bollinger_moments` — the window after any calls.
-/

namespace Zrtools.Math

open Moments Schedule

structure Bollinger where
  windowSize : Nat
  window : List ℚ := []
  sum : ℚ := 0
  sumSquares : ℚ := 0
  stdMultiple : Int := 2

namespace Bollinger

/-- `SetWindowSize`: whether the window grew. -/
def setWindowSize (s : Bollinger) (size : Nat) : Bollinger × Bool :=
  if size > s.windowSize then ({ s with windowSize := size }, true) else (s, false)

/-- `SetStdMulti`. -/
def setStdMulti (s : Bollinger) (multi : Int) : Bollinger := { s with stdMultiple := multi }

/-- The last three lines of `AddValue`. -/
def pushBack (s : Bollinger) (value : ℚ) : Bollinger :=
  { s with
    window := s.window ++ [value]
    sum := s.sum + value
    sumSquares := s.sumSquares + value * value }

/-- `AddValue`. An empty deque has no `front()`. -/
def addValue (s : Bollinger) (value : ℚ) : Option Bollinger :=
  if s.window.length ≥ s.windowSize then
    match s.window with
    | [] => none
    | oldValue :: rest =>
      some (pushBack { s with
        sum := s.sum - oldValue
        sumSquares := s.sumSquares - oldValue * oldValue
        window := rest } value)
  else some (s.pushBack value)

/-- The variance, as `GetStdDev` and `GetBollinger` compute it. -/
def computedVariance (s : Bollinger) : ℚ :=
  let mean := s.sum / s.window.length
  s.sumSquares / s.window.length - mean * mean

def getAverage (s : Bollinger) : ℚ := if s.window.isEmpty then 0 else s.sum / s.window.length

def getStdDev (sqrt : ℚ → ℚ) (s : Bollinger) : ℚ :=
  if s.window.isEmpty then 0 else sqrt s.computedVariance

def getUpperBound (sqrt : ℚ → ℚ) (s : Bollinger) : ℚ :=
  s.getAverage + s.getStdDev sqrt * s.stdMultiple

def getLowerBound (sqrt : ℚ → ℚ) (s : Bollinger) : ℚ :=
  s.getAverage - s.getStdDev sqrt * s.stdMultiple

/-- `GetBollinger`: the bands `upper`, `middle` and `lower`, of no values none. -/
def getBollinger (sqrt : ℚ → ℚ) (s : Bollinger) : Option (ℚ × ℚ × ℚ) :=
  if s.window.isEmpty then none
  else
    let mean := s.sum / s.window.length
    let stdDev := sqrt s.computedVariance
    some (mean + stdDev * s.stdMultiple, mean, mean - stdDev * s.stdMultiple)

/-- The bands one at a time. -/
theorem getBollinger_eq_bounds (sqrt : ℚ → ℚ) {s : Bollinger} (hne : s.window ≠ []) :
    s.getBollinger sqrt = some (s.getUpperBound sqrt, s.getAverage, s.getLowerBound sqrt) := by
  have hempty : ¬s.window.isEmpty = true := by simpa using hne
  rw [getBollinger, getUpperBound, getLowerBound, getAverage, getStdDev, if_neg hempty,
    if_neg hempty, if_neg hempty]

-- ---------------------------------------------------------------------------
-- Calls
-- ---------------------------------------------------------------------------

inductive Call where
  | addValue (value : ℚ)
  | setWindowSize (size : Nat)
  | setStdMulti (multi : Int)

def step (s : Bollinger) : Call → Option Bollinger
  | .addValue value => s.addValue value
  | .setWindowSize size => some (s.setWindowSize size).1
  | .setStdMulti multi => some (s.setStdMulti multi)

def Call.adds : Call → Option ℚ
  | .addValue value => some value
  | .setWindowSize _ => none
  | .setStdMulti _ => none

/-- The values that calls add. -/
def added (calls : List Call) : List ℚ := calls.filterMap Call.adds

def Call.sets : Call → Option Nat
  | .addValue _ => none
  | .setWindowSize size => some size
  | .setStdMulti _ => none

/-- The sizes that calls set. -/
def sizes (calls : List Call) : List Nat := calls.filterMap Call.sets

theorem step_windowSize {s s' : Bollinger} {call : Call} (hstep : s.step call = some s') :
    s'.windowSize = (sizes [call]).foldl max s.windowSize := by
  cases call with
  | setStdMulti multi =>
    obtain rfl := Option.some.inj hstep
    rfl
  | setWindowSize size =>
    obtain rfl := Option.some.inj hstep
    show (s.setWindowSize size).1.windowSize = max s.windowSize size
    unfold setWindowSize
    split_ifs with hgrow
    · exact (max_eq_right (Nat.le_of_lt hgrow)).symm
    · exact (max_eq_left (Nat.le_of_not_lt hgrow)).symm
  | addValue value =>
    rw [step, addValue] at hstep
    split_ifs at hstep
    · cases hwindow : s.window with
      | nil => simp [hwindow] at hstep
      | cons oldValue rest =>
        simp only [hwindow] at hstep
        obtain rfl := Option.some.inj hstep
        rfl
    · obtain rfl := Option.some.inj hstep
      rfl

/-- The window is as large as the largest size. -/
theorem windowSize_of_run {s s' : Bollinger} {calls : List Call}
    (hrun : run step s calls = some s') :
    s'.windowSize = (sizes calls).foldl max s.windowSize := by
  induction calls generalizing s with
  | nil =>
    obtain rfl := Option.some.inj hrun
    rfl
  | cons call calls ih =>
    obtain ⟨t, hstep, hrest⟩ := (run_cons _).mp hrun
    have hsplit : sizes (call :: calls) = sizes [call] ++ sizes calls :=
      List.filterMap_append (l := [call]) ..
    rw [ih hrest, step_windowSize hstep, hsplit, List.foldl_append]

/-- The window holds the last of the values that were added, and the sums are those of the
window. -/
structure Recent (s : Bollinger) (values : List ℚ) : Prop where
  size_pos : 0 < s.windowSize
  length_le : s.window.length ≤ s.windowSize
  suffix : s.window <:+ values
  last : s.window.getLast? = values.getLast?
  sum_eq : s.sum = s.window.sum
  squares_eq : s.sumSquares = Moments.sumSquares s.window

theorem recent_initial {n : Nat} (hn : 1 ≤ n) : Recent { windowSize := n } [] where
  size_pos := hn
  length_le := Nat.zero_le n
  suffix := List.suffix_rfl
  last := rfl
  sum_eq := rfl
  squares_eq := rfl

theorem recent_pushBack {s : Bollinger} {values : List ℚ} (hpos : 0 < s.windowSize)
    (hroom : s.window.length < s.windowSize) (hsuffix : s.window <:+ values)
    (hsum : s.sum = s.window.sum) (hsquares : s.sumSquares = Moments.sumSquares s.window)
    (value : ℚ) : Recent (s.pushBack value) (values ++ [value]) where
  size_pos := hpos
  length_le := by
    rw [pushBack, List.length_append]
    exact hroom
  suffix := List.suffix_concat_iff.mpr (Or.inr ⟨s.window, rfl, hsuffix⟩)
  last := by rw [pushBack, List.getLast?_concat, List.getLast?_concat]
  sum_eq := by simp [pushBack, hsum]
  squares_eq := by simp [pushBack, hsquares]

theorem step_recent {s : Bollinger} {values : List ℚ} (h : Recent s values) (call : Call) :
    ∃ s', s.step call = some s' ∧ Recent s' (values ++ added [call]) := by
  cases call with
  | setStdMulti multi =>
    have hadded : added [.setStdMulti multi] = [] := rfl
    rw [hadded, List.append_nil]
    exact ⟨_, rfl, h.size_pos, h.length_le, h.suffix, h.last, h.sum_eq, h.squares_eq⟩
  | setWindowSize size =>
    have hadded : added [.setWindowSize size] = [] := rfl
    rw [hadded, List.append_nil]
    refine ⟨_, rfl, ?_⟩
    unfold setWindowSize
    split_ifs with hgrow
    · exact ⟨Nat.zero_lt_of_lt hgrow, h.length_le.trans (Nat.le_of_lt hgrow), h.suffix, h.last,
        h.sum_eq, h.squares_eq⟩
    · exact h
  | addValue value =>
    have hadded : added [.addValue value] = [value] := rfl
    rw [hadded, step, addValue]
    split_ifs with hfull
    · cases hwindow : s.window with
      | nil =>
        have hpos := h.size_pos
        rw [hwindow, List.length_nil] at hfull
        omega
      | cons oldValue rest =>
        -- without the oldest value
        have hlen := h.length_le
        have hsum := h.sum_eq
        have hsquares := h.squares_eq
        rw [hwindow, List.length_cons] at hlen
        rw [hwindow, List.sum_cons] at hsum
        rw [hwindow, sumSquares_cons] at hsquares
        have hsuffix := (List.suffix_cons oldValue rest).trans (hwindow ▸ h.suffix)
        let tail : Bollinger := { s with
          sum := s.sum - oldValue
          sumSquares := s.sumSquares - oldValue * oldValue
          window := rest }
        refine ⟨tail.pushBack value, rfl, ?_⟩
        exact recent_pushBack (s := tail) h.size_pos hlen hsuffix (sub_eq_of_eq_add' hsum)
          (sub_eq_of_eq_add' hsquares) value
    · exact ⟨_, rfl, recent_pushBack h.size_pos (Nat.lt_of_not_le hfull) h.suffix h.sum_eq
        h.squares_eq value⟩

theorem run_recent {n : Nat} (hn : 1 ≤ n) (calls : List Call) :
    ∃ s, run step { windowSize := n } calls = some s ∧ Recent s (added calls) := by
  refine exists_run_past step (fun s past => Recent s (added past)) ?_ (recent_initial hn) calls
  intro s past call hs
  obtain ⟨s', hstep, hs'⟩ := step_recent hs call
  refine ⟨s', hstep, ?_⟩
  rw [added, List.filterMap_append]
  exact hs'

-- ---------------------------------------------------------------------------
-- Moments
-- ---------------------------------------------------------------------------

theorem computedVariance_eq {s : Bollinger} {values : List ℚ} (h : Recent s values) :
    s.computedVariance = variance s.window := by
  rw [variance_eq, computedVariance, h.squares_eq, h.sum_eq, mean]

theorem getStdDev_eq (sqrt : ℚ → ℚ) {s : Bollinger} {values : List ℚ} (h : Recent s values)
    (hne : s.window ≠ []) : s.getStdDev sqrt = sqrt (variance s.window) := by
  rw [getStdDev, if_neg (by simpa using hne), computedVariance_eq h]

theorem getAverage_eq {s : Bollinger} {values : List ℚ} (h : Recent s values)
    (hne : s.window ≠ []) : s.getAverage = mean s.window := by
  rw [getAverage, if_neg (by simpa using hne), h.sum_eq, mean]

theorem getBollinger_eq (sqrt : ℚ → ℚ) {s : Bollinger} {values : List ℚ} (h : Recent s values)
    (hne : s.window ≠ []) :
    s.getBollinger sqrt =
      some (mean s.window + sqrt (variance s.window) * s.stdMultiple, mean s.window,
        mean s.window - sqrt (variance s.window) * s.stdMultiple) := by
  rw [getBollinger_eq_bounds sqrt hne, getUpperBound, getLowerBound, getStdDev_eq sqrt h hne,
    getAverage_eq h hne]

/-- After any calls: the size of the window, which is the largest so far, what is in it, the last
value above all, its sums, and the variance that the bands are computed from. -/
theorem bollinger_moments {n : Nat} (hn : 1 ≤ n) (calls : List Call) (sqrt : ℚ → ℚ) :
    ∃ s, run step { windowSize := n } calls = some s ∧
      s.windowSize = (sizes calls).foldl max n ∧ s.window.length ≤ s.windowSize ∧
      s.window <:+ added calls ∧ s.window.getLast? = (added calls).getLast? ∧
      s.sum = s.window.sum ∧ s.sumSquares = (s.window.map fun x => x * x).sum ∧
      (s.window ≠ [] → s.getStdDev sqrt = sqrt (variance s.window) ∧
        s.getBollinger sqrt =
          some (mean s.window + sqrt (variance s.window) * s.stdMultiple, mean s.window,
            mean s.window - sqrt (variance s.window) * s.stdMultiple)) ∧
      0 ≤ s.computedVariance ∧ s.computedVariance = variance s.window ∧
      (s.computedVariance = 0 ↔ ∀ x ∈ s.window, ∀ y ∈ s.window, x = y) := by
  obtain ⟨s, hrun, hs⟩ := run_recent hn calls
  refine ⟨s, hrun, windowSize_of_run hrun, hs.length_le, hs.suffix, hs.last, hs.sum_eq,
    hs.squares_eq, fun hne => ?_, ?_, ?_, ?_⟩
  · exact ⟨getStdDev_eq sqrt hs hne, getBollinger_eq sqrt hs hne⟩
  · rw [computedVariance_eq hs]
    exact variance_nonneg _
  · exact computedVariance_eq hs
  · rw [computedVariance_eq hs]
    exact variance_eq_zero_iff _

/-- Two values that are not equal, in a window of two. -/
theorem bollinger_moments_two :
    ∃ s, run step { windowSize := 2 } [.addValue 1, .addValue 3] = some s ∧
      s.computedVariance = variance s.window ∧ s.computedVariance ≠ 0 := by
  obtain ⟨s, hrun, -, -, -, -, -, -, -, -, hvariance, hzero⟩ :=
    bollinger_moments (n := 2) (by decide) [.addValue 1, .addValue 3] id
  refine ⟨s, hrun, hvariance, fun h => ?_⟩
  obtain rfl := Option.some.inj hrun
  exact absurd (hzero.mp h 1 (by decide) 3 (by decide)) (by decide)

end Bollinger

end Zrtools.Math
