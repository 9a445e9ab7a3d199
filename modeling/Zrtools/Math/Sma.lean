import Mathlib.Algebra.Order.Field.Rat
import Zrtools.Lib.Moments
import Zrtools.Lib.Schedule

/-!
# zrtools — the moving average `SMA<T>` (`zrt_math.h`)

A sum over the last values that were added, and its quotient by their number. `Add` divides in one
way while the window fills, and in another one after it took a value out. With exact numbers both
are the same.

* `add_recent` — what `Add` does, for a window of any size;
* `run_recent` — the values and their mean, after any calls;
* `sma_mean_iff` — when there are no more values than the window takes.
-/

namespace Zrtools.Math

open Moments Schedule

-- ---------------------------------------------------------------------------
-- The class
-- ---------------------------------------------------------------------------

/-- The operations of `T` that `SMA` calls; an undefined result is `none`. -/
structure Arithmetic (T : Type) where
  zero : T
  add : T → T → Option T
  sub : T → T → Option T
  /-- `m_sum / m_data.size()`, converted to `T`. -/
  divSize : T → Nat → T
  /-- `zrt::safe_div(m_sum, m_data.size(), 0)`, converted to `T`. -/
  safeDiv : T → Nat → Option T

structure Sma (T : Type) where
  windowSize : Nat
  sum : T
  avg : T
  data : List T

namespace Sma

variable {T : Type} (A : Arithmetic T)

def init (windowSize : Nat) : Sma T where
  windowSize := windowSize
  sum := A.zero
  avg := A.zero
  data := []

def setWindowSize (s : Sma T) (windowSize : Nat) : Sma T := { s with windowSize := windowSize }

/-- The first three lines of `Add`. -/
def push (s : Sma T) (x : T) : Option (Sma T) :=
  (A.add s.sum x).map fun sum =>
    { s with sum := sum, data := s.data ++ [x], avg := A.divSize sum (s.data.length + 1) }

/-- Taking the oldest value out. An empty deque has no `front()`. -/
def pop (s : Sma T) : Option (Sma T) :=
  match s.data with
  | [] => none
  | front :: rest =>
    (A.sub s.sum front).bind fun sum =>
      (A.safeDiv sum rest.length).map fun avg => { s with sum := sum, data := rest, avg := avg }

def add (s : Sma T) (x : T) : Option (Sma T) :=
  (s.push A x).bind fun s => if s.data.length > s.windowSize then s.pop A else some s

variable {A}

theorem push_eq {s : Sma T} {x sum : T} (h : A.add s.sum x = some sum) :
    s.push A x = some
      { s with sum := sum, data := s.data ++ [x], avg := A.divSize sum (s.data.length + 1) } := by
  rw [push, h, Option.map_some]

theorem pop_eq {s : Sma T} {front sum avg : T} {rest : List T} (hdata : s.data = front :: rest)
    (hsub : A.sub s.sum front = some sum) (hdiv : A.safeDiv sum rest.length = some avg) :
    s.pop A = some { s with sum := sum, data := rest, avg := avg } := by
  unfold pop
  rw [hdata]
  simp only [hsub, Option.bind_some, hdiv, Option.map_some]

end Sma

-- ---------------------------------------------------------------------------
-- Exact numbers
-- ---------------------------------------------------------------------------

/-- `safe_div(a, b, default_val)`. -/
def safeDiv (a b defaultVal : ℚ) : ℚ := if b = 0 then defaultVal else a / b

def exactArithmetic : Arithmetic ℚ where
  zero := 0
  add a b := some (a + b)
  sub a b := some (a - b)
  divSize a n := a / n
  safeDiv a n := some (safeDiv a n 0)

namespace Sma

inductive Call where
  | add (x : ℚ)
  | setWindowSize (windowSize : Nat)

def step (s : Sma ℚ) : Call → Option (Sma ℚ)
  | .add x => s.add exactArithmetic x
  | .setWindowSize windowSize => some (s.setWindowSize windowSize)

def Call.adds : Call → Option ℚ
  | .add x => some x
  | .setWindowSize _ => none

/-- The values that calls add. -/
def added (calls : List Call) : List ℚ := calls.filterMap Call.adds

/-- The values are the last that were added, with their sum and their mean. -/
structure Recent (s : Sma ℚ) (values : List ℚ) : Prop where
  suffix : s.data <:+ values
  sum_eq : s.sum = s.data.sum
  avg_eq : s.avg = mean s.data

/-- No more values than the window takes. -/
def Fits (s : Sma ℚ) : Call → Prop
  | .add _ => s.data.length ≤ s.windowSize
  | .setWindowSize _ => True

theorem safeDiv_eq_mean (values : List ℚ) : safeDiv values.sum values.length 0 = mean values := by
  unfold safeDiv
  split_ifs with hempty
  · rw [mean, hempty, div_zero]
  · rfl

theorem push_recent {s : Sma ℚ} {values : List ℚ} (h : Recent s values) (x : ℚ) :
    ∃ s', s.push exactArithmetic x = some s' ∧ Recent s' (values ++ [x]) ∧
      s'.windowSize = s.windowSize ∧ s'.data.length = s.data.length + 1 := by
  have hsum : s.sum + x = (s.data ++ [x]).sum := by
    rw [h.sum_eq, List.sum_append, List.sum_singleton]
  refine ⟨_, rfl, ⟨?_, hsum, ?_⟩, rfl, List.length_append⟩
  · exact List.suffix_concat_iff.mpr (Or.inr ⟨s.data, rfl, h.suffix⟩)
  · rw [mean, List.length_append, ← hsum]
    rfl

theorem pop_recent {s : Sma ℚ} {values : List ℚ} (h : Recent s values) (hne : s.data ≠ []) :
    ∃ s', s.pop exactArithmetic = some s' ∧ Recent s' values ∧ s'.windowSize = s.windowSize ∧
      s'.data.length + 1 = s.data.length := by
  obtain ⟨front, rest, hdata⟩ := List.exists_cons_of_ne_nil hne
  have hsum : s.sum - front = rest.sum := by
    rw [h.sum_eq, hdata, List.sum_cons]
    ring
  have hdiv : exactArithmetic.safeDiv rest.sum rest.length = some (mean rest) :=
    congrArg some (safeDiv_eq_mean rest)
  refine ⟨_, pop_eq hdata (congrArg some hsum) hdiv, ?_, rfl, ?_⟩
  · exact ⟨(List.suffix_cons front rest).trans (hdata ▸ h.suffix), rfl, rfl⟩
  · rw [hdata, List.length_cons]

/-- `Add` takes at most one value out, where it leaves more than the window takes. -/
theorem add_recent {s : Sma ℚ} {values : List ℚ} (h : Recent s values) (x : ℚ) :
    ∃ s', s.add exactArithmetic x = some s' ∧ Recent s' (values ++ [x]) ∧
      s'.windowSize = s.windowSize ∧
      s'.data.length =
        if s.windowSize ≤ s.data.length then s.data.length else s.data.length + 1 := by
  obtain ⟨t, hpush, ht, hsize, hlen⟩ := push_recent h x
  rw [add, hpush, Option.bind_some, hsize, hlen]
  by_cases hfull : s.windowSize ≤ s.data.length
  · have hne : t.data ≠ [] := List.ne_nil_of_length_eq_add_one hlen
    obtain ⟨u, hpop, hu, husize, hulen⟩ := pop_recent ht hne
    rw [if_pos (Nat.lt_succ_of_le hfull), if_pos hfull]
    exact ⟨u, hpop, hu, husize.trans hsize, by omega⟩
  · rw [if_neg (by omega), if_neg hfull]
    exact ⟨t, rfl, ht, hsize, hlen⟩

/-- What is asked after a call that adds a value. -/
def Holds (s : Sma ℚ) (past : List Call) : Call → Prop
  | .add x => s.data.length ≤ s.windowSize ∧ s.data <:+ added (past ++ [.add x]) ∧
      s.avg = mean s.data
  | .setWindowSize _ => True

theorem step_recent {s : Sma ℚ} {past : List Call} (h : Recent s (added past)) (call : Call) :
    ∃ s', s.step call = some s' ∧ Recent s' (added (past ++ [call])) := by
  rw [added, List.filterMap_append]
  cases call with
  | add x =>
    obtain ⟨t, hadd, ht, -⟩ := add_recent h x
    exact ⟨t, hadd, ht⟩
  | setWindowSize windowSize =>
    have hadded : [Call.setWindowSize windowSize].filterMap Call.adds = [] := rfl
    rw [hadded, List.append_nil]
    exact ⟨_, rfl, h.suffix, h.sum_eq, h.avg_eq⟩

theorem step_holds_iff {s : Sma ℚ} {past : List Call} (h : Recent s (added past)) (call : Call) :
    (∃ s', s.step call = some s' ∧ Holds s' past call) ↔ Fits s call := by
  cases call with
  | setWindowSize windowSize => exact iff_of_true ⟨_, rfl, trivial⟩ trivial
  | add x =>
    obtain ⟨t, hadd, ht, hsize, hlen⟩ := add_recent h x
    rw [step, hadd, Fits]
    refine ⟨?_, ?_⟩
    · rintro ⟨s', hs', hle, -⟩
      obtain rfl := Option.some.inj hs'
      rw [hsize, hlen] at hle
      split_ifs at hle
      · exact hle
      · exact Nat.le_of_succ_le hle
    · intro hfits
      refine ⟨t, rfl, ?_, ?_, ht.avg_eq⟩
      · rw [hsize, hlen]
        split_ifs
        · exact hfits
        · omega
      · rw [added, List.filterMap_append]
        exact ht.suffix

theorem recent_init (windowSize : Nat) : Recent (init exactArithmetic windowSize) (added []) where
  suffix := List.suffix_rfl
  sum_eq := rfl
  avg_eq := by simp [init, exactArithmetic, mean]

theorem run_recent (windowSize : Nat) (calls : List Call) :
    ∃ s, run step (init exactArithmetic windowSize) calls = some s ∧ Recent s (added calls) :=
  exists_run_past step (fun s past => Recent s (added past))
    (fun _ _ call hs => step_recent hs call) (recent_init windowSize) calls

/-- After each `Add`, the values are no more than the window takes and the last that were added,
and the average is their mean. -/
theorem sma_mean_iff (windowSize : Nat) (calls : List Call) :
    (∀ front x rest, calls = front ++ .add x :: rest →
      ∃ s, run step (init exactArithmetic windowSize) (front ++ [.add x]) = some s ∧
        s.data.length ≤ s.windowSize ∧ s.data <:+ added (front ++ [.add x]) ∧
        s.avg = mean s.data) ↔
      StepsMeet step Fits (init exactArithmetic windowSize) calls := by
  have hkept : ∀ s past call t, Recent s (added past) → True → step s call = some t →
      Recent t (added (past ++ [call])) := by
    intro s past call t h _ hstep
    obtain ⟨t', hstep', ht'⟩ := step_recent h call
    rw [hstep, Option.some.injEq] at hstep'
    exact hstep' ▸ ht'
  have hruns := @forall_possible_iff_stepsMeet _ _ step (fun s past => Recent s (added past)) Holds
    (fun _ => True) Fits (fun _ _ call h _ => step_holds_iff h call) hkept _ [] calls
    (recent_init windowSize) fun _ _ _ _ => trivial
  rw [← hruns]
  refine ⟨?_, ?_⟩
  · intro h front call rest heq
    cases call with
    | add x => exact h front x rest heq
    | setWindowSize w =>
      obtain ⟨s, hrun, -⟩ := run_recent windowSize (front ++ [.setWindowSize w])
      exact ⟨s, hrun, trivial⟩
  · exact fun h front x rest heq => h front (.add x) rest heq

/-- Three values in a window of three, which is then set to one: after the next value there are
still three. -/
theorem sma_mean_shrunk :
    ¬∀ (windowSize : Nat) (calls : List Call) front x rest, calls = front ++ .add x :: rest →
      ∃ s, run step (init exactArithmetic windowSize) (front ++ [.add x]) = some s ∧
        s.data.length ≤ s.windowSize ∧ s.data <:+ added (front ++ [.add x]) ∧
        s.avg = mean s.data := by
  intro h
  obtain ⟨s, hrun, hle, -⟩ := h 3 _ [.add 1, .add 2, .add 3, .setWindowSize 1] 4 [] rfl
  have hsizes : (run step (init exactArithmetic 3)
      [.add 1, .add 2, .add 3, .setWindowSize 1, .add 4]).map
        (fun s => (s.data.length, s.windowSize)) = some (3, 1) := by decide
  have hrun' : run step (init exactArithmetic 3)
      [.add 1, .add 2, .add 3, .setWindowSize 1, .add 4] = some s := hrun
  rw [hrun', Option.map_some, Option.some.injEq, Prod.mk.injEq] at hsizes
  omega

end Sma

end Zrtools.Math
