import Mathlib.Algebra.Order.BigOperators.Group.List
import Mathlib.Algebra.Order.Field.Basic
import Mathlib.Tactic.FieldSimp
import Mathlib.Tactic.Linarith
import Mathlib.Tactic.Ring

/-!
# Sums, means and variances of lists

* `mean` — the mean, which of no values is zero;
* `variance_eq` — the variance from the sum and the sum of squares;
* `variance_nonneg`, `variance_eq_zero_iff` — its sign, and when it is zero.
-/

namespace Moments

section Field

variable {F : Type*} [Field F]

def mean (xs : List F) : F := xs.sum / xs.length

def sumSquares (xs : List F) : F := (xs.map fun x => x * x).sum

/-- The variance of a population. -/
def variance (xs : List F) : F := (xs.map fun x => (x - mean xs) * (x - mean xs)).sum / xs.length

@[simp] theorem sumSquares_nil : sumSquares ([] : List F) = 0 := rfl

@[simp] theorem sumSquares_cons (x : F) (xs : List F) :
    sumSquares (x :: xs) = x * x + sumSquares xs := by
  simp [sumSquares]

@[simp] theorem sumSquares_append (xs ys : List F) :
    sumSquares (xs ++ ys) = sumSquares xs + sumSquares ys := by
  simp [sumSquares]

theorem sum_deviations (c : F) (xs : List F) :
    (xs.map fun x => (x - c) * (x - c)).sum =
      sumSquares xs - 2 * c * xs.sum + xs.length * (c * c) := by
  induction xs with
  | nil => simp
  | cons x xs ih =>
    rw [List.map_cons, List.sum_cons, ih, sumSquares_cons, List.sum_cons, List.length_cons,
      Nat.cast_succ]
    ring

theorem variance_eq [CharZero F] (xs : List F) :
    variance xs = sumSquares xs / xs.length - mean xs * mean xs := by
  cases xs with
  | nil => simp [variance, mean]
  | cons x xs =>
    have hlen : (((x :: xs).length : Nat) : F) ≠ 0 := Nat.cast_ne_zero.mpr (Nat.succ_ne_zero _)
    have hmean : ((x :: xs).length : F) * mean (x :: xs) = (x :: xs).sum := mul_div_cancel₀ _ hlen
    rw [variance, sum_deviations, div_eq_iff hlen, sub_mul, div_mul_cancel₀ _ hlen, ← hmean]
    ring

end Field

section Order

variable {F : Type*} [Field F] [LinearOrder F] [IsStrictOrderedRing F]

theorem deviations_nonneg (c : F) (xs : List F) :
    ∀ y ∈ xs.map fun x => (x - c) * (x - c), 0 ≤ y := by
  intro y hy
  obtain ⟨x, -, rfl⟩ := List.mem_map.mp hy
  exact mul_self_nonneg _

theorem variance_nonneg (xs : List F) : 0 ≤ variance xs :=
  div_nonneg (List.sum_nonneg (deviations_nonneg _ xs)) (Nat.cast_nonneg _)

theorem mean_replicate {n : Nat} (hn : 0 < n) (x : F) : mean (List.replicate n x) = x := by
  have hne : ((n : Nat) : F) ≠ 0 := Nat.cast_ne_zero.mpr (Nat.ne_of_gt hn)
  rw [mean, List.sum_replicate, List.length_replicate, nsmul_eq_mul, mul_div_cancel_left₀ _ hne]

theorem variance_eq_zero_iff (xs : List F) :
    variance xs = 0 ↔ ∀ x ∈ xs, ∀ y ∈ xs, x = y := by
  refine ⟨?_, ?_⟩
  · intro h x hx y hy
    have hlen : ((xs.length : Nat) : F) ≠ 0 :=
      Nat.cast_ne_zero.mpr (Nat.ne_of_gt (List.length_pos_of_mem hx))
    have hsum := (div_eq_zero_iff.mp h).resolve_right hlen
    have hmean : ∀ z ∈ xs, z = mean xs := by
      intro z hz
      have hzero := List.all_zero_of_le_zero_le_of_sum_eq_zero (deviations_nonneg _ xs) hsum
        (List.mem_map.mpr ⟨z, hz, rfl⟩)
      exact sub_eq_zero.mp (mul_self_eq_zero.mp hzero)
    rw [hmean x hx, hmean y hy]
  · intro hequal
    cases xs with
    | nil => simp [variance]
    | cons x xs =>
      have hrep : x :: xs = List.replicate (xs.length + 1) x :=
        List.eq_replicate_iff.mpr ⟨rfl, fun y hy => hequal y hy x (List.mem_cons_self ..)⟩
      rw [hrep, variance, mean_replicate (Nat.succ_pos _)]
      simp

end Order

end Moments
