import Mathlib.Order.Lattice
import Mathlib.Order.MinMax
import Zrtools.Lib.Extremum

/-!
# zrtools — the variadic `zrt::max` and `zrt::min` (`zrt_compare.h`)

For floating arguments both recurse on the first two: one that is NaN is left out, and of two
numbers one is kept.

* `extreme_eq_fold` — what the recursion computes;
* `extremes` — the result, for any order and nesting of the arguments.
-/

namespace Zrtools.Compare

variable {α : Type*}

/-- A floating value: NaN, or a number. -/
abbrev Floating (α : Type*) := Option α

namespace Floating

def isnan (v : Floating α) : Bool := v.isNone

/-- `<`, which does not hold of NaN. -/
def blt [LinearOrder α] : Floating α → Floating α → Bool
  | some x, some y => x < y
  | _, _ => false

end Floating

-- ---------------------------------------------------------------------------
-- The code
-- ---------------------------------------------------------------------------

/-- The overloads of one of the two functions. They differ in the comparison that chooses the first
of two numbers. -/
def extreme (chooses : Floating α → Floating α → Bool) :
    Floating α → List (Floating α) → Floating α
  | val, [] => val
  | val1, val2 :: vs =>
    if val1.isnan then extreme chooses val2 vs
    else if val2.isnan then extreme chooses val1 vs
    else extreme chooses (if chooses val1 val2 then val1 else val2) vs

/-- `zrt::max(val, vs...)`. -/
def zrtMax [LinearOrder α] : Floating α → List (Floating α) → Floating α :=
  extreme fun v1 v2 => v2.blt v1

/-- `zrt::min(val, vs...)`. -/
def zrtMin [LinearOrder α] : Floating α → List (Floating α) → Floating α :=
  extreme fun v1 v2 => v1.blt v2

/-- An expression of nested calls. -/
inductive Call (α : Type*)
  | arg (v : Floating α)
  | call (first : Call α) (rest : List (Call α))

mutual

/-- Its value. -/
def Call.eval (f : Floating α → List (Floating α) → Floating α) : Call α → Floating α
  | .arg v => v
  | .call first rest => f (first.eval f) (evalAll f rest)

def evalAll (f : Floating α → List (Floating α) → Floating α) : List (Call α) → List (Floating α)
  | [] => []
  | c :: cs => c.eval f :: evalAll f cs

end

mutual

/-- Its arguments, from left to right. -/
def Call.leaves : Call α → List (Floating α)
  | .arg v => [v]
  | .call first rest => first.leaves ++ leavesAll rest

def leavesAll : List (Call α) → List (Floating α)
  | [] => []
  | c :: cs => c.leaves ++ leavesAll cs

end

-- ---------------------------------------------------------------------------
-- What it computes
-- ---------------------------------------------------------------------------

open Extremum

section Choice

variable {chooses : Floating α → Floating α → Bool} {op : α → α → α} [Std.Associative op]

theorem extreme_eq_fold (hop : ∀ x y, op x y = if chooses (some x) (some y) then x else y)
    (v : Floating α) (vs : List (Floating α)) : extreme chooses v vs = fold op (v :: vs) := by
  have hassoc : Std.Associative (Option.merge op) := inferInstance
  induction vs generalizing v with
  | nil => simp [extreme]
  | cons w vs ih =>
    rw [extreme, ih, ih, ih]
    cases v with
    | none => simp [Floating.isnan]
    | some x =>
      cases w with
      | none => simp [Floating.isnan]
      | some y =>
        have hkept : (if chooses (some x) (some y) then some x else some y) = some (op x y) := by
          rw [hop, apply_ite some]
        simp only [Floating.isnan, Option.isNone_some, Bool.false_eq_true, if_false, hkept,
          fold_cons]
        rw [← hassoc.assoc, Option.merge_some_some]

mutual

theorem eval_eq_fold (hop : ∀ x y, op x y = if chooses (some x) (some y) then x else y) :
    ∀ c : Call α, c.eval (extreme chooses) = fold op c.leaves
  | .arg v => by simp [Call.eval, Call.leaves]
  | .call first rest => by
    rw [Call.eval, extreme_eq_fold hop, fold_cons, eval_eq_fold hop first,
      evalAll_eq_fold hop rest, Call.leaves, fold_append]

theorem evalAll_eq_fold (hop : ∀ x y, op x y = if chooses (some x) (some y) then x else y) :
    ∀ cs : List (Call α), fold op (evalAll (extreme chooses) cs) = fold op (leavesAll cs)
  | [] => rfl
  | c :: cs => by
    rw [evalAll, fold_cons, eval_eq_fold hop c, evalAll_eq_fold hop cs, leavesAll, fold_append]

end

end Choice

variable [LinearOrder α]

theorem max_chooses (x y : α) :
    max x y = if Floating.blt (some y) (some x) then x else y := by
  simp only [Floating.blt, decide_eq_true_eq]
  split_ifs with h
  · exact max_eq_left_of_lt h
  · exact max_eq_right (not_lt.mp h)

theorem min_chooses (x y : α) :
    min x y = if Floating.blt (some x) (some y) then x else y := by
  simp only [Floating.blt, decide_eq_true_eq]
  split_ifs with h
  · exact min_eq_left_of_lt h
  · exact min_eq_right (not_lt.mp h)

theorem max_best (vs : List (Floating α)) : Best (· ≥ ·) vs (fold max vs) := by
  refine fold_best (R := (· ≥ ·)) le_refl (fun _ _ _ => ge_trans) ?_ vs
  intro x y
  rcases le_total x y with h | h
  · exact Or.inr ⟨max_eq_right h, h⟩
  · exact Or.inl ⟨max_eq_left h, h⟩

theorem min_best (vs : List (Floating α)) : Best (· ≤ ·) vs (fold min vs) := by
  refine fold_best (R := (· ≤ ·)) le_refl (fun _ _ _ => le_trans) ?_ vs
  intro x y
  rcases le_total x y with h | h
  · exact Or.inl ⟨min_eq_left h, h⟩
  · exact Or.inr ⟨min_eq_right h, h⟩

/-- **`zrt_max` and `zrt_min`.** They return the greatest and the least number of their arguments,
and NaN where there is no number, in whatever order these come and however the calls are nested. -/
theorem extremes :
    (∀ (v : Floating α) (vs : List (Floating α)),
      Best (· ≥ ·) (v :: vs) (zrtMax v vs) ∧ Best (· ≤ ·) (v :: vs) (zrtMin v vs)) ∧
    (∀ (v w : Floating α) (vs ws : List (Floating α)), (v :: vs).Perm (w :: ws) →
      zrtMax v vs = zrtMax w ws ∧ zrtMin v vs = zrtMin w ws) ∧
    ∀ (c : Call α) (v : Floating α) (vs : List (Floating α)), c.leaves = v :: vs →
      c.eval zrtMax = zrtMax v vs ∧ c.eval zrtMin = zrtMin v vs := by
  have hmax : ∀ (v : Floating α) vs, zrtMax v vs = fold max (v :: vs) :=
    extreme_eq_fold max_chooses
  have hmin : ∀ (v : Floating α) vs, zrtMin v vs = fold min (v :: vs) :=
    extreme_eq_fold min_chooses
  refine ⟨fun v vs => ?_, fun v w vs ws hperm => ?_, fun c v vs hleaves => ?_⟩
  · rw [hmax, hmin]
    exact ⟨max_best _, min_best _⟩
  · rw [hmax, hmax, hmin, hmin]
    exact ⟨fold_perm hperm, fold_perm hperm⟩
  · rw [hmax, hmin, ← hleaves]
    exact ⟨eval_eq_fold max_chooses c, eval_eq_fold min_chooses c⟩

end Zrtools.Compare
