import Mathlib.Data.List.DropRight
import Zrtools.Lib.CInteger
import Zrtools.Lib.Rounding
import Zrtools.Math.Sma

/-!
# zrtools — `SMA<int64_t>` (`zrt_math.h`)

While the window fills, the sum is divided by a `size_t`, and is converted to one before; later it
is divided by `safe_div`, which takes and returns a `double`.

* `safeDivDouble_eq`, `divSize_eq_iff` — the two quotients;
* `add_full`, `add_filling` — what `Add` does;
* `sma_int64_iff` — when the averages are those of the integers.
-/

namespace Zrtools.Math

open CInteger Rounding Schedule

-- ---------------------------------------------------------------------------
-- Arithmetic
-- ---------------------------------------------------------------------------

/-- The conversion of a `size_t` to `int64_t`. -/
def narrow64 (x : Int) : Int := (x + 2 ^ 63) % 2 ^ 64 - 2 ^ 63

/-- The nearest `double`. -/
def toDouble (x : ℚ) : ℚ := toNearest 53 x

/-- `safe_div(a, b, default_val)`, called with integers and in `double`. -/
def safeDivDouble (a b defaultVal : ℚ) : ℚ :=
  if toDouble b = 0 then toDouble defaultVal else toDouble (toDouble a / toDouble b)

/-- For `int64_t`: the first division is one of `size_t`, the second one of `double`. -/
def int64Arithmetic : Arithmetic Int where
  zero := 0
  add a b := int64 (a + b)
  sub a b := int64 (a - b)
  divSize a n := narrow64 (a % 2 ^ 64 / n)
  safeDiv a n := int64 (trunc (safeDivDouble a n 0))

theorem safeDivDouble_eq {a : Int} (ha : |a| < 2 ^ 53) {n : Nat} (hn : 0 < n) :
    trunc (safeDivDouble a n 0) = a.tdiv n := by
  have hone : (1 : ℚ) ≤ toDouble n := by
    refine (toNearest_nearest (by decide) (n : ℚ)).ge_of_ge ?_ (by exact_mod_cast hn)
    exact_mod_cast representable_nat (p := 53) (by decide) (n := 1) (by decide)
  rw [safeDivDouble, if_neg (by linarith)]
  exact trunc_quotient (by decide) ha hn

theorem safeDiv_small {a : Int} (ha : |a| < 2 ^ 53) {n : Nat} (hn : 0 < n) :
    int64Arithmetic.safeDiv a n = some (a.tdiv n) := by
  have hquot := Int.natAbs_tdiv_le_natAbs a n
  obtain ⟨hlow, hhigh⟩ := abs_lt.mp ha
  have hdouble : int64Arithmetic.safeDiv a n = int64 (trunc (safeDivDouble a n 0)) := rfl
  rw [hdouble, safeDivDouble_eq ha hn]
  exact int64_of_mem ⟨by omega, by omega⟩

/-- A sum divided as a `size_t`, to which 2^64 is added if it is negative. -/
theorem divSize_eq_iff {a : Int} (ha : |a| < 2 ^ 53) {n : Nat} (hn : 0 < n) :
    narrow64 (a % 2 ^ 64 / n) = a.tdiv n ↔ 0 ≤ a ∨ n = 1 ∨ 2 ^ 64 + a < n := by
  obtain ⟨hlow, hhigh⟩ := abs_lt.mp ha
  rcases le_or_gt 0 a with hnonneg | hneg
  · refine iff_of_true ?_ (Or.inl hnonneg)
    have hquot := Int.ediv_nonneg hnonneg (Int.natCast_nonneg n)
    have hle := Int.ediv_le_self (n : Int) hnonneg
    rw [Int.emod_eq_of_lt hnonneg (by omega), Int.tdiv_eq_ediv_of_nonneg hnonneg, narrow64]
    omega
  · have hmod : a % 2 ^ 64 = 2 ^ 64 + a := by
      rw [← Int.add_emod_left, Int.emod_eq_of_lt (by omega) (by omega)]
    rw [hmod, or_iff_right (not_le.mpr hneg)]
    by_cases hone : n = 1
    · refine iff_of_true ?_ (Or.inl hone)
      rw [hone, Nat.cast_one, Int.ediv_one, Int.tdiv_one, narrow64]
      omega
    rw [or_iff_right hone]
    obtain ⟨b, rfl⟩ : ∃ b : Nat, a = -b := ⟨a.natAbs, by omega⟩
    have htdiv : (-(b : Int)).tdiv n = -((b / n : Nat) : Int) := by
      rw [Int.neg_tdiv]
      rfl
    rw [htdiv]
    by_cases hlarge : (2 : Int) ^ 64 + -b < n
    · refine iff_of_true ?_ hlarge
      rw [Int.ediv_eq_zero_of_lt (by omega) hlarge, Nat.div_eq_of_lt (by omega)]
      rfl
    · refine iff_of_false ?_ hlarge
      -- the quotient is positive, and less than 2^63
      have hquot : 1 ≤ (2 ^ 64 + -(b : Int)) / n :=
        Int.le_ediv_of_mul_le (by omega) (by omega)
      have hhalf : (2 ^ 64 + -(b : Int)) / n * 2 ≤ 2 ^ 64 + -b :=
        (Int.mul_le_mul_of_nonneg_left (by omega) (by omega)).trans
          (Int.ediv_mul_le _ (b := (n : Int)) (by omega))
      rw [narrow64]
      generalize b / n = m
      omega

-- ---------------------------------------------------------------------------
-- Averages
-- ---------------------------------------------------------------------------

namespace Sma

/-- The last values that were added, as many as the window takes. -/
structure Window (w : Nat) (s : Sma Int) (past : List Int) : Prop where
  size_eq : s.windowSize = w
  data_eq : s.data = past.rtake w
  sum_eq : s.sum = s.data.sum

/-- At this `Add` the sum does not overflow, and where it is divided as a `size_t` that does not
matter: the window is full, the sum is not negative, or the value is the only one. The last case
would take more values than there is memory for. -/
def Divides (s : Sma Int) (x : Int) : Prop :=
  InInt64 (s.sum + x) ∧
    (s.windowSize ≤ s.data.length ∨ 0 ≤ s.sum + x ∨ s.data.length + 1 = 1 ∨
      2 ^ 64 + (s.sum + x) < (s.data.length + 1 : Nat))

instance (s : Sma Int) (x : Int) : Decidable (Divides s x) :=
  inferInstanceAs (Decidable (_ ∧ (_ ∨ _ ∨ _ ∨ _)))

/-- The average of the last values, which are divided as integers are. -/
def Averages (w : Nat) (s : Sma Int) (past : List Int) (x : Int) : Prop :=
  s.avg = ((past ++ [x]).rtake w).sum.tdiv ((past ++ [x]).rtake w).length

theorem rtake_full {w : Nat} {past : List Int} (hw : 0 < w) (hfull : w ≤ past.length) (x : Int) :
    ∃ front rest, past.rtake w = front :: rest ∧ (past ++ [x]).rtake w = rest ++ [x] ∧
      rest.length + 1 = w := by
  obtain ⟨k, rfl⟩ : ∃ k, w = k + 1 := ⟨w - 1, by omega⟩
  have hlt : past.length - (k + 1) < past.length := by omega
  refine ⟨past[past.length - (k + 1)], past.rtake k, ?_, List.rtake_concat_succ .., ?_⟩
  · have hnext : past.length - (k + 1) + 1 = past.length - k := by omega
    rw [List.rtake, List.drop_eq_getElem_cons hlt, List.rtake, hnext]
  · rw [List.rtake, List.length_drop]
    omega

theorem rtake_filling {w : Nat} {past : List Int} (hfill : past.length ≤ w) :
    past.rtake w = past := by
  rw [List.rtake, Nat.sub_eq_zero_of_le hfill, List.drop_zero]

theorem inInt64_of_small {a : Int} (h : |a| < 2 ^ 53) : InInt64 a := by
  obtain ⟨hlow, hhigh⟩ := abs_lt.mp h
  exact ⟨by omega, by omega⟩

section Steps

variable {w : Nat} {s : Sma Int} {past : List Int}

/-- An `Add` to a full window: it fails if the sum overflows before the oldest value is out. -/
theorem add_full (h : Window w s past) (hw : 0 < w) (hfull : w ≤ past.length) {x : Int}
    (hsmall : |((past ++ [x]).rtake w).sum| < 2 ^ 53) :
    s.add int64Arithmetic x = (int64 (s.sum + x)).map fun _ =>
      { windowSize := w
        sum := ((past ++ [x]).rtake w).sum
        avg := ((past ++ [x]).rtake w).sum.tdiv ((past ++ [x]).rtake w).length
        data := (past ++ [x]).rtake w } := by
  by_cases hin : InInt64 (s.sum + x)
  · obtain ⟨front, rest, hdata, hwindow, hlen⟩ := rtake_full hw hfull x
    rw [← h.data_eq] at hdata
    have hpushed : s.data ++ [x] = front :: (rest ++ [x]) := by rw [hdata, List.cons_append]
    have hsum : s.sum + x - front = (rest ++ [x]).sum := by
      rw [h.sum_eq, hdata, List.sum_cons, List.sum_append, List.sum_singleton]
      ring
    have hrest : (rest ++ [x]).length = w := by
      rw [List.length_append, List.length_singleton, hlen]
    rw [hwindow] at hsmall ⊢
    have hsub : int64Arithmetic.sub (s.sum + x) front = some (rest ++ [x]).sum := by
      rw [← hsum] at hsmall ⊢
      exact int64_of_mem (inInt64_of_small hsmall)
    have hpush := push_eq (A := int64Arithmetic) (int64_of_mem hin)
    have hpop := pop_eq (s := { s with
      sum := s.sum + x
      data := s.data ++ [x]
      avg := int64Arithmetic.divSize (s.sum + x) (s.data.length + 1) })
      hpushed hsub (safeDiv_small hsmall (by omega))
    have hmore : (s.data ++ [x]).length > s.windowSize := by
      rw [hpushed, List.length_cons, hrest, h.size_eq]
      exact Nat.lt_succ_self w
    rw [add, hpush, Option.bind_some, if_pos hmore, hpop, int64_of_mem hin, Option.map_some,
      h.size_eq]
  · have hnone : int64Arithmetic.add s.sum x = none := if_neg hin
    have hnone' : int64 (s.sum + x) = none := if_neg hin
    rw [add, push, hnone, hnone', Option.map_none, Option.bind_none, Option.map_none]

/-- An `Add` while the window fills. -/
theorem add_filling (h : Window w s past) (hfill : past.length < w) {x : Int}
    (hsmall : |(past ++ [x]).sum| < 2 ^ 53) :
    s.add int64Arithmetic x = some
      { windowSize := w
        sum := (past ++ [x]).sum
        avg := narrow64 ((past ++ [x]).sum % 2 ^ 64 / ((past ++ [x]).length : Nat))
        data := past ++ [x] } := by
  have hdata : s.data = past := h.data_eq.trans (rtake_filling (Nat.le_of_lt hfill))
  have hsum : s.sum + x = (past ++ [x]).sum := by
    rw [h.sum_eq, hdata, List.sum_append, List.sum_singleton]
  have hadd : int64Arithmetic.add s.sum x = some (past ++ [x]).sum := by
    rw [← hsum] at hsmall ⊢
    exact int64_of_mem (inInt64_of_small hsmall)
  have hroom : ¬(past ++ [x]).length > s.windowSize := by
    rw [List.length_append, List.length_singleton, h.size_eq]
    omega
  rw [add, push_eq hadd, Option.bind_some, hdata, if_neg hroom, h.size_eq, List.length_append]
  rfl

theorem add_full_iff (h : Window w s past) (hw : 0 < w) (hfull : w ≤ past.length) {x : Int}
    (hsmall : |((past ++ [x]).rtake w).sum| < 2 ^ 53) :
    (∀ t, s.add int64Arithmetic x = some t → Window w t (past ++ [x])) ∧
      ((∃ t, s.add int64Arithmetic x = some t ∧ Averages w t past x) ↔ Divides s x) := by
  rw [add_full h hw hfull hsmall]
  have hlen : s.windowSize ≤ s.data.length := by
    rw [h.size_eq, h.data_eq, List.rtake, List.length_drop]
    omega
  refine ⟨fun t ht => ?_, ?_⟩
  · obtain ⟨-, -, rfl⟩ := Option.map_eq_some_iff.mp ht
    exact ⟨rfl, rfl, rfl⟩
  · rw [Divides, and_iff_left (Or.inl hlen)]
    refine ⟨?_, ?_⟩
    · rintro ⟨t, ht, -⟩
      obtain ⟨v, hv, -⟩ := Option.map_eq_some_iff.mp ht
      exact (int64_eq_some_iff.mp hv).1
    · intro hin
      rw [int64_of_mem hin]
      exact ⟨_, rfl, rfl⟩

theorem add_filling_iff (h : Window w s past) (hfill : past.length < w) {x : Int}
    (hsmall : |((past ++ [x]).rtake w).sum| < 2 ^ 53) :
    (∀ t, s.add int64Arithmetic x = some t → Window w t (past ++ [x])) ∧
      ((∃ t, s.add int64Arithmetic x = some t ∧ Averages w t past x) ↔ Divides s x) := by
  have hwhole : (past ++ [x]).rtake w = past ++ [x] :=
    rtake_filling (by rw [List.length_append, List.length_singleton]; omega)
  have hdata : s.data = past := h.data_eq.trans (rtake_filling (Nat.le_of_lt hfill))
  have hsum : s.sum + x = (past ++ [x]).sum := by
    rw [h.sum_eq, hdata, List.sum_append, List.sum_singleton]
  have hlen : (past ++ [x]).length = past.length + 1 := List.length_append
  rw [hwhole] at hsmall
  rw [add_filling h hfill hsmall]
  refine ⟨fun t ht => ?_, ?_⟩
  · obtain rfl := Option.some.inj ht
    exact ⟨rfl, hwhole.symm, rfl⟩
  · have hroom : ¬s.windowSize ≤ s.data.length := by
      rw [h.size_eq, hdata]
      omega
    rw [Divides, hsum, and_iff_right (inInt64_of_small hsmall), or_iff_right hroom, hdata, ← hlen,
      ← divSize_eq_iff hsmall (by omega)]
    refine ⟨?_, ?_⟩
    · rintro ⟨t, ht, havg⟩
      obtain rfl := Option.some.inj ht
      rwa [Averages, hwhole] at havg
    · intro hdiv
      refine ⟨_, rfl, ?_⟩
      rw [Averages, hwhole]
      exact hdiv

end Steps

/-- After each `Add` the average is the sum of the window divided by its length, for sums that a
double holds. -/
theorem sma_int64_iff {w : Nat} (hw : 1 ≤ w) {xs : List Int}
    (hsmall : ∀ front x rest, xs = front ++ x :: rest →
      |((front ++ [x]).rtake w).sum| < 2 ^ 53) :
    (∀ front x rest, xs = front ++ x :: rest →
      ∃ s, run (add int64Arithmetic) (init int64Arithmetic w) (front ++ [x]) = some s ∧
        s.avg = ((front ++ [x]).rtake w).sum.tdiv ((front ++ [x]).rtake w).length) ↔
      StepsMeet (add int64Arithmetic) Divides (init int64Arithmetic w) xs := by
  have hstep : ∀ s past x, Window w s past → |((past ++ [x]).rtake w).sum| < 2 ^ 53 →
      (∀ t, s.add int64Arithmetic x = some t → Window w t (past ++ [x])) ∧
        ((∃ t, s.add int64Arithmetic x = some t ∧ Averages w t past x) ↔ Divides s x) := by
    intro s past x h hsum
    rcases Nat.lt_or_ge past.length w with hfill | hfull
    · exact add_filling_iff h hfill hsum
    · exact add_full_iff h hw hfull hsum
  have hinit : Window w (init int64Arithmetic w) [] := ⟨rfl, by rw [List.rtake_nil]; rfl, rfl⟩
  exact @forall_possible_iff_stepsMeet _ _ (add int64Arithmetic) (Window w) (Averages w)
    (fun past => |(past.rtake w).sum| < 2 ^ 53) Divides
    (fun s past x h hsum => (hstep s past x h hsum).2)
    (fun s past x t h hsum => (hstep s past x h hsum).1 t) _ [] xs hinit hsmall

theorem two_sums_small {a b : Int} (ha : |a| < 2 ^ 53) (hab : |a + b| < 2 ^ 53) :
    ∀ front x rest, [a, b] = front ++ x :: rest → |((front ++ [x]).rtake 2).sum| < 2 ^ 53 := by
  intro front x rest heq
  rcases front with _ | ⟨c, _ | ⟨d, front⟩⟩
  · obtain ⟨rfl, -⟩ := List.cons.inj heq
    simpa [List.rtake] using ha
  · rw [List.cons_append, List.cons.injEq, List.nil_append, List.cons.injEq] at heq
    obtain ⟨rfl, rfl, -⟩ := heq
    simpa [List.rtake] using hab
  · simp at heq

/-- The values -3 and 4, in a window of two. -/
theorem sma_int64_positive :
    ∃ s, run (add int64Arithmetic) (init int64Arithmetic 2) ([-3] ++ [4]) = some s ∧
      s.avg = (([-3] ++ [4]).rtake 2).sum.tdiv (([-3] ++ [4]).rtake 2).length :=
  (sma_int64_iff (by decide) (two_sums_small (by decide) (by decide))).mpr (by decide) [-3] 4 [] rfl

/-- The values -1 and -2: the average is 9223372036854775806. -/
theorem sma_int64_negative :
    ¬∀ (w : Nat) (xs : List Int), 1 ≤ w →
      (∀ front x rest, xs = front ++ x :: rest → |((front ++ [x]).rtake w).sum| < 2 ^ 53) →
      ∀ front x rest, xs = front ++ x :: rest →
        ∃ s, run (add int64Arithmetic) (init int64Arithmetic w) (front ++ [x]) = some s ∧
          s.avg = ((front ++ [x]).rtake w).sum.tdiv ((front ++ [x]).rtake w).length := by
  intro h
  obtain ⟨s, hrun, havg⟩ :=
    h 2 [-1, -2] (by decide) (two_sums_small (by decide) (by decide)) [-1] (-2) [] rfl
  have havg' : (run (add int64Arithmetic) (init int64Arithmetic 2) ([-1] ++ [-2])).map Sma.avg =
      some 9223372036854775806 := by decide
  rw [hrun, Option.map_some, havg] at havg'
  exact absurd havg' (by decide)

end Sma

end Zrtools.Math
