import Mathlib.Algebra.Order.Floor.Ring
import Mathlib.Algebra.Order.Round
import Mathlib.Data.Int.Log
import Mathlib.Data.Nat.Cast.Order.Field
import Mathlib.Data.Rat.Floor
import Mathlib.Tactic.Linarith
import Mathlib.Tactic.Ring

/-!
# Rounding to floating point numbers

The numbers of `p` binary digits, with exponents of any size, and the one of them next to a rational
number. Of two that are equally near, `toNearest` takes the even one.

* `toNearest_nearest` — it is one of the nearest;
* `Nearest.le_of_le`, `Nearest.eq_self` — rounding does not pass a number of `p` digits;
* `trunc_quotient` — the quotient of two integers, rounded and then truncated, is that of integer
  division, where the dividend has `p` digits.
-/

namespace Rounding

variable {p : ℕ}

def Representable (p : ℕ) (y : ℚ) : Prop := ∃ m e : ℤ, |m| < 2 ^ p ∧ y = m * 2 ^ e

/-- A number of `p` digits, and none is nearer. -/
structure Nearest (p : ℕ) (x y : ℚ) : Prop where
  representable : Representable p y
  le : ∀ z, Representable p z → |x - y| ≤ |x - z|

-- ---------------------------------------------------------------------------
-- Numbers of p digits
-- ---------------------------------------------------------------------------

theorem Representable.neg {y : ℚ} (h : Representable p y) : Representable p (-y) := by
  obtain ⟨m, e, hm, rfl⟩ := h
  refine ⟨-m, e, by rwa [abs_neg], ?_⟩
  push_cast
  ring

theorem representable_int {m : ℤ} (h : |m| < 2 ^ p) : Representable p m := ⟨m, 0, h, by simp⟩

theorem representable_two_zpow (hp : 0 < p) (e : ℤ) : Representable p (2 ^ e) :=
  ⟨1, e, by simpa using one_lt_pow₀ (by norm_num : (1 : ℤ) < 2) (Nat.ne_of_gt hp), by simp⟩

/-- Natural numbers up to the first that has too many digits. -/
theorem representable_nat (hp : 0 < p) {n : ℕ} (h : n ≤ 2 ^ p) : Representable p n := by
  rcases Nat.lt_or_eq_of_le h with hlt | rfl
  · have hint : Representable p ((n : ℤ) : ℚ) := representable_int (by simpa using mod_cast hlt)
    simpa using hint
  · have hpow := representable_two_zpow hp (p : ℤ)
    simpa using hpow

-- ---------------------------------------------------------------------------
-- The nearest of them
-- ---------------------------------------------------------------------------

theorem Nearest.neg {x y : ℚ} (h : Nearest p x y) : Nearest p (-x) (-y) := by
  refine ⟨h.representable.neg, fun z hz => ?_⟩
  have hle := h.le (-z) hz.neg
  rw [← abs_neg (-x - -y), ← abs_neg (-x - z)]
  convert hle using 2 <;> ring

theorem Nearest.le_of_le {x y z : ℚ} (h : Nearest p x y) (hz : Representable p z) (hx : x ≤ z) :
    y ≤ z := by
  by_contra hy
  have hle := h.le z hz
  rw [abs_sub_comm x y, abs_of_nonneg (by linarith), abs_sub_comm x z,
    abs_of_nonneg (by linarith)] at hle
  linarith

theorem Nearest.ge_of_ge {x y z : ℚ} (h : Nearest p x y) (hz : Representable p z) (hx : z ≤ x) :
    z ≤ y :=
  neg_le_neg_iff.mp (h.neg.le_of_le hz.neg (neg_le_neg hx))

theorem Nearest.eq_self {x y : ℚ} (h : Nearest p x y) (hx : Representable p x) : y = x :=
  le_antisymm (h.le_of_le hx le_rfl) (h.ge_of_ge hx le_rfl)

/-- Rounding to an integer; of two that are equally near, to the even one. -/
def roundEven (x : ℚ) : ℤ :=
  if Int.fract x = 1 / 2 then (if Even ⌊x⌋ then ⌊x⌋ else ⌊x⌋ + 1) else round x

theorem roundEven_le (x : ℚ) (z : ℤ) : |x - roundEven x| ≤ |x - z| := by
  refine le_trans (le_of_eq ?_) (round_le x z)
  unfold roundEven
  split_ifs with hhalf heven
  · rw [abs_sub_round_eq_min, hhalf, Int.self_sub_floor, hhalf]
    norm_num
  · have hfloor : x - ((⌊x⌋ + 1 : ℤ) : ℚ) = -(1 / 2) := by
      have hself := Int.self_sub_floor x
      push_cast
      linarith
    rw [abs_sub_round_eq_min, hhalf, hfloor]
    norm_num
  · rfl

/-- The last of `p` digits of a number counts so much. -/
def ulp (p : ℕ) (x : ℚ) : ℚ := 2 ^ (Int.log 2 |x| - (p - 1 : ℤ))

def toNearest (p : ℕ) (x : ℚ) : ℚ := roundEven (x / ulp p x) * ulp p x

theorem ulp_pos (p : ℕ) (x : ℚ) : 0 < ulp p x := zpow_pos (by norm_num) _

/-- No multiple of the last digit is nearer. -/
theorem toNearest_le_multiple (p : ℕ) (x : ℚ) (k : ℤ) :
    |x - toNearest p x| ≤ |x - k * ulp p x| := by
  have hu := ulp_pos p x
  have hscale : ∀ n : ℤ, |x - n * ulp p x| = |x / ulp p x - n| * ulp p x := by
    intro n
    rw [← abs_of_pos hu, ← abs_mul, abs_of_pos hu, sub_mul, div_mul_cancel₀ _ (ne_of_gt hu)]
  rw [toNearest, hscale, hscale]
  exact mul_le_mul_of_nonneg_right (roundEven_le _ k) (le_of_lt hu)

theorem ulp_eq (hp : 0 < p) (x : ℚ) :
    ((2 ^ (p - 1) : ℤ) : ℚ) * ulp p x = 2 ^ Int.log 2 |x| := by
  rw [ulp, Int.cast_pow, Int.cast_ofNat, ← zpow_natCast, ← zpow_add₀ (by norm_num)]
  congr 1
  omega

theorem roundEven_nonneg {x : ℚ} (hx : 0 ≤ x) : 0 ≤ roundEven x := by
  by_contra hneg
  have hle := roundEven_le x 0
  have hm : (roundEven x : ℚ) < 0 := by exact_mod_cast not_le.mp hneg
  rw [Int.cast_zero, sub_zero, abs_of_nonneg hx, abs_of_nonneg (by linarith)] at hle
  linarith

theorem roundEven_abs_le {x : ℚ} {k : ℤ} (h : |x| ≤ k) : |roundEven x| ≤ k := by
  obtain ⟨hlow, hhigh⟩ := abs_le.mp h
  refine abs_le.mpr ⟨?_, ?_⟩
  · by_contra hlt
    have hm : (roundEven x : ℚ) < -k := by exact_mod_cast not_le.mp hlt
    have hle := roundEven_le x (-k)
    push_cast at hle
    rw [abs_of_nonneg (by linarith), abs_of_nonneg (by linarith)] at hle
    linarith
  · by_contra hlt
    have hm : (k : ℚ) < roundEven x := by exact_mod_cast not_le.mp hlt
    have hle := roundEven_le x k
    rw [abs_of_nonpos (by linarith), abs_of_nonpos (by linarith)] at hle
    linarith

theorem toNearest_representable (hp : 0 < p) (x : ℚ) : Representable p (toNearest p x) := by
  have hu := ulp_pos p x
  have hpow : (2 : ℚ) ^ (Int.log 2 |x| + 1) = 2 ^ p * ulp p x := by
    rw [ulp, ← zpow_natCast, ← zpow_add₀ (by norm_num)]
    congr 1
    omega
  have hx : |x / ulp p x| ≤ ((2 ^ p : ℤ) : ℚ) := by
    have hlt := Int.lt_zpow_succ_log_self (b := 2) (by norm_num) |x|
    rw [abs_div, abs_of_pos hu, div_le_iff₀ hu, Int.cast_pow, Int.cast_ofNat, ← hpow]
    exact le_of_lt (by exact_mod_cast hlt)
  have hm := roundEven_abs_le hx
  rcases lt_or_eq_of_le hm with hlt | heq
  · exact ⟨_, _, hlt, rfl⟩
  · -- one digit more, and the others are zero
    have htop := representable_two_zpow hp (Int.log 2 |x| + 1)
    rcases eq_or_eq_neg_of_abs_eq heq with h | h
    · rw [toNearest, h, Int.cast_pow, Int.cast_ofNat, ← hpow]
      exact htop
    · rw [toNearest, h, Int.cast_neg, Int.cast_pow, Int.cast_ofNat, neg_mul, ← hpow]
      exact htop.neg

/-- A number whose last digit counts less than that of `x` is nearer to zero than the power of two
below `x`. -/
theorem abs_le_two_zpow_log {x : ℚ} {k j : ℤ} (hk : |k| < 2 ^ p)
    (hj : j < Int.log 2 |x| - (p - 1 : ℤ)) : |(k : ℚ) * 2 ^ j| ≤ 2 ^ Int.log 2 |x| := by
  have hkq : |(k : ℚ)| ≤ 2 ^ p := by exact_mod_cast le_of_lt hk
  calc |(k : ℚ) * 2 ^ j| = |(k : ℚ)| * 2 ^ j := by
        rw [abs_mul, abs_of_pos (zpow_pos (by norm_num : (0 : ℚ) < 2) j)]
    _ ≤ 2 ^ p * 2 ^ j := mul_le_mul_of_nonneg_right hkq (le_of_lt (zpow_pos (by norm_num) j))
    _ = 2 ^ (p + j : ℤ) := by rw [zpow_add₀ (by norm_num), zpow_natCast]
    _ ≤ 2 ^ Int.log 2 |x| := zpow_le_zpow_right₀ (by norm_num) (by omega)

/-- A number of `p` digits is a multiple of the last digit of `x`, or is nearer to zero than a
multiple between the two. -/
theorem toNearest_le (hp : 0 < p) (x : ℚ) {z : ℚ} (hz : Representable p z) :
    |x - toNearest p x| ≤ |x - z| := by
  obtain ⟨k, j, hk, rfl⟩ := hz
  rcases le_or_gt (Int.log 2 |x| - (p - 1 : ℤ)) j with hj | hj
  · have hmultiple : (k : ℚ) * 2 ^ j =
        ((k * 2 ^ (j - (Int.log 2 |x| - (p - 1 : ℤ))).toNat : ℤ) : ℚ) * ulp p x := by
      rw [ulp, Int.cast_mul, Int.cast_pow, Int.cast_ofNat, mul_assoc, ← zpow_natCast,
        ← zpow_add₀ (by norm_num)]
      congr 2
      omega
    rw [hmultiple]
    exact toNearest_le_multiple p x _
  · rcases eq_or_ne x 0 with rfl | hx
    · have hzero : toNearest p 0 = 0 := by simp [toNearest, roundEven]
      rw [hzero, sub_zero, abs_zero]
      exact abs_nonneg _
    have hlow := Int.zpow_log_le_self (b := 2) (by norm_num) (abs_pos.mpr hx)
    have hlow' : (2 : ℚ) ^ Int.log 2 |x| ≤ |x| := by exact_mod_cast hlow
    have hsmall := abs_le_two_zpow_log hk hj
    have hz := neg_abs_le ((k : ℚ) * 2 ^ j)
    have hz' := le_abs_self ((k : ℚ) * 2 ^ j)
    rcases lt_or_gt_of_ne hx with hneg | hpos
    · refine le_trans (toNearest_le_multiple p x (-2 ^ (p - 1))) ?_
      rw [Int.cast_neg, neg_mul, ulp_eq hp]
      rw [abs_of_neg hneg] at hlow' hsmall ⊢
      rw [abs_of_nonpos (by linarith), abs_of_nonpos (by linarith)]
      linarith
    · refine le_trans (toNearest_le_multiple p x (2 ^ (p - 1))) ?_
      rw [ulp_eq hp]
      rw [abs_of_pos hpos] at hlow' hsmall ⊢
      rw [abs_of_nonneg (by linarith), abs_of_nonneg (by linarith)]
      linarith

theorem toNearest_nearest (hp : 0 < p) (x : ℚ) : Nearest p x (toNearest p x) where
  representable := toNearest_representable hp x
  le _ hz := toNearest_le hp x hz

-- ---------------------------------------------------------------------------
-- Quotients
-- ---------------------------------------------------------------------------

/-- The number of `p` digits before an integer, and how far it is from it. -/
theorem exists_before {n : ℕ} (hn : 0 < n) (hle : n ≤ 2 ^ p) :
    ∃ k, 2 ^ p < n * 2 ^ (k + 1) ∧ Representable p (n - 1 / 2 ^ k) := by
  refine ⟨Nat.log 2 (2 ^ p / n), ?_, ?_⟩
  · have hlog := Nat.lt_pow_succ_log_self (b := 2) (by norm_num) (2 ^ p / n)
    exact (Nat.div_lt_iff_lt_mul hn).mp hlog |>.trans_eq (Nat.mul_comm _ _)
  · have hfit : n * 2 ^ Nat.log 2 (2 ^ p / n) ≤ 2 ^ p := by
      have hpos : 2 ^ p / n ≠ 0 := Nat.ne_of_gt (Nat.div_pos hle hn)
      exact (Nat.mul_le_mul_left n (Nat.pow_log_le_self 2 hpos)).trans (Nat.mul_div_le _ _)
    generalize Nat.log 2 (2 ^ p / n) = k at hfit
    refine ⟨n * 2 ^ k - 1, -k, ?_, ?_⟩
    · have hpos : (1 : ℤ) ≤ n * 2 ^ k := by exact_mod_cast Nat.mul_pos hn (Nat.two_pow_pos k)
      have hfit' : (n : ℤ) * 2 ^ k ≤ 2 ^ p := by exact_mod_cast hfit
      rw [abs_of_nonneg (by omega)]
      omega
    · push_cast
      rw [zpow_neg, zpow_natCast, sub_mul, mul_assoc,
        mul_inv_cancel₀ (pow_ne_zero k (by norm_num)), mul_one, one_mul, one_div]

/-- The gap before the integer above a quotient is less than two parts of the divisor. -/
theorem divisor_lt_gap {s b k : ℕ} (hs : s < 2 ^ p) (hbp : b ≤ 2 ^ p)
    (hk : 2 ^ p < (s / b).succ * 2 ^ (k + 1)) : b < 2 ^ (k + 1) := by
  by_contra hlarge
  have hmul : s / b * b ≤ s := Nat.div_mul_le_self s b
  rcases Nat.lt_or_ge p (k + 1) with hkp | hkp
  · have hpow := Nat.pow_lt_pow_right (a := 2) (by norm_num) hkp
    omega
  · have hsplit : 2 ^ p = 2 ^ (p - (k + 1)) * 2 ^ (k + 1) := by
      rw [← Nat.pow_add, Nat.sub_add_cancel hkp]
    have hlow : 2 ^ (p - (k + 1)) ≤ s / b :=
      Nat.le_of_lt_succ (Nat.lt_of_mul_lt_mul_right (hsplit ▸ hk))
    have hprod := Nat.mul_le_mul hlow (not_lt.mp hlarge)
    omega

/-- A rounded quotient does not reach the next integer, as it is too far away from it. -/
theorem Nearest.floor_div {s b : ℕ} {y : ℚ} (hp : 0 < p) (hs : s < 2 ^ p) (hb : 0 < b)
    (hbp : b ≤ 2 ^ p) (hy : Nearest p (s / b) y) : ⌊y⌋ = ((s / b : ℕ) : ℤ) := by
  have hbq : (0 : ℚ) < b := by exact_mod_cast hb
  have hquot : s / b ≤ s := Nat.div_le_self s b
  rw [Int.floor_eq_iff]
  refine ⟨?_, ?_⟩
  · refine hy.ge_of_ge ?_ (by exact_mod_cast Nat.cast_div_le)
    exact_mod_cast representable_nat hp (hquot.trans (le_of_lt hs))
  · by_contra hnext
    have hsucc : (s / b).succ ≤ 2 ^ p := Nat.succ_le_of_lt (Nat.lt_of_le_of_lt hquot hs)
    obtain ⟨k, hk, hz⟩ := exists_before (Nat.succ_pos (s / b)) hsucc
    have hle := hy.le _ hz
    -- the quotient is below the middle of the gap before the integer
    have hgap := divisor_lt_gap hs hbp hk
    have hhalf : (1 : ℚ) / 2 ^ k < 2 / b := by
      rw [div_lt_div_iff₀ (pow_pos (by norm_num) k) hbq]
      have hgapq : (b : ℚ) < 2 ^ (k + 1) := by exact_mod_cast hgap
      rw [pow_succ] at hgapq
      linarith
    have hbelow : (s : ℚ) / b + 1 / b ≤ (s / b : ℕ) + 1 := by
      have hnat : s + 1 ≤ (s / b + 1) * b := by
        rw [Nat.mul_comm]
        exact Nat.lt_mul_div_succ s hb
      rw [← add_div, div_le_iff₀ hbq]
      exact_mod_cast hnat
    have hpow : (0 : ℚ) < 1 / 2 ^ k := one_div_pos.mpr (pow_pos (by norm_num) k)
    have hnear : |(s : ℚ) / b - (((s / b).succ : ℕ) - 1 / 2 ^ k)| < (s / b : ℕ) + 1 - s / b := by
      have htwo : (2 : ℚ) / b = 1 / b + 1 / b := by ring
      rw [Nat.cast_succ, abs_lt]
      exact ⟨by linarith, by linarith⟩
    have habs := neg_abs_le ((s : ℚ) / b - y)
    rw [Int.cast_natCast] at hnext
    linarith [not_lt.mp hnext]

/-- The quotient by a number with too many digits is less than one, and so is what it is rounded
to. -/
theorem Nearest.floor_small {s : ℕ} {c y : ℚ} (hp : 0 < p) (hs : s < 2 ^ p) (hc : 2 ^ p ≤ c)
    (hy : Nearest p (s / c) y) : ⌊y⌋ = 0 := by
  have hpow : (0 : ℚ) < 2 ^ p := pow_pos (by norm_num) p
  have hzero : (0 : ℚ) ≤ s / c := div_nonneg (Nat.cast_nonneg s) (le_trans (le_of_lt hpow) hc)
  obtain ⟨k, hk, hz⟩ := exists_before (p := p) (n := 1) one_pos Nat.one_le_two_pow
  have hkp : p ≤ k := by
    by_contra hlt
    have hle := Nat.pow_le_pow_right (n := 2) (by norm_num) (not_le.mp hlt)
    rw [one_mul] at hk
    exact absurd hk (not_lt.mpr hle)
  have hstep : (1 : ℚ) / 2 ^ k ≤ 1 / 2 ^ p :=
    one_div_le_one_div_of_le hpow (pow_le_pow_right₀ (by norm_num) hkp)
  have hbelow : (s : ℚ) / c ≤ 1 - 1 / 2 ^ p := by
    have hsq : (s : ℚ) + 1 ≤ 2 ^ p := by exact_mod_cast hs
    calc (s : ℚ) / c ≤ s / 2 ^ p := div_le_div_of_nonneg_left (Nat.cast_nonneg s) hpow hc
      _ ≤ (2 ^ p - 1) / 2 ^ p := div_le_div_of_nonneg_right (by linarith) (le_of_lt hpow)
      _ = 1 - 1 / 2 ^ p := by rw [sub_div, div_self (ne_of_gt hpow)]
  rw [Int.floor_eq_iff]
  refine ⟨?_, ?_⟩
  · have hnone : Representable p ((0 : ℕ) : ℚ) := representable_nat hp (Nat.zero_le _)
    exact_mod_cast hy.ge_of_ge (by exact_mod_cast hnone) hzero
  · have hle := hy.le_of_le hz (by push_cast; linarith)
    have hpos : (0 : ℚ) < 1 / 2 ^ k := one_div_pos.mpr (pow_pos (by norm_num) k)
    push_cast at hle ⊢
    linarith

/-- The conversion to an integer, which cuts off the fraction. -/
def trunc (x : ℚ) : ℤ := if 0 ≤ x then ⌊x⌋ else ⌈x⌉

theorem trunc_neg (x : ℚ) : trunc (-x) = -trunc x := by
  unfold trunc
  rcases lt_trichotomy x 0 with h | rfl | h
  · rw [if_pos (by linarith), if_neg (not_le.mpr h), Int.floor_neg]
  · simp
  · rw [if_neg (by linarith), if_pos (le_of_lt h), Int.ceil_neg]

theorem Nearest.trunc_div {s b : ℕ} {c y : ℚ} (hp : 0 < p) (hs : s < 2 ^ p) (hb : 0 < b)
    (hc : Nearest p b c) (hy : Nearest p (s / c) y) : trunc y = ((s / b : ℕ) : ℤ) := by
  have hfloor : ⌊y⌋ = ((s / b : ℕ) : ℤ) := by
    rcases Nat.le_or_ge b (2 ^ p) with hbp | hbp
    · rw [hc.eq_self (representable_nat hp hbp)] at hy
      exact hy.floor_div hp hs hb hbp
    · have hlarge : (2 : ℚ) ^ p ≤ c := by
        refine hc.ge_of_ge ?_ (by exact_mod_cast hbp)
        exact_mod_cast representable_nat hp (le_refl (2 ^ p))
      rw [hy.floor_small hp hs hlarge, Nat.div_eq_of_lt (Nat.lt_of_lt_of_le hs hbp), Nat.cast_zero]
  rw [trunc, if_pos, hfloor]
  exact Int.floor_nonneg.mp (hfloor ▸ Int.natCast_nonneg _)

theorem trunc_quotient (hp : 0 < p) {a : ℤ} (ha : |a| < 2 ^ p) {b : ℕ} (hb : 0 < b) :
    trunc (toNearest p (toNearest p a / toNearest p b)) = a.tdiv b := by
  have hc := toNearest_nearest hp (b : ℚ)
  rw [(toNearest_nearest hp (a : ℚ)).eq_self (representable_int ha)]
  obtain ⟨s, rfl | rfl⟩ := Int.eq_nat_or_neg a
  · have hs : s < 2 ^ p := by exact_mod_cast abs_lt.mp ha |>.2
    rw [Int.cast_natCast, hc.trunc_div hp hs hb (toNearest_nearest hp _)]
    rfl
  · have hs : s < 2 ^ p := by
      rw [abs_neg] at ha
      exact_mod_cast abs_lt.mp ha |>.2
    have hy := (toNearest_nearest hp (((-s : ℤ) : ℚ) / toNearest p b)).neg
    have hneg : -(((-s : ℤ) : ℚ) / toNearest p b) = s / toNearest p b := by
      push_cast
      ring
    rw [hneg] at hy
    rw [← neg_neg (toNearest p _), trunc_neg, hc.trunc_div hp hs hb hy, Int.neg_tdiv]
    rfl

end Rounding
