import Mathlib.Tactic.Common

/-!
# The integers of C

Signed types are ranges of integers: an operation whose result is out of range is undefined, and
its checked result is `none`. Unsigned types wrap; here are 32 bits of them, seen as integers.

* `int32`, `int64` — the checked result of an operation;
* `narrow32` — a conversion to 32 signed bits, which keeps the low ones;
* `tdiv_of_pos`, `tmod_of_pos`, `tmod_mem_iff`, `tdiv_floor` — division, which rounds to zero, and
  how to make it round down;
* `toInt_add`, `toInt_sub`, `toInt_mul`, `toInt_div`, `toInt_ofInt` — unsigned operations.
-/

namespace CInteger

-- ---------------------------------------------------------------------------
-- Signed
-- ---------------------------------------------------------------------------

def InInt32 (x : Int) : Prop := -2147483648 ≤ x ∧ x ≤ 2147483647

def InInt64 (x : Int) : Prop := -9223372036854775808 ≤ x ∧ x ≤ 9223372036854775807

instance : DecidablePred InInt32 := fun _ => inferInstanceAs (Decidable (_ ∧ _))

instance : DecidablePred InInt64 := fun _ => inferInstanceAs (Decidable (_ ∧ _))

def int32 (x : Int) : Option Int := if InInt32 x then some x else none

def int64 (x : Int) : Option Int := if InInt64 x then some x else none

/-- The value of the low 32 bits. -/
def narrow32 (x : Int) : Int := (x + 2147483648) % 4294967296 - 2147483648

theorem int32_of_mem {x : Int} (h : InInt32 x) : int32 x = some x := if_pos h

theorem int64_of_mem {x : Int} (h : InInt64 x) : int64 x = some x := if_pos h

theorem int32_bind {α : Type} {x : Int} (h : InInt32 x) (f : Int → Option α) :
    (int32 x >>= f) = f x := by
  rw [int32_of_mem h]
  rfl

theorem int64_bind {α : Type} {x : Int} (h : InInt64 x) (f : Int → Option α) :
    (int64 x >>= f) = f x := by
  rw [int64_of_mem h]
  rfl

theorem int32_eq_some_iff {x y : Int} : int32 x = some y ↔ InInt32 x ∧ y = x := by
  unfold int32
  split_ifs with h
  · simp [h, eq_comm]
  · simp [h]

theorem int64_eq_some_iff {x y : Int} : int64 x = some y ↔ InInt64 x ∧ y = x := by
  unfold int64
  split_ifs with h
  · simp [h, eq_comm]
  · simp [h]

theorem narrow32_of_mem {x : Int} (h : InInt32 x) : narrow32 x = x := by
  unfold InInt32 at h
  unfold narrow32
  omega

/-- Division rounds to zero: for negative numbers up. -/
theorem tdiv_of_pos (a : Int) {k : Int} (hk : 0 < k) :
    a.tdiv k = a / k + if 0 ≤ a ∨ k ∣ a then 0 else 1 := by
  rw [Int.tdiv_eq_ediv, Int.sign_eq_one_of_pos hk]

theorem tmod_of_pos (a : Int) {k : Int} (hk : 0 < k) :
    a.tmod k = a % k - if 0 ≤ a ∨ k ∣ a then 0 else k := by
  rw [Int.tmod_eq_emod]
  split_ifs
  · rfl
  · rw [Int.natAbs_of_nonneg (Int.le_of_lt hk)]

/-- Dividing twice. -/
theorem tdiv_tdiv (a : Int) {k l : Int} (hk : 0 ≤ k) : (a.tdiv k).tdiv l = a.tdiv (k * l) := by
  have hpos : ∀ b : Int, 0 ≤ b → (b.tdiv k).tdiv l = b.tdiv (k * l) := by
    intro b hb
    rw [Int.tdiv_eq_ediv_of_nonneg hb, Int.tdiv_eq_ediv_of_nonneg hb,
      Int.tdiv_eq_ediv_of_nonneg (Int.ediv_nonneg hb hk), Int.ediv_ediv_of_nonneg hk]
  rcases Int.le_total 0 a with h | h
  · exact hpos a h
  · have hneg := hpos (-a) (Int.neg_nonneg_of_nonpos h)
    rw [Int.neg_tdiv, Int.neg_tdiv, Int.neg_tdiv] at hneg
    exact Int.neg_inj.mp hneg

/-- When the remainder is one of those of rounding down. -/
theorem tmod_mem_iff {a k : Int} (hk : 0 < k) :
    0 ≤ a.tmod k ∧ a.tmod k < k ↔ 0 ≤ a ∨ k ∣ a := by
  have hlt := Int.emod_lt_of_pos a hk
  have hge := Int.emod_nonneg a (Int.ne_of_gt hk)
  rw [tmod_of_pos a hk]
  split_ifs with h
  · exact iff_of_true (by omega) h
  · exact iff_of_false (by omega) h

/-- The way to round down all the same. -/
theorem tdiv_floor (y : Int) {k : Int} (hk : 0 < k) :
    (if 0 ≤ y then y else y - (k - 1)).tdiv k = y / k := by
  split_ifs with h
  · exact Int.tdiv_eq_ediv_of_nonneg h
  · have hlt := Int.emod_lt_of_pos y hk
    have hge := Int.emod_nonneg y (Int.ne_of_gt hk)
    have hdiv := Int.mul_ediv_add_emod y k
    rw [tdiv_of_pos _ hk]
    by_cases hr : y % k = k - 1
    · have hz : y - (k - 1) = k * (y / k) := by omega
      rw [hz, if_pos (Or.inr (Int.dvd_mul_right ..)), Int.mul_ediv_cancel_left _ (Int.ne_of_gt hk),
        Int.add_zero]
    · have hz : y - (k - 1) = y % k + 1 + k * (y / k - 1) := by
        rw [Int.mul_sub]
        omega
      have hsmall : 0 ≤ y % k + 1 ∧ y % k + 1 < k := by omega
      have hnot : ¬(0 ≤ y - (k - 1) ∨ k ∣ y - (k - 1)) := by
        rintro (hn | hd)
        · omega
        · rw [hz, Int.dvd_iff_emod_eq_zero, Int.add_mul_emod_self_left,
            Int.emod_eq_of_lt hsmall.1 hsmall.2] at hd
          omega
      rw [if_neg hnot, hz, Int.add_mul_ediv_left _ _ (Int.ne_of_gt hk),
        Int.ediv_eq_zero_of_lt hsmall.1 hsmall.2]
      omega

-- ---------------------------------------------------------------------------
-- Unsigned
-- ---------------------------------------------------------------------------

/-- The value of an unsigned word. -/
abbrev toInt (x : UInt32) : Int := x.toNat

theorem toInt_lt (x : UInt32) : toInt x < 4294967296 := by
  have := x.toNat_lt
  simp only [toInt]
  omega

theorem toInt_nonneg (x : UInt32) : 0 ≤ toInt x := Int.natCast_nonneg _

theorem toInt_le_iff {x y : UInt32} : x ≤ y ↔ toInt x ≤ toInt y := by
  rw [UInt32.le_iff_toNat_le]
  simp only [toInt]
  omega

theorem toInt_lt_iff {x y : UInt32} : x < y ↔ toInt x < toInt y := by
  rw [UInt32.lt_iff_toNat_lt]
  simp only [toInt]
  omega

theorem toInt_ofInt (x : Int) : toInt (UInt32.ofInt x) = x % 4294967296 := by
  unfold UInt32.ofInt
  rw [toInt, UInt32.toNat_ofNat']
  omega

theorem toInt_add (x y : UInt32) : toInt (x + y) = (toInt x + toInt y) % 4294967296 := by
  rw [toInt, UInt32.toNat_add]
  simp only [toInt]
  omega

theorem toInt_sub (x y : UInt32) : toInt (x - y) = (toInt x - toInt y) % 4294967296 := by
  have := y.toNat_lt
  rw [toInt, UInt32.toNat_sub]
  simp only [toInt]
  omega

theorem toInt_mul (x y : UInt32) : toInt (x * y) = (toInt x * toInt y) % 4294967296 := by
  rw [toInt, UInt32.toNat_mul]
  simp only [toInt, Int.natCast_emod, Int.natCast_mul]
  rfl

theorem toInt_div (x y : UInt32) : toInt (x / y) = toInt x / toInt y := by
  rw [toInt, UInt32.toNat_div]
  rfl

end CInteger
