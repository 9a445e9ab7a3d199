import Mathlib.Tactic.Common
import Mathlib.Algebra.Order.Ring.Nat

/-!
# Two fields packed into a 64-bit word

The upper field is shifted left by `k` bits and the lower one, below `2 ^ k`, is
put in with an or. Where both fields fit, the word is the number with these two
digits, so that words compare like the pair of their fields.

* `toNat_low_succ` — counting in the lower field;
* `toNat_pack` — the word as a number;
* `high_pack`, `pack_high_low` — the upper field comes back, and every word
  is made of its own fields.
-/

namespace PackedWord

/-- `(hi << k) | lo`. -/
def pack (k : Nat) (hi lo : UInt64) : UInt64 := (hi <<< UInt64.ofNat k) ||| lo

/-- `w >> k`. -/
def high (k : Nat) (w : UInt64) : UInt64 := w >>> UInt64.ofNat k

/-- `(1 << k) - 1`. -/
def mask (k : Nat) : UInt64 := ((1 : UInt64) <<< UInt64.ofNat k) - 1

/-- `w & ((1 << k) - 1)`. -/
def low (k : Nat) (w : UInt64) : UInt64 := w &&& mask k

variable {k : Nat}

theorem toNat_shift (hk : k < 64) : (UInt64.ofNat k).toNat % 64 = k := by
  rw [UInt64.toNat_ofNat']
  omega

theorem two_pow_split (hk : k < 64) : 2 ^ (64 - k) * 2 ^ k = 2 ^ 64 := by
  rw [← Nat.pow_add]
  congr 1
  omega

theorem toNat_shiftLeft (hk : k < 64) {hi : UInt64} (hhi : hi.toNat < 2 ^ (64 - k)) :
    (hi <<< UInt64.ofNat k).toNat = hi.toNat * 2 ^ k := by
  have hlt : hi.toNat * 2 ^ k < 2 ^ 64 := by
    rw [← two_pow_split hk]
    exact Nat.mul_lt_mul_of_pos_right hhi (Nat.two_pow_pos k)
  rw [UInt64.toNat_shiftLeft, toNat_shift hk, Nat.shiftLeft_eq, Nat.mod_eq_of_lt hlt]

theorem toNat_mask (hk : k < 64) : (mask k).toNat = 2 ^ k - 1 := by
  have hone : ((1 : UInt64) <<< UInt64.ofNat k).toNat = 2 ^ k := by
    rw [toNat_shiftLeft hk]
    · simp
    · exact Nat.one_lt_two_pow (by omega)
  have hle : (1 : UInt64) ≤ (1 : UInt64) <<< UInt64.ofNat k := by
    rw [UInt64.le_iff_toNat_le, hone]
    exact Nat.two_pow_pos k
  rw [mask, UInt64.toNat_sub_of_le _ _ hle, hone]
  rfl

theorem toNat_high (hk : k < 64) (w : UInt64) : (high k w).toNat = w.toNat / 2 ^ k := by
  rw [high, UInt64.toNat_shiftRight, toNat_shift hk, Nat.shiftRight_eq_div_pow]

theorem toNat_low (hk : k < 64) (w : UInt64) : (low k w).toNat = w.toNat % 2 ^ k := by
  rw [low, UInt64.toNat_and, toNat_mask hk, Nat.and_two_pow_sub_one_eq_mod]

theorem high_lt (hk : k < 64) (w : UInt64) : (high k w).toNat < 2 ^ (64 - k) := by
  rw [toNat_high hk, Nat.div_lt_iff_lt_mul (Nat.two_pow_pos k), two_pow_split hk]
  exact w.toNat_lt

theorem low_lt (hk : k < 64) (w : UInt64) : (low k w).toNat < 2 ^ k := by
  rw [toNat_low hk]
  exact Nat.mod_lt _ (Nat.two_pow_pos k)

/-- A value of the lower field is never the last word there is. -/
theorem toNat_succ (hk : k < 64) {lo : UInt64} (hlo : lo.toNat < 2 ^ k) :
    (lo + 1).toNat = lo.toNat + 1 := by
  have hpow : 2 ^ k ≤ 2 ^ 63 := Nat.pow_le_pow_right (by decide) (by omega)
  rw [UInt64.toNat_add]
  exact Nat.mod_eq_of_lt (by show _ + 1 < 2 ^ 64; omega)

/-- A counter in the lower field, where it does not wrap to zero. -/
theorem toNat_low_succ (hk : k < 64) {lo : UInt64} (hlo : lo.toNat < 2 ^ k)
    (hne : low k (lo + 1) ≠ 0) : (low k (lo + 1)).toNat = lo.toNat + 1 := by
  have hnz : (low k (lo + 1)).toNat ≠ 0 := fun hzero => hne (UInt64.toNat_inj.mp hzero)
  rw [toNat_low hk, toNat_succ hk hlo] at hnz ⊢
  -- it did not wrap to zero, so it did not reach the end of the field
  rcases Nat.lt_or_ge (lo.toNat + 1) (2 ^ k) with hlt | hge
  · exact Nat.mod_eq_of_lt hlt
  · have hend : lo.toNat + 1 = 2 ^ k := by omega
    rw [hend, Nat.mod_self] at hnz
    exact absurd rfl hnz

/-- The mask is the largest value of the lower field. -/
theorem le_mask_iff (hk : k < 64) {x : UInt64} : x ≤ mask k ↔ x.toNat < 2 ^ k := by
  have hpos := Nat.two_pow_pos k
  rw [UInt64.le_iff_toNat_le, toNat_mask hk]
  omega

/-- It is where a counter in the lower field wraps to zero. -/
theorem low_succ_eq_zero_iff (hk : k < 64) {lo : UInt64} (hlo : lo.toNat < 2 ^ k) :
    low k (lo + 1) = 0 ↔ lo = mask k := by
  have hone := toNat_succ hk hlo
  rw [← UInt64.toNat_inj, ← UInt64.toNat_inj, toNat_low hk, toNat_mask hk, hone]
  show (lo.toNat + 1) % 2 ^ k = 0 ↔ _
  rcases Nat.lt_or_ge (lo.toNat + 1) (2 ^ k) with hlt | hge
  · rw [Nat.mod_eq_of_lt hlt]
    omega
  · have hend : lo.toNat + 1 = 2 ^ k := by omega
    rw [hend, Nat.mod_self]
    omega

/-- Below the mask it counts. -/
theorem low_succ (hk : k < 64) {lo : UInt64} (hlo : lo.toNat < 2 ^ k) (hne : lo ≠ mask k) :
    low k (lo + 1) = lo + 1 := by
  have hone := toNat_succ hk hlo
  apply UInt64.toNat_inj.mp
  rw [hone]
  exact toNat_low_succ hk hlo fun hzero => hne ((low_succ_eq_zero_iff hk hlo).mp hzero)

/-- **The packed word as a number.** -/
theorem toNat_pack (hk : k < 64) {hi lo : UInt64} (hhi : hi.toNat < 2 ^ (64 - k))
    (hlo : lo.toNat < 2 ^ k) : (pack k hi lo).toNat = hi.toNat * 2 ^ k + lo.toNat := by
  have hshift := toNat_shiftLeft hk hhi
  rw [pack, UInt64.toNat_or, hshift, ← Nat.shiftLeft_eq, ← Nat.shiftLeft_add_eq_or_of_lt hlo]

theorem high_pack (hk : k < 64) {hi lo : UInt64} (hhi : hi.toNat < 2 ^ (64 - k))
    (hlo : lo.toNat < 2 ^ k) : high k (pack k hi lo) = hi := by
  apply UInt64.toNat_inj.mp
  rw [toNat_high hk, toNat_pack hk hhi hlo, Nat.mul_comm, Nat.mul_add_div (Nat.two_pow_pos k),
    Nat.div_eq_of_lt hlo, Nat.add_zero]

theorem pack_high_low (hk : k < 64) (w : UInt64) : pack k (high k w) (low k w) = w := by
  apply UInt64.toNat_inj.mp
  rw [toNat_pack hk (high_lt hk w) (low_lt hk w), toNat_high hk, toNat_low hk, Nat.mul_comm]
  exact Nat.div_add_mod _ _

/-- A larger upper field makes a larger number, whatever is below it. -/
theorem digits_lt_of_lt {m a b c d : Nat} (hab : a < b) (hc : c < m) : a * m + c < b * m + d := by
  calc a * m + c < a * m + m := Nat.add_lt_add_left hc _
    _ = (a + 1) * m := (Nat.succ_mul a m).symm
    _ ≤ b * m := Nat.mul_le_mul_right m hab
    _ ≤ b * m + d := Nat.le_add_right _ _

end PackedWord
