import Mathlib.Algebra.Order.Archimedean.Basic
import Mathlib.Algebra.Order.Floor.Ring
import Mathlib.Data.Rat.Floor
import Mathlib.Tactic.NormNum
import Zrtools.Compare.Keys
import Zrtools.Lib.Decimals
import Zrtools.Lib.Rounding

/-!
# zrtools — rounding to ticks (`zrt_math.h`)

Prices are rounded to multiples of a tick, and printed with as many decimals as it takes to bring
the tick up to one. The arithmetic is exact; only the printing rounds.

* `getDecimalPlaces_eq` — the number of decimals, which looks at the size of the tick only;
* `denote_roundStr_iff` — when a text denotes the number that was printed;
* `multiples_iff` — when the two multiples next to a value have few decimals;
* `tick_strings_iff` — the ticks whose multiples are printed exactly.
-/

namespace Zrtools.Math

open Compare Decimals

-- ---------------------------------------------------------------------------
-- The code
-- ---------------------------------------------------------------------------

/-- `std::round`, which rounds halves away from zero. -/
def stdRound (x : ℚ) : ℤ := if 0 ≤ x then ⌊x + 1 / 2⌋ else ⌈x - 1 / 2⌉

def roundTo (value precision : ℚ) : ℚ :=
  if precision = 0 then value else stdRound (value / precision) * precision

def floorTo (value precision : ℚ) : ℚ :=
  if precision = 0 then value else ⌊value / precision⌋ * precision

/-- The loop of `get_decimal_places`, for at most so many turns. -/
def countPlaces : ℕ → ℚ → ℕ → Option ℕ
  | 0, _, _ => none
  | fuel + 1, num, decimalPlaces =>
    if lessDouble exact (.num |num|) (.num 1) then countPlaces fuel (num * 10) (decimalPlaces + 1)
    else some decimalPlaces

def getDecimalPlaces (fuel : ℕ) (num : ℚ) : Option ℕ :=
  if num = 0 then some 0 else countPlaces fuel num 0

/-- The rounding of `fmt::format`, which gives one of the nearest integers. -/
structure Formatter where
  nearest : ℚ → ℕ
  near : ∀ x, 0 ≤ x → |x - nearest x| ≤ 1 / 2

/-- Of two that are equally near, the even one. -/
def evenFormatter : Formatter where
  nearest x := (Rounding.roundEven x).toNat
  near x hx := by
    have hcast : ((Rounding.roundEven x).toNat : ℚ) = Rounding.roundEven x := by
      exact_mod_cast Int.toNat_of_nonneg (Rounding.roundEven_nonneg hx)
    rw [hcast]
    exact le_trans (Rounding.roundEven_le x (round x)) (abs_sub_round x)

/-- `fmt::format("{0:.{1}f}", num, n)`. -/
def roundStr (f : Formatter) (num : ℚ) (n : ℕ) : List Char :=
  fixed (num < 0) n (f.nearest (|num| * 10 ^ n))

def roundToStr (f : Formatter) (fuel : ℕ) (value precision : ℚ) : Option (List Char) :=
  (getDecimalPlaces fuel precision).map (roundStr f (roundTo value precision))

def floorToStr (f : Formatter) (fuel : ℕ) (value precision : ℚ) : Option (List Char) :=
  (getDecimalPlaces fuel precision).map (roundStr f (floorTo value precision))

-- ---------------------------------------------------------------------------
-- Decimals
-- ---------------------------------------------------------------------------

theorem Formatter.nearest_nat (f : Formatter) (n : ℕ) : f.nearest n = n := by
  have hnear := f.near n (Nat.cast_nonneg n)
  obtain ⟨hlow, hhigh⟩ := abs_le.mp hnear
  have hle : f.nearest n < n + 1 := by
    exact_mod_cast (by linarith : (f.nearest n : ℚ) < n + 1)
  have hge : n < f.nearest n + 1 := by
    exact_mod_cast (by linarith : (n : ℚ) < f.nearest n + 1)
  omega

theorem roundStr_denote (f : Formatter) (num : ℚ) (n : ℕ) :
    denote (roundStr f num n) =
      if num < 0 then -((f.nearest (|num| * 10 ^ n) : ℕ) : ℚ) / 10 ^ n
      else (f.nearest (|num| * 10 ^ n) : ℕ) / 10 ^ n := by
  rw [roundStr, denote_fixed]
  by_cases h : num < 0
  · rw [if_pos (decide_eq_true h), if_pos h]
    ring
  · rw [if_neg (by simpa using h), if_neg h, one_mul]

/-- What is printed is exact where no more decimals are needed. -/
theorem denote_roundStr_iff (f : Formatter) (num : ℚ) (n : ℕ) :
    denote (roundStr f num n) = num ↔ ∃ z : ℤ, num * 10 ^ n = z := by
  have hpow : (0 : ℚ) < 10 ^ n := by positivity
  rw [roundStr_denote]
  refine ⟨?_, ?_⟩
  · intro h
    split_ifs at h with hneg
    · refine ⟨-(f.nearest (|num| * 10 ^ n) : ℕ), ?_⟩
      rw [div_eq_iff (ne_of_gt hpow)] at h
      rw [← h]
      push_cast
      rfl
    · refine ⟨(f.nearest (|num| * 10 ^ n) : ℕ), ?_⟩
      rw [div_eq_iff (ne_of_gt hpow)] at h
      rw [← h]
      push_cast
      rfl
  · rintro ⟨z, hz⟩
    have habs : |num| * 10 ^ n = (z.natAbs : ℕ) := by
      rw [← abs_of_pos hpow, ← abs_mul, hz, Nat.cast_natAbs, Int.cast_abs]
    rw [habs, f.nearest_nat, ← habs]
    split_ifs with hneg
    · rw [abs_of_neg hneg, neg_mul, neg_neg, mul_div_cancel_right₀ _ (ne_of_gt hpow)]
    · rw [abs_of_nonneg (not_lt.mp hneg), mul_div_cancel_right₀ _ (ne_of_gt hpow)]

/-- The number of multiplications: all numbers before the last are less than one by epsilon. -/
structure Places (num : ℚ) (d : ℕ) : Prop where
  last : 1 - |num| * 10 ^ d < kDoubleEpsilon
  before : ∀ i < d, kDoubleEpsilon ≤ 1 - |num| * 10 ^ i

theorem exists_places {num : ℚ} (hnum : num ≠ 0) : ∃ d, Places num d := by
  have hpos : 0 < |num| := abs_pos.mpr hnum
  have hreach : ∃ d : ℕ, 1 - |num| * 10 ^ d < kDoubleEpsilon := by
    obtain ⟨d, hd⟩ := pow_unbounded_of_one_lt (1 / |num|) (by norm_num : (1 : ℚ) < 10)
    rw [div_lt_iff₀ hpos, mul_comm] at hd
    exact ⟨d, by linarith [epsilon_pos]⟩
  exact ⟨Nat.find hreach, Nat.find_spec hreach, fun i hi => not_lt.mp (Nat.find_min hreach hi)⟩

/-- Where there is a digit still to come, the next number has one less before it. -/
theorem Places.next {num : ℚ} {d : ℕ} (h : Places num (d + 1)) :
    lessDouble exact (.num |num|) (.num 1) = true ∧ Places (num * 10) d := by
  have hshift : ∀ i, |num * 10| * 10 ^ i = |num| * 10 ^ (i + 1) := by
    intro i
    rw [abs_mul, abs_of_pos (by norm_num : (0 : ℚ) < 10), pow_succ]
    ring
  refine ⟨(lessDouble_exact _ _).mpr ?_, ?_, fun i hi => ?_⟩
  · have hfirst := h.before 0 (Nat.succ_pos d)
    rwa [pow_zero, mul_one] at hfirst
  · rw [hshift]
    exact h.last
  · rw [hshift]
    exact h.before (i + 1) (Nat.succ_lt_succ hi)

theorem countPlaces_eq {num : ℚ} {d : ℕ} (h : Places num d) (fuel decimalPlaces : ℕ) :
    countPlaces fuel num decimalPlaces = if d < fuel then some (decimalPlaces + d) else none := by
  induction fuel generalizing num d decimalPlaces with
  | zero => rfl
  | succ fuel ih =>
    rw [countPlaces]
    cases d with
    | zero =>
      have hlast := h.last
      rw [pow_zero, mul_one] at hlast
      rw [if_neg, if_pos (Nat.succ_pos fuel), Nat.add_zero]
      exact fun hless => absurd ((lessDouble_exact _ _).mp hless) (not_le.mpr hlast)
    | succ d =>
      obtain ⟨hless, hnext⟩ := h.next
      rw [if_pos hless, ih hnext]
      simp only [Nat.add_lt_add_iff_right, Nat.add_assoc, Nat.add_comm 1 d]

theorem getDecimalPlaces_eq {num : ℚ} (hnum : num ≠ 0) {d : ℕ} (h : Places num d) (fuel : ℕ) :
    getDecimalPlaces fuel num = if d < fuel then some d else none := by
  rw [getDecimalPlaces, if_neg hnum, countPlaces_eq h, Nat.zero_add]

-- ---------------------------------------------------------------------------
-- Ticks
-- ---------------------------------------------------------------------------

/-- A whole number, or one with a single digit that is not zero, which stands behind the point. -/
def OneDigit (p : ℚ) : Prop := (∃ z : ℤ, p = z) ∨ ∃ m d : ℕ, 1 ≤ m ∧ m ≤ 9 ∧ p = m / 10 ^ d

/-- Where the last multiplication gives an integer, it gives a digit. -/
theorem Places.oneDigit {p : ℚ} (hp : 0 < p) {d : ℕ} (h : Places p d) {z : ℤ}
    (hz : p * 10 ^ d = z) : OneDigit p := by
  have hpow : (0 : ℚ) < 10 ^ d := pow_pos (by norm_num) d
  cases d with
  | zero => exact Or.inl ⟨z, by rwa [pow_zero, mul_one] at hz⟩
  | succ d =>
    have hten := h.before d (Nat.lt_succ_self d)
    have hsplit : p * 10 ^ (d + 1) = p * 10 ^ d * 10 := by ring
    rw [abs_of_pos hp] at hten
    have hlow : (0 : ℚ) < z := hz ▸ mul_pos hp hpow
    have hhigh : (z : ℚ) < 10 := by
      rw [← hz, hsplit]
      linarith [epsilon_pos]
    have hlow' : 0 < z := by exact_mod_cast hlow
    have hhigh' : z < 10 := by exact_mod_cast hhigh
    refine Or.inr ⟨z.toNat, d + 1, by omega, by omega, ?_⟩
    have hnat : ((z.toNat : ℕ) : ℚ) = z := by exact_mod_cast Int.toNat_of_nonneg (by omega)
    rw [hnat, eq_div_iff (ne_of_gt hpow), hz]

/-- A digit is reached before the last multiplication. -/
theorem Places.reaches {m e d : ℕ} (hm : m ≤ 9) (h : Places ((m : ℚ) / 10 ^ e) d) : e ≤ d := by
  have hlast := h.last
  have hpow : (0 : ℚ) < 10 ^ d := pow_pos (by norm_num) d
  have hnonneg : (0 : ℚ) ≤ (m : ℚ) / 10 ^ e := by positivity
  rw [abs_of_nonneg hnonneg, kDoubleEpsilon] at hlast
  by_contra hlt
  have hsplit : (10 : ℚ) ^ e = 10 ^ d * 10 ^ (e - d) := by
    rw [← pow_add, Nat.add_sub_cancel' (Nat.le_of_not_le hlt)]
  have hten : (10 : ℚ) ≤ 10 ^ (e - d) := le_self_pow₀ (by norm_num) (by omega)
  have hmq : (m : ℚ) ≤ 9 := by exact_mod_cast hm
  have hsmall : (m : ℚ) / 10 ^ e * 10 ^ d ≤ 9 / 10 := by
    rw [hsplit, div_mul_eq_mul_div, mul_comm (m : ℚ), mul_div_mul_left _ _ (ne_of_gt hpow)]
    exact div_le_div₀ (by norm_num) hmq (by norm_num) hten
  norm_num at hlast
  linarith

theorem places_exact_iff {p : ℚ} (hp : 0 < p) {d : ℕ} (h : Places p d) :
    (∃ z : ℤ, p * 10 ^ d = z) ↔ OneDigit p := by
  refine ⟨fun ⟨z, hz⟩ => h.oneDigit hp hz, ?_⟩
  rintro (⟨z, rfl⟩ | ⟨m, e, -, hm, rfl⟩)
  · exact ⟨z * 10 ^ d, by push_cast; rfl⟩
  · have hsplit : (10 : ℚ) ^ d = 10 ^ e * 10 ^ (d - e) := by
      rw [← pow_add, Nat.add_sub_cancel' (h.reaches hm)]
    refine ⟨m * 10 ^ (d - e), ?_⟩
    rw [hsplit, ← mul_assoc, div_mul_cancel₀ _ (pow_ne_zero e (by norm_num))]
    push_cast
    rfl

theorem stdRound_cases (x : ℚ) : stdRound x = ⌊x⌋ ∨ stdRound x = ⌊x⌋ + 1 := by
  have hlow := Int.floor_le x
  have hhigh := Int.lt_floor_add_one x
  unfold stdRound
  split_ifs with hx
  · have hle : ⌊x⌋ ≤ ⌊x + 1 / 2⌋ := Int.le_floor.mpr (by linarith)
    have hlt : ⌊x + 1 / 2⌋ < ⌊x⌋ + 2 := Int.floor_lt.mpr (by push_cast; linarith)
    omega
  · have hle : ⌈x - 1 / 2⌉ ≤ ⌊x⌋ + 1 := Int.ceil_le.mpr (by push_cast; linarith)
    have hlt : ⌊x⌋ - 1 < ⌈x - 1 / 2⌉ := Int.lt_ceil.mpr (by push_cast; linarith)
    omega

/-- Halves are rounded down below zero only. -/
theorem stdRound_eq_floor_iff (x : ℚ) :
    stdRound x = ⌊x⌋ ↔ x < ⌊x⌋ + 1 / 2 ∨ x < 0 ∧ x = ⌊x⌋ + 1 / 2 := by
  have hlow := Int.floor_le x
  unfold stdRound
  split_ifs with hx
  · rw [Int.floor_eq_iff]
    refine ⟨?_, ?_⟩
    · rintro ⟨-, hhigh⟩
      exact Or.inl (by linarith)
    · rintro (hlt | ⟨hneg, -⟩)
      · exact ⟨by linarith, by linarith⟩
      · exact absurd hneg (not_lt.mpr hx)
  · rw [Int.ceil_eq_iff]
    refine ⟨?_, ?_⟩
    · rintro ⟨-, hhigh⟩
      rcases lt_or_eq_of_le (show x ≤ ⌊x⌋ + 1 / 2 by linarith) with hlt | heq
      · exact Or.inl hlt
      · exact Or.inr ⟨not_le.mp hx, heq⟩
    · rintro (hlt | ⟨-, heq⟩)
      · exact ⟨by linarith, by linarith⟩
      · exact ⟨by linarith, by linarith⟩

theorem roundTo_multiple (v : ℚ) {p : ℚ} (hp : p ≠ 0) :
    roundTo v p = (stdRound (v / p) : ℚ) * p := by
  rw [roundTo, if_neg hp]

theorem floorTo_multiple (v : ℚ) {p : ℚ} (hp : p ≠ 0) : floorTo v p = (⌊v / p⌋ : ℚ) * p := by
  rw [floorTo, if_neg hp]

/-- A text that denotes a multiple of the tick, the one that was computed. -/
def Exact (p rounded : ℚ) (s : List Char) : Prop :=
  denote s = rounded ∧ ∃ z : ℤ, denote s = z * p

theorem exact_iff (f : Formatter) {p : ℚ} (z : ℤ) (d : ℕ) :
    Exact p (z * p) (roundStr f (z * p) d) ↔ ∃ w : ℤ, (z : ℚ) * p * 10 ^ d = w := by
  rw [Exact, denote_roundStr_iff]
  refine and_iff_left_of_imp fun hd => ⟨z, (denote_roundStr_iff f _ d).mpr hd⟩

/-- The texts for a value, once there is enough fuel. -/
def TextsExact (f : Formatter) (v p : ℚ) : Prop :=
  ∀ fuel s, (roundToStr f fuel v p = some s → Exact p (roundTo v p) s) ∧
    (floorToStr f fuel v p = some s → Exact p (floorTo v p) s)

/-- The value lies on a multiple of the tick that has at most `d` decimals, or less than half a tick
above one. Below zero it may also lie half a tick above one. -/
def AboveMultiple (v p : ℚ) (d : ℕ) : Prop :=
  ∃ z : ℤ, (∃ w : ℤ, z * p * 10 ^ d = w) ∧ z * p ≤ v ∧
    (v < z * p + p / 2 ∨ v < 0 ∧ v = z * p + p / 2)

/-- The tick has no more decimals than it takes to bring it up to one, or the value is above a
multiple that has no more. -/
def FewDecimals (v p : ℚ) : Prop :=
  ∃ d, Places p d ∧ ((∃ w : ℤ, p * 10 ^ d = w) ∨ AboveMultiple v p d)

theorem aboveMultiple_iff (v : ℚ) {p : ℚ} (hp : 0 < p) (d : ℕ) :
    AboveMultiple v p d ↔
      stdRound (v / p) = ⌊v / p⌋ ∧ ∃ w : ℤ, (⌊v / p⌋ : ℚ) * p * 10 ^ d = w := by
  have hne := ne_of_gt hp
  have hlow : ∀ z : ℤ, z * p ≤ v ↔ (z : ℚ) ≤ v / p := fun z => (le_div_iff₀ hp).symm
  have hhalf : ∀ z : ℤ, (z : ℚ) * p + p / 2 = (z + 1 / 2) * p := by
    intro z
    ring
  have hhigh : ∀ z : ℤ, v < z * p + p / 2 ↔ v / p < z + 1 / 2 := by
    intro z
    rw [hhalf, div_lt_iff₀ hp]
  have htie : ∀ z : ℤ, v = z * p + p / 2 ↔ v / p = z + 1 / 2 := by
    intro z
    rw [hhalf, div_eq_iff hne]
  have hneg : v < 0 ↔ v / p < 0 := by rw [div_lt_iff₀ hp, zero_mul]
  rw [stdRound_eq_floor_iff, ← hhigh, ← htie, ← hneg]
  refine ⟨?_, ?_⟩
  · rintro ⟨z, hz, hle, hup⟩
    have hfloor : ⌊v / p⌋ = z := by
      rw [Int.floor_eq_iff, ← hlow]
      refine ⟨hle, ?_⟩
      rw [hhigh, htie] at hup
      rcases hup with hlt | ⟨-, heq⟩
      · linarith
      · linarith
    rw [hfloor]
    exact ⟨hup, hz⟩
  · rintro ⟨hup, hw⟩
    exact ⟨⌊v / p⌋, hw, (hlow _).mpr (Int.floor_le _), hup⟩

/-- Both multiples have few decimals where the tick has, or where both are the same one. -/
theorem multiples_iff (v : ℚ) {p : ℚ} (hp : 0 < p) (d : ℕ) :
    ((∃ w : ℤ, (stdRound (v / p) : ℚ) * p * 10 ^ d = w) ∧
        ∃ w : ℤ, (⌊v / p⌋ : ℚ) * p * 10 ^ d = w) ↔
      (∃ w : ℤ, p * 10 ^ d = w) ∨ AboveMultiple v p d := by
  rw [aboveMultiple_iff v hp]
  refine ⟨?_, ?_⟩
  · rintro ⟨⟨a, ha⟩, ⟨b, hb⟩⟩
    rcases stdRound_cases (v / p) with hsame | hnext
    · exact Or.inr ⟨hsame, b, hb⟩
    · -- two multiples next to each other differ by the tick
      refine Or.inl ⟨a - b, ?_⟩
      rw [hnext] at ha
      push_cast at ha ⊢
      linarith
  · rintro (⟨w, hw⟩ | ⟨hsame, hfew⟩)
    · have hmultiple : ∀ z : ℤ, ∃ x : ℤ, (z : ℚ) * p * 10 ^ d = x := by
        intro z
        exact ⟨z * w, by rw [mul_assoc, hw]; push_cast; rfl⟩
      exact ⟨hmultiple _, hmultiple _⟩
    · rw [hsame]
      exact ⟨hfew, hfew⟩

theorem Places.unique {p : ℚ} {d e : ℕ} (hd : Places p d) (he : Places p e) : d = e := by
  rcases Nat.lt_trichotomy d e with h | h | h
  · exact absurd hd.last (not_lt.mpr (he.before d h))
  · exact h
  · exact absurd he.last (not_lt.mpr (hd.before e h))

theorem textsExact_iff (f : Formatter) {p : ℚ} (hp : 0 < p) (v : ℚ) :
    TextsExact f v p ↔ FewDecimals v p := by
  have hne := ne_of_gt hp
  obtain ⟨d, hd⟩ := exists_places hne
  have hplaces : getDecimalPlaces (d + 1) p = some d := by
    rw [getDecimalPlaces_eq hne hd, if_pos (Nat.lt_succ_self d)]
  have hsome : ∀ {fuel num s}, (getDecimalPlaces fuel p).map (roundStr f num) = some s →
      s = roundStr f num d := by
    intro fuel num s hs
    obtain ⟨e, he, rfl⟩ := Option.map_eq_some_iff.mp hs
    rw [getDecimalPlaces_eq hne hd] at he
    split_ifs at he
    rw [Option.some.inj he]
  have hfew : FewDecimals v p ↔ (∃ w : ℤ, p * 10 ^ d = w) ∨ AboveMultiple v p d := by
    refine ⟨?_, ?_⟩
    · rintro ⟨e, he, heither⟩
      rwa [he.unique hd] at heither
    · exact fun heither => ⟨d, hd, heither⟩
  rw [hfew, ← multiples_iff v hp, ← exact_iff f, ← exact_iff f]
  rw [← roundTo_multiple v hne, ← floorTo_multiple v hne]
  refine ⟨?_, ?_⟩
  · intro h
    refine ⟨(h (d + 1) _).1 ?_, (h (d + 1) _).2 ?_⟩
    · rw [roundToStr, hplaces, Option.map_some]
    · rw [floorToStr, hplaces, Option.map_some]
  · rintro ⟨hround, hfloor⟩ fuel s
    refine ⟨?_, ?_⟩
    · intro hs
      rw [hsome hs]
      exact hround
    · intro hs
      rw [hsome hs]
      exact hfloor

/-- A value one tick and a half above zero is rounded to two ticks, and down to one. -/
theorem fewDecimals_all_iff {p : ℚ} (hp : 0 < p) : (∀ v, FewDecimals v p) ↔ OneDigit p := by
  obtain ⟨d, hd⟩ := exists_places (ne_of_gt hp)
  rw [← places_exact_iff hp hd]
  refine ⟨fun h => ?_, fun hw v => ⟨d, hd, Or.inl hw⟩⟩
  obtain ⟨e, he, heither⟩ := h (p * (3 / 2))
  rw [he.unique hd] at heither
  refine heither.elim id fun habove => ?_
  have hquotient : p * (3 / 2) / p = 3 / 2 := mul_div_cancel_left₀ _ (ne_of_gt hp)
  have hsame := ((aboveMultiple_iff _ hp d).mp habove).1
  rw [hquotient] at hsame
  exact absurd hsame (by decide +kernel)

/-- The loop ends for every tick. The texts for a value are right where the tick has few decimals or
the value is above a multiple that has. For all values they are right where the tick has one
digit. -/
theorem tick_strings_iff (f : Formatter) {c : ℕ} (hc : 0 < c) (k : ℕ) :
    (∃ fuel d, ∀ more, fuel ≤ more → getDecimalPlaces more (c / 10 ^ k) = some d) ∧
      (∀ v, TextsExact f v (c / 10 ^ k) ↔ FewDecimals v (c / 10 ^ k)) ∧
      ((∀ v, TextsExact f v (c / 10 ^ k)) ↔ OneDigit (c / 10 ^ k)) := by
  have hcq : (0 : ℚ) < c := by exact_mod_cast hc
  have hp : (0 : ℚ) < c / 10 ^ k := div_pos hcq (pow_pos (by norm_num) k)
  generalize (c : ℚ) / 10 ^ k = p at hp
  have hne := ne_of_gt hp
  obtain ⟨d, hd⟩ := exists_places hne
  refine ⟨⟨d + 1, d, fun more hmore => ?_⟩, textsExact_iff f hp, ?_⟩
  · rw [getDecimalPlaces_eq hne hd, if_pos (Nat.lt_of_succ_le hmore)]
  · rw [← fewDecimals_all_iff hp]
    exact forall_congr' (textsExact_iff f hp)

/-- The tick 0.05. -/
theorem tick_strings_five_hundredths :
    OneDigit ((5 : ℕ) / 10 ^ 2) ∧ ∀ v, TextsExact evenFormatter v ((5 : ℕ) / 10 ^ 2) := by
  have hdigit : OneDigit ((5 : ℕ) / 10 ^ 2) := Or.inr ⟨5, 2, by decide, by decide, rfl⟩
  exact ⟨hdigit, ((tick_strings_iff evenFormatter (by decide) 2).2.2).mpr hdigit⟩

/-- The tick 0.25: the text for 0.25 is "0.2". -/
theorem tick_strings_quarter :
    ¬∀ (f : Formatter) (c k : ℕ), 0 < c →
      (∃ fuel d, ∀ more, fuel ≤ more → getDecimalPlaces more (c / 10 ^ k) = some d) ∧
        ∀ v, TextsExact f v (c / 10 ^ k) := by
  intro h
  have hall := (h evenFormatter 25 2 (by decide)).2 (1 / 4)
  have htick : ((25 : ℕ) : ℚ) / 10 ^ 2 = 1 / 4 := by norm_num
  rw [htick] at hall
  have htext : roundToStr evenFormatter 2 (1 / 4) (1 / 4) = some ['0', '.', '2'] := by
    decide +kernel
  have hdenote : denote ['0', '.', '2'] = 1 / 5 := by
    decide +kernel
  have hround : roundTo (1 / 4) (1 / 4) = 1 / 4 := by
    decide +kernel
  have hexact := ((hall 2 _).1 htext).1
  rw [hdenote, hround] at hexact
  norm_num at hexact

end Zrtools.Math
