import Mathlib.Algebra.Order.Field.Rat
import Mathlib.Data.List.TakeWhile
import Mathlib.Tactic.FieldSimp
import Mathlib.Tactic.Ring
import Zrtools.Lib.Strings

/-!
# Decimal notation

Numbers with a sign and a fixed number of digits after the point, and the rational numbers that
such texts denote.

* `fixed` — the notation of a number that is an integer but for its last places;
* `denote_fixed` — what it denotes.
-/

namespace Decimals

open Strings

/-- The number `n` with its last `places` digits after the point, and a sign. -/
def fixed (negative : Bool) (places n : Nat) : List Char :=
  (if negative then ['-'] else []) ++ Nat.toDigits 10 (n / 10 ^ places) ++
    if places = 0 then [] else '.' :: pad places (n % 10 ^ places)

/-- The number that digits denote, with a point or without one. -/
def magnitude (s : List Char) : ℚ :=
  value (s.takeWhile (· ≠ '.')) +
    value ((s.dropWhile (· ≠ '.')).drop 1) / 10 ^ ((s.dropWhile (· ≠ '.')).drop 1).length

/-- The number that a text denotes. -/
def denote (s : List Char) : ℚ :=
  if s.head? = some '-' then -magnitude s.tail else magnitude s

theorem digit_ne {c x : Char} (h : c.isDigit = true) (hx : x.isDigit = false) : c ≠ x := by
  rintro rfl
  rw [h] at hx
  exact Bool.noConfusion hx

theorem mem_toDigits_isDigit {n : Nat} {c : Char} (h : c ∈ Nat.toDigits 10 n) :
    c.isDigit = true :=
  Nat.isDigit_of_mem_toDigits (by decide) (by decide) h

theorem magnitude_digits (n : Nat) : magnitude (Nat.toDigits 10 n) = n := by
  have hall : ∀ c ∈ Nat.toDigits 10 n, (decide (c ≠ '.')) = true := fun c hc =>
    decide_eq_true (digit_ne (mem_toDigits_isDigit hc) rfl)
  rw [magnitude, List.takeWhile_eq_self_iff.mpr hall, List.dropWhile_eq_nil_iff.mpr hall, value,
    Nat.ofDigitChars_ten_toDigits]
  simp

theorem magnitude_point (n : Nat) (rest : List Char) :
    magnitude (Nat.toDigits 10 n ++ '.' :: rest) = n + value rest / 10 ^ rest.length := by
  have hall : ∀ c ∈ Nat.toDigits 10 n, (decide (c ≠ '.')) = true := fun c hc =>
    decide_eq_true (digit_ne (mem_toDigits_isDigit hc) rfl)
  have htake : (Nat.toDigits 10 n ++ '.' :: rest).takeWhile (· ≠ '.') = Nat.toDigits 10 n := by
    rw [List.takeWhile_append_of_pos hall, List.takeWhile_cons_of_neg (by simp), List.append_nil]
  have hdrop : (Nat.toDigits 10 n ++ '.' :: rest).dropWhile (· ≠ '.') = '.' :: rest := by
    rw [List.dropWhile_append_of_pos hall, List.dropWhile_cons_of_neg (by simp)]
  rw [magnitude, htake, hdrop, List.drop_one, List.tail_cons, value, Nat.ofDigitChars_ten_toDigits]

/-- Without the sign. -/
theorem magnitude_fixed (places n : Nat) :
    magnitude (fixed false places n) = n / 10 ^ places := by
  rw [fixed, if_neg Bool.false_ne_true, List.nil_append]
  by_cases hzero : places = 0
  · rw [if_pos hzero, List.append_nil, magnitude_digits, hzero, pow_zero, Nat.div_one, pow_zero,
      div_one]
  · have hpow : (10 : ℚ) ^ places ≠ 0 := pow_ne_zero _ (by norm_num)
    have hlen : (pad places (n % 10 ^ places)).length = places :=
      length_pad (Nat.pos_of_ne_zero hzero) (Nat.mod_lt _ (Nat.pow_pos (by decide)))
    rw [if_neg hzero, magnitude_point, value_pad, hlen, eq_div_iff hpow, add_mul,
      div_mul_cancel₀ _ hpow]
    exact_mod_cast Nat.div_add_mod' n (10 ^ places)

theorem head_toDigits (n : Nat) (rest : List Char) :
    (Nat.toDigits 10 n ++ rest).head? ≠ some '-' := by
  cases hdigits : Nat.toDigits 10 n with
  | nil => exact absurd hdigits Nat.toDigits_ne_nil
  | cons c cs =>
    have hc : c.isDigit = true := mem_toDigits_isDigit (n := n) (hdigits ▸ List.mem_cons_self ..)
    intro h
    exact digit_ne hc rfl (Option.some.inj h)

theorem denote_fixed (negative : Bool) (places n : Nat) :
    denote (fixed negative places n) = (if negative then -1 else 1) * (n / 10 ^ places) := by
  have hunsigned := magnitude_fixed places n
  cases negative with
  | false =>
    have hhead : (fixed false places n).head? ≠ some '-' := by
      rw [fixed, if_neg Bool.false_ne_true, List.nil_append]
      exact head_toDigits _ _
    rw [denote, if_neg hhead, hunsigned, if_neg Bool.false_ne_true, one_mul]
  | true =>
    have hcons : fixed true places n = '-' :: fixed false places n := by
      simp [fixed]
    rw [hcons, denote, List.head?_cons, if_pos rfl, List.tail_cons, hunsigned, if_pos rfl,
      neg_one_mul]

end Decimals
