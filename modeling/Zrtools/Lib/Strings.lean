import Mathlib.Algebra.Ring.Nat
import Mathlib.Data.List.Infix
import Mathlib.Tactic.Common

/-!
# Strings and decimals

Strings as lists of characters: the positions that a search in them finds, and the decimals that
make a fraction.

* `find_append` — where a pattern is found that cannot overlap itself;
* `findLast_append` — where the last character of a kind is found;
* `value_take` — fewer digits of a number, which is to round it down;
* `pad_digits`, `value_pad` — a number with zeros in front;
* `take_toDigits`, `pow_le_of_toDigits` — the first digits of a number without such zeros.
-/

namespace Strings

-- ---------------------------------------------------------------------------
-- Positions
-- ---------------------------------------------------------------------------

/-- The first position at which a string holds a pattern. -/
def find (pat : List Char) : List Char → Option Nat
  | [] => if pat.isEmpty then some 0 else none
  | c :: s => if pat.isPrefixOf (c :: s) then some 0 else (find pat s).map (· + 1)

/-- The last position of a character of a kind. -/
def findLast (p : Char → Bool) : List Char → Option Nat
  | [] => none
  | c :: s =>
    match findLast p s with
    | some i => some (i + 1)
    | none => if p c then some 0 else none

/-- Where a pattern ends a string that does not hold it before, and it begins with a character
that it has nowhere else, it is found there. -/
theorem find_append {c : Char} {pat s : List Char} (hc : c ∉ pat) (hs : ¬(c :: pat) <:+: s)
    (rest : List Char) : find (c :: pat) (s ++ (c :: pat) ++ rest) = some s.length := by
  induction s with
  | nil =>
    have hpre : (c :: pat).isPrefixOf (c :: (pat ++ rest)) = true := by
      rw [List.isPrefixOf_iff_prefix]
      exact List.prefix_append (c :: pat) rest
    rw [List.nil_append, List.cons_append, find, if_pos hpre]
    rfl
  | cons x s ih =>
    have hnot : (c :: pat).isPrefixOf (x :: (s ++ (c :: pat) ++ rest)) = false := by
      rw [Bool.eq_false_iff, Ne, List.isPrefixOf_iff_prefix]
      intro hpre
      rw [← List.cons_append, ← List.cons_append] at hpre
      rcases Nat.lt_or_ge (x :: s).length (c :: pat).length with hlong | hshort
      · -- the pattern would hold its own first character again
        apply hc
        have hget : (c :: pat)[(x :: s).length]? = some c := by
          obtain ⟨t, ht⟩ := hpre
          have hwhole : (c :: pat ++ t)[(x :: s).length]? = some c := by
            rw [ht]
            simp
          rwa [List.getElem?_append_left hlong] at hwhole
        rw [List.length_cons, List.getElem?_cons_succ] at hget
        exact List.mem_of_getElem? hget
      · apply hs
        rw [List.append_assoc] at hpre
        exact (List.prefix_of_prefix_length_le hpre (List.prefix_append ..) hshort).isInfix
    have hrest : ¬(c :: pat) <:+: s := fun h => hs (h.trans (List.suffix_cons x s).isInfix)
    rw [List.cons_append, List.cons_append, find, hnot, if_neg Bool.false_ne_true, ih hrest]
    rfl

theorem findLast_eq_none_iff {p : Char → Bool} {s : List Char} :
    findLast p s = none ↔ ∀ c ∈ s, p c = false := by
  induction s with
  | nil => simp [findLast]
  | cons x s ih =>
    rw [findLast, List.forall_mem_cons]
    cases hfind : findLast p s with
    | some i =>
      rw [hfind] at ih
      simp only [reduceCtorEq, false_iff] at ih ⊢
      exact fun h => ih h.2
    | none =>
      rw [← ih, hfind]
      cases p x <;> simp

theorem findLast_append {p : Char → Bool} {c : Char} {rest : List Char} (hc : p c = true)
    (hrest : ∀ x ∈ rest, p x = false) (s : List Char) :
    findLast p (s ++ c :: rest) = some s.length := by
  induction s with
  | nil => rw [List.nil_append, findLast, findLast_eq_none_iff.mpr hrest, hc]; rfl
  | cons x s ih => rw [List.cons_append, findLast, ih]; rfl

-- ---------------------------------------------------------------------------
-- Decimals
-- ---------------------------------------------------------------------------

/-- The number that digits make. -/
abbrev value (digits : List Char) : Nat := Nat.ofDigitChars 10 digits 0

theorem value_append (a b : List Char) : value (a ++ b) = value a * 10 ^ b.length + value b := by
  rw [value, Nat.ofDigitChars_append, Nat.ofDigitChars_eq_ofDigitChars_zero, Nat.mul_comm]

theorem value_lt {digits : List Char} (h : ∀ c ∈ digits, c.isDigit = true) :
    value digits < 10 ^ digits.length := by
  induction digits with
  | nil => decide
  | cons c digits ih =>
    have hrest : Nat.ofDigitChars 10 digits 0 < 10 ^ digits.length :=
      ih fun x hx => h x (List.mem_cons_of_mem _ hx)
    have hc : c.toNat - '0'.toNat < 10 := by
      have hdigit := h c (List.mem_cons_self ..)
      simp only [Char.isDigit, Bool.and_eq_true, decide_eq_true_eq] at hdigit
      have : c.val.toNat ≤ 57 := UInt32.le_iff_toNat_le.mp hdigit.2
      have hzero : '0'.toNat = 48 := rfl
      have hval : c.toNat = c.val.toNat := rfl
      omega
    rw [value, Nat.ofDigitChars_cons, Nat.ofDigitChars_eq_ofDigitChars_zero, List.length_cons,
      Nat.pow_succ]
    have hmul : 10 ^ digits.length * (10 * 0 + (c.toNat - '0'.toNat)) ≤
        10 ^ digits.length * 9 := Nat.mul_le_mul_left _ (by omega)
    omega

/-- The first digits of a number round it down. -/
theorem value_take {digits : List Char} (h : ∀ c ∈ digits, c.isDigit = true) (k : Nat) :
    value (digits.take k) = value digits / 10 ^ (digits.length - k) := by
  have hrest : value (digits.drop k) < 10 ^ (digits.length - k) := by
    rw [← List.length_drop]
    exact value_lt fun c hc => h c (List.mem_of_mem_drop hc)
  have hsplit := value_append (digits.take k) (digits.drop k)
  rw [List.take_append_drop, List.length_drop] at hsplit
  rw [hsplit, Nat.add_comm, Nat.add_mul_div_right _ _ (Nat.pow_pos (by decide)),
    Nat.div_eq_of_lt hrest, Nat.zero_add]

/-- A number in at least so many digits. -/
def pad (width n : Nat) : List Char :=
  List.replicate (width - (Nat.toDigits 10 n).length) '0' ++ Nat.toDigits 10 n

theorem pad_digits {width n : Nat} {c : Char} (h : c ∈ pad width n) : c.isDigit = true := by
  rcases List.mem_append.mp h with hzero | hdigit
  · rw [List.eq_of_mem_replicate hzero]
    rfl
  · exact Nat.isDigit_of_mem_toDigits (by decide) (by decide) hdigit

theorem length_pad {width n : Nat} (hwidth : 0 < width) (h : n < 10 ^ width) :
    (pad width n).length = width := by
  have hlen := (Nat.length_toDigits_le_iff (b := 10) (by decide) hwidth).mpr h
  rw [pad, List.length_append, List.length_replicate]
  omega

theorem value_pad (width n : Nat) : value (pad width n) = n := by
  rw [pad, value_append, value, value, Nat.ofDigitChars_replicate_zero, Nat.mul_zero, Nat.zero_mul,
    Nat.zero_add, Nat.ofDigitChars_ten_toDigits]

/-- The first digits of a number are those of the number without its last digits. -/
theorem take_toDigits {n k : Nat} (hk : 0 < k) (h : k ≤ (Nat.toDigits 10 n).length) :
    (Nat.toDigits 10 n).take k = Nat.toDigits 10 (n / 10 ^ ((Nat.toDigits 10 n).length - k)) := by
  induction n using Nat.strongRecOn with
  | ind n ih =>
    rcases Nat.eq_or_lt_of_le h with hall | hless
    · rw [hall, List.take_length, Nat.sub_self, Nat.pow_zero, Nat.div_one]
    · have hbig : 10 ≤ n := by
        by_contra hsmall
        have hone := (Nat.length_toDigits_le_iff (b := 10) (n := n) (by decide) (k := 1)
          (by decide)).mpr (by omega)
        omega
      have hdigits := Nat.toDigits_of_base_le (b := 10) (by decide) hbig
      have hlen : (Nat.toDigits 10 n).length = (Nat.toDigits 10 (n / 10)).length + 1 := by
        rw [hdigits, List.length_append, List.length_singleton]
      have hfront : k ≤ (Nat.toDigits 10 (n / 10)).length := by omega
      have hsub : (Nat.toDigits 10 n).length - k =
          (Nat.toDigits 10 (n / 10)).length - k + 1 := by omega
      rw [hsub, hdigits, List.take_append_of_le_length hfront,
        ih (n / 10) (Nat.div_lt_self (by omega) (by decide)) hfront, Nat.div_div_eq_div_mul,
        Nat.pow_succ, Nat.mul_comm]

/-- The first digit of a number is not zero. -/
theorem pow_le_of_toDigits {n : Nat} (hn : 0 < n) : 10 ^ ((Nat.toDigits 10 n).length - 1) ≤ n := by
  by_contra hless
  have hpos : 0 < (Nat.toDigits 10 n).length := Nat.length_toDigits_pos
  by_cases hone : (Nat.toDigits 10 n).length - 1 = 0
  · rw [hone, Nat.pow_zero] at hless
    omega
  · have hlen := (Nat.length_toDigits_le_iff (b := 10) (by decide)
      (Nat.pos_of_ne_zero hone)).mpr (not_le.mp hless)
    omega

end Strings
