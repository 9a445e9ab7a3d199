import Mathlib.Algebra.Ring.Int.Parity
import Mathlib.Algebra.Order.Ring.Int
import Mathlib.Tactic.Ring
import Zrtools.Lib.Strings

/-!
# zrtools — `zrt::equal` (`zrt_equal.h`)

Overloads for pairs of integers, characters and strings. Two integers are compared with `==`, after
the conversions that C++ makes for it; all other pairs as text.

* `equal_iff` — what an overload compares, for any two types;
* `equal_equivalence_iff` — when that is an equivalence.
-/

namespace Zrtools.Compare

-- ---------------------------------------------------------------------------
-- Integer types
-- ---------------------------------------------------------------------------

structure IntType where
  bits : Nat
  signed : Bool
deriving DecidableEq

namespace IntType

/-- The values of a type. -/
def InRange (t : IntType) (x : Int) : Prop :=
  if t.signed then -2 ^ (t.bits - 1) ≤ x ∧ x < 2 ^ (t.bits - 1) else 0 ≤ x ∧ x < 2 ^ t.bits

instance (t : IntType) (x : Int) : Decidable (t.InRange x) := by
  unfold InRange
  infer_instance

/-- Conversion to a type, which keeps the low bits. -/
def convert (t : IntType) (x : Int) : Int :=
  if t.signed then (x + 2 ^ (t.bits - 1)) % 2 ^ t.bits - 2 ^ (t.bits - 1) else x % 2 ^ t.bits

/-- The usual arithmetic conversions, for types no narrower than `int`: the wider type, and of two
equally wide ones the unsigned one. -/
def common (t u : IntType) : IntType :=
  if t.bits < u.bits then u
  else if u.bits < t.bits then t
  else if t.signed then u else t

theorem two_pow_eq {n : Nat} (h : 0 < n) : (2 : Int) ^ n = 2 * 2 ^ (n - 1) := by
  obtain ⟨m, rfl⟩ : ∃ m, n = m + 1 := ⟨n - 1, by omega⟩
  rw [Nat.add_sub_cancel, pow_succ, mul_comm]

theorem two_pow_le {m n : Nat} (h : m ≤ n) : (2 : Int) ^ m ≤ 2 ^ n :=
  pow_le_pow_right₀ (by decide) h

theorem common_comm (t u : IntType) : common t u = common u t := by
  obtain ⟨b, s⟩ := t
  obtain ⟨b', s'⟩ := u
  unfold common
  rcases Nat.lt_trichotomy b b' with h | rfl | h
  · simp [h, Nat.lt_asymm h]
  · cases s <;> cases s' <;> simp
  · simp [h, Nat.lt_asymm h]

theorem common_of_le {t u : IntType} (hb : t.bits ≤ u.bits)
    (hs : t.signed = u.signed ∨ t.signed = true) : common t u = u := by
  obtain ⟨b, s⟩ := t
  obtain ⟨b', s'⟩ := u
  unfold common
  rcases Nat.lt_or_eq_of_le hb with h | rfl
  · rw [if_pos h]
  · cases s <;> simp_all

theorem common_of_lt {t u : IntType} (hb : u.bits < t.bits) : common t u = t := by
  unfold common
  rw [if_neg (Nat.lt_asymm hb), if_pos hb]

theorem convert_of_inRange {t : IntType} {x : Int} (ht : 0 < t.bits) (hx : t.InRange x) :
    t.convert x = x := by
  have hpow := two_pow_eq ht
  unfold InRange at hx
  unfold convert
  split_ifs at hx ⊢ with hs
  · rw [Int.emod_eq_of_lt] <;> omega
  · exact Int.emod_eq_of_lt hx.1 hx.2

end IntType

/-- A value of an integer type. -/
structure Integer (t : IntType) where
  val : Int
  inRange : t.InRange val

open IntType

/-- A value of a signed type is one of each wider signed type, and likewise for unsigned ones. -/
theorem inRange_wider {t u : IntType} {x : Int} (hs : t.signed = u.signed) (hb : t.bits ≤ u.bits)
    (hx : t.InRange x) : u.InRange x := by
  have hlow := two_pow_le (Nat.sub_le_sub_right hb 1)
  have hall := two_pow_le hb
  unfold InRange at hx ⊢
  rw [← hs]
  split_ifs at hx ⊢ <;> omega

/-- `first == second` for integers. -/
def equalIntegers {t u : IntType} (first : Integer t) (second : Integer u) : Bool :=
  (common t u).convert first.val == (common t u).convert second.val

theorem equalIntegers_comm {t u : IntType} (x : Integer t) (y : Integer u) :
    equalIntegers x y = equalIntegers y x := by
  unfold equalIntegers
  rw [common_comm t u, Bool.beq_comm]

/-- A negative number of a signed type turns, in an unsigned type that is no narrower, into one that
is not the same. -/
theorem equalIntegers_mixed {t u : IntType} (ht : 0 < t.bits) (hu : 0 < u.bits)
    (hst : t.signed = true) (hsu : u.signed = false) (x : Integer t) (y : Integer u) :
    equalIntegers x y = true ↔
      x.val = y.val ∨ t.bits ≤ u.bits ∧ x.val < 0 ∧ y.val = x.val + 2 ^ u.bits := by
  obtain ⟨x, hx⟩ := x
  obtain ⟨y, hy⟩ := y
  simp only [equalIntegers, beq_iff_eq]
  have hx' := hx
  have hy' := hy
  simp only [InRange, hst, if_true] at hx'
  simp only [InRange, hsu, Bool.false_eq_true, if_false] at hy'
  by_cases hle : t.bits ≤ u.bits
  · -- the unsigned type is the common one
    have hlow := two_pow_le (Nat.sub_le_sub_right hle 1)
    have hpow := two_pow_eq hu
    rw [common_of_le hle (Or.inr hst), convert_of_inRange hu hy]
    by_cases hneg : x < 0
    · have hconv : u.convert x = x + 2 ^ u.bits := by
        simp only [convert, hsu, Bool.false_eq_true, if_false]
        rw [← Int.add_emod_right, Int.emod_eq_of_lt] <;> omega
      rw [hconv]
      refine ⟨?_, ?_⟩
      · intro h
        exact Or.inr ⟨hle, hneg, h.symm⟩
      · rintro (h | ⟨-, -, h⟩) <;> omega
    · have hconv : u.convert x = x := by
        simp only [convert, hsu, Bool.false_eq_true, if_false]
        exact Int.emod_eq_of_lt (by omega) (by omega)
      rw [hconv]
      refine ⟨?_, ?_⟩
      · exact Or.inl
      · rintro (h | ⟨-, h, -⟩) <;> omega
  · -- the signed type holds all values of both
    have hyt : t.InRange y := by
      have hlow := two_pow_le (show u.bits ≤ t.bits - 1 by omega)
      simp only [InRange, hst, if_true]
      omega
    rw [common_of_lt (Nat.lt_of_not_le hle), convert_of_inRange ht hx, convert_of_inRange ht hyt]
    refine ⟨?_, ?_⟩
    · exact Or.inl
    · rintro (h | ⟨h, -⟩) <;> omega

theorem equalIntegers_same {t u : IntType} (ht : 0 < t.bits) (hu : 0 < u.bits)
    (hs : t.signed = u.signed) (x : Integer t) (y : Integer u) :
    equalIntegers x y = true ↔ x.val = y.val := by
  wlog hle : t.bits ≤ u.bits generalizing t u
  · rw [equalIntegers_comm, this hu ht hs.symm y x (Nat.le_of_not_le hle), eq_comm]
  simp only [equalIntegers, beq_iff_eq]
  rw [common_of_le hle (Or.inl hs), convert_of_inRange hu y.inRange,
    convert_of_inRange hu (inRange_wider hs hle x.inRange)]

-- ---------------------------------------------------------------------------
-- Text
-- ---------------------------------------------------------------------------

/-- A string, of bytes. -/
abbrev Text := List UInt8

/-- `std::to_string`. -/
def toText (x : Int) : Text :=
  (if x < 0 then ['-'.toUInt8] else []) ++ (Nat.toDigits 10 x.natAbs).map Char.toUInt8

theorem digit_toUInt8 {c : Char} (h : c.isDigit = true) : Char.ofUInt8 c.toUInt8 = c := by
  simp only [Char.isDigit, Bool.and_eq_true, decide_eq_true_eq] at h
  have hlt : c.val.toNat ≤ 57 := UInt32.le_iff_toNat_le.mp h.2
  apply Char.ext
  apply UInt32.toNat_inj.mp
  change c.val.toUInt8.toUInt32.toNat = c.val.toNat
  rw [UInt8.toNat_toUInt32, UInt32.toNat_toUInt8]
  omega

theorem mem_toDigits {n : Nat} {c : Char} (h : c ∈ Nat.toDigits 10 n) : c.isDigit = true :=
  Nat.isDigit_of_mem_toDigits (by decide) (by decide) h

theorem map_toUInt8_inj {m n : Nat}
    (h : (Nat.toDigits 10 m).map Char.toUInt8 = (Nat.toDigits 10 n).map Char.toUInt8) : m = n := by
  have hback : ∀ k,
      ((Nat.toDigits 10 k).map Char.toUInt8).map Char.ofUInt8 = Nat.toDigits 10 k := by
    intro k
    rw [List.map_map]
    calc (Nat.toDigits 10 k).map (Char.ofUInt8 ∘ Char.toUInt8)
        = (Nat.toDigits 10 k).map id :=
          List.map_congr_left fun c hc => digit_toUInt8 (mem_toDigits hc)
      _ = Nat.toDigits 10 k := List.map_id _
  rw [← Nat.ofDigitChars_ten_toDigits (n := m), ← hback m, h, hback n,
    Nat.ofDigitChars_ten_toDigits]

theorem minus_not_mem (n : Nat) : '-'.toUInt8 ∉ (Nat.toDigits 10 n).map Char.toUInt8 := by
  intro h
  obtain ⟨c, hc, heq⟩ := List.mem_map.mp h
  have hminus : c = '-' := by
    rw [← digit_toUInt8 (mem_toDigits hc), heq]
    rfl
  have hdigit := mem_toDigits hc
  rw [hminus] at hdigit
  exact absurd hdigit (by decide)

theorem toText_inj {x y : Int} : toText x = toText y ↔ x = y := by
  refine ⟨fun h => ?_, fun h => by rw [h]⟩
  unfold toText at h
  by_cases hx : x < 0 <;> by_cases hy : y < 0
  · rw [if_pos hx, if_pos hy, List.append_cancel_left_eq] at h
    have := map_toUInt8_inj h
    omega
  · rw [if_pos hx, if_neg hy, List.nil_append] at h
    exact absurd (h ▸ List.mem_cons_self ..) (minus_not_mem y.natAbs)
  · rw [if_neg hx, if_pos hy, List.nil_append] at h
    exact absurd (h ▸ List.mem_cons_self ..) (minus_not_mem x.natAbs)
  · rw [if_neg hx, if_neg hy, List.append_cancel_left_eq] at h
    have := map_toUInt8_inj h
    omega

-- ---------------------------------------------------------------------------
-- The overloads
-- ---------------------------------------------------------------------------

/-- The integer types of the library: `int`, `unsigned`, and those of 64 bits. -/
inductive Arith
  | int
  | uint
  | int64
  | uint64
deriving DecidableEq

def Arith.type : Arith → IntType
  | int => ⟨32, true⟩
  | uint => ⟨32, false⟩
  | int64 => ⟨64, true⟩
  | uint64 => ⟨64, false⟩

theorem Arith.bits_pos (t : Arith) : 0 < t.type.bits := by cases t <;> decide

inductive Value
  | integer (t : Arith) (x : Integer t.type)
  | char (c : UInt8)
  | string (s : Text)

/-- A value as text. -/
def text : Value → Text
  | .integer _ x => toText x.val
  | .char c => [c]
  | .string s => s

/-- `zrt::equal`, with the overload that the types choose. -/
def equal : Value → Value → Bool
  | .integer _ first, .integer _ second => equalIntegers first second
  | .char first, .char second => first == second
  | .string first, .string second => first == second
  | .char first, .integer _ second => [first] == toText second.val
  | .integer _ first, .char second => toText first.val == [second]
  | .char first, .string second => [first] == second
  | .string first, .char second => first == [second]
  | .string first, .integer _ second => first == toText second.val
  | .integer _ first, .string second => toText first.val == second

/-- The second value is what the first, a negative one, turns into in an unsigned type of `w`
bits. -/
def Becomes (w : Nat) : Value → Value → Prop
  | .integer t x, .integer u y =>
    t.type.signed = true ∧ u.type.signed = false ∧ u.type.bits = w ∧ t.type.bits ≤ w ∧
      x.val < 0 ∧ y.val = x.val + 2 ^ w
  | _, _ => False

def Wraps (w : Nat) (a b : Value) : Prop := Becomes w a b ∨ Becomes w b a

/-- An integer of a type of at most `w` bits. -/
def Within (w : Nat) : Value → Prop
  | .integer t _ => t.type.bits ≤ w
  | _ => False

theorem Wraps.symm {w : Nat} {a b : Value} (h : Wraps w a b) : Wraps w b a := Or.symm h

theorem equal_comm (a b : Value) : equal a b = equal b a := by
  cases a <;> cases b <;> simp only [equal]
  case integer.integer => exact equalIntegers_comm ..
  all_goals exact Bool.beq_comm

/-- Values are equal if their texts are, or if one is what becomes of the other. -/
theorem equal_iff (a b : Value) : equal a b = true ↔ text a = text b ∨ ∃ w, Wraps w a b := by
  cases a <;> cases b
  case integer.integer t x u y =>
    have ht := t.bits_pos
    have hu := u.bits_pos
    simp only [equal, text, toText_inj, Wraps, Becomes]
    cases hst : t.type.signed <;> cases hsu : u.type.signed
    case true.false =>
      rw [equalIntegers_mixed ht hu hst hsu]
      simp
    case false.true =>
      rw [equalIntegers_comm, equalIntegers_mixed hu ht hsu hst, eq_comm]
      simp
    all_goals
      rw [equalIntegers_same ht hu (hst.trans hsu.symm)]
      simp
  all_goals simp [equal, text, Wraps, Becomes]

-- ---------------------------------------------------------------------------
-- An equivalence
-- ---------------------------------------------------------------------------

theorem Becomes.text_ne {w : Nat} {a b : Value} (h : Becomes w a b) : text a ≠ text b := by
  cases a <;> cases b <;> try exact h.elim
  case integer.integer t x u y =>
    obtain ⟨-, -, -, -, hneg, hval⟩ := h
    have hpos : (0 : Int) < 2 ^ w := pow_pos (by decide) w
    rw [text, text, Ne, toText_inj]
    omega

theorem Wraps.text_ne {w : Nat} {a b : Value} (h : Wraps w a b) : text a ≠ text b := by
  rcases h with h | h
  · exact h.text_ne
  · exact h.text_ne.symm

theorem Becomes.not_symm {v w : Nat} {a b c : Value} (h : Becomes v a b) : ¬Becomes w b c := by
  cases a <;> cases b <;> cases c <;> try exact fun h' => h'.elim
  case integer.integer.integer =>
    rintro ⟨hsigned, -⟩
    exact Bool.false_ne_true (h.2.1.symm.trans hsigned)
  all_goals exact h.elim

/-- The type of a negative number is signed. -/
theorem signed_of_neg {t : IntType} (x : Integer t) (h : x.val < 0) : t.signed = true := by
  by_contra hs
  have hx := x.inRange
  rw [InRange, if_neg hs] at hx
  omega

/-- The type of a number from the upper half of the numbers of `w` bits. -/
theorem unsigned_of_large {t : IntType} {w : Nat} (x : Integer t) (hw : 2 ^ (w - 1) ≤ x.val)
    (hbits : t.bits ≤ w) : t.signed = false ∧ t.bits = w := by
  have hx := x.inRange
  unfold InRange at hx
  have hsigned : t.signed = false := by
    by_contra hs
    rw [if_pos (by simpa using hs)] at hx
    have := two_pow_le (Nat.sub_le_sub_right hbits 1)
    omega
  refine ⟨hsigned, ?_⟩
  by_contra hne
  rw [if_neg (by simp [hsigned])] at hx
  have := two_pow_le (show t.bits ≤ w - 1 by omega)
  omega

/-- What becomes of a negative number is in the upper half. -/
theorem large_of_neg {t : IntType} {w : Nat} (x : Integer t) (hw : 0 < w) (h : x.val < 0)
    (hbits : t.bits ≤ w) : 2 ^ (w - 1) ≤ x.val + 2 ^ w := by
  have hx := x.inRange
  rw [InRange, if_pos (signed_of_neg x h)] at hx
  have := two_pow_le (Nat.sub_le_sub_right hbits 1)
  have := two_pow_eq hw
  omega

/-- A value that is the same as one of the two, in text: it has to be an integer, and not of too
wide a type. -/
theorem wraps_iff_within {w : Nat} {a b c : Value} (hsame : text a = text b) (h : Wraps w b c) :
    (∃ v, Wraps v a c) ↔ Within w a := by
  cases a
  case char | string =>
    refine iff_of_false ?_ id
    rintro ⟨v, hv⟩
    cases c <;> exact hv.elim id id
  case integer t x =>
  cases b <;> cases c <;> try exact (h.elim id id).elim
  case integer.integer u y s z =>
    rw [text, text, toText_inj] at hsame
    have hw : 0 < w := by
      rcases h with ⟨-, -, hbits, -⟩ | ⟨-, -, hbits, -⟩
      · exact hbits ▸ s.bits_pos
      · exact hbits ▸ u.bits_pos
    rcases h with hb | hb
    · obtain ⟨hus, hsu, hbits, hle, hneg, hval⟩ := hb
      refine ⟨?_, ?_⟩
      · rintro ⟨v, ⟨-, -, hv, hle', -⟩ | hv⟩
        · exact (hv.symm.trans hbits) ▸ hle'
        · exact absurd hv.1 (by simp [hsu])
      · intro hwithin
        exact ⟨w, Or.inl ⟨signed_of_neg x (hsame ▸ hneg), hsu, hbits, hwithin, hsame ▸ hneg,
          hsame ▸ hval⟩⟩
    · obtain ⟨hss, huu, hbits, hle, hneg, hval⟩ := hb
      refine ⟨?_, ?_⟩
      · rintro ⟨v, hv | ⟨-, -, hv, -, -, hval'⟩⟩
        · exact absurd hv.2.1 (by simp [hss])
        · have hpow : (2 : Int) ^ v = 2 ^ w := by omega
          rw [pow_right_injective₀ (by decide) (by decide) hpow] at hv
          exact Nat.le_of_eq hv
      · intro hwithin
        have hlarge := large_of_neg z hw hneg hle
        rw [← hval, ← hsame] at hlarge
        obtain ⟨htu, htw⟩ := unsigned_of_large x hlarge hwithin
        exact ⟨w, Or.inr ⟨hss, htu, htw, hle, hneg, hsame ▸ hval⟩⟩

/-- Both neighbours of a value are equal if the widths are. -/
theorem wraps_wraps {v w : Nat} {a b c : Value} (hv : Wraps v a b) (hw : Wraps w b c) :
    equal a c = true ↔ v = w := by
  rw [equal_iff]
  rcases hv with hv | hv <;> rcases hw with hw | hw
  · exact absurd hw hv.not_symm
  · -- two negative integers that become the same one
    cases a <;> cases b <;> try exact hv.elim
    cases c <;> try exact hw.elim
    have hbits : v = w := hv.2.2.1.symm.trans hw.2.2.1
    refine iff_of_true (Or.inl ?_) hbits
    obtain ⟨-, -, -, -, -, hval⟩ := hv
    obtain ⟨-, -, -, -, -, hval'⟩ := hw
    rw [text, text, toText_inj]
    rw [hbits] at hval
    omega
  · -- what becomes of one negative integer
    have hnot : ¬∃ k, Wraps k a c := fun ⟨_, hk⟩ => hk.elim hv.not_symm hw.not_symm
    cases a <;> cases b <;> try exact hv.elim
    cases c <;> try exact hw.elim
    obtain ⟨-, -, -, -, -, hval⟩ := hv
    obtain ⟨-, -, -, -, -, hval'⟩ := hw
    rw [or_iff_left hnot, text, text, toText_inj, hval, hval', Int.add_right_inj]
    exact (pow_right_injective₀ (by decide) (by decide)).eq_iff
  · exact absurd hv hw.not_symm

/-- Three values that are no equivalence. A negative integer and what becomes of it are two of them,
next to each other, and the third is the same as its neighbour, in text or in a type too wide; or it
is what becomes of the negative one in a type of another width. -/
def Broken (a b c : Value) : Prop :=
  (∃ w, text a = text b ∧ Wraps w b c ∧ ¬Within w a) ∨
    (∃ w, Wraps w a b ∧ text b = text c ∧ ¬Within w c) ∨
    ∃ v w, v ≠ w ∧ Wraps v a b ∧ Wraps w b c

theorem equal_same_wraps {w : Nat} {a b c : Value} (hsame : text a = text b)
    (h : Wraps w b c) : equal a c = true ↔ Within w a := by
  rw [equal_iff, or_iff_right (hsame ▸ h.text_ne), wraps_iff_within hsame h]

/-- **`equal` as an equivalence.** It is symmetric, and it carries over from two pairs of values to
the third, unless a negative integer is compared with what becomes of it in an unsigned type. -/
theorem equal_equivalence_iff (a b c : Value) :
    equal a b = equal b a ∧ (equal a b = true → equal b c = true → equal a c = true) ↔
      ¬Broken a b c := by
  rw [and_iff_right (equal_comm a b)]
  refine ⟨?_, ?_⟩
  · rintro htrans (⟨w, hsame, hw, hnot⟩ | ⟨w, hw, hsame, hnot⟩ | ⟨v, w, hne, hv, hw⟩)
    · have hac := htrans ((equal_iff a b).mpr (Or.inl hsame)) ((equal_iff b c).mpr (Or.inr ⟨w, hw⟩))
      exact hnot ((equal_same_wraps hsame hw).mp hac)
    · have hac := htrans ((equal_iff a b).mpr (Or.inr ⟨w, hw⟩)) ((equal_iff b c).mpr (Or.inl hsame))
      rw [equal_comm] at hac
      exact hnot ((equal_same_wraps hsame.symm hw.symm).mp hac)
    · have hab := (equal_iff a b).mpr (Or.inr ⟨v, hv⟩)
      have hac := htrans hab ((equal_iff b c).mpr (Or.inr ⟨w, hw⟩))
      exact hne ((wraps_wraps hv hw).mp hac)
  · intro hnot hab hbc
    rcases (equal_iff a b).mp hab with hsame | ⟨v, hv⟩
    · rcases (equal_iff b c).mp hbc with hsame' | ⟨w, hw⟩
      · exact (equal_iff a c).mpr (Or.inl (hsame.trans hsame'))
      · rw [equal_same_wraps hsame hw]
        by_contra hfar
        exact hnot (Or.inl ⟨w, hsame, hw, hfar⟩)
    · rcases (equal_iff b c).mp hbc with hsame | ⟨w, hw⟩
      · rw [equal_comm, equal_same_wraps hsame.symm hv.symm]
        by_contra hfar
        exact hnot (Or.inr (Or.inl ⟨v, hv, hsame, hfar⟩))
      · rw [wraps_wraps hv hw]
        by_contra hne
        exact hnot (Or.inr (Or.inr ⟨v, w, hne, hv, hw⟩))

/-- -1 is equal to its text and to 4294967295, which is not its text. -/
theorem equal_minusOne :
    ¬∀ a b c : Value, equal a b = equal b a ∧
      (equal a b = true → equal b c = true → equal a c = true) := by
  intro h
  have := (h (.string [45, 49]) (.integer .int ⟨-1, by decide⟩)
    (.integer .uint ⟨4294967295, by decide⟩)).2 (by decide) (by decide)
  exact absurd this (by decide)

end Zrtools.Compare
