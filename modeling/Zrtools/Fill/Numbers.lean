import Zrtools.Compare.Equal
import Zrtools.Fill

/-!
# zrtools — `fill_field` for integers (`zrt_fill.h`, `zrt_string.h`)

An integer goes into a `char[N]` as decimal text, and what does not fit is cut off without a word.
Another overload reads an integer out of a text with `convert`, which gives zero where the text is
no number.

* `take_toText` — the beginning of a decimal text is nothing, a sign or the text of another number;
* `integer_round_trip_iff` — when the integer comes back, and when the field is `equal` to it.
-/

namespace Zrtools.Fill

open ByteMemory CString Strings
open Compare hiding text

-- ---------------------------------------------------------------------------
-- The code
-- ---------------------------------------------------------------------------

/-- `boost::lexical_cast` from a text to an integer type, which throws for some texts: the text of a
number of the type is that number, and a sign alone is none. -/
structure LexicalCast where
  cast : IntType → Text → Option Int
  inverts : ∀ t x, t.InRange x → cast t (toText x) = some x
  sign : ∀ t, cast t ['-'.toUInt8] = none

/-- `convert<T>(input)`, with `default_val` left out. -/
def convert (l : LexicalCast) (t : IntType) (input : Text) : Int :=
  if input.isEmpty then 0 else (l.cast t input).getD 0

/-- The characters of a `std::string`, and the zero behind them. -/
def stringMem (s : Text) : Mem := fun i => s.getD i 0

/-- `fill_field(char(&dst)[N], const T src)` for an integer. -/
def fillFieldInteger (n : Nat) (dst : Mem) (x : Int) : Copying :=
  fillFieldStr n (toText x).length { src := stringMem (toText x), dst := dst }

/-- `fill_field(T& dst, const char* src)`. -/
def fillFieldNumber (l : LexicalCast) (t : IntType) (n : Nat) (src : Mem) : Int :=
  convert l t (text n src)

/-- `equal(first, second)` for a `char[N]` and an `int` or a `uint`, and for a `std::string` made of
the field and any integer. -/
def equalNumber (n : Nat) (first : Mem) (second : Int) : Bool := text n first == toText second

-- ---------------------------------------------------------------------------
-- Decimal text
-- ---------------------------------------------------------------------------

theorem toText_nonneg {x : Int} (h : 0 ≤ x) :
    toText x = (Nat.toDigits 10 x.natAbs).map Char.toUInt8 := by
  rw [toText, if_neg (by omega), List.nil_append]

theorem toText_neg {x : Int} (h : x < 0) :
    toText x = '-'.toUInt8 :: (Nat.toDigits 10 x.natAbs).map Char.toUInt8 := by
  rw [toText, if_pos h]
  rfl

theorem zero_not_mem_toText (x : Int) : (0 : UInt8) ∉ toText x := by
  have hdigits : (0 : UInt8) ∉ (Nat.toDigits 10 x.natAbs).map Char.toUInt8 := by
    intro h
    obtain ⟨c, hc, hzero⟩ := List.mem_map.mp h
    have hdigit := mem_toDigits hc
    have hback := digit_toUInt8 hdigit
    rw [hzero] at hback
    rw [← hback] at hdigit
    exact absurd hdigit (by decide)
  rcases Int.lt_or_le x 0 with hneg | hpos
  · rw [toText_neg hneg, List.mem_cons, not_or]
    exact ⟨by decide, hdigits⟩
  · rw [toText_nonneg hpos]
    exact hdigits

theorem toText_ne_nil (x : Int) : toText x ≠ [] := by
  unfold toText
  simp

/-- The digits of a number that is not zero, without the last ones: those of another number. -/
theorem take_digits {m k : Nat} (hm : 0 < m) (hk : 0 < k)
    (hless : k < (Nat.toDigits 10 m).length) :
    ∃ m', 0 < m' ∧ m' < m ∧ (Nat.toDigits 10 m).take k = Nat.toDigits 10 m' := by
  refine ⟨_, ?_, ?_, take_toDigits hk (Nat.le_of_lt hless)⟩
  · refine Nat.div_pos ?_ (Nat.pow_pos (by decide))
    exact (Nat.pow_le_pow_right (by decide) (by omega)).trans (pow_le_of_toDigits hm)
  · exact Nat.div_lt_self hm (Nat.one_lt_pow (by omega) (by decide))

/-- **The beginning of a number's text**: nothing, a sign, or the text of a number that is nearer to
zero. -/
theorem take_toText {x : Int} {k : Nat} (hx : x ≠ 0) (hless : k < (toText x).length) :
    (toText x).take k = [] ∨ (toText x).take k = ['-'.toUInt8] ∨
      ∃ y, (toText x).take k = toText y ∧ y ≠ x ∧ min 0 x ≤ y ∧ y ≤ max 0 x := by
  rcases Nat.eq_zero_or_pos k with rfl | hk
  · exact Or.inl rfl
  rcases Int.lt_or_le x 0 with hneg | hnonneg
  · rw [toText_neg hneg] at hless ⊢
    obtain ⟨k, rfl⟩ : ∃ j, k = j + 1 := ⟨k - 1, by omega⟩
    rw [List.take_succ_cons, ← List.map_take]
    rcases Nat.eq_zero_or_pos k with rfl | hk
    · exact Or.inr (Or.inl rfl)
    · rw [List.length_cons, List.length_map] at hless
      obtain ⟨m, hm, hlt, htake⟩ := take_digits (by omega : 0 < x.natAbs) hk (by omega)
      refine Or.inr (Or.inr ⟨-m, ?_, by omega, by omega, by omega⟩)
      have hminus : (-(m : Int)).natAbs = m := by omega
      rw [toText_neg (by omega), htake, hminus]
  · rw [toText_nonneg hnonneg] at hless ⊢
    rw [List.length_map] at hless
    obtain ⟨m, hm, hlt, htake⟩ := take_digits (by omega : 0 < x.natAbs) hk hless
    refine Or.inr (Or.inr ⟨m, ?_, by omega, by omega, by omega⟩)
    rw [toText_nonneg (by omega), ← List.map_take, htake, Int.natAbs_natCast]

/-- A number that is nearer to zero is of the same type. -/
theorem inRange_between {t : IntType} {x y : Int} (hx : t.InRange x) (hlow : min 0 x ≤ y)
    (hhigh : y ≤ max 0 x) : t.InRange y := by
  have hpos : (0 : Int) < 2 ^ (t.bits - 1) := Int.pow_pos (by decide)
  have hall : (0 : Int) < 2 ^ t.bits := Int.pow_pos (by decide)
  unfold IntType.InRange at hx ⊢
  split_ifs at hx ⊢ <;> omega

-- ---------------------------------------------------------------------------
-- The round trip
-- ---------------------------------------------------------------------------

/-- The text that stands in a field. -/
theorem text_of_holds {m : Mem} {s : Text} {n : Nat} (h : Holds m s) (hzero : 0 ∉ s)
    (hn : s.length < n) : text n m = s := by
  have hshort : text (s.length + 1) m = s := by
    have hne : ∀ x ∈ s, decide (x ≠ 0) = true := fun x hx =>
      decide_eq_true fun heq => hzero (heq ▸ hx)
    rw [text, h, List.takeWhile_append_of_pos hne, List.takeWhile_cons_of_neg (by simp),
      List.append_nil]
  have htake := text_take m hn
  rw [Nat.succ_eq_add_one, hshort] at htake
  have hlen := congrArg List.length htake
  rw [List.length_take] at hlen
  rw [← htake, List.take_of_length_le (by omega)]

theorem text_stringMem {s : Text} (hzero : 0 ∉ s) : text s.length (stringMem s) = s := by
  have hslice : slice (stringMem s) 0 s.length = s := by
    refine List.ext_getElem (length_slice _ 0 _) fun i hi hi' => ?_
    simp [slice, stringMem, List.getElem?_eq_getElem hi']
  rw [text, hslice, List.takeWhile_eq_self_iff]
  exact fun x hx => decide_eq_true fun heq => hzero (heq ▸ hx)

/-- A field holds what fits of the number's text. -/
theorem text_fillFieldInteger {n : Nat} (hn : 1 ≤ n) (dst : Mem) (x : Int) :
    text n (fillFieldInteger n dst x).dst = (toText x).take (n - 1) := by
  have hholds := holds_sized dst (toText x).length (stringMem (toText x)) hn
  rw [text_stringMem (zero_not_mem_toText x)] at hholds
  refine text_of_holds hholds (fun h => zero_not_mem_toText x (List.mem_of_mem_take h)) ?_
  rw [List.length_take]
  omega

/-- **Integers in texts**: nothing outside of the field is written; the field is `equal` to the
number exactly if the number's text fits with its zero; and exactly then, or if the number is zero,
the number is read out of it again. -/
theorem integer_round_trip_iff (l : LexicalCast) (t : Arith) {n : Nat} (hn : 1 ≤ n) (dst : Mem)
    (x : Integer t.type) :
    (∀ i, n ≤ i → (fillFieldInteger n dst x.val).dst i = dst i) ∧
      (equalNumber n (fillFieldInteger n dst x.val).dst x.val = true ↔
        (toText x.val).length < n) ∧
      (fillFieldNumber l t.type n (fillFieldInteger n dst x.val).dst = x.val ↔
        (toText x.val).length < n ∨ x.val = 0) := by
  rw [equalNumber, fillFieldNumber, text_fillFieldInteger hn]
  refine ⟨fun i hi => ?_, ?_, ?_⟩
  · refine framed_sized dst _ _ i fun hwrites => ?_
    exact absurd (inside_sized dst _ _ hn i hwrites) (by omega)
  · rw [beq_iff_eq]
    refine ⟨fun h => ?_, fun h => List.take_of_length_le (by omega)⟩
    have hlen := congrArg List.length h
    have hpos := List.length_pos_iff.mpr (toText_ne_nil x.val)
    rw [List.length_take] at hlen
    omega
  · rcases Nat.lt_or_ge (toText x.val).length n with hfits | hlong
    · refine iff_of_true ?_ (Or.inl hfits)
      rw [List.take_of_length_le (by omega), convert, if_neg (by simp [toText_ne_nil]),
        l.inverts _ _ x.inRange]
      rfl
    · have hnot : ¬(toText x.val).length < n := Nat.not_lt.mpr hlong
      rw [or_iff_right hnot]
      by_cases hzero : x.val = 0
      · -- the text of zero does not fit into one byte, and nothing is read as zero
        refine iff_of_true ?_ hzero
        rw [hzero] at hlong ⊢
        have hone : (toText 0).length = 1 := rfl
        have hn1 : n - 1 = 0 := by omega
        rw [hn1, List.take_zero]
        rfl
      · refine iff_of_false ?_ hzero
        have hless : n - 1 < (toText x.val).length := by omega
        rcases take_toText hzero hless with hnil | hsign | ⟨y, htext, hne, hlow, hhigh⟩
        · rw [hnil]
          exact fun h => hzero h.symm
        · rw [hsign, convert, l.sign]
          exact fun h => hzero h.symm
        · rw [htext, convert, if_neg (by simp [toText_ne_nil]),
            l.inverts _ _ (inRange_between x.inRange hlow hhigh)]
          exact hne

-- ---------------------------------------------------------------------------
-- A cast
-- ---------------------------------------------------------------------------

/-- The number that digits stand for. -/
def decimalDigits (s : Text) : Option Nat :=
  if !s.isEmpty && s.all fun c => (Char.ofUInt8 c).isDigit then some (value (s.map Char.ofUInt8))
  else none

theorem decimalDigits_toDigits (m : Nat) :
    decimalDigits ((Nat.toDigits 10 m).map Char.toUInt8) = some m := by
  have hback : ((Nat.toDigits 10 m).map Char.toUInt8).map Char.ofUInt8 = Nat.toDigits 10 m := by
    rw [List.map_map]
    exact (List.map_congr_left fun c hc => digit_toUInt8 (mem_toDigits hc)).trans (List.map_id _)
  rw [decimalDigits, if_pos, hback, value, Nat.ofDigitChars_ten_toDigits]
  rw [Bool.and_eq_true, List.all_eq_true]
  refine ⟨by simp, fun c hc => ?_⟩
  obtain ⟨d, hd, rfl⟩ := List.mem_map.mp hc
  rw [digit_toUInt8 (mem_toDigits hd)]
  exact mem_toDigits hd

/-- A sign and digits, or digits. -/
def decimalNumber : Text → Option Int
  | [] => none
  | c :: s =>
    if c = '-'.toUInt8 then (decimalDigits s).map fun m : Nat => -(m : Int)
    else (decimalDigits (c :: s)).map fun m : Nat => (m : Int)

theorem decimalNumber_toText (x : Int) : decimalNumber (toText x) = some x := by
  rcases Int.lt_or_le x 0 with hneg | hnonneg
  · have hminus : -(x.natAbs : Int) = x := by omega
    rw [toText_neg hneg, decimalNumber, if_pos rfl, decimalDigits_toDigits, Option.map_some, hminus]
  · have hsame : (x.natAbs : Int) = x := by omega
    have hdigits := decimalDigits_toDigits x.natAbs
    have hminus := minus_not_mem x.natAbs
    rw [← toText_nonneg hnonneg] at hdigits hminus
    cases htext : toText x with
    | nil => exact absurd htext (toText_ne_nil x)
    | cons c s =>
      have hne : c ≠ '-'.toUInt8 := by
        rintro rfl
        exact hminus (htext ▸ List.mem_cons_self ..)
      rw [htext] at hdigits
      rw [decimalNumber, if_neg hne, hdigits, Option.map_some, hsame]

/-- The number, if it is of the type. -/
def decimalCast : LexicalCast where
  cast t s := (decimalNumber s).filter fun x => t.InRange x
  inverts t x hx := by
    rw [decimalNumber_toText, Option.filter_some_pos]
    exact decide_eq_true hx
  sign _ := rfl

/-- A field of four bytes holds 123, and of 1234 its first three digits. -/
theorem integer_round_trip_short :
    fillFieldNumber decimalCast ⟨32, true⟩ 4 (fillFieldInteger 4 (fun _ => 1) 123).dst = 123 ∧
      fillFieldNumber decimalCast ⟨32, true⟩ 4 (fillFieldInteger 4 (fun _ => 1) 1234).dst ≠ 1234 :=
  ⟨(integer_round_trip_iff decimalCast .int (by decide) _ ⟨123, by decide⟩).2.2.mpr
      (Or.inl (by decide)),
    fun h => absurd ((integer_round_trip_iff decimalCast .int (by decide) _
      ⟨1234, by decide⟩).2.2.mp h) (by decide)⟩

end Zrtools.Fill
