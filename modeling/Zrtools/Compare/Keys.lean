import Mathlib.Algebra.Order.Field.Rat
import Mathlib.Algebra.Order.Group.Abs
import Mathlib.Data.List.Lex
import Mathlib.Tactic.Linarith
import Zrtools.Compare.Equal

/-!
# zrtools — comparing the members of keys (`zrt_compare.h`)

The indices over several members compare each member with `my_less`, or with `my_equal` and
`my_hash`. For a `double` the first two leave out differences below `kDoubleEpsilon`.

* `equalDouble_exact`, `lessDouble_exact` — what they compare;
* `hash_respects_iff` — when the hashes of equal members are the same;
* `weak_order_iff` — when `my_less` is a strict weak order.
-/

namespace Zrtools.Compare

-- ---------------------------------------------------------------------------
-- Doubles
-- ---------------------------------------------------------------------------

/-- A double. The two zeros are one. -/
inductive Double
  | nan (payload : Nat)
  | inf (negative : Bool)
  | num (x : ℚ)
deriving DecidableEq

/-- The double that is taken for an exact number. The doubles have their negatives among them. -/
structure Format where
  round : ℚ → Double
  round_neg : ∀ x, round x = .num x → round (-x) = .num (-x)

/-- No rounding. -/
def exact : Format where
  round := .num
  round_neg _ _ := rfl

namespace Double

/-- One of the doubles of a format. -/
def IsIn (f : Format) : Double → Prop
  | num x => f.round x = num x
  | _ => True

/-- `==`. -/
def beq : Double → Double → Bool
  | num x, num y => x = y
  | inf s, inf t => s = t
  | _, _ => false

/-- `<`. -/
def blt : Double → Double → Bool
  | num x, num y => x < y
  | num _, inf t => !t
  | inf s, num _ => s
  | inf s, inf t => s && !t
  | _, _ => false

def isnan : Double → Bool
  | nan _ => true
  | _ => false

/-- `std::abs`. -/
def abs : Double → Double
  | nan p => nan p
  | inf _ => inf false
  | num x => num |x|

/-- Subtraction. -/
def sub (f : Format) : Double → Double → Double
  | num x, num y => f.round (x - y)
  | num _, inf t => inf !t
  | inf s, num _ => inf s
  | inf s, inf t => if s = t then nan 0 else inf s
  | _, _ => nan 0

end Double

def kDoubleEpsilon : ℚ := 1 / 10 ^ 8

/-- `zrt::equal(a, b)`. -/
def equalDouble (f : Format) (a b : Double) : Bool :=
  if a.beq b then true
  else if a.isnan && b.isnan then true
  else ((a.sub f b).abs).blt (.num kDoubleEpsilon)

/-- `zrt::less(a, b)`. -/
def lessDouble (f : Format) (a b : Double) : Bool := a.blt b && !equalDouble f a b

theorem epsilon_pos : 0 < kDoubleEpsilon := by
  unfold kDoubleEpsilon
  norm_num

theorem equalDouble_exact (x y : ℚ) :
    equalDouble exact (.num x) (.num y) = true ↔ |x - y| < kDoubleEpsilon := by
  by_cases h : x = y
  · simp [equalDouble, Double.beq, h, epsilon_pos]
  · simp [equalDouble, Double.beq, Double.isnan, Double.sub, Double.abs, Double.blt, exact, h]

/-- A number is less than another one if it is less by so much. -/
theorem lessDouble_exact (x y : ℚ) :
    lessDouble exact (.num x) (.num y) = true ↔ kDoubleEpsilon ≤ y - x := by
  have heq := equalDouble_exact x y
  have hpos := epsilon_pos
  simp only [lessDouble, Bool.and_eq_true, Bool.not_eq_true', ← Bool.not_eq_true, heq]
  simp only [Double.blt, decide_eq_true_eq, abs_lt, not_and, not_lt]
  refine ⟨?_, ?_⟩
  · rintro ⟨hlt, hfar⟩
    by_contra hnear
    exact absurd (hfar (by linarith)) (by linarith)
  · intro h
    exact ⟨by linarith, fun _ => by linarith⟩

/-- Zero and a number are as far apart as the number is large. -/
theorem equalDouble_zero {f : Format} {x : ℚ} (hx : (Double.num x).IsIn f) :
    equalDouble f (.num x) (.num 0) = true ↔ |x| < kDoubleEpsilon := by
  by_cases h : x = 0
  · simp [equalDouble, Double.beq, h, epsilon_pos]
  · have hround : f.round x = .num x := hx
    simp [equalDouble, Double.beq, Double.isnan, Double.sub, hround, Double.abs, Double.blt, h]

theorem zero_equalDouble {f : Format} {x : ℚ} (hx : (Double.num x).IsIn f) :
    equalDouble f (.num 0) (.num x) = true ↔ |x| < kDoubleEpsilon := by
  by_cases h : x = 0
  · simp [equalDouble, Double.beq, h, epsilon_pos]
  · have hround : f.round (-x) = .num (-x) := f.round_neg x hx
    simp [equalDouble, Double.beq, Double.isnan, Double.sub, hround, Double.abs, Double.blt,
      Ne.symm h]

/-- A number next to zero, and not zero. -/
def NearZero : Double → Prop
  | .num x => x ≠ 0 ∧ |x| < kDoubleEpsilon
  | _ => False

theorem equalDouble_zero_iff {f : Format} {a b : Double} (ha : a.IsIn f) (hb : b.IsIn f) :
    (equalDouble f a b = true → (a = .num 0 ↔ b = .num 0)) ↔
      ¬(a = .num 0 ∧ NearZero b ∨ NearZero a ∧ b = .num 0) := by
  refine ⟨?_, ?_⟩
  · rintro h (⟨rfl, hnear⟩ | ⟨hnear, rfl⟩)
    · cases b with
      | num x => exact hnear.1 (by simpa using (h ((zero_equalDouble hb).mpr hnear.2)).mp rfl)
      | nan | inf => exact hnear
    · cases a with
      | num x => exact hnear.1 (by simpa using (h ((equalDouble_zero ha).mpr hnear.2)).mpr rfl)
      | nan | inf => exact hnear
  · intro hnot heq
    refine ⟨?_, ?_⟩
    · rintro rfl
      cases b with
      | num x =>
        by_contra hne
        exact hnot (Or.inl ⟨rfl, by simpa using hne, (zero_equalDouble hb).mp heq⟩)
      | nan | inf => exact absurd heq (by simp [equalDouble, Double.beq, Double.isnan, Double.sub,
          Double.abs, Double.blt])
    · rintro rfl
      cases a with
      | num x =>
        by_contra hne
        exact hnot (Or.inr ⟨⟨by simpa using hne, (equalDouble_zero ha).mp heq⟩, rfl⟩)
      | nan | inf => exact absurd heq (by simp [equalDouble, Double.beq, Double.isnan, Double.sub,
          Double.abs, Double.blt])

-- ---------------------------------------------------------------------------
-- Members
-- ---------------------------------------------------------------------------

/-- The types of the members of keys. -/
inductive Member
  | integer (t : IntType)
  | char
  | string
  | charArray (n : Nat)
  | double

/-- A `char[N]`, whose text ends before the first zero. -/
structure CharArray (n : Nat) where
  chars : Vector UInt8 n
  terminated : 0 ∈ chars

/-- `std::string(a)`. -/
def CharArray.str {n : Nat} (a : CharArray n) : Text := a.chars.toList.takeWhile (· ≠ 0)

/-- The values of a member. -/
def Member.Val (f : Format) : Member → Type
  | integer t => Integer t
  | char => UInt8
  | string => Text
  | charArray n => CharArray n
  | double => {d : Double // d.IsIn f}

variable {f : Format}

/-- `my_equal<T>`. -/
def myEqual : (m : Member) → m.Val f → m.Val f → Bool
  | .integer _, a, b => a.val == b.val
  | .char, (a : UInt8), (b : UInt8) => a == b
  | .string, (a : Text), (b : Text) => a == b
  | .charArray _, a, b => a.str == b.str
  | .double, a, b => equalDouble f a.val b.val

/-- `std::hash<T>`, a `size_t`. Of the doubles zero alone has the hash zero. -/
structure StdHash (f : Format) where
  integer : (t : IntType) → Integer t → UInt64
  char : UInt8 → UInt64
  string : Text → UInt64
  double : Double → UInt64
  double_zero : double (.num 0) = 0
  double_nonzero : ∀ d : Double, d ≠ .num 0 → double d ≠ 0

/-- `my_hash<T>`, which returns a `bool`. -/
def myHash (h : StdHash f) : (m : Member) → m.Val f → Bool
  | .integer t, a => h.integer t a != 0
  | .char, a => h.char a != 0
  | .string, a => h.string a != 0
  | .charArray _, a => h.string a.str != 0
  | .double, a => h.double a.val != 0

theorem myHash_double (h : StdHash f) (a : Member.double.Val f) :
    myHash h .double a = decide (a.val ≠ .num 0) := by
  by_cases ha : a.val = .num 0
  · simp [myHash, ha, h.double_zero]
  · simp [myHash, ha, h.double_nonzero a.val ha]

/-- One of two doubles is zero, and the other one next to it. -/
def OnlyOneZero : (m : Member) → m.Val f → m.Val f → Prop
  | .double, a, b => a.val = .num 0 ∧ NearZero b.val ∨ NearZero a.val ∧ b.val = .num 0
  | _, _, _ => False

/-- **Equal members and their hashes.** Two members that are equal get one hash, unless one of them
is the double zero and the other one next to it. -/
theorem hash_respects_iff (h : StdHash f) (m : Member) (a b : m.Val f) :
    (myEqual m a b = true → myHash h m a = myHash h m b) ↔ ¬OnlyOneZero m a b := by
  cases m with
  | double =>
    rw [myHash_double, myHash_double, decide_eq_decide, not_iff_not]
    exact equalDouble_zero_iff a.property b.property
  | integer t =>
    refine iff_of_true (fun heq => ?_) id
    have hval : a.val = b.val := eq_of_beq heq
    have hab : a = b := by
      obtain ⟨x, hx⟩ := a
      obtain rfl : x = b.val := hval
      rfl
    rw [hab]
  | char =>
    refine iff_of_true (fun heq => ?_) id
    have hab : a = b := eq_of_beq (α := UInt8) heq
    rw [hab]
  | string =>
    refine iff_of_true (fun heq => ?_) id
    have hab : a = b := eq_of_beq (α := Text) heq
    rw [hab]
  | charArray n =>
    refine iff_of_true (fun heq => ?_) id
    rw [myHash, myHash, eq_of_beq heq]

/-- A hash that tells zero from the other doubles. -/
def zeroHash : StdHash exact where
  integer _ _ := 1
  char _ := 1
  string _ := 1
  double d := if d = .num 0 then 0 else 1
  double_zero := rfl
  double_nonzero d hd := by simp [hd]

/-- The doubles zero and 2^-30 are equal, and one of their hashes is zero. -/
theorem hash_zero :
    ¬∀ (f : Format) (h : StdHash f) (m : Member) (a b : m.Val f),
      myEqual m a b = true → myHash h m a = myHash h m b := by
  intro hall
  have hequal : equalDouble exact (.num 0) (.num (1 / 2 ^ 30)) = true := by
    rw [equalDouble_exact, kDoubleEpsilon]
    norm_num
  have hhash := hall exact zeroHash .double ⟨.num 0, rfl⟩ ⟨.num (1 / 2 ^ 30), rfl⟩ hequal
  exact absurd hhash (by simp [myHash, zeroHash])

-- ---------------------------------------------------------------------------
-- Order
-- ---------------------------------------------------------------------------

/-- The keys that are ordered: doubles are numbers. -/
def Member.Key : Member → Type
  | integer t => Integer t
  | char => UInt8
  | string => Text
  | charArray n => CharArray n
  | double => ℚ

/-- `operator<` of strings, which compares bytes. -/
def textLess (a b : Text) : Bool := a.map UInt8.toNat < b.map UInt8.toNat

/-- `my_less<T>`. A `char` is signed. -/
def myLess : (m : Member) → m.Key → m.Key → Bool
  | .integer _, a, b => decide (a.val < b.val)
  | .char, (a : UInt8), (b : UInt8) => decide (a.toInt8.toInt < b.toInt8.toInt)
  | .string, a, b => textLess a b
  | .charArray _, a, b => textLess a.str b.str
  | .double, (a : ℚ), (b : ℚ) => lessDouble exact (.num a) (.num b)

/-- What is asked of an order, at three values. -/
structure WeakOrderAt {α : Type} (less : α → α → Bool) (a b c : α) : Prop where
  irrefl : less a a = false
  trans : less a b = true → less b c = true → less a c = true
  incomp : less a b = false → less b a = false → less b c = false → less c b = false →
    less a c = false ∧ less c a = false

/-- An order by keys. -/
theorem weakOrderAt_of_key {α β : Type} [LinearOrder β] {less : α → α → Bool} (key : α → β)
    (h : ∀ a b, less a b = true ↔ key a < key b) (a b c : α) : WeakOrderAt less a b c := by
  have hnot : ∀ a b, less a b = false ↔ key b ≤ key a := by
    intro a b
    rw [← Bool.not_eq_true, h, not_lt]
  refine ⟨?_, ?_, ?_⟩
  · exact (hnot a a).mpr le_rfl
  · simp only [h]
    exact lt_trans
  · simp only [hnot]
    exact fun hba hab hcb hbc => ⟨hcb.trans hba, hab.trans hbc⟩

/-- Two doubles are less than epsilon from a third, and not from each other. -/
def Bridged : (m : Member) → m.Key → m.Key → m.Key → Prop
  | .double, (a : ℚ), (b : ℚ), (c : ℚ) =>
    |a - b| < kDoubleEpsilon ∧ |b - c| < kDoubleEpsilon ∧ kDoubleEpsilon ≤ |a - c|
  | _, _, _, _ => False

theorem incomparable_iff (x y : ℚ) :
    lessDouble exact (.num x) (.num y) = false ∧ lessDouble exact (.num y) (.num x) = false ↔
      |x - y| < kDoubleEpsilon := by
  rw [← Bool.not_eq_true, ← Bool.not_eq_true, lessDouble_exact, lessDouble_exact, abs_lt]
  refine ⟨?_, ?_⟩
  · rintro ⟨hxy, hyx⟩
    exact ⟨by linarith, by linarith⟩
  · rintro ⟨hlow, hhigh⟩
    exact ⟨by linarith, by linarith⟩

theorem weakOrder_double (a b c : ℚ) :
    WeakOrderAt (fun x y => lessDouble exact (.num x) (.num y)) a b c ↔
      ¬(|a - b| < kDoubleEpsilon ∧ |b - c| < kDoubleEpsilon ∧ kDoubleEpsilon ≤ |a - c|) := by
  refine ⟨?_, ?_⟩
  · rintro hweak ⟨hab, hbc, hac⟩
    obtain ⟨hab, hba⟩ := (incomparable_iff a b).mpr hab
    obtain ⟨hbc, hcb⟩ := (incomparable_iff b c).mpr hbc
    exact absurd ((incomparable_iff a c).mp (hweak.incomp hab hba hbc hcb)) (not_lt.mpr hac)
  · intro hnot
    refine ⟨?_, ?_, ?_⟩
    · exact ((incomparable_iff a a).mpr (by simpa using epsilon_pos)).1
    · rw [lessDouble_exact, lessDouble_exact, lessDouble_exact]
      intro hab hbc
      have hpos := epsilon_pos
      linarith
    · intro hab hba hbc hcb
      rw [incomparable_iff]
      by_contra hac
      exact hnot ⟨(incomparable_iff a b).mp ⟨hab, hba⟩, (incomparable_iff b c).mp ⟨hbc, hcb⟩,
        not_lt.mp hac⟩

/-- **Less as a strict weak order.** At any three members it is one, unless they are doubles and the
second bridges the other two. -/
theorem weak_order_iff (m : Member) (a b c : m.Key) :
    WeakOrderAt (myLess m) a b c ↔ ¬Bridged m a b c := by
  cases m with
  | double => exact weakOrder_double a b c
  | integer t =>
    refine iff_of_true (weakOrderAt_of_key (fun a : Integer t => a.val) ?_ a b c) id
    exact fun _ _ => decide_eq_true_iff
  | char =>
    refine iff_of_true (weakOrderAt_of_key (fun a : UInt8 => a.toInt8.toInt) ?_ a b c) id
    exact fun _ _ => decide_eq_true_iff
  | string =>
    refine iff_of_true (weakOrderAt_of_key (fun a : Text => a.map UInt8.toNat) ?_ a b c) id
    exact fun _ _ => decide_eq_true_iff
  | charArray n =>
    refine iff_of_true (weakOrderAt_of_key (fun a : CharArray n => a.str.map UInt8.toNat) ?_ a b c)
      id
    exact fun _ _ => decide_eq_true_iff

/-- The doubles 0, 0.000000006 and 0.000000012. -/
theorem weak_order_double :
    ¬∀ (m : Member) (a b c : m.Key), WeakOrderAt (myLess m) a b c := by
  intro h
  refine (weakOrder_double 0 (6 / 10 ^ 9) (12 / 10 ^ 9)).mp (h .double _ _ _) ?_
  unfold kDoubleEpsilon
  norm_num [abs_of_pos, abs_of_neg]

end Zrtools.Compare
