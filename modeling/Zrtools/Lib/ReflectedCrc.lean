import Mathlib.Data.BitVec
import Mathlib.Logic.Function.Iterate

/-!
# Reflected CRC registers

A reflected CRC of width `w` shifts its register right one bit at a time and
folds the polynomial in whenever a one drops out. The register is additive
over exclusive or, which is what makes the byte-at-a-time table work: eight
shifts of a byte-wide value can be looked up, the rest of the register only
moves down.

* `byteStep_eq_table` — eight shifts are one lookup in the exact table;
* `tableRegister_eq` — a loop over *any* table computes the reference register
  with an error folded in; for a table that is wrong at one index the error is
  the sum of the defect of that word, each advanced over the bytes that follow
  the lookup (`misreads`, `propagated`);
* `propagated_singleton_ne_zero` — one such lookup is never undone, because
  shifting is injective.
-/

namespace ReflectedCrc

variable {w : Nat} (poly : BitVec w)

/-- One bit of a reflected CRC: shift right, fold `poly` in on a dropped one. -/
def bitStep (r : BitVec w) : BitVec w :=
  if r.getLsbD 0 then (r >>> 1) ^^^ poly else r >>> 1

/-- `n` bit steps. -/
def advance : Nat → BitVec w → BitVec w
  | 0, r => r
  | n + 1, r => advance n (bitStep poly r)

/-- One byte of message: fold it into the low end, then eight bit steps. -/
def byteStep (r : BitVec w) (b : BitVec 8) : BitVec w :=
  advance poly 8 (r ^^^ b.setWidth w)

/-- The reference register after a whole message. -/
def register (r : BitVec w) (bytes : List (BitVec 8)) : BitVec w :=
  bytes.foldl (byteStep poly) r

-- ---------------------------------------------------------------------------
-- Additivity
-- ---------------------------------------------------------------------------

theorem bitStep_xor (x y : BitVec w) :
    bitStep poly (x ^^^ y) = bitStep poly x ^^^ bitStep poly y := by
  simp only [bitStep, BitVec.getLsbD_xor, BitVec.ushiftRight_xor_distrib]
  cases x.getLsbD 0 <;> cases y.getLsbD 0
  · simp
  · simp [BitVec.xor_assoc]
  · simp only [Bool.xor_false, if_true, Bool.false_eq_true, if_false]
    ac_rfl
  · simp only [Bool.xor_true, Bool.not_true, Bool.false_eq_true, if_false, if_true]
    rw [show x >>> 1 ^^^ poly ^^^ (y >>> 1 ^^^ poly) =
      x >>> 1 ^^^ y >>> 1 ^^^ (poly ^^^ poly) by ac_rfl]
    simp

theorem advance_xor (n : Nat) (x y : BitVec w) :
    advance poly n (x ^^^ y) = advance poly n x ^^^ advance poly n y := by
  induction n generalizing x y with
  | zero => rfl
  | succ n ih => rw [advance, bitStep_xor, ih, advance, advance]

@[simp] theorem advance_zero_right (n : Nat) : advance poly n (0#w) = 0#w := by
  have h := advance_xor poly n (0#w) (0#w)
  simpa using h

theorem advance_add (m n : Nat) (r : BitVec w) :
    advance poly (m + n) r = advance poly n (advance poly m r) := by
  induction m generalizing r with
  | zero => simp [advance]
  | succ m ih => rw [Nat.succ_add, advance, ih, advance]

theorem byteStep_xor (x y : BitVec w) (b : BitVec 8) :
    byteStep poly (x ^^^ y) b = byteStep poly x b ^^^ advance poly 8 y := by
  rw [byteStep, byteStep, ← advance_xor]
  congr 1
  ac_rfl

-- ---------------------------------------------------------------------------
-- The byte table
-- ---------------------------------------------------------------------------

/-- The exact table: eight bit steps of each byte value. -/
def tableEntry (i : BitVec 8) : BitVec w := advance poly 8 (i.setWidth w)

theorem tableEntry_xor (i j : BitVec 8) :
    tableEntry poly (i ^^^ j) = tableEntry poly i ^^^ tableEntry poly j := by
  rw [tableEntry, BitVec.setWidth_xor, advance_xor, tableEntry, tableEntry]

/-- The byte a table loop looks up. -/
def index (r : BitVec w) (b : BitVec 8) : BitVec 8 := r.setWidth 8 ^^^ b

/-- A value whose low `k` bits are clear only moves down. -/
theorem advance_of_low_clear {y : BitVec w} :
    ∀ {k : Nat}, (∀ i < k, y.getLsbD i = false) → advance poly k y = y >>> k := by
  intro k
  induction k generalizing y with
  | zero => intro _; simp [advance]
  | succ k ih =>
    intro h
    have h0 : y.getLsbD 0 = false := h 0 (by omega)
    have hstep : bitStep poly y = y >>> 1 := by simp [bitStep, h0]
    rw [advance, hstep, ih, ← BitVec.shiftRight_add, Nat.add_comm]
    intro i hi
    simpa using h (1 + i) (by omega)

/-- Splitting a register into its low byte and the part above it. -/
theorem low_byte_split (x : BitVec w) :
    x = ((x >>> 8) <<< 8) ^^^ (x.setWidth 8).setWidth w := by
  apply BitVec.eq_of_getLsbD_eq
  intro i hi
  by_cases h8 : i < 8
  · simp [h8, hi]
  · simp [h8, hi, show 8 + (i - 8) = i by omega]

/-- **One lookup is eight bit steps.** -/
theorem byteStep_eq_table (r : BitVec w) (b : BitVec 8) :
    byteStep poly r b = tableEntry poly (index r b) ^^^ (r >>> 8) := by
  have hsplit : r ^^^ b.setWidth w = ((r >>> 8) <<< 8) ^^^ (index r b).setWidth w := by
    conv_lhs => rw [low_byte_split r]
    rw [index, BitVec.setWidth_xor, BitVec.xor_assoc]
  have hhigh : advance poly 8 ((r >>> 8) <<< 8) = r >>> 8 := by
    rw [advance_of_low_clear]
    · apply BitVec.eq_of_getLsbD_eq
      intro i hi
      by_cases h : 8 + i < w
      · simp [h]
      · simp [h, BitVec.getLsbD_of_ge r (8 + i) (by omega)]
    · intro i hi
      simp [hi]
  rw [byteStep, hsplit, advance_xor, hhigh, tableEntry, BitVec.xor_comm]

-- ---------------------------------------------------------------------------
-- Loops over a table that is wrong at one index
-- ---------------------------------------------------------------------------

/-- The byte-at-a-time loop over an arbitrary table. -/
def tableRegister (T : BitVec 8 → BitVec w) (r : BitVec w) (bytes : List (BitVec 8)) :
    BitVec w :=
  bytes.foldl (fun r b => T (index r b) ^^^ (r >>> 8)) r

/-- How far the loop's register is off after a lookup of index `i`, when only the
word at `bad` is wrong, by `defect`. -/
def injected (bad : BitVec 8) (defect : BitVec w) (i : BitVec 8) : BitVec w :=
  if i = bad then defect else 0#w

/-- The lookups of `bad` made on a message, each given by the number of message
bytes that follow it. `r` is the reference register and `d` the error so far. -/
def misreads (bad : BitVec 8) (defect : BitVec w) :
    BitVec w → BitVec w → List (BitVec 8) → List Nat
  | _, _, [] => []
  | r, d, b :: rest =>
    let i := index (r ^^^ d) b
    let later := misreads bad defect (byteStep poly r b)
      (advance poly 8 d ^^^ injected bad defect i) rest
    if i = bad then rest.length :: later else later

/-- The lookups of `bad` that the loop over `T` itself makes. -/
def lookups (T : BitVec 8 → BitVec w) (bad : BitVec 8) :
    BitVec w → List (BitVec 8) → List Nat
  | _, [] => []
  | r, b :: rest =>
    let later := lookups T bad (T (index r b) ^^^ (r >>> 8)) rest
    if index r b = bad then rest.length :: later else later

/-- The defect advanced over `8 * k` bits for each `k` of the list, summed. -/
def propagated (defect : BitVec w) (ks : List Nat) : BitVec w :=
  ks.foldr (fun k acc => advance poly (8 * k) defect ^^^ acc) 0#w

@[simp] theorem propagated_nil (defect : BitVec w) : propagated poly defect [] = 0#w := rfl

@[simp] theorem propagated_cons (defect : BitVec w) (k : Nat) (ks : List Nat) :
    propagated poly defect (k :: ks) =
      advance poly (8 * k) defect ^^^ propagated poly defect ks := rfl

section Defective

variable {T : BitVec 8 → BitVec w} {bad : BitVec 8} {defect : BitVec w}

/-- One step of the defective loop, from a register that is off by `d`. -/
theorem defective_step
    (hT : ∀ i, T i = tableEntry poly i ^^^ injected bad defect i)
    (r d : BitVec w) (b : BitVec 8) :
    T (index (r ^^^ d) b) ^^^ ((r ^^^ d) >>> 8) =
      byteStep poly r b ^^^
        (advance poly 8 d ^^^ injected bad defect (index (r ^^^ d) b)) := by
  rw [hT, show tableEntry poly (index (r ^^^ d) b) ^^^ injected bad defect (index (r ^^^ d) b) ^^^
      (r ^^^ d) >>> 8 = (tableEntry poly (index (r ^^^ d) b) ^^^ (r ^^^ d) >>> 8) ^^^
        injected bad defect (index (r ^^^ d) b) by ac_rfl,
    ← byteStep_eq_table poly, byteStep_xor, BitVec.xor_assoc]

/-- The misreads worked out from the reference register are the lookups the
defective loop makes. -/
theorem misreads_eq_lookups
    (hT : ∀ i, T i = tableEntry poly i ^^^ injected bad defect i)
    (bytes : List (BitVec 8)) (r d : BitVec w) :
    misreads poly bad defect r d bytes = lookups T bad (r ^^^ d) bytes := by
  induction bytes generalizing r d with
  | nil => rfl
  | cons b rest ih =>
    rw [misreads, lookups, defective_step poly hT, ih]

/-- **The error of a defective table loop**, from any register and any error
already made. -/
theorem tableRegister_eq_from
    (hT : ∀ i, T i = tableEntry poly i ^^^ injected bad defect i)
    (bytes : List (BitVec 8)) (r d : BitVec w) :
    tableRegister T (r ^^^ d) bytes =
      register poly r bytes ^^^ (advance poly (8 * bytes.length) d ^^^
        propagated poly defect (misreads poly bad defect r d bytes)) := by
  induction bytes generalizing r d with
  | nil => simp [tableRegister, register, misreads, advance]
  | cons b rest ih =>
    set i := index (r ^^^ d) b with hi
    have hstep := defective_step poly hT r d b
    rw [← hi] at hstep
    have hlen : 8 * (b :: rest).length = 8 + 8 * rest.length := by
      rw [List.length_cons]
      omega
    rw [tableRegister, List.foldl_cons, ← hi, hstep]
    change tableRegister T _ rest = _
    rw [ih, register, register, List.foldl_cons, advance_xor, hlen, advance_add]
    by_cases hbad : i = bad
    · simp only [misreads, ← hi, hbad, injected, if_true, propagated_cons]
      ac_rfl
    · simp only [misreads, ← hi, hbad, injected, if_false, advance_zero_right, BitVec.xor_zero]

/-- **The defective loop is the reference register plus its propagated misreads.** -/
theorem tableRegister_eq
    (hT : ∀ i, T i = tableEntry poly i ^^^ injected bad defect i)
    (r : BitVec w) (bytes : List (BitVec 8)) :
    tableRegister T r bytes =
      register poly r bytes ^^^
        propagated poly defect (misreads poly bad defect r 0#w bytes) := by
  have h := tableRegister_eq_from poly hT bytes r 0#w
  simpa using h

end Defective

-- ---------------------------------------------------------------------------
-- Injectivity
-- ---------------------------------------------------------------------------

/-- With the top bit of the polynomial set, the dropped bit can be read back. -/
theorem bitStep_injective (htop : poly.getLsbD (w - 1) = true) :
    Function.Injective (bitStep poly) := by
  have hzero : ∀ z : BitVec w, bitStep poly z = 0#w → z = 0#w := by
    intro z hz
    have hw : 0 < w := by
      by_contra h
      rw [BitVec.getLsbD_of_ge poly _ (by omega)] at htop
      exact Bool.false_ne_true htop
    cases hlow : z.getLsbD 0 with
    | true =>
      -- the polynomial's top bit stays set in the shifted register
      rw [bitStep, if_pos hlow] at hz
      have hbit := congrArg (fun v : BitVec w => v.getLsbD (w - 1)) hz
      simp only [BitVec.getLsbD_xor, BitVec.getLsbD_ushiftRight, htop, Bool.xor_true,
        BitVec.getLsbD_zero, Bool.not_eq_false'] at hbit
      rw [BitVec.getLsbD_of_ge z _ (by omega)] at hbit
      exact absurd hbit Bool.false_ne_true
    | false =>
      rw [bitStep, if_neg (by simp [hlow])] at hz
      apply BitVec.eq_of_getLsbD_eq
      intro i hi
      cases i with
      | zero => simpa using hlow
      | succ j =>
        have hbit := congrArg (fun v : BitVec w => v.getLsbD j) hz
        simpa [Nat.add_comm] using hbit
  intro x y hxy
  have hsum : bitStep poly (x ^^^ y) = 0#w := by
    rw [bitStep_xor, hxy, BitVec.xor_self]
  exact BitVec.xor_eq_zero_iff.mp (hzero _ hsum)

theorem advance_injective (htop : poly.getLsbD (w - 1) = true) (n : Nat) :
    Function.Injective (advance poly n) := by
  induction n with
  | zero => exact fun _ _ h => h
  | succ n ih => exact fun x y h => bitStep_injective poly htop (ih h)

/-- A single misread is never undone by the bytes after it. -/
theorem propagated_singleton_ne_zero (htop : poly.getLsbD (w - 1) = true)
    {defect : BitVec w} (hdefect : defect ≠ 0#w) (k : Nat) :
    propagated poly defect [k] ≠ 0#w := by
  intro h
  apply hdefect
  apply advance_injective poly htop (8 * k)
  simpa using h

end ReflectedCrc
