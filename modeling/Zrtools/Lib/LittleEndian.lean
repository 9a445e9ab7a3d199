import Mathlib.Data.List.Basic
import Mathlib.Tactic.Ring

/-!
# Little-endian byte strings

The bytes of a fixed-width number, least significant first, and the number a
byte string stands for. Besides the round trip (`decode_encode`) this gives
what a reader sees when only the first bytes of a number were written over a
zeroed field: the number modulo the part that is there (`decode_torn`).
-/

namespace LittleEndian

/-- The low `width` bytes of `value`, least significant first. -/
def encode : Nat → Nat → List UInt8
  | 0, _ => []
  | width + 1, value => UInt8.ofNat value :: encode width (value / 256)

/-- The number a byte string stands for. -/
def decode : List UInt8 → Nat
  | [] => 0
  | b :: rest => b.toNat + 256 * decode rest

@[simp] theorem length_encode (width value : Nat) : (encode width value).length = width := by
  induction width generalizing value with
  | zero => rfl
  | succ width ih => simp [encode, ih]

theorem decode_encode (width value : Nat) :
    decode (encode width value) = value % 256 ^ width := by
  induction width generalizing value with
  | zero => simp [encode, decode, Nat.mod_one]
  | succ width ih =>
    rw [encode, decode, ih, Nat.pow_succ', Nat.mod_mul]
    simp

theorem decode_encode_of_lt {width value : Nat} (h : value < 256 ^ width) :
    decode (encode width value) = value := by
  rw [decode_encode, Nat.mod_eq_of_lt h]

theorem decode_append (a b : List UInt8) :
    decode (a ++ b) = decode a + 256 ^ a.length * decode b := by
  induction a with
  | nil => simp [decode]
  | cons x rest ih =>
    rw [List.cons_append, decode, ih, decode, List.length_cons, Nat.pow_succ']
    ring

@[simp] theorem decode_replicate_zero (n : Nat) : decode (List.replicate n 0) = 0 := by
  induction n with
  | zero => rfl
  | succ n ih => simp [List.replicate_succ, decode, ih]

theorem encode_take {width k : Nat} (hk : k ≤ width) (value : Nat) :
    (encode width value).take k = encode k value := by
  induction k generalizing width value with
  | zero => rfl
  | succ k ih =>
    obtain ⟨width, rfl⟩ : ∃ w, width = w + 1 := ⟨width - 1, by omega⟩
    rw [encode, encode, List.take_succ_cons, ih (by omega)]

/-- A number of which only the first `k` bytes reached a zeroed field. -/
theorem decode_torn {width k : Nat} (hk : k ≤ width) (value : Nat) :
    decode ((encode width value).take k ++ List.replicate (width - k) 0) = value % 256 ^ k := by
  rw [decode_append, decode_replicate_zero, encode_take hk, decode_encode]
  simp

end LittleEndian
