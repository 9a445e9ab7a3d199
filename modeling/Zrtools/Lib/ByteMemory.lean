import Mathlib.Data.List.Range
import Mathlib.Tactic.Common

/-!
# Byte-addressed memory

A memory gives every address a byte. `slice` reads a range, `write` stores a string
of bytes; what is read back is what was stored, and a store leaves every range it
does not touch alone.
-/

namespace ByteMemory

abbrev Mem := Nat → UInt8

/-- The `n` bytes from an address on. -/
def slice (m : Mem) (off n : Nat) : List UInt8 := (List.range n).map fun i => m (off + i)

/-- Store a string of bytes from an address on. -/
def write (m : Mem) (off : Nat) (l : List UInt8) : Mem := fun i =>
  if off ≤ i ∧ i < off + l.length then l.getD (i - off) 0 else m i

@[simp] theorem length_slice (m : Mem) (off n : Nat) : (slice m off n).length = n := by
  simp [slice]

theorem slice_append (m : Mem) (off a b : Nat) :
    slice m off (a + b) = slice m off a ++ slice m (off + a) b := by
  unfold slice
  rw [List.range_add, List.map_append, List.map_map]
  congr 1
  apply List.map_congr_left
  intro i _
  simp [Nat.add_assoc]

theorem slice_succ (m : Mem) (off n : Nat) :
    slice m off (n + 1) = m off :: slice m (off + 1) n := by
  rw [Nat.add_comm n 1, slice_append]
  rfl

/-- Two memories that agree on a range read the same there. -/
theorem slice_congr {m m' : Mem} {off n : Nat} (h : ∀ i, off ≤ i → i < off + n → m' i = m i) :
    slice m' off n = slice m off n := by
  unfold slice
  apply List.map_congr_left
  intro i hi
  rw [List.mem_range] at hi
  exact h (off + i) (by omega) (by omega)

theorem write_of_not_mem {m : Mem} {off i : Nat} {l : List UInt8}
    (h : i < off ∨ off + l.length ≤ i) : write m off l i = m i := by
  rw [write, if_neg (by omega)]

@[simp] theorem write_nil (m : Mem) (off : Nat) : write m off [] = m := by
  funext i
  exact write_of_not_mem (by simp only [List.length_nil]; omega)

/-- A store byte after byte. -/
theorem write_cons (m : Mem) (off : Nat) (b : UInt8) (l : List UInt8) :
    write m off (b :: l) = write (write m off [b]) (off + 1) l := by
  funext i
  rcases Nat.lt_trichotomy i off with hlt | rfl | hgt
  · rw [write_of_not_mem (Or.inl hlt), write_of_not_mem (Or.inl (by omega)),
      write_of_not_mem (Or.inl hlt)]
  · rw [write_of_not_mem (Or.inl (Nat.lt_succ_self i))]
    simp [write]
  · obtain ⟨k, rfl⟩ : ∃ k, i = off + 1 + k := ⟨i - (off + 1), by omega⟩
    have hsub : off + 1 + k - off = k + 1 := by omega
    by_cases hk : k < l.length
    · rw [write, if_pos ⟨by omega, by rw [List.length_cons]; omega⟩, write,
        if_pos ⟨by omega, by omega⟩, hsub, List.getD_cons_succ, Nat.add_sub_cancel_left]
    · rw [write_of_not_mem (Or.inr (by rw [List.length_cons]; omega)),
        write_of_not_mem (Or.inr (by omega)),
        write_of_not_mem (Or.inr (by rw [List.length_singleton]; omega))]

/-- Two stores behind each other are one. -/
theorem write_append (m : Mem) (off : Nat) (a b : List UInt8) :
    write m off (a ++ b) = write (write m off a) (off + a.length) b := by
  induction a generalizing m off with
  | nil => simp
  | cons x a ih =>
    have hoff : off + 1 + a.length = off + (a.length + 1) := by omega
    rw [List.cons_append, write_cons, ih, ← write_cons, List.length_cons, hoff]

/-- Stores to different places can be made in any order. -/
theorem write_comm (m : Mem) {i j : Nat} {a b : List UInt8}
    (h : i + a.length ≤ j ∨ j + b.length ≤ i) :
    write (write m i a) j b = write (write m j b) i a := by
  funext k
  by_cases hb : j ≤ k ∧ k < j + b.length
  · have ha : k < i ∨ i + a.length ≤ k := by omega
    rw [write_of_not_mem ha, write, if_pos hb, write, if_pos hb]
  · rw [write_of_not_mem (by omega)]
    by_cases ha : i ≤ k ∧ k < i + a.length
    · rw [write, if_pos ha, write, if_pos ha]
    · rw [write_of_not_mem (by omega), write_of_not_mem (by omega),
        write_of_not_mem (by omega)]

/-- Storing what is there changes nothing. -/
theorem write_slice (m : Mem) (off n : Nat) : write m off (slice m off n) = m := by
  funext k
  by_cases hk : off ≤ k ∧ k < off + n
  · have hlt : k - off < n := by omega
    rw [write, length_slice, if_pos hk]
    simp [slice, List.getD_eq_getElem?_getD, hlt, Nat.add_sub_cancel' hk.1]
  · rw [write_of_not_mem (by rw [length_slice]; omega)]

theorem slice_write_self (m : Mem) (off : Nat) (l : List UInt8) :
    slice (write m off l) off l.length = l := by
  apply List.ext_getElem
  · simp
  · intro i hi hi'
    simp [slice, write, List.getD_eq_getElem?_getD, hi']

/-- The same where the length of the store is known. -/
theorem slice_write_of_length (m : Mem) (off : Nat) {l : List UInt8} {n : Nat}
    (h : l.length = n) : slice (write m off l) off n = l := by
  rw [← h]
  exact slice_write_self m off l

/-- A store leaves the other ranges alone. -/
theorem slice_write_of_disjoint {m : Mem} {off off' n : Nat} {l : List UInt8}
    (h : off' + n ≤ off ∨ off + l.length ≤ off') :
    slice (write m off l) off' n = slice m off' n := by
  apply slice_congr
  intro i hlo hhi
  apply write_of_not_mem
  omega

/-- A store right behind a range extends what is read. -/
theorem slice_write_append (m : Mem) (off n : Nat) (l : List UInt8) :
    slice (write m (off + n) l) off (n + l.length) = slice m off n ++ l := by
  rw [slice_append, slice_write_self, slice_write_of_disjoint (Or.inl (Nat.le_refl _))]

/-- The front part of a range. -/
theorem take_slice (m : Mem) (off : Nat) {k n : Nat} (h : k ≤ n) :
    (slice m off n).take k = slice m off k := by
  obtain ⟨j, rfl⟩ := Nat.exists_eq_add_of_le h
  rw [slice_append, List.take_left' (length_slice ..)]

/-- The rest of a range. -/
theorem drop_slice (m : Mem) (off : Nat) {k n : Nat} (h : k ≤ n) :
    (slice m off n).drop k = slice m (off + k) (n - k) := by
  obtain ⟨j, rfl⟩ := Nat.exists_eq_add_of_le h
  rw [slice_append, List.drop_left' (length_slice ..), Nat.add_sub_cancel_left]

/-- A part in the middle of a range. -/
theorem slice_middle {m : Mem} {off n : Nat} {a b c : List UInt8}
    (h : slice m off n = a ++ (b ++ c)) : slice m (off + a.length) b.length = b := by
  have hlen : a.length + (b.length + c.length) = n := by
    rw [← length_slice m off n, h, List.length_append, List.length_append]
  rw [← hlen, slice_append, slice_append] at h
  have hrest := (List.append_inj h (length_slice ..)).2
  exact (List.append_inj hrest (length_slice ..)).1

end ByteMemory
