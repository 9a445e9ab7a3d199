import Mathlib.Data.List.TakeWhile
import Zrtools.Lib.ByteMemory

/-!
# C strings

Text in memory that ends before the first zero, and the functions of the C library that measure and
copy it from one buffer to another. They take down which bytes of either buffer they touch.

* `text_take`, `length_text_lt_iff` — the text at most so far;
* `holds_memcpy`, `holds_strncpy` — what a buffer holds after a copy that was ended by a zero.
-/

namespace CString

open ByteMemory

-- ---------------------------------------------------------------------------
-- Text
-- ---------------------------------------------------------------------------

/-- The bytes before the first zero, or before an offset. -/
def text (n : Nat) (m : Mem) : List UInt8 := (slice m 0 n).takeWhile (· ≠ 0)

/-- A text with a zero behind it stands in memory. -/
def Holds (m : Mem) (s : List UInt8) : Prop := slice m 0 (s.length + 1) = s ++ [0]

theorem text_take (m : Mem) {k n : Nat} (h : k ≤ n) : (text n m).take k = text k m := by
  rw [text, text, List.take_takeWhile, take_slice m 0 h]

theorem length_text_le (n : Nat) (m : Mem) : (text n m).length ≤ n := by
  have hle := (List.takeWhile_prefix (· ≠ 0) (l := slice m 0 n)).length_le
  rwa [length_slice] at hle

theorem slice_length_text (n : Nat) (m : Mem) : slice m 0 (text n m).length = text n m := by
  rw [← take_slice m 0 (length_text_le n m)]
  exact (List.prefix_iff_eq_take.mp (List.takeWhile_prefix _)).symm

theorem length_text_lt_self_iff (n : Nat) (m : Mem) :
    (text n m).length < n ↔ 0 ∈ slice m 0 n := by
  rw [← Decidable.not_iff_not, Nat.not_lt]
  refine ⟨?_, ?_⟩
  · intro hle hzero
    have hall : text n m = slice m 0 n := by
      have hlen : (text n m).length = n := Nat.le_antisymm (length_text_le n m) hle
      rw [← slice_length_text n m, hlen]
    have hne := List.mem_takeWhile_imp (hall ▸ hzero : (0 : UInt8) ∈ text n m)
    exact of_decide_eq_true hne rfl
  · intro hzero
    have hall : text n m = slice m 0 n :=
      List.takeWhile_eq_self_iff.mpr fun _ hx => decide_eq_true fun h => hzero (h ▸ hx)
    rw [hall, length_slice]

/-- Where the text ends before an offset, there is a zero before it. -/
theorem length_text_lt_iff (m : Mem) {k n : Nat} (h : k ≤ n) :
    (text n m).length < k ↔ 0 ∈ slice m 0 k := by
  rw [← length_text_lt_self_iff, ← text_take m h, List.length_take]
  omega

-- ---------------------------------------------------------------------------
-- Copies
-- ---------------------------------------------------------------------------

/-- Two buffers, from their first bytes on, and the offsets that were read in the one and written
in the other. -/
structure Copying where
  src : Mem
  dst : Mem
  reads : List Nat := []
  writes : List Nat := []

namespace Copying

def strnlen (n : Nat) (c : Copying) : Nat × Copying :=
  ((text n c.src).length,
    { c with reads := c.reads ++ List.range (min n ((text n c.src).length + 1)) })

def memcpy (n : Nat) (c : Copying) : Copying :=
  { c with
    dst := write c.dst 0 (slice c.src 0 n)
    reads := c.reads ++ List.range n
    writes := c.writes ++ List.range n }

/-- `strncpy`, which fills up with zeros behind a text that is shorter. -/
def strncpy (n : Nat) (c : Copying) : Copying :=
  { c with
    dst := write c.dst 0 (text n c.src ++ List.replicate (n - (text n c.src).length) 0)
    reads := c.reads ++ List.range (min n ((text n c.src).length + 1))
    writes := c.writes ++ List.range n }

/-- One byte. -/
def store (i : Nat) (b : UInt8) (c : Copying) : Copying :=
  { c with dst := write c.dst i [b], writes := c.writes ++ [i] }

end Copying

variable (n : Nat) (c : Copying)

theorem holds_memcpy : Holds ((c.memcpy n).store n 0).dst (slice c.src 0 n) := by
  have hdst : slice (write (c.memcpy n).dst (0 + n) [0]) 0 (n + 1) =
      slice (c.memcpy n).dst 0 n ++ [0] := slice_write_append _ 0 n [0]
  have hcopied : slice (c.memcpy n).dst 0 n = slice c.src 0 n :=
    slice_write_of_length c.dst 0 (length_slice c.src 0 n)
  rw [Nat.zero_add, hcopied] at hdst
  rw [Holds, length_slice]
  exact hdst

/-- The last byte of the copy is made a zero. -/
theorem holds_strncpy (hn : 0 < n) :
    Holds ((c.strncpy n).store (n - 1) 0).dst ((text n c.src).take (n - 1)) := by
  obtain ⟨k, rfl⟩ : ∃ k, n = k + 1 := ⟨n - 1, by omega⟩
  rw [Nat.add_sub_cancel]
  have hle := length_text_le (k + 1) c.src
  have hcopied : slice (c.strncpy (k + 1)).dst 0 k =
      (text (k + 1) c.src).take k ++ List.replicate (k - (text (k + 1) c.src).length) 0 := by
    have hlen : (text (k + 1) c.src ++
        List.replicate (k + 1 - (text (k + 1) c.src).length) 0).length = k + 1 := by
      rw [List.length_append, List.length_replicate]
      omega
    have hdst : slice (c.strncpy (k + 1)).dst 0 (k + 1) =
        text (k + 1) c.src ++ List.replicate (k + 1 - (text (k + 1) c.src).length) 0 :=
      slice_write_of_length c.dst 0 hlen
    rw [← take_slice _ 0 (Nat.le_succ k), hdst, List.take_append, List.take_replicate]
    congr 2
    omega
  have hall : slice ((c.strncpy (k + 1)).store k 0).dst 0 (k + 1) =
      (text (k + 1) c.src).take k ++
        0 :: List.replicate (k - (text (k + 1) c.src).length) 0 := by
    have hdst : slice (write (c.strncpy (k + 1)).dst (0 + k) [0]) 0 (k + 1) =
        slice (c.strncpy (k + 1)).dst 0 k ++ [0] := slice_write_append _ 0 k [0]
    rw [Nat.zero_add, hcopied, List.append_assoc, ← List.replicate_succ',
      List.replicate_succ] at hdst
    exact hdst
  have hfit : ((text (k + 1) c.src).take k).length + 1 ≤ k + 1 := by
    rw [List.length_take]
    omega
  rw [Holds, ← take_slice _ 0 hfit, hall, List.take_length_add_append, List.take_succ_cons,
    List.take_zero]

/-- Nothing has changed that was not written. -/
def Framed (dst : Mem) (c : Copying) : Prop := ∀ i, i ∉ c.writes → c.dst i = dst i

section Framed

variable {c} {dst : Mem}

theorem framed_write {c' : Copying} (h : Framed dst c) {i : Nat} {l : List UInt8}
    {writes : List Nat} (hdst : c'.dst = write c.dst i l) (hwrites : c'.writes = c.writes ++ writes)
    (hall : ∀ j, i ≤ j → j < i + l.length → j ∈ writes) : Framed dst c' := by
  intro j hj
  rw [hwrites, List.mem_append, not_or] at hj
  have hout : j < i ∨ i + l.length ≤ j := by
    by_contra hin
    exact hj.2 (hall j (by omega) (by omega))
  rw [hdst, write_of_not_mem hout]
  exact h j hj.1

theorem framed_strnlen (h : Framed dst c) : Framed dst (c.strnlen n).2 := h

theorem framed_memcpy (h : Framed dst c) : Framed dst (c.memcpy n) := by
  refine framed_write h rfl rfl fun j _ hj => ?_
  rw [length_slice, Nat.zero_add] at hj
  exact List.mem_range.mpr hj

theorem framed_strncpy (h : Framed dst c) : Framed dst (c.strncpy n) := by
  refine framed_write h rfl rfl fun j _ hj => ?_
  have hle := length_text_le n c.src
  rw [List.length_append, List.length_replicate] at hj
  exact List.mem_range.mpr (by omega)

theorem framed_store (h : Framed dst c) (i : Nat) (b : UInt8) : Framed dst (c.store i b) := by
  refine framed_write h rfl rfl fun j hij hj => ?_
  rw [List.length_singleton] at hj
  exact List.mem_singleton.mpr (by omega)

end Framed

end CString
