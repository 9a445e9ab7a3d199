import Mathlib.Data.List.Basic
import Mathlib.Tactic.Common

/-!
# Registers with one writer

Writes come one after the other, and a reader sees the values of some of them. A read
is judged by what had returned when it was called and when it returned. A register is
regular if a read gives the value of the last write that had returned before the read
was called, or of a write after that one which had at least been called before the read
returned. Two reads of a regular register may still see two writes in the wrong order,
where the earlier read saw a write that had not returned yet.

* `Regular.append` — later writes do not make a read irregular;
* `Regular.inversion` — two reads, one after the other, step back by one write at most,
  and only over a write that had not returned.
-/

namespace Register

variable {α : Type*}

/-- The value of write `i`, counted from one. -/
def IsWrite (written : List α) (i : Nat) (x : α) : Prop := 0 < i ∧ written[i - 1]? = some x

/-- A read that has returned, with the numbers of writes that had returned when it was
called and when it returned. -/
structure Reading (α : Type*) where
  began : Nat
  ended : Nat
  value : α

/-- The read gives the value of a write that is not older than the last one before it. -/
def Regular (written : List α) (r : Reading α) : Prop :=
  ∃ i, r.began ≤ i ∧ i ≤ r.ended + 1 ∧ IsWrite written i r.value

theorem IsWrite.append {written : List α} {i : Nat} {x : α} (h : IsWrite written i x)
    (more : List α) : IsWrite (written ++ more) i x := by
  obtain ⟨hpos, hx⟩ := h
  obtain ⟨hlt, -⟩ := List.getElem?_eq_some_iff.mp hx
  refine ⟨hpos, ?_⟩
  rw [List.getElem?_append_left hlt]
  exact hx

theorem IsWrite.le_length {written : List α} {i : Nat} {x : α} (h : IsWrite written i x) :
    i ≤ written.length := by
  obtain ⟨hpos, hx⟩ := h
  obtain ⟨hlt, -⟩ := List.getElem?_eq_some_iff.mp hx
  omega

/-- Appending a write leaves the values of the older ones alone. -/
theorem IsWrite.of_append {written more : List α} {i : Nat} {x : α}
    (h : IsWrite (written ++ more) i x) (hi : i ≤ written.length) : IsWrite written i x := by
  obtain ⟨hpos, hx⟩ := h
  rw [List.getElem?_append_left (by omega)] at hx
  exact ⟨hpos, hx⟩

theorem exists_isWrite {written : List α} {i : Nat} (hpos : 0 < i) (hi : i ≤ written.length) :
    ∃ x, IsWrite written i x :=
  ⟨_, hpos, List.getElem?_eq_getElem (by omega)⟩

/-- A write has one value. -/
theorem IsWrite.unique {written : List α} {i : Nat} {x y : α} (hx : IsWrite written i x)
    (hy : IsWrite written i y) : x = y :=
  Option.some.inj (hx.2.symm.trans hy.2)

/-- Where all values differ, a value belongs to one write. -/
theorem IsWrite.index_unique {written : List α} {i j : Nat} {x : α} (hi : IsWrite written i x)
    (hj : IsWrite written j x) (hdiff : written.Nodup) : i = j := by
  have hlt := hi.le_length
  have hipos := hi.1
  have hjpos := hj.1
  have hsame := (List.getElem?_inj (by omega) hdiff).mp (hi.2.trans hj.2.symm)
  omega

theorem isWrite_concat (written : List α) (x : α) :
    IsWrite (written ++ [x]) (written.length + 1) x :=
  ⟨Nat.succ_pos _, List.getElem?_concat_length⟩

theorem Regular.append {written : List α} {r : Reading α} (h : Regular written r)
    (more : List α) : Regular (written ++ more) r := by
  obtain ⟨i, hbegan, hended, hwrite⟩ := h
  exact ⟨i, hbegan, hended, hwrite.append more⟩

/-- **New and old.** Of two reads one after the other, the second may see a write that is
older than what the first one saw by one, if that had not returned when the second read
was called. -/
theorem Regular.inversion {written : List α} {r r' : Reading α} (h : Regular written r)
    (h' : Regular written r') (hafter : r.ended ≤ r'.began) :
    ∃ i j, IsWrite written i r.value ∧ IsWrite written j r'.value ∧ i ≤ j + 1 ∧
      (i ≤ r'.began → i ≤ j) := by
  obtain ⟨i, -, hended, hwrite⟩ := h
  obtain ⟨j, hbegan, -, hwrite'⟩ := h'
  exact ⟨i, j, hwrite, hwrite', by omega, by omega⟩

end Register
