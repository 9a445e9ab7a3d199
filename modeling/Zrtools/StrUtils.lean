import Zrtools.Lib.Getline

/-!
# zrtools — `split` and `join` (`str_utils.h`)

`split` reads the fields of a string with `std::getline`, which leaves out an empty last one, and
puts that one back. `join` takes all fields, or those of a range of indices.

* `split_eq`, `join_eq` — both against the fields between delimiters;
* `split_join_inverse` — each undoes the other;
* `joinRange_iff` — when a range is joined as the fields of it are.
-/

namespace Zrtools.StrUtils

open Getline

/-- A string, of bytes. -/
abbrev Str := List UInt8

-- ---------------------------------------------------------------------------
-- The code
-- ---------------------------------------------------------------------------

def split (s : Str) (delimiter : UInt8) : List Str :=
  if s.isEmpty then []
  else
    let elements := readLines delimiter { rest := s } []
    if !s.isEmpty && s.getLast? == some delimiter then elements ++ [[]] else elements

def join (v : List Str) (delimiter : UInt8) : Str :=
  match v with
  | [] => []
  | first :: rest => rest.foldl (fun s x => s ++ delimiter :: x) first

/-- The indices of `for (size_t i = first; i < end && i < size; ++i)`. -/
def indices (first stop size : Nat) : List Nat := List.range' first (min stop size - first)

/-- `join` of a range. Reading an element that is not there has no result. -/
def joinRange (v : List Str) (delimiter : UInt8) (first stop : Nat) : Option Str :=
  if v.isEmpty then some []
  else
    v[first]?.bind fun s =>
      (indices (first + 1) stop v.length).foldlM (fun s i => v[i]?.map (s ++ delimiter :: ·)) s

-- ---------------------------------------------------------------------------
-- Fields
-- ---------------------------------------------------------------------------

theorem split_lines (s : Str) (d : UInt8) :
    split s d = lines d s ++ if Ended d s then [[]] else [] := by
  cases s with
  | nil => rw [lines_nil]; rfl
  | cons c s =>
    have hsplit : split (c :: s) d =
        if (c :: s).getLast? == some d then lines d (c :: s) ++ [[]] else lines d (c :: s) := rfl
    rw [hsplit]
    by_cases hend : Ended d (c :: s)
    · rw [if_pos hend, if_pos (beq_iff_eq.mpr hend)]
    · rw [if_neg hend, if_neg fun h => hend (beq_iff_eq.mp h), List.append_nil]

theorem split_eq (s : Str) (d : UInt8) : split s d = if s = [] then [] else s.splitOn d := by
  rw [split_lines, lines_append_last]

theorem not_mem_of_mem_split {s e : Str} {d : UInt8} (he : e ∈ split s d) : d ∉ e := by
  rw [split_lines, List.mem_append] at he
  rcases he with he | he
  · exact not_mem_of_mem_lines he
  · split_ifs at he
    · rw [List.mem_singleton.mp he]
      exact List.not_mem_nil
    · cases he

theorem foldl_fields (d : UInt8) (s : Str) (rest : List Str) :
    rest.foldl (fun s x => s ++ d :: x) s = s ++ rest.flatMap (d :: ·) := by
  induction rest generalizing s with
  | nil => simp
  | cons x rest ih => rw [List.foldl_cons, ih, List.flatMap_cons, List.append_assoc]

theorem intercalate_cons (d : UInt8) (first : Str) (rest : List Str) :
    [d].intercalate (first :: rest) = first ++ rest.flatMap (d :: ·) := by
  induction rest generalizing first with
  | nil => simp
  | cons x rest ih => rw [List.intercalate_cons_cons, ih, List.flatMap_cons]; simp

theorem join_eq (v : List Str) (d : UInt8) : join v d = [d].intercalate v := by
  cases v with
  | nil => rfl
  | cons first rest => rw [join, foldl_fields, intercalate_cons]

theorem join_split (s : Str) (d : UInt8) : join (split s d) d = s := by
  rw [split_eq, join_eq]
  split_ifs with hs
  · exact hs.symm
  · exact List.intercalate_splitOn d

theorem join_eq_nil_iff (v : List Str) (d : UInt8) : join v d = [] ↔ v = [] ∨ v = [[]] := by
  cases v with
  | nil => simp [join]
  | cons first rest =>
    rw [join, foldl_fields]
    cases rest <;> simp

theorem split_join {v : List Str} {d : UInt8} (hv : ∀ e ∈ v, d ∉ e) (hne : v ≠ [[]]) :
    split (join v d) d = v := by
  have hempty : join v d = [] ↔ v = [] := by rw [join_eq_nil_iff, or_iff_left hne]
  rw [split_eq]
  split_ifs with hnil
  · exact (hempty.mp hnil).symm
  · rw [join_eq, List.splitOn_intercalate d hv fun hv => hnil (hempty.mpr hv)]

/-- Splitting and joining undo each other. -/
theorem split_join_inverse (d : UInt8) :
    (∀ s, join (split s d) d = s ∧ ∀ e ∈ split s d, d ∉ e) ∧
      ∀ v : List Str, (∀ e ∈ v, d ∉ e) → v ≠ [[]] → split (join v d) d = v := by
  refine ⟨?_, ?_⟩
  · intro s
    exact ⟨join_split s d, fun _ => not_mem_of_mem_split⟩
  · intro v hv hne
    exact split_join hv hne

/-- The strings "a", "" and "b". -/
theorem split_join_inverse_three :
    split (join [[97], [], [98]] 44) 44 = [[97], [], [98]] :=
  (split_join_inverse 44).2 [[97], [], [98]] (by decide) (by decide)

-- ---------------------------------------------------------------------------
-- Ranges
-- ---------------------------------------------------------------------------

/-- The elements with an index in the range. -/
def slice (v : List Str) (first stop : Nat) : List Str :=
  (v.drop first).take (min stop v.length - first)

theorem foldlM_fields (v : List Str) (d : UInt8) (s : Str) {i n : Nat} (h : i + n ≤ v.length) :
    (List.range' i n).foldlM (fun s i => v[i]?.map (s ++ d :: ·)) s =
      some (s ++ ((v.drop i).take n).flatMap (d :: ·)) := by
  induction n generalizing i s with
  | zero => simp
  | succ n ih =>
    have hi : i < v.length := by omega
    rw [List.range'_succ, List.foldlM_cons, List.getElem?_eq_getElem hi, Option.map_some,
      Option.bind_eq_bind, Option.bind_some, ih _ (by omega), List.drop_eq_getElem_cons hi,
      List.take_succ_cons, List.flatMap_cons, List.append_assoc]

/-- What is joined where the first element is there. -/
theorem joinRange_eq {v : List Str} {first : Nat} {x : Str} (hx : v[first]? = some x) (d : UInt8)
    (stop : Nat) :
    joinRange v d first stop = some (x ++ (slice v (first + 1) stop).flatMap (d :: ·)) := by
  obtain ⟨hlt, -⟩ := List.getElem?_eq_some_iff.mp hx
  have hne : v.isEmpty = false := by
    cases v with
    | nil => simp at hlt
    | cons _ _ => rfl
  have hfold : (first + 1) + (min stop v.length - (first + 1)) ≤ v.length := by omega
  rw [joinRange, hne, if_neg Bool.false_ne_true, hx, Option.bind_some, indices,
    foldlM_fields v d x hfold, slice]

/-- **When a range is joined as its elements are**: the first element is there, and the range is
not empty, or that element is. -/
theorem joinRange_iff (v : List Str) (d : UInt8) {first stop : Nat} (h : first ≤ stop) :
    joinRange v d first stop = some (join (slice v first stop) d) ↔
      v = [] ∨ ∃ x, v[first]? = some x ∧ (first < stop ∨ x = []) := by
  cases hx : v[first]? with
  | none =>
    have hout : v.length ≤ first := List.getElem?_eq_none_iff.mp hx
    by_cases hnil : v = []
    · subst hnil
      simp [joinRange, slice, join]
    · have hne : v.isEmpty = false := by simpa using hnil
      rw [joinRange, hne, if_neg Bool.false_ne_true, hx]
      simp [hnil]
  | some x =>
    obtain ⟨hlt, hget⟩ := List.getElem?_eq_some_iff.mp hx
    have hnil : v ≠ [] := List.ne_nil_of_length_pos (Nat.zero_lt_of_lt hlt)
    rw [joinRange_eq hx]
    rcases Nat.lt_or_eq_of_le h with hbefore | rfl
    · -- the first element of the slice is joined before the loop
      refine iff_of_true ?_ (Or.inr ⟨x, rfl, Or.inl hbefore⟩)
      obtain ⟨n, hn⟩ : ∃ n, min stop v.length - first = n + 1 :=
        ⟨min stop v.length - (first + 1), by omega⟩
      have hn' : min stop v.length - (first + 1) = n := by omega
      rw [slice, slice, hn, hn', List.drop_eq_getElem_cons hlt, hget, List.take_succ_cons, join,
        foldl_fields]
    · have hloop : slice v (first + 1) first = [] := by
        have hnone : min first v.length - (first + 1) = 0 := by omega
        rw [slice, hnone, List.take_zero]
      have hempty : slice v first first = [] := by
        have hnone : min first v.length - first = 0 := by omega
        rw [slice, hnone, List.take_zero]
      rw [hloop, hempty]
      simp [join, hnil]

/-- The strings "a", "b" and "c", from the second one on. -/
theorem joinRange_past_end : joinRange [[97], [98], [99]] 44 1 5 = some [98, 44, 99] :=
  (joinRange_iff [[97], [98], [99]] 44 (by decide)).mpr (Or.inr ⟨[98], rfl, Or.inl (by decide)⟩)

/-- An empty range of the string "a" alone is not joined to an empty string, and an element past
the end is read. -/
theorem joinRange_empty :
    ¬∀ (v : List Str) (d : UInt8) (first stop : Nat), first ≤ stop →
      joinRange v d first stop = some (join (slice v first stop) d) := by
  intro h
  exact absurd (h [[97]] 44 0 0 (Nat.le_refl 0)) (by decide)

end Zrtools.StrUtils
