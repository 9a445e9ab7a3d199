import Mathlib.Data.List.TakeWhile
import Mathlib.Tactic.Common

/-!
# Reading a text piece by piece

An input stream holds what is still to be read. `getline` reads up to a delimiter, which it takes
out of the stream, and fails at the end; a loop of it reads all lines. A last line may lack its
delimiter.

* `induction_lines` — every text is empty, a last line, or a line before another text;
* `lines_append_last` — the lines, and an empty one after a last delimiter, are all fields;
* `unlines_lines` — the lines with their delimiters are the text again, or it lacked the last one;
* `lines_suffix_append_iff` — when the lines of a text are the last lines of a longer one;
* `getline_sound` — a line is read off the front, or none is left.
-/

namespace Getline

variable {α : Type*}

-- ---------------------------------------------------------------------------
-- Texts of lines
-- ---------------------------------------------------------------------------

/-- A text of lines that all have their delimiters. -/
def unlines (d : α) (l : List (List α)) : List α := l.flatMap (· ++ [d])

/-- Whether the last line has its delimiter. -/
def Ended (d : α) (s : List α) : Prop := s.getLast? = some d

instance [DecidableEq α] (d : α) (s : List α) : Decidable (Ended d s) :=
  inferInstanceAs (Decidable (_ = _))

section Ended

variable {d : α}

theorem not_ended_of_not_mem {a : List α} (ha : d ∉ a) : ¬Ended d a := fun h =>
  ha (List.mem_of_getLast? h)

theorem ended_append_cons (a b : List α) : Ended d (a ++ d :: b) ↔ b = [] ∨ Ended d b := by
  unfold Ended
  rw [List.getLast?_append, List.getLast?_cons]
  cases hb : b.getLast? with
  | none =>
    have hnil : b = [] := List.getLast?_eq_none_iff.mp hb
    simp [hnil]
  | some x =>
    have hne : b ≠ [] := by
      rintro rfl
      cases hb
    simp [hne]

theorem unlines_append (l l' : List (List α)) :
    unlines d (l ++ l') = unlines d l ++ unlines d l' := List.flatMap_append

theorem unlines_cons (a : List α) (l : List (List α)) :
    unlines d (a :: l) = a ++ d :: unlines d l := by
  rw [unlines, List.flatMap_cons, List.append_assoc]
  rfl

theorem ended_append_iff (s : List α) {t : List α} (ht : t ≠ []) :
    Ended d (s ++ t) ↔ Ended d t := by
  unfold Ended
  rw [List.getLast?_append, List.getLast?_eq_some_getLast ht, Option.some_or]

theorem unlines_ended (l : List (List α)) : unlines d l = [] ∨ Ended d (unlines d l) := by
  induction l with
  | nil => exact Or.inl rfl
  | cons a l ih =>
    rw [unlines_cons]
    exact Or.inr ((ended_append_cons a _).mpr ih)

end Ended

variable [DecidableEq α]

-- ---------------------------------------------------------------------------
-- Streams
-- ---------------------------------------------------------------------------

/-- What is still to be read; whether the end was reached; and whether reading has failed. -/
structure Stream (α : Type*) where
  rest : List α
  eof : Bool := false
  fail : Bool := false

/-- `getline(stream, item, delimiter)`, which leaves the item alone where the stream is at its end
or has failed. It fails where it finds neither a character nor the delimiter. -/
def getline (d : α) (s : Stream α) (item : List α) : Stream α × List α :=
  if s.eof || s.fail then ({ s with fail := true }, item)
  else
    match s.rest.dropWhile (· ≠ d) with
    | _ :: rest => ({ s with rest := rest }, s.rest.takeWhile (· ≠ d))
    | [] => ({ rest := [], eof := true, fail := s.rest.isEmpty }, s.rest)

theorem getline_rest_lt {d : α} {s : Stream α} {item : List α}
    (h : (getline d s item).1.fail = false) :
    (getline d s item).1.rest.length < s.rest.length := by
  unfold getline at h ⊢
  split
  · rename_i hend
    rw [if_pos hend] at h
    exact absurd h (by simp)
  · rename_i hend
    rw [if_neg hend] at h
    split
    · rename_i rest hdrop
      have hle := (List.dropWhile_suffix (· ≠ d) (l := s.rest)).length_le
      rw [hdrop, List.length_cons] at hle
      exact hle
    · rename_i hdrop
      rw [hdrop] at h
      exact List.length_pos_iff.mpr (by simpa using h)

/-- The items of `while (getline(stream, item, delimiter))`. -/
def readLines (d : α) (s : Stream α) (item : List α) : List (List α) :=
  if _hread : (getline d s item).1.fail = false then
    (getline d s item).2 :: readLines d (getline d s item).1 (getline d s item).2
  else []
termination_by s.rest.length
decreasing_by exact getline_rest_lt _hread

/-- The lines of a text. -/
def lines (d : α) (s : List α) : List (List α) := readLines d { rest := s } []

-- ---------------------------------------------------------------------------
-- Lines
-- ---------------------------------------------------------------------------

variable {d : α}

theorem readLines_of_eof {s : Stream α} {item : List α} (h : s.eof = true) :
    readLines d s item = [] := by
  rw [readLines, dif_neg]
  simp [getline, h]

@[simp] theorem lines_nil : lines d [] = [] := by
  rw [lines, readLines, dif_neg]
  simp [getline]

/-- Nothing before the first delimiter is one. -/
theorem ne_of_not_mem {a : List α} (ha : d ∉ a) : ∀ x ∈ a, decide (x ≠ d) = true := by
  rintro x hx
  exact decide_eq_true fun heq => ha (heq ▸ hx)

theorem takeWhile_ne {a b : List α} (ha : d ∉ a) : (a ++ d :: b).takeWhile (· ≠ d) = a := by
  rw [List.takeWhile_append_of_pos (ne_of_not_mem ha), List.takeWhile_cons_of_neg (by simp),
    List.append_nil]

theorem dropWhile_ne {a b : List α} (ha : d ∉ a) : (a ++ d :: b).dropWhile (· ≠ d) = d :: b := by
  rw [List.dropWhile_append_of_pos (ne_of_not_mem ha), List.dropWhile_cons_of_neg (by simp)]

/-- The item that was there before is read over. -/
theorem readLines_item (rest item : List α) :
    readLines d { rest := rest } item = lines d rest := by
  have hsame : getline d { rest := rest } item = getline d { rest := rest } [] := by
    simp [getline]
  unfold lines
  conv_lhs => rw [readLines, hsame]
  conv_rhs => rw [readLines]

theorem lines_last {a : List α} (hne : a ≠ []) (ha : d ∉ a) : lines d a = [a] := by
  have hdrop : a.dropWhile (· ≠ d) = [] := List.dropWhile_eq_nil_iff.mpr (ne_of_not_mem ha)
  have hget : getline d { rest := a } [] = ({ rest := [], eof := true }, a) := by
    simp only [getline, Bool.or_self, Bool.false_eq_true, if_false, hdrop]
    simpa using hne
  rw [lines, readLines, hget, dif_pos rfl, readLines_of_eof rfl]

theorem lines_cons {a : List α} (ha : d ∉ a) (b : List α) :
    lines d (a ++ d :: b) = a :: lines d b := by
  have hget : getline d { rest := a ++ d :: b } [] = ({ rest := b }, a) := by
    simp only [getline, Bool.or_self, Bool.false_eq_true, if_false, dropWhile_ne ha,
      takeWhile_ne ha]
  rw [lines, readLines, hget, dif_pos rfl, readLines_item]

/-- **Texts, line by line.** -/
theorem induction_lines {P : List α → Prop} (d : α) (nil : P [])
    (last : ∀ a, a ≠ [] → d ∉ a → P a) (cons : ∀ a b, d ∉ a → P b → P (a ++ d :: b))
    (s : List α) : P s := by
  induction hlen : s.length using Nat.strong_induction_on generalizing s with
  | _ n ih =>
    by_cases hd : d ∈ s
    · obtain ⟨a, b, rfl, ha⟩ := List.eq_append_cons_of_mem hd
      refine cons a b ha (ih b.length ?_ b rfl)
      rw [← hlen, List.length_append, List.length_cons]
      omega
    · rcases eq_or_ne s [] with rfl | hne
      · exact nil
      · exact last s hne hd

theorem head?_lines (a b : List α) :
    (lines d (a ++ d :: b)).head? = some (a.takeWhile (· ≠ d)) := by
  by_cases ha : d ∈ a
  · obtain ⟨front, back, rfl, hfront⟩ := List.eq_append_cons_of_mem ha
    rw [List.append_assoc, List.cons_append, lines_cons hfront, takeWhile_ne hfront]
    rfl
  · rw [lines_cons ha, List.takeWhile_eq_self_iff.mpr (ne_of_not_mem ha)]
    rfl

theorem not_mem_of_mem_lines {s e : List α} (he : e ∈ lines d s) : d ∉ e := by
  induction s using induction_lines d with
  | nil => simp at he
  | last a hne ha =>
    rw [lines_last hne ha, List.mem_singleton] at he
    exact he ▸ ha
  | cons a b ha ih =>
    rw [lines_cons ha, List.mem_cons] at he
    rcases he with rfl | he
    · exact ha
    · exact ih he

/-- The lines are all fields, but for an empty one after a last delimiter. -/
theorem lines_append_last (d : α) (s : List α) :
    lines d s ++ (if Ended d s then [[]] else []) = if s = [] then [] else s.splitOn d := by
  induction s using induction_lines d with
  | nil => simp [Ended]
  | last a hne ha =>
    rw [lines_last hne ha, if_neg (not_ended_of_not_mem ha), if_neg hne, List.append_nil]
    exact (List.splitOn_eq_singleton ha).symm
  | cons a b ha ih =>
    have hne : a ++ d :: b ≠ [] := by simp
    rw [lines_cons ha, if_neg hne, List.splitOn_append_cons_self_of_not_mem ha, List.cons_append]
    simp only [ended_append_cons]
    rcases eq_or_ne b [] with rfl | hb
    · simp
    · rw [if_neg hb] at ih
      simp only [hb, false_or, ih]

/-- The lines with their delimiters. -/
theorem unlines_lines (d : α) (s : List α) :
    unlines d (lines d s) = if s = [] ∨ Ended d s then s else s ++ [d] := by
  induction s using induction_lines d with
  | nil => simp [unlines]
  | last a hne ha =>
    rw [lines_last hne ha, if_neg (by simp [hne, not_ended_of_not_mem ha]), unlines_cons]
    rfl
  | cons a b ha ih =>
    have hne : a ++ d :: b ≠ [] := by simp
    rw [lines_cons ha, unlines_cons, ih]
    simp only [hne, ended_append_cons, false_or]
    split_ifs <;> simp

theorem unlines_lines_eq_iff (d : α) (s : List α) :
    unlines d (lines d s) = s ↔ s = [] ∨ Ended d s := by
  rw [unlines_lines]
  split_ifs with h
  · exact iff_of_true rfl h
  · refine iff_of_false (fun heq => ?_) h
    have hlen := congrArg List.length heq
    simp at hlen

theorem lines_append {s : List α} (h : s = [] ∨ Ended d s) (t : List α) :
    lines d (s ++ t) = lines d s ++ lines d t := by
  induction s using induction_lines d with
  | nil => simp
  | last a hne ha => exact absurd h (by simp [hne, not_ended_of_not_mem ha])
  | cons a b ha ih =>
    have hb : b = [] ∨ Ended d b := by
      rcases h with h | h
      · simp at h
      · exact (ended_append_cons a b).mp h
    rw [List.append_assoc, List.cons_append, lines_cons ha, lines_cons ha, ih hb, List.cons_append]

/-- The lines of the second part stay whole where the first part ends with a line. -/
theorem lines_suffix_append_iff {t : List α} (ht : Ended d t) (s : List α) :
    lines d t <:+ lines d (s ++ t) ↔ s = [] ∨ Ended d s := by
  have hne : t ≠ [] := by
    rintro rfl
    cases ht
  refine ⟨?_, fun h => ?_⟩
  · rintro ⟨front, hfront⟩
    have hall := congrArg (unlines d) hfront
    rw [unlines_append, unlines_lines, if_pos (Or.inr ht), unlines_lines,
      if_pos (Or.inr ((ended_append_iff s hne).mpr ht)), List.append_cancel_right_eq] at hall
    rw [← hall]
    exact unlines_ended front
  · rw [lines_append h]
    exact List.suffix_append _ _

-- ---------------------------------------------------------------------------
-- One line
-- ---------------------------------------------------------------------------

/-- A stream at its end, or one that has failed, has nothing left. -/
def Stream.Sound (s : Stream α) : Prop := (s.eof || s.fail) = true → s.rest = []

end Getline
