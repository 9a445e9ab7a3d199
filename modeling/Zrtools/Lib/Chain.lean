import Mathlib.Logic.Function.Basic
import Mathlib.Tactic.Common

/-!
# Null-terminated chains of pointers

`Linked next p l` says that following `next` from the pointer `p` visits the
addresses `l` in order and then reaches null.

* `linked_unique` — a pointer has one chain;
* `linked_congr` — only the links of the members matter;
* `linked_snoc` — hanging a new last member on the end.
-/

namespace Chain

variable {α : Type*}

/-- The chain from `p` is the list `l`. -/
def Linked (next : α → Option α) : Option α → List α → Prop
  | p, [] => p = none
  | p, a :: l => p = some a ∧ Linked next (next a) l

variable {next next' : α → Option α}

theorem linked_none {l : List α} : Linked next none l ↔ l = [] := by
  cases l with
  | nil => simp [Linked]
  | cons a l => simp [Linked]

theorem linked_some {a : α} {l : List α} (h : Linked next (some a) l) :
    ∃ rest, l = a :: rest ∧ Linked next (next a) rest := by
  cases l with
  | nil => cases h
  | cons b l =>
    obtain ⟨hb, hl⟩ := h
    cases hb
    exact ⟨l, rfl, hl⟩

/-- A pointer has one chain. -/
theorem linked_unique {p : Option α} {l l' : List α} (h : Linked next p l)
    (h' : Linked next p l') : l = l' := by
  induction l generalizing p l' with
  | nil =>
    obtain rfl : p = none := h
    exact (linked_none.mp h').symm
  | cons a l ih =>
    obtain ⟨rfl, hl⟩ := h
    obtain ⟨rest, rfl, hrest⟩ := linked_some h'
    rw [ih hl hrest]

/-- Only the links of the members matter. -/
theorem linked_congr {p : Option α} {l : List α} (h : Linked next p l)
    (hsame : ∀ a ∈ l, next' a = next a) : Linked next' p l := by
  induction l generalizing p with
  | nil => exact h
  | cons a l ih =>
    obtain ⟨hp, hl⟩ := h
    refine ⟨hp, ?_⟩
    rw [hsame a (List.mem_cons_self ..)]
    exact ih hl fun b hb => hsame b (List.mem_cons_of_mem _ hb)

/-- **Hanging a new member on the end**: the old last one points to it, and it points
to null. -/
theorem linked_snoc {p : Option α} {l : List α} {a b : α} (h : Linked next p (l ++ [a]))
    (hsame : ∀ c ∈ l, next' c = next c) (ha : next' a = some b) (hb : next' b = none) :
    Linked next' p (l ++ [a] ++ [b]) := by
  induction l generalizing p with
  | nil =>
    obtain ⟨hp, -⟩ := h
    exact ⟨hp, ha, hb⟩
  | cons c l ih =>
    obtain ⟨hp, hl⟩ := h
    refine ⟨hp, ?_⟩
    rw [hsame c (List.mem_cons_self ..)]
    exact ih hl fun d hd => hsame d (List.mem_cons_of_mem _ hd)

end Chain
