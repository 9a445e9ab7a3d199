import Mathlib.Algebra.BigOperators.Group.Finset.Basic
import Mathlib.Algebra.BigOperators.Group.List.Basic
import Mathlib.Algebra.BigOperators.Pi
import Mathlib.Algebra.Order.BigOperators.Group.Finset
import Mathlib.Algebra.Order.BigOperators.Group.List
import Mathlib.Tactic.Abel

/-!
# Weights over a family of lists

Finitely many threads or queues each hold a list of items, and every item weighs
something in a commutative monoid. A step that changes one of the lists changes
the total by the difference of that list's weights.

* `total_update` — the total after one list was replaced;
* `total_eq_zero` — lists of weightless items weigh nothing;
* `le_total`, `add_le_total` — the total counts every item, and the items of two lists apart.
-/

namespace Weights

variable {ι α A : Type*} [Fintype ι] [AddCommMonoid A]

/-- What one list weighs. -/
def listWeight (w : α → A) (l : List α) : A := (l.map w).sum

/-- What all lists weigh together. -/
def total (w : α → A) (f : ι → List α) : A := ∑ i, listWeight w (f i)

@[simp] theorem listWeight_nil (w : α → A) : listWeight w [] = 0 := rfl

@[simp] theorem listWeight_cons (w : α → A) (a : α) (l : List α) :
    listWeight w (a :: l) = w a + listWeight w l := by
  simp [listWeight]

@[simp] theorem listWeight_append (w : α → A) (l l' : List α) :
    listWeight w (l ++ l') = listWeight w l + listWeight w l' := by
  simp [listWeight]

/-- Replacing one list. -/
theorem total_update [DecidableEq ι] (w : α → A) (f : ι → List α) (i : ι) (l : List α) :
    total w (Function.update f i l) + listWeight w (f i) = total w f + listWeight w l := by
  have hother : ∑ j ∈ Finset.univ.erase i, listWeight w (Function.update f i l j) =
      ∑ j ∈ Finset.univ.erase i, listWeight w (f j) := by
    apply Finset.sum_congr rfl
    intro j hj
    rw [Function.update_of_ne (Finset.ne_of_mem_erase hj)]
  unfold total
  rw [← Finset.add_sum_erase _ _ (Finset.mem_univ i),
    ← Finset.add_sum_erase _ (fun j => listWeight w (f j)) (Finset.mem_univ i),
    Function.update_self, hother]
  abel

theorem listWeight_eq_zero {w : α → A} {l : List α} (h : ∀ a ∈ l, w a = 0) :
    listWeight w l = 0 := by
  induction l with
  | nil => rfl
  | cons a l ih =>
    rw [listWeight_cons, h a (List.mem_cons_self ..), zero_add]
    exact ih fun b hb => h b (List.mem_cons_of_mem _ hb)

theorem total_eq_zero {w : α → A} {f : ι → List α} (h : ∀ i, ∀ a ∈ f i, w a = 0) :
    total w f = 0 :=
  Finset.sum_eq_zero fun i _ => listWeight_eq_zero (h i)

/-- Taking one item out of a list. -/
theorem listWeight_eraseIdx (w : α → A) {l : List α} {n : Nat} {a : α} (h : l[n]? = some a) :
    w a + listWeight w (l.eraseIdx n) = listWeight w l := by
  induction l generalizing n with
  | nil => simp at h
  | cons b l ih =>
    cases n with
    | zero =>
      rw [List.getElem?_cons_zero] at h
      cases h
      rw [List.eraseIdx_cons_zero, listWeight_cons]
    | succ n =>
      rw [List.getElem?_cons_succ] at h
      rw [List.eraseIdx_cons_succ, listWeight_cons, listWeight_cons, ← ih h]
      abel

section Counting

variable {w : α → Nat} {f : ι → List α}

theorem le_listWeight {l : List α} {a : α} (h : a ∈ l) : w a ≤ listWeight w l :=
  List.le_sum_of_mem (List.mem_map_of_mem h)

theorem listWeight_le_total (w : α → Nat) (f : ι → List α) (i : ι) :
    listWeight w (f i) ≤ total w f := by
  unfold total
  exact Finset.single_le_sum (f := fun j => listWeight w (f j)) (fun _ _ => Nat.zero_le _)
    (Finset.mem_univ i)

theorem le_total {i : ι} {a : α} (h : a ∈ f i) : w a ≤ total w f :=
  (le_listWeight h).trans (listWeight_le_total w f i)

theorem add_le_total [DecidableEq ι] {i j : ι} (hne : i ≠ j) {a b : α} (ha : a ∈ f i)
    (hb : b ∈ f j) : w a + w b ≤ total w f := by
  have hsplit := total_update w f j []
  have hrest : w a ≤ total w (Function.update f j []) := by
    apply le_total
    rw [Function.update_of_ne hne]
    exact ha
  have hlist : w b ≤ listWeight w (f j) := le_listWeight hb
  rw [listWeight_nil] at hsplit
  omega

end Counting

end Weights
