import Mathlib.Tactic.Common

/-!
# The best of values that may be missing

An operation on values is carried over to values that may be missing: a missing one changes nothing.
Where the operation is associative and commutative, a list has one result, in whatever order and
grouping it is computed.

* `fold_append`, `fold_perm` — grouping and order;
* `fold_best` — the result, where the operation chooses the better one.
-/

namespace Extremum

variable {α : Type*} {op : α → α → α}

/-- The values that are not missing, under the operation. -/
def fold (op : α → α → α) (vs : List (Option α)) : Option α := vs.foldr (Option.merge op) none

@[simp] theorem fold_nil : fold op [] = none := rfl

@[simp] theorem fold_cons (v : Option α) (vs : List (Option α)) :
    fold op (v :: vs) = Option.merge op v (fold op vs) := rfl

theorem fold_append [Std.Associative op] (vs ws : List (Option α)) :
    fold op (vs ++ ws) = Option.merge op (fold op vs) (fold op ws) := by
  have hmerge : Std.Associative (Option.merge op) := inferInstance
  induction vs with
  | nil => simp
  | cons v vs ih => rw [List.cons_append, fold_cons, ih, fold_cons, hmerge.assoc]

theorem fold_perm [Std.Associative op] [Std.Commutative op] {vs ws : List (Option α)}
    (h : vs.Perm ws) : fold op vs = fold op ws := by
  have hassoc : Std.Associative (Option.merge op) := inferInstance
  have hcomm : Std.Commutative (Option.merge op) := inferInstance
  induction h with
  | nil => rfl
  | cons v _ ih => rw [fold_cons, fold_cons, ih]
  | swap v w l =>
    simp only [fold_cons]
    rw [← hassoc.assoc, ← hassoc.assoc, hcomm.comm v w]
  | trans _ _ ih ih' => exact ih.trans ih'

/-- Nothing among the values that are not missing is better; `R x y` says that `x` is as good as
`y`. -/
def Best (R : α → α → Prop) (vs : List (Option α)) (r : Option α) : Prop :=
  (r = none ∧ ∀ v ∈ vs, v = none) ∨ ∃ x, r = some x ∧ some x ∈ vs ∧ ∀ y, some y ∈ vs → R x y

theorem best_cons_none {R : α → α → Prop} {vs : List (Option α)} {r : Option α}
    (h : Best R vs r) : Best R (none :: vs) r := by
  rcases h with ⟨hr, hall⟩ | ⟨x, hr, hmem, hbest⟩
  · exact Or.inl ⟨hr, List.forall_mem_cons.mpr ⟨rfl, hall⟩⟩
  · exact Or.inr ⟨x, hr, List.mem_cons_of_mem _ hmem, fun z hz => hbest z (by simpa using hz)⟩

/-- A better value, or one that is not better. -/
theorem best_cons_some {R : α → α → Prop} (hrefl : ∀ x, R x x)
    (htrans : ∀ x y z, R x y → R y z → R x z) (hop : ∀ x y, op x y = x ∧ R x y ∨ op x y = y ∧ R y x)
    {vs : List (Option α)} {r : Option α} (y : α) (h : Best R vs r) :
    Best R (some y :: vs) (Option.merge op (some y) r) := by
  rcases h with ⟨rfl, hall⟩ | ⟨x, rfl, hmem, hbest⟩
  · refine Or.inr ⟨y, rfl, List.mem_cons_self .., fun z hz => ?_⟩
    rcases List.mem_cons.mp hz with heq | hz
    · rw [Option.some.inj heq]
      exact hrefl y
    · exact absurd (hall _ hz) (by simp)
  · rw [Option.merge_some_some]
    rcases hop y x with ⟨heq, hyx⟩ | ⟨heq, hxy⟩ <;> rw [heq]
    · refine Or.inr ⟨y, rfl, List.mem_cons_self .., fun z hz => ?_⟩
      rcases List.mem_cons.mp hz with hzy | hz
      · rw [Option.some.inj hzy]
        exact hrefl y
      · exact htrans y x z hyx (hbest z hz)
    · refine Or.inr ⟨x, rfl, List.mem_cons_of_mem _ hmem, fun z hz => ?_⟩
      rcases List.mem_cons.mp hz with hzy | hz
      · rw [Option.some.inj hzy]
        exact hxy
      · exact hbest z hz

theorem fold_best {R : α → α → Prop} (hrefl : ∀ x, R x x) (htrans : ∀ x y z, R x y → R y z → R x z)
    (hop : ∀ x y, op x y = x ∧ R x y ∨ op x y = y ∧ R y x) (vs : List (Option α)) :
    Best R vs (fold op vs) := by
  induction vs with
  | nil => exact Or.inl ⟨rfl, fun v hv => absurd hv List.not_mem_nil⟩
  | cons v vs ih =>
    cases v with
    | none =>
      rw [fold_cons, Option.merge_none_left]
      exact best_cons_none ih
    | some y => exact best_cons_some hrefl htrans hop y ih

end Extremum
