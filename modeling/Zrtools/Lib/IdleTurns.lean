import Mathlib.Data.List.Induction
import Mathlib.Data.List.Sort
import Mathlib.Tactic.Common

/-!
# Loops that pass over some of the elements

A loop over a list is isolated from the elements of a class when each of its turns on
one of them is idle: the turn leaves the loop state as it was.

* `Idle.foldl_others` — the loop then ends as if these elements were not in the list;
* `idle_iff`, `idle_iff_forall` — it is enough to look at the states that the *other* elements
  lead to;
* `filter_insertionSort` — elements can be taken out before or after sorting.
-/

namespace IdleTurns

variable {α β : Type*} {step : β → α → β} {skip : α → Bool} {b : β}

/-- Every turn of the loop on an element of the class is idle. -/
def Idle (step : β → α → β) (skip : α → Bool) (b : β) (l : List α) : Prop :=
  ∀ front x rest, l = front ++ x :: rest → skip x = true →
    step (front.foldl step b) x = front.foldl step b

/-- The elements outside the class. -/
def others (skip : α → Bool) (l : List α) : List α := l.filter fun x => !skip x

@[simp] theorem others_append (l m : List α) :
    others skip (l ++ m) = others skip l ++ others skip m := by
  simp [others]

theorem others_singleton (x : α) : others skip [x] = if skip x then [] else [x] := by
  cases h : skip x <;> simp [others, h]

theorem Idle.of_append {l m : List α} (h : Idle step skip b (l ++ m)) :
    Idle step skip b l := by
  rintro front x rest rfl hx
  exact h front x (rest ++ m) (by simp) hx

/-- **The loop ends as if the class was not in the list.** -/
theorem Idle.foldl_others {l : List α} (h : Idle step skip b l) :
    (others skip l).foldl step b = l.foldl step b := by
  induction l using List.reverseRecOn with
  | nil => rfl
  | append_singleton l x ih =>
    rw [others_append, others_singleton, List.foldl_append, List.foldl_append, ih h.of_append]
    cases hx : skip x with
    | true => exact (h l x [] rfl hx).symm
    | false => rfl

/-- The turns are idle iff they would be in the states the other elements lead to. -/
theorem idle_iff {l : List α} :
    Idle step skip b l ↔
      ∀ front x rest, l = front ++ x :: rest → skip x = true →
        step ((others skip front).foldl step b) x = (others skip front).foldl step b := by
  refine ⟨?_, ?_⟩
  · rintro h front x rest rfl hx
    have hfront : Idle step skip b front := h.of_append
    rw [hfront.foldl_others]
    exact h front x rest rfl hx
  · intro h
    induction l using List.reverseRecOn with
    | nil =>
      intro front x rest hsplit
      simp at hsplit
    | append_singleton l y ih =>
      have hl : Idle step skip b l := by
        apply ih
        rintro front x rest rfl hx
        exact h front x (rest ++ [y]) (by simp) hx
      intro front x rest hsplit hx
      rcases List.eq_nil_or_concat rest with rfl | ⟨rest', z, rfl⟩
      · -- the element is the last one
        obtain ⟨rfl, hy⟩ := List.append_inj' hsplit rfl
        obtain rfl : y = x := List.singleton_inj.mp hy
        have hlast := h l y [] rfl hx
        rwa [hl.foldl_others] at hlast
      · have hfront : l = front ++ x :: rest' := by
          have hassoc : l ++ [y] = (front ++ x :: rest') ++ [z] := by simpa using hsplit
          exact (List.append_inj' hassoc rfl).1
        exact hl front x rest' hfront hx

/-- Conditions for idle turns, in terms of the elements before the element. -/
theorem idle_iff_forall {l : List α} {P : List α → α → Prop}
    (h : ∀ front x, skip x = true →
      (step ((others skip front).foldl step b) x = (others skip front).foldl step b ↔
        P front x)) :
    Idle step skip b l ↔
      ∀ front x rest, l = front ++ x :: rest → skip x = true → P front x := by
  rw [idle_iff]
  refine ⟨?_, ?_⟩
  · intro hidle front x rest hsplit hx
    exact (h front x hx).mp (hidle front x rest hsplit hx)
  · intro hall front x rest hsplit hx
    exact (h front x hx).mpr (hall front x rest hsplit hx)

/-- Conditions in terms of the element alone. -/
theorem idle_iff_forall_mem {l : List α} {P : α → Prop}
    (h : ∀ x, skip x = true → ∀ acc, step acc x = acc ↔ P x) :
    Idle step skip b l ↔ ∀ x ∈ l, skip x = true → P x := by
  rw [idle_iff_forall (P := fun _ x => P x) fun _ x hx => h x hx _]
  refine ⟨fun hall x hmem hx => ?_, ?_⟩
  · obtain ⟨front, rest, hsplit⟩ := List.append_of_mem hmem
    exact hall front x rest hsplit hx
  · rintro hall front x rest rfl hx
    exact hall x (List.mem_append_right _ (List.mem_cons_self ..)) hx

-- ---------------------------------------------------------------------------
-- Sorting
-- ---------------------------------------------------------------------------

section Sorting

variable {r : α → α → Prop} [DecidableRel r]

theorem filter_orderedInsert [IsTrans α r] (p : α → Bool) (a : α) {l : List α}
    (hl : l.Pairwise r) :
    (l.orderedInsert r a).filter p =
      if p a then (l.filter p).orderedInsert r a else l.filter p := by
  induction l with
  | nil => cases hp : p a <;> simp [hp]
  | cons b l ih =>
    obtain ⟨hb, htail⟩ := List.pairwise_cons.mp hl
    by_cases hab : r a b
    · rw [List.orderedInsert_cons_of_le r l hab, List.filter_cons]
      -- `a` goes in front of `b`, so in front of everything that is kept
      have hfirst : ((b :: l).filter p).orderedInsert r a = a :: (b :: l).filter p := by
        cases hkept : (b :: l).filter p with
        | nil => rfl
        | cons c kept =>
          have hc : c ∈ b :: l := by
            have hmem : c ∈ (b :: l).filter p := by rw [hkept]; exact List.mem_cons_self ..
            exact (List.mem_filter.mp hmem).1
          apply List.orderedInsert_cons_of_le
          rcases List.mem_cons.mp hc with rfl | hc
          · exact hab
          · exact IsTrans.trans a b c hab (hb c hc)
      rw [hfirst]
    · rw [List.orderedInsert_of_not_le r l hab, List.filter_cons, List.filter_cons, ih htail]
      cases hp : p b with
      | true =>
        simp only [if_true]
        split
        · rw [List.orderedInsert_of_not_le r _ hab]
        · rfl
      | false => simp

/-- Elements can be taken out before sorting. -/
theorem filter_insertionSort [Std.Total r] [IsTrans α r] (p : α → Bool) (l : List α) :
    (l.insertionSort r).filter p = (l.filter p).insertionSort r := by
  induction l with
  | nil => rfl
  | cons a l ih =>
    rw [List.insertionSort_cons, filter_orderedInsert p a (List.pairwise_insertionSort r l), ih,
      List.filter_cons]
    split <;> rfl

end Sorting

end IdleTurns
