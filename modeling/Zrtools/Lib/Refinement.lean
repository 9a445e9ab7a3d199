import Mathlib.Tactic.Common

/-!
# Refinement of sequential components

A component answers calls one after the other; a call that does not return, because it
loops or runs into null, has no result. What the component is for is a relation between
the abstract state before a call, the call, the answer and the abstract state after it.

* `Refines.run` — if every call from a state that represents an abstract one returns, with
  an answer that is allowed there and a state that represents the next abstract one, then
  every sequence of calls does.
* `run_of_room` — the same where a call returns only as long as there is room;
* `Trace.concat` — a sequence of allowed answers grows at its end;
* `Trace.simulate` — it is one of a second relation, where that can follow each call.
-/

namespace Refinement

variable {σ τ α β : Type*}

/-- The calls one after the other, if all of them return. -/
def runCalls (call : σ → α → Option (σ × β)) : σ → List α → Option (σ × List β)
  | s, [] => some (s, [])
  | s, a :: calls =>
    (call s a).bind fun p => (runCalls call p.1 calls).map fun r => (r.1, p.2 :: r.2)

/-- The answers are allowed, one after the other. -/
inductive Trace (spec : τ → α → β → τ → Prop) : τ → List α → List β → τ → Prop
  | nil (t : τ) : Trace spec t [] [] t
  | cons {t u t' : τ} {a : α} {b : β} {calls : List α} {answers : List β}
      (head : spec t a b u) (rest : Trace spec u calls answers t') :
      Trace spec t (a :: calls) (b :: answers) t'

/-- One more call at the end. -/
theorem Trace.concat {spec : τ → α → β → τ → Prop} {t u v : τ} {calls : List α}
    {answers : List β} (h : Trace spec t calls answers u) {a : α} {b : β} (hlast : spec u a b v) :
    Trace spec t (calls ++ [a]) (answers ++ [b]) v := by
  induction h with
  | nil t => exact .cons hlast (.nil v)
  | cons head _ ih => exact .cons head (ih hlast)

/-- Every call returns and is allowed, whatever represents the abstract state. -/
def Refines (call : σ → α → Option (σ × β)) (spec : τ → α → β → τ → Prop)
    (Represents : σ → τ → Prop) : Prop :=
  ∀ s t a, Represents s t → ∃ s' b t', call s a = some (s', b) ∧ spec t a b t' ∧ Represents s' t'

variable {call : σ → α → Option (σ × β)} {spec : τ → α → β → τ → Prop}
  {Represents : σ → τ → Prop}

/-- **Runs.** Every sequence of calls returns, with allowed answers. -/
theorem Refines.run (h : Refines call spec Represents) {s : σ} {t : τ} (hs : Represents s t)
    (calls : List α) :
    ∃ s' answers t', runCalls call s calls = some (s', answers) ∧
      Trace spec t calls answers t' ∧ Represents s' t' := by
  induction calls generalizing s t with
  | nil => exact ⟨s, [], t, rfl, .nil t, hs⟩
  | cons a calls ih =>
    obtain ⟨u, b, v, hcall, hspec, hu⟩ := h s t a hs
    obtain ⟨s', answers, t', hrun, htrace, hs'⟩ := ih hu
    refine ⟨s', b :: answers, t', ?_, .cons hspec htrace, hs'⟩
    rw [runCalls, hcall, Option.bind_some, hrun]
    rfl

/-- **Runs with room.** Every call from a state with room returns and takes the room of one. -/
theorem run_of_room (size : τ → Nat) {most : Nat}
    (h : ∀ s t a, Represents s t → size t ≤ most → ∃ s' b t', call s a = some (s', b) ∧
      spec t a b t' ∧ Represents s' t' ∧ size t' ≤ size t + 1)
    {s : σ} {t : τ} (hs : Represents s t) (calls : List α)
    (hroom : size t + calls.length ≤ most) :
    ∃ s' answers t', runCalls call s calls = some (s', answers) ∧
      Trace spec t calls answers t' ∧ Represents s' t' := by
  induction calls generalizing s t with
  | nil => exact ⟨s, [], t, rfl, .nil t, hs⟩
  | cons a calls ih =>
    rw [List.length_cons] at hroom
    obtain ⟨u, b, v, hcall, hspec, hu, hsize⟩ := h s t a hs (by omega)
    obtain ⟨s', answers, t', hrun, htrace, hs'⟩ := ih hu (by omega)
    refine ⟨s', b :: answers, t', ?_, .cons hspec htrace, hs'⟩
    rw [runCalls, hcall, Option.bind_some, hrun]
    rfl

/-- **Two relations.** The second one allows the same answers from states that go along. -/
theorem Trace.simulate {υ : Type*} {spec : τ → α → β → τ → Prop} {spec' : υ → α → β → υ → Prop}
    {Along : τ → υ → Prop} {calls : List α}
    (h : ∀ t u a b t', a ∈ calls → Along t u → spec t a b t' → ∃ u', spec' u a b u' ∧ Along t' u')
    {t t' : τ} {answers : List β} (htrace : Trace spec t calls answers t') {u : υ}
    (hu : Along t u) : ∃ u', Trace spec' u calls answers u' ∧ Along t' u' := by
  induction htrace generalizing u with
  | nil t => exact ⟨u, .nil u, hu⟩
  | cons head rest ih =>
    obtain ⟨v, hspec, hv⟩ := h _ u _ _ _ (List.mem_cons_self ..) hu head
    obtain ⟨u', hrest, hu'⟩ := ih (fun t u a b t' ha => h t u a b t' (List.mem_cons_of_mem _ ha)) hv
    exact ⟨u', .cons hspec hrest, hu'⟩

end Refinement
