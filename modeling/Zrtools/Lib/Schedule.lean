import Mathlib.Data.List.Induction
import Mathlib.Tactic.Common

/-!
# Runs of a scheduled transition system

A system is a partial step function: in a state, an action is either possible
and leads to one state, or it is not possible. A run is a list of actions all
of which were possible in turn, so that a schedule can be executed, and facts
about all runs go by induction over the list.

* `run_invariant_of_meets` — what holds at the start and is kept by every step
  holds after every run whose steps all meet a side condition on the state before
  the step (`StepsMeet`);
* `run_invariant_outputs` — the same for an invariant that also speaks about
  what the run has put out so far;
* `run_invariant`, `run_invariant_past` — both without a side condition;
* `run_invariant_actions` — for an invariant that also speaks about the actions so far;
* `exists_run_of_meets` — if every step that meets the condition is possible, so is the run;
* `exists_run_past` — where every step is possible, with an invariant over the actions so far;
* `forall_prefix_iff_stepsMeet`, `forall_reached_iff_stepsMeet` — where a step that
  misses the side condition spoils a property at once, the property holds all along
  a run exactly if every step met the condition;
* `forall_possible_iff_stepsMeet` — the same where such a step may not be possible at all;
* `exists_run_to` — if some run always leads to a smaller state, one leads to a final one.
-/

namespace Schedule

variable {σ α : Type*} (step : σ → α → Option σ)

/-- The state after a list of actions, if all of them were possible. -/
def run : σ → List α → Option σ
  | s, [] => some s
  | s, a :: acts => (step s a).bind fun s' => run s' acts

/-- Every step of a run meets `Ok` in the state it is taken from. -/
def StepsMeet (Ok : σ → α → Prop) : σ → List α → Prop
  | _, [] => True
  | s, a :: acts => Ok s a ∧ ∀ s', step s a = some s' → StepsMeet Ok s' acts

theorem run_cons {s s' : σ} {a : α} {acts : List α} :
    run step s (a :: acts) = some s' ↔ ∃ t, step s a = some t ∧ run step t acts = some s' := by
  rw [run, Option.bind_eq_some_iff]

theorem run_append {s t : σ} {front : List α} (hfront : run step s front = some t)
    (rest : List α) : run step s (front ++ rest) = run step t rest := by
  induction front generalizing s with
  | nil =>
    obtain rfl := Option.some.inj hfront
    rfl
  | cons a front ih =>
    obtain ⟨u, hu, hrest⟩ := (run_cons step).mp hfront
    rw [List.cons_append, run, hu, Option.bind_some, ih hrest]

theorem stepsMeet_append {Ok : σ → α → Prop} {s : σ} {front rest : List α} :
    StepsMeet step Ok s (front ++ rest) ↔
      StepsMeet step Ok s front ∧ ∀ t, run step s front = some t → StepsMeet step Ok t rest := by
  induction front generalizing s with
  | nil =>
    refine ⟨?_, ?_⟩
    · intro h
      refine ⟨trivial, fun t ht => ?_⟩
      obtain rfl := Option.some.inj ht
      exact h
    · exact fun h => h.2 s rfl
  | cons a front ih =>
    rw [List.cons_append, StepsMeet, StepsMeet]
    refine ⟨?_, ?_⟩
    · rintro ⟨hok, hrest⟩
      refine ⟨⟨hok, fun t ht => (ih.mp (hrest t ht)).1⟩, fun t ht => ?_⟩
      obtain ⟨u, hu, hrun⟩ := (run_cons step).mp ht
      exact (ih.mp (hrest u hu)).2 t hrun
    · rintro ⟨⟨hok, hfront⟩, hrest⟩
      refine ⟨hok, fun u hu => ih.mpr ⟨hfront u hu, fun t ht => ?_⟩⟩
      exact hrest t ((run_cons step).mpr ⟨u, hu, ht⟩)

/-- A run that is possible and meets the side condition, with one more step at the front. -/
theorem possible_cons {Ok : σ → α → Prop} {s t s' : σ} {a : α} {acts : List α} (hok : Ok s a)
    (hstep : step s a = some t) (h : run step t acts = some s' ∧ StepsMeet step Ok t acts) :
    run step s (a :: acts) = some s' ∧ StepsMeet step Ok s (a :: acts) := by
  refine ⟨(run_cons step).mpr ⟨t, hstep, h.1⟩, hok, fun u hu => ?_⟩
  obtain rfl := Option.some.inj (hstep.symm.trans hu)
  exact h.2

theorem stepsMeet_of_forall {Ok : σ → α → Prop} {acts : List α} (h : ∀ a ∈ acts, ∀ s, Ok s a)
    (s : σ) : StepsMeet step Ok s acts := by
  induction acts generalizing s with
  | nil => trivial
  | cons a acts ih =>
    refine ⟨h a (List.mem_cons_self ..) s, fun t _ => ?_⟩
    exact ih (fun b hb => h b (List.mem_cons_of_mem _ hb)) t

/-- A side condition that can be evaluated can be checked along a run. -/
instance decidableStepsMeet (Ok : σ → α → Prop) [∀ s a, Decidable (Ok s a)] :
    (s : σ) → (acts : List α) → Decidable (StepsMeet step Ok s acts)
  | _, [] => isTrue trivial
  | s, a :: acts =>
    match h : step s a with
    | some t =>
      have : Decidable (StepsMeet step Ok t acts) := decidableStepsMeet Ok t acts
      decidable_of_iff (Ok s a ∧ StepsMeet step Ok t acts) (by simp [StepsMeet, h])
    | none => decidable_of_iff (Ok s a) (by simp [StepsMeet, h])

/-- What a run puts out, where a step from a state puts out some items. -/
def outputs {β : Type*} (out : σ → α → List β) : σ → List α → List β
  | _, [] => []
  | s, a :: acts =>
    match step s a with
    | some t => out s a ++ outputs out t acts
    | none => []

theorem outputs_append {β : Type*} {out : σ → α → List β} {s t : σ} {front : List α}
    (hfront : run step s front = some t) (rest : List α) :
    outputs step out s (front ++ rest) = outputs step out s front ++ outputs step out t rest := by
  induction front generalizing s with
  | nil =>
    obtain rfl := Option.some.inj hfront
    rfl
  | cons a front ih =>
    obtain ⟨u, hu, hrest⟩ := (run_cons step).mp hfront
    rw [List.cons_append, outputs, outputs, hu]
    simp only [ih hrest, List.append_assoc]

theorem mem_outputs {β : Type*} {out : σ → α → List β} {s : σ} {acts : List α} {b : β}
    (h : b ∈ outputs step out s acts) : ∃ t, ∃ a ∈ acts, b ∈ out t a := by
  induction acts generalizing s with
  | nil => simp [outputs] at h
  | cons a acts ih =>
    unfold outputs at h
    split at h
    · rcases List.mem_append.mp h with hfirst | hrest
      · exact ⟨s, a, List.mem_cons_self .., hfirst⟩
      · obtain ⟨t, c, hc, hb⟩ := ih hrest
        exact ⟨t, c, List.mem_cons_of_mem _ hc, hb⟩
    · simp at h

/-- A run puts out no more items than it has steps, if no step puts out two. -/
theorem length_outputs_le {β : Type*} {out : σ → α → List β} (h : ∀ s a, (out s a).length ≤ 1)
    (s : σ) (acts : List α) : (outputs step out s acts).length ≤ acts.length := by
  induction acts generalizing s with
  | nil => exact Nat.le_refl _
  | cons a acts ih =>
    unfold outputs
    split
    · rename_i t _
      have hone := h s a
      have hrest := ih t
      rw [List.length_append, List.length_cons]
      omega
    · exact Nat.zero_le _

/-- **Invariants over a state and the output so far.** -/
theorem run_invariant_outputs {β : Type*} {out : σ → α → List β} (Inv : σ → List β → Prop)
    {Ok : σ → α → Prop}
    (hstep : ∀ s a s' past, Inv s past → Ok s a → step s a = some s' → Inv s' (past ++ out s a))
    {s s' : σ} {acts : List α} {past : List β} (hs : Inv s past)
    (hok : StepsMeet step Ok s acts) (hrun : run step s acts = some s') :
    Inv s' (past ++ outputs step out s acts) := by
  induction acts generalizing s past with
  | nil =>
    cases hrun
    rw [outputs, List.append_nil]
    exact hs
  | cons a acts ih =>
    obtain ⟨t, ht, hrest⟩ := (run_cons step).mp hrun
    have hnext := ih (hstep s a t past hs hok.1 ht) (hok.2 t ht) hrest
    rw [outputs, ht]
    rw [List.append_assoc] at hnext
    exact hnext

/-- **Exact side conditions.** The property `Good` follows from the invariant, and a
step that does not meet `Ok` spoils it. -/
theorem forall_prefix_iff_stepsMeet {β : Type*} {out : σ → α → List β}
    (Inv Good : σ → List β → Prop) {Ok : σ → α → Prop}
    (hgood : ∀ s past, Inv s past → Good s past)
    (hstep : ∀ s a s' past, Inv s past → Ok s a → step s a = some s' → Inv s' (past ++ out s a))
    (hbad : ∀ s a s' past, Inv s past → ¬Ok s a → step s a = some s' →
      ¬Good s' (past ++ out s a))
    {s s' : σ} {acts : List α} {past : List β} (hs : Inv s past)
    (hrun : run step s acts = some s') :
    (∀ front rest t, acts = front ++ rest → run step s front = some t →
      Good t (past ++ outputs step out s front)) ↔ StepsMeet step Ok s acts := by
  induction acts generalizing s past with
  | nil =>
    refine ⟨fun _ => trivial, ?_⟩
    rintro - front rest t heq ht
    obtain ⟨rfl, -⟩ := List.append_eq_nil_iff.mp heq.symm
    cases ht
    rw [outputs, List.append_nil]
    exact hgood s past hs
  | cons a acts ih =>
    obtain ⟨u, hu, hrest⟩ := (run_cons step).mp hrun
    have hcons : ∀ front, outputs step out s (a :: front) =
        out s a ++ outputs step out u front := by
      intro front
      rw [outputs, hu]
    refine ⟨?_, ?_⟩
    · intro h
      have hok : Ok s a := by
        by_contra hmiss
        apply hbad s a u past hs hmiss hu
        have hone := h [a] acts u rfl ((run_cons step).mpr ⟨u, hu, rfl⟩)
        rw [hcons, outputs, List.append_nil] at hone
        exact hone
      refine ⟨hok, fun v hv => ?_⟩
      rw [hu] at hv
      cases hv
      refine (ih (hstep s a u past hs hok hu) hrest).mp ?_
      intro front rest t heq ht
      have hlater := h (a :: front) rest t (by rw [heq, List.cons_append])
        ((run_cons step).mpr ⟨u, hu, ht⟩)
      rw [hcons, ← List.append_assoc] at hlater
      exact hlater
    · rintro ⟨hok, hlater⟩ front rest t heq ht
      cases front with
      | nil =>
        cases ht
        rw [outputs, List.append_nil]
        exact hgood s past hs
      | cons b front =>
        rw [List.cons_append, List.cons.injEq] at heq
        obtain ⟨rfl, heq⟩ := heq
        obtain ⟨v, hv, ht⟩ := (run_cons step).mp ht
        rw [hu] at hv
        cases hv
        rw [hcons, ← List.append_assoc]
        exact (ih (hstep s a u past hs hok hu) hrest).mpr (hlater u hu) front rest t heq ht

/-- The same for a property of the state alone. -/
theorem forall_reached_iff_stepsMeet (Good : σ → Prop) {Ok : σ → α → Prop}
    (hstep : ∀ s a s', Good s → step s a = some s' → (Good s' ↔ Ok s a)) {s s' : σ}
    {acts : List α} (hs : Good s) (hrun : run step s acts = some s') :
    (∀ front rest t, acts = front ++ rest → run step s front = some t → Good t) ↔
      StepsMeet step Ok s acts :=
  @forall_prefix_iff_stepsMeet σ α step Empty (fun _ _ => []) (fun t _ => Good t)
    (fun t _ => Good t) Ok (fun _ _ h => h)
    (fun s a s' _ hs hok h => (hstep s a s' hs h).mpr hok)
    (fun s a s' _ hs hmiss h hgood => hmiss ((hstep s a s' hs h).mp hgood)) s s' acts [] hs hrun

/-- **Exact side conditions, where a step may not be possible.** The actions of the run are such
that `Allowed` holds of each beginning. -/
theorem forall_possible_iff_stepsMeet (Inv : σ → List α → Prop) (Good : σ → List α → α → Prop)
    {Allowed : List α → Prop} {Ok : σ → α → Prop}
    (hgood : ∀ s past a, Inv s past → Allowed (past ++ [a]) →
      ((∃ t, step s a = some t ∧ Good t past a) ↔ Ok s a))
    (hstep : ∀ s past a t, Inv s past → Allowed (past ++ [a]) → step s a = some t →
      Inv t (past ++ [a]))
    {s : σ} {past acts : List α} (hs : Inv s past)
    (hallowed : ∀ front a rest, acts = front ++ a :: rest → Allowed (past ++ (front ++ [a]))) :
    (∀ front a rest, acts = front ++ a :: rest →
      ∃ t, run step s (front ++ [a]) = some t ∧ Good t (past ++ front) a) ↔
      StepsMeet step Ok s acts := by
  induction acts generalizing s past with
  | nil =>
    refine ⟨fun _ => trivial, fun _ front a rest heq => ?_⟩
    exact absurd heq.symm (by simp)
  | cons b acts ih =>
    have hfirst := hallowed [] b acts rfl
    have hgood' := hgood s past b hs hfirst
    have hlater : ∀ front a rest, acts = front ++ a :: rest →
        Allowed (past ++ [b] ++ (front ++ [a])) := by
      intro front a rest heq
      have := hallowed (b :: front) a rest (by rw [heq, List.cons_append])
      rwa [List.append_assoc, List.singleton_append, ← List.cons_append]
    refine ⟨?_, ?_⟩
    · intro h
      obtain ⟨t, ht, hgt⟩ := h [] b acts rfl
      obtain ⟨u, hu, hend⟩ := (run_cons step).mp ht
      cases hend
      rw [List.append_nil] at hgt
      refine ⟨hgood'.mp ⟨t, hu, hgt⟩, fun v hv => ?_⟩
      refine (ih (hstep s past b v hs hfirst hv) hlater).mp fun front a rest heq => ?_
      obtain ⟨w, hw, hgw⟩ := h (b :: front) a rest (by rw [heq, List.cons_append])
      obtain ⟨x, hx, hrest⟩ := (run_cons step).mp hw
      rw [hv] at hx
      cases hx
      rw [List.append_assoc, List.singleton_append]
      exact ⟨w, hrest, hgw⟩
    · rintro ⟨hok, hrest⟩ front a rest heq
      obtain ⟨t, ht, hgt⟩ := hgood'.mpr hok
      cases front with
      | nil =>
        rw [List.nil_append, List.cons.injEq] at heq
        obtain ⟨rfl, -⟩ := heq
        rw [List.append_nil]
        exact ⟨t, (run_cons step).mpr ⟨t, ht, rfl⟩, hgt⟩
      | cons c front =>
        rw [List.cons_append, List.cons.injEq] at heq
        obtain ⟨rfl, heq⟩ := heq
        obtain ⟨w, hw, hgw⟩ := (ih (hstep s past b t hs hfirst ht) hlater).mpr (hrest t ht)
          front a rest heq
        rw [List.append_assoc, List.singleton_append] at hgw
        exact ⟨w, (run_cons step).mpr ⟨t, ht, hw⟩, hgw⟩

/-- **Invariants under a side condition.** -/
theorem run_invariant_of_meets (Inv : σ → Prop) {Ok : σ → α → Prop}
    (hstep : ∀ s a s', Inv s → Ok s a → step s a = some s' → Inv s')
    {s s' : σ} {acts : List α} (hs : Inv s) (hok : StepsMeet step Ok s acts)
    (hrun : run step s acts = some s') : Inv s' := by
  have hstep' : ∀ s a s' (past : List Empty), Inv s → Ok s a → step s a = some s' → Inv s' :=
    fun s a s' _ => hstep s a s'
  exact @run_invariant_outputs σ α step Empty (fun _ _ => []) (fun t _ => Inv t) Ok hstep'
    s s' acts [] hs hok hrun

/-- **Invariants.** -/
theorem run_invariant (Inv : σ → Prop) (hstep : ∀ s a s', Inv s → step s a = some s' → Inv s')
    {s s' : σ} {acts : List α} (hs : Inv s) (hrun : run step s acts = some s') : Inv s' := by
  have hany : StepsMeet step (fun _ _ => True) s acts :=
    stepsMeet_of_forall step (fun _ _ _ => trivial) s
  exact run_invariant_of_meets step Inv (fun s a s' h _ => hstep s a s' h) hs hany hrun

/-- **Invariants over a state and all of the output.** -/
theorem run_invariant_past {β : Type*} {out : σ → α → List β} (Inv : σ → List β → Prop)
    (hstep : ∀ s a s' past, Inv s past → step s a = some s' → Inv s' (past ++ out s a))
    {s s' : σ} {acts : List α} (hs : Inv s []) (hrun : run step s acts = some s') :
    Inv s' (outputs step out s acts) := by
  have hany : StepsMeet step (fun _ _ => True) s acts :=
    stepsMeet_of_forall step (fun _ _ _ => trivial) s
  exact run_invariant_outputs step Inv (fun s a s' past h _ => hstep s a s' past h) hs hany hrun

/-- **Runs that do not get stuck.** Where every step that meets the side condition is possible
and keeps the invariant, every such run is possible. -/
theorem exists_run_of_meets (Inv : σ → Prop) {Ok : σ → α → Prop}
    (hstep : ∀ s a, Inv s → Ok s a → ∃ s', step s a = some s' ∧ Inv s')
    {s : σ} {acts : List α} (hs : Inv s) (hok : StepsMeet step Ok s acts) :
    ∃ s', run step s acts = some s' ∧ Inv s' := by
  induction acts generalizing s with
  | nil => exact ⟨s, rfl, hs⟩
  | cons a acts ih =>
    obtain ⟨t, ht, hinv⟩ := hstep s a hs hok.1
    obtain ⟨s', hrun, hs'⟩ := ih hinv (hok.2 t ht)
    exact ⟨s', (run_cons step).mpr ⟨t, ht, hrun⟩, hs'⟩

/-- The same where every step is possible, for an invariant over the state and all actions. -/
theorem exists_run_past (Inv : σ → List α → Prop)
    (hstep : ∀ s past a, Inv s past → ∃ s', step s a = some s' ∧ Inv s' (past ++ [a]))
    {s : σ} (hs : Inv s []) (acts : List α) : ∃ s', run step s acts = some s' ∧ Inv s' acts := by
  induction acts using List.reverseRecOn with
  | nil => exact ⟨s, rfl, hs⟩
  | append_singleton acts a ih =>
    obtain ⟨t, hrun, ht⟩ := ih
    obtain ⟨s', hnext, hs'⟩ := hstep t acts a ht
    refine ⟨s', ?_, hs'⟩
    rw [run_append step hrun]
    exact (run_cons step).mpr ⟨s', hnext, rfl⟩

/-- **Runs that come to an end.** From every state that is not final some run leads to a
smaller one. -/
theorem exists_run_to (Inv Final : σ → Prop) {Ok : σ → α → Prop} (size : σ → Nat)
    (hprogress : ∀ s, Inv s → ¬Final s → ∃ acts s', run step s acts = some s' ∧
      StepsMeet step Ok s acts ∧ Inv s' ∧ size s' < size s) {s : σ} (hs : Inv s) :
    ∃ acts s', run step s acts = some s' ∧ StepsMeet step Ok s acts ∧ Final s' := by
  induction hn : size s using Nat.strongRecOn generalizing s with
  | ind n ih =>
    subst hn
    by_cases hfinal : Final s
    · exact ⟨[], s, rfl, trivial, hfinal⟩
    · obtain ⟨acts, t, hrun, hok, ht, hless⟩ := hprogress s hs hfinal
      obtain ⟨more, s', hmore, hokMore, hs'⟩ := ih (size t) hless ht rfl
      refine ⟨acts ++ more, s', ?_, ?_, hs'⟩
      · rw [run_append step hrun, hmore]
      · rw [stepsMeet_append]
        refine ⟨hok, fun u hu => ?_⟩
        rw [hrun] at hu
        cases hu
        exact hokMore

end Schedule
