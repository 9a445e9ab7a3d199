import Zrtools.Lib.Footprint

/-!
# Walks from place to place

A loop that goes on from place to place as long as it is ahead of its goal, and carries
something along. Where the walk ends does not depend on what is carried; the loop may stop
on the way.

* `Walk` — the places from a start to the end;
* `Walk.unique`, `Walk.nodup` — there is one such list, and no place comes twice;
* `travel` — what a loop that may stop has carried along by then, and what is left;
* `travel_count`, `travel_collect`, `travel_find` — loops that count, collect and look for
  something;
* `eval_loop_walk`, `stays_loop_walk` — a loop whose body makes one such step.
-/

namespace SharedMemory

variable {α β : Type}

-- ---------------------------------------------------------------------------
-- Walks
-- ---------------------------------------------------------------------------

/-- From the first place the walk goes through these places and ends at the last one. -/
inductive Walk (next : α → α) (Ahead : α → Prop) : α → List α → α → Prop
  | ended {p : α} (h : ¬ Ahead p) : Walk next Ahead p [] p
  | step {p e : α} {l : List α} (h : Ahead p) (hrest : Walk next Ahead (next p) l e) :
      Walk next Ahead p (p :: l) e

section Walk

variable {next : α → α} {Ahead : α → Prop} {p e e' : α} {l l' : List α}

theorem Walk.nil_iff : Walk next Ahead p [] e ↔ ¬ Ahead p ∧ p = e := by
  refine ⟨?_, ?_⟩
  · rintro ⟨h⟩
    exact ⟨h, rfl⟩
  · rintro ⟨h, rfl⟩
    exact .ended h

theorem Walk.cons_iff {x : α} :
    Walk next Ahead p (x :: l) e ↔ x = p ∧ Ahead p ∧ Walk next Ahead (next p) l e := by
  refine ⟨?_, ?_⟩
  · rintro (_ | ⟨h, hrest⟩)
    exact ⟨rfl, h, hrest⟩
  · rintro ⟨rfl, h, hrest⟩
    exact .step h hrest

theorem Walk.unique (h : Walk next Ahead p l e) (h' : Walk next Ahead p l' e') :
    l = l' ∧ e = e' := by
  induction h generalizing l' with
  | ended hnot =>
    cases h' with
    | ended => exact ⟨rfl, rfl⟩
    | step hahead => exact absurd hahead hnot
  | step hahead hrest ih =>
    cases h' with
    | ended hnot => exact absurd hahead hnot
    | step _ hrest' =>
      obtain ⟨rfl, rfl⟩ := ih hrest'
      exact ⟨rfl, rfl⟩

/-- All places but the end are ahead of the goal. -/
theorem Walk.ahead (h : Walk next Ahead p l e) : ∀ x ∈ l, Ahead x := by
  induction h with
  | ended => exact fun x hx => absurd hx List.not_mem_nil
  | step hahead hrest ih =>
    intro x hx
    rcases List.mem_cons.mp hx with rfl | hx
    · exact hahead
    · exact ih x hx

theorem Walk.not_ahead (h : Walk next Ahead p l e) : ¬ Ahead e := by
  induction h with
  | ended hnot => exact hnot
  | step hahead hrest ih => exact ih

/-- Where the walk begins. -/
theorem Walk.headD (h : Walk next Ahead p l e) : l.headD e = p := by
  cases h with
  | ended => rfl
  | step => rfl

/-- The rest of a walk is a walk. -/
theorem Walk.drop {a b : List α} (h : Walk next Ahead p (a ++ b) e) :
    Walk next Ahead (b.headD e) b e := by
  induction a generalizing p with
  | nil =>
    rw [List.nil_append] at h
    rwa [h.headD]
  | cons x a ih =>
    rw [List.cons_append, Walk.cons_iff] at h
    exact ih h.2.2

/-- Behind a place comes the next one, or the end. -/
theorem Walk.next_eq {a b : List α} {x : α} (h : Walk next Ahead p (a ++ x :: b) e) :
    next x = b.headD e := by
  have hrest := (Walk.cons_iff.mp h.drop).2.2
  exact hrest.headD.symm

/-- A walk that comes back to a place would not end. -/
theorem Walk.nodup (h : Walk next Ahead p l e) : l.Nodup := by
  induction h with
  | ended => exact List.nodup_nil
  | @step p e l hahead hrest ih =>
    refine List.nodup_cons.mpr ⟨fun hmem => ?_, ih⟩
    obtain ⟨a, b, rfl⟩ := List.append_of_mem hmem
    have hsame := ((Walk.step hahead hrest).unique hrest.drop).1
    have hlength := congrArg List.length hsame
    simp only [List.length_cons, List.length_append] at hlength
    omega

end Walk

-- ---------------------------------------------------------------------------
-- What is carried along
-- ---------------------------------------------------------------------------

/-- The places that are left where the loop stops, and what it carries then. -/
def travel (Go : α → β → Prop) [∀ p b, Decidable (Go p b)] (carry : α → β → β) :
    List α → β → List α × β
  | [], b => ([], b)
  | p :: l, b => if Go p b then travel Go carry l (carry p b) else (p :: l, b)

section Travel

variable {Go : α → β → Prop} [∀ p b, Decidable (Go p b)] {carry : α → β → β}

/-- It stops at the end, or where it has a reason to. -/
theorem travel_stops {next : α → α} {Ahead : α → Prop} {p e : α} {l : List α}
    (h : Walk next Ahead p l e) (b : β) :
    ¬ (Ahead ((travel Go carry l b).1.headD e) ∧
      Go ((travel Go carry l b).1.headD e) (travel Go carry l b).2) := by
  induction h generalizing b with
  | ended hnot => exact fun h => hnot h.1
  | step hahead hrest ih =>
    rw [travel]
    split
    · exact ih _
    · rename_i hstop
      exact fun h => hstop h.2

theorem travel_of_forall (h : ∀ p b, Go p b) (l : List α) (b : β) :
    (travel Go carry l b).1 = [] := by
  induction l generalizing b with
  | nil => rfl
  | cons p l ih =>
    rw [travel, if_pos (h p b)]
    exact ih _

end Travel

/-- What is left behind the first `n` places that count. -/
def dropCounted (Counts : α → Prop) [DecidablePred Counts] : Nat → List α → List α
  | 0, l => l
  | _ + 1, [] => []
  | n + 1, p :: l => dropCounted Counts (if Counts p then n else n + 1) l

section DropCounted

variable {Counts : α → Prop} [DecidablePred Counts]

theorem dropCounted_suffix (n : Nat) (l : List α) : dropCounted Counts n l <:+ l := by
  induction l generalizing n with
  | nil => cases n <;> exact List.suffix_refl _
  | cons p l ih =>
    cases n with
    | zero => exact List.suffix_refl _
    | succ n => exact (ih _).trans (List.suffix_cons p l)

theorem dropCounted_of_length_le {n : Nat} {l : List α} (h : l.length ≤ n) :
    dropCounted Counts n l = [] := by
  induction l generalizing n with
  | nil => cases n <;> rfl
  | cons p l ih =>
    obtain ⟨k, rfl⟩ : ∃ k, n = k + 1 := ⟨n - 1, by rw [List.length_cons] at h; omega⟩
    rw [List.length_cons] at h
    refine ih ?_
    split <;> omega

@[simp] theorem dropCounted_nil (n : Nat) : dropCounted Counts n ([] : List α) = [] := by
  cases n <;> rfl

/-- A loop that counts. -/
theorem travel_count (limit : Nat) (l : List α) {k : Nat} (hk : k ≤ limit) :
    (travel (fun _ k => k < limit) (fun p k => if Counts p then k + 1 else k) l k).1 =
      dropCounted Counts (limit - k) l := by
  induction l generalizing k with
  | nil => rw [travel, dropCounted_nil]
  | cons p l ih =>
    rw [travel]
    by_cases hlt : k < limit
    · obtain ⟨n, hn⟩ : ∃ n, limit - k = n + 1 := ⟨limit - k - 1, by omega⟩
      rw [if_pos hlt, hn, dropCounted]
      by_cases hcounts : Counts p
      · rw [if_pos hcounts, if_pos hcounts, ih hlt]
        congr 1
        omega
      · rw [if_neg hcounts, if_neg hcounts, ih hk, hn]
    · have hzero : limit - k = 0 := by omega
      rw [if_neg hlt, hzero, dropCounted]

variable {Good : α → Prop} [DecidablePred Good]

/-- No more good places are dropped than places that count. -/
theorem le_countP_dropCounted (himp : ∀ p, Good p → Counts p) (n : Nat) (l : List α) :
    l.countP Good ≤ (dropCounted Counts n l).countP Good + n := by
  induction l generalizing n with
  | nil => simp
  | cons p l ih =>
    cases n with
    | zero => exact Nat.le_refl _
    | succ n =>
      rw [dropCounted, List.countP_cons]
      by_cases hcounts : Counts p
      · have hrest := ih n
        rw [if_pos hcounts]
        split <;> omega
      · have hrest := ih (n + 1)
        have hgood : ¬ Good p := fun hgood => hcounts (himp p hgood)
        rw [if_neg hcounts, if_neg (by simpa using hgood)]
        exact hrest

/-- The places of a list are its first one and those behind it. -/
theorem forall_split_cons {P : List α → α → List α → Prop} {p : α} {l : List α} :
    (∀ a q b, p :: l = a ++ q :: b → P a q b) ↔
      P [] p l ∧ ∀ a q b, l = a ++ q :: b → P (p :: a) q b := by
  refine ⟨?_, ?_⟩
  · intro h
    refine ⟨h [] p l rfl, fun a q b heq => h (p :: a) q b ?_⟩
    rw [heq, List.cons_append]
  · intro h a q b heq
    cases a with
    | nil =>
      obtain ⟨rfl, rfl⟩ := List.cons.inj heq
      exact h.1
    | cons x a =>
      obtain ⟨rfl, rfl⟩ := List.cons.inj heq
      exact h.2 a q b rfl

/-- **Exactly the good ones**: as many good places are dropped as places that count iff no
other place that counts lies before one of them. -/
theorem countP_dropCounted_iff (himp : ∀ p, Good p → Counts p) (n : Nat) (l : List α) :
    (dropCounted Counts (min n (l.countP Good)) l).countP Good =
        l.countP Good - min n (l.countP Good) ↔
      ∀ a p b, l = a ++ p :: b → Counts p → ¬ Good p →
        n ≤ a.countP Good ∨ b.countP Good = 0 := by
  induction l generalizing n with
  | nil => simp
  | cons p l ih =>
    rw [forall_split_cons (P := fun a q b =>
      Counts q → ¬ Good q → n ≤ a.countP Good ∨ b.countP Good = 0)]
    by_cases hgood : Good p
    · have hcons : ∀ a : List α, (p :: a).countP Good = a.countP Good + 1 :=
        fun a => List.countP_cons_of_pos (by simpa using hgood)
      simp only [hcons]
      cases n with
      | zero => simp [dropCounted, hcons]
      | succ n =>
        rw [Nat.add_min_add_right, dropCounted, if_pos (himp p hgood), Nat.add_sub_add_right,
          ih n]
        simp only [Nat.add_le_add_iff_right]
        exact ⟨fun h => ⟨fun _ hbad => absurd hgood hbad, h⟩, fun h => h.2⟩
    · have hcons : ∀ a : List α, (p :: a).countP Good = a.countP Good :=
        fun a => List.countP_cons_of_neg (by simpa using hgood)
      simp only [hcons]
      by_cases hnone : min n (l.countP Good) = 0
      · -- nothing is dropped
        rw [hnone]
        refine iff_of_true (hcons l) ⟨fun _ _ => ?_, fun a q b heq _ _ => ?_⟩
        · rw [List.countP_nil]
          omega
        · have hle : b.countP Good ≤ l.countP Good := by
            rw [heq, List.countP_append, List.countP_cons]
            omega
          omega
      · obtain ⟨k, hk⟩ := Nat.exists_eq_succ_of_ne_zero hnone
        rw [hk, dropCounted]
        by_cases hcounts : Counts p
        · -- it is dropped in place of a good one
          have hle := le_countP_dropCounted himp k l
          rw [if_pos hcounts]
          refine iff_of_false (by omega) fun h => ?_
          have hfirst := h.1 hcounts hgood
          rw [List.countP_nil] at hfirst
          omega
        · rw [if_neg hcounts, ← Nat.succ_eq_add_one, ← hk, ih n]
          exact ⟨fun h => ⟨fun hq => absurd hq hcounts, h⟩, fun h => h.2⟩

end DropCounted

/-- A loop that collects from some places, up to a number of items. -/
theorem travel_collect {γ : Type} {Good : α → Prop} [DecidablePred Good] (item : α → γ)
    (limit : Nat) (l : List α) {found : List γ} (hfound : found.length ≤ limit) :
    (travel (fun _ (found : List γ) => found.length < limit)
        (fun p found => if Good p then found ++ [item p] else found) l found).2 =
      found ++ ((l.filter Good).map item).take (limit - found.length) := by
  induction l generalizing found with
  | nil => simp [travel]
  | cons p l ih =>
    rw [travel]
    by_cases hlt : found.length < limit
    · rw [if_pos hlt]
      by_cases hgood : Good p
      · obtain ⟨n, hn⟩ : ∃ n, limit - found.length = n + 1 :=
          ⟨limit - found.length - 1, by omega⟩
        have hless : limit - (found.length + 1) = n := by omega
        rw [if_pos hgood, ih (by rw [List.length_append, List.length_singleton]; omega),
          List.filter_cons_of_pos (by simpa using hgood), List.map_cons, List.length_append,
          List.length_singleton, hn, hless, List.take_succ_cons, List.append_assoc,
          List.singleton_append]
      · rw [if_neg hgood, ih hfound, List.filter_cons_of_neg (by simpa using hgood)]
    · have hzero : limit - found.length = 0 := by omega
      rw [if_neg hlt, hzero, List.take_zero, List.append_nil]

/-- A loop that looks for the first place that is not `Low`. -/
theorem travel_find {Low : α → Prop} [DecidablePred Low] (l : List α) :
    (travel (fun p (_ : Unit) => Low p) (fun _ _ => ()) l ()).1 =
      l.dropWhile (fun p => Low p) := by
  induction l with
  | nil => rfl
  | cons p l ih =>
    rw [travel]
    by_cases hlow : Low p
    · rw [if_pos hlow, ih, List.dropWhile_cons_of_pos (by simpa using hlow)]
    · rw [if_neg hlow, List.dropWhile_cons_of_neg (by simpa using hlow)]

namespace Prog

variable {V R L γ : Type} [DecidableEq V] [DecidableEq R] {body : L → Prog V R (Flow L γ)}
  {next : α → α} {Ahead : α → Prop} {Go : α → β → Prop} [∀ p b, Decidable (Go p b)]
  {carry : α → β → β} {cursor : α → β → L} {memory : α → Shared V R} {p e : α} {l : List α}

/-- The body goes one place further, or it is the last turn. The memory is known at each
place. -/
structure Walks (body : L → Prog V R (Flow L γ)) (next : α → α) (Ahead : α → Prop)
    (Go : α → β → Prop) (carry : α → β → β) (cursor : α → β → L) (memory : α → Shared V R) :
    Prop where
  go : ∀ p b, Ahead p → Go p b →
    (body (cursor p b)).eval (memory p) =
      (.again (cursor (next p) (carry p b)), memory (next p))
  stop : ∀ p b, ¬ (Ahead p ∧ Go p b) →
    ∃ a t, (body (cursor p b)).eval (memory p) = (.done a, t)

/-- **The loop** gets to where it stops. -/
theorem eval_loop_walk (hbody : Walks body next Ahead Go carry cursor memory)
    (h : Walk next Ahead p l e) {turns : Nat} (hturns : l.length < turns) (b : β) :
    ∃ n, (loop body turns (cursor p b)).eval (memory p) =
      (loop body (n + 1)
        (cursor ((travel Go carry l b).1.headD e) (travel Go carry l b).2)).eval
          (memory ((travel Go carry l b).1.headD e)) := by
  induction h generalizing turns b with
  | ended hnot =>
    obtain ⟨n, rfl⟩ : ∃ n, turns = n + 1 := ⟨turns - 1, by omega⟩
    exact ⟨n, rfl⟩
  | @step p e l hahead hrest ih =>
    rw [List.length_cons] at hturns
    obtain ⟨n, rfl⟩ : ∃ n, turns = n + 1 := ⟨turns - 1, by omega⟩
    rw [travel]
    split
    · rename_i hgo
      obtain ⟨k, hk⟩ := ih (by omega : l.length < n) (carry p b)
      refine ⟨k, ?_⟩
      rw [eval_loop, hbody.go p b hahead hgo]
      exact hk
    · exact ⟨n, rfl⟩

/-- The accesses of the loop are those of its turns. -/
theorem stays_loop_walk {P : Access V R → Prop}
    (hbody : Walks body next Ahead Go carry cursor memory) (h : Walk next Ahead p l e)
    (hstays : ∀ x, x ∈ l ∨ x = e → ∀ b, Stays P (body (cursor x b)) (memory x)) (turns : Nat)
    (b : β) : Stays P (loop body turns (cursor p b)) (memory p) := by
  induction turns generalizing p l b with
  | zero => exact stays_pure _ _
  | succ turns ih =>
    rw [stays_loop]
    have hfirst : p ∈ l ∨ p = e := by
      cases h with
      | ended => exact Or.inr rfl
      | step => exact Or.inl (List.mem_cons_self ..)
    refine ⟨hstays p hfirst b, fun l' t hagain => ?_⟩
    by_cases hgo : Ahead p ∧ Go p b
    · rw [hbody.go p b hgo.1 hgo.2] at hagain
      cases hagain
      cases h with
      | ended hnot => exact absurd hgo.1 hnot
      | step hahead hrest =>
        refine ih hrest (fun x hx => hstays x ?_) _
        rcases hx with hx | hx
        · exact Or.inl (List.mem_cons_of_mem _ hx)
        · exact Or.inr hx
    · obtain ⟨a, u, hdone⟩ := hbody.stop p b hgo
      rw [hdone] at hagain
      cases hagain

omit [∀ p b, Decidable (Go p b)] in
/-- **A loop that returns** without having had a reason to stop has walked to the end. `Room k`
says that there is none for `k` turns. -/
theorem exists_walk_of_returns {P : Access V R → Prop} (Room : Nat → β → Prop)
    (hbody : Walks body next Ahead Go carry cursor memory)
    (hroom : ∀ k p b, Room (k + 1) b → Go p b ∧ Room k (carry p b)) {turns : Nat} (b : β)
    (hb : Room turns b) (hreturns : ((loop body turns (cursor p b)).eval (memory p)).1.isSome)
    (hstays : Stays P (loop body turns (cursor p b)) (memory p)) :
    ∃ l e, Walk next Ahead p l e ∧ l.length < turns ∧
      ∀ x, x ∈ l ∨ x = e → ∃ b, Go x b ∧ Stays P (body (cursor x b)) (memory x) := by
  induction turns generalizing p b with
  | zero => exact absurd hreturns (by simp [loop, eval])
  | succ turns ih =>
    obtain ⟨hgo, hroom'⟩ := hroom turns p b hb
    by_cases hahead : Ahead p
    · have hturn := hbody.go p b hahead hgo
      rw [stays_loop] at hstays
      rw [eval_loop, hturn] at hreturns
      obtain ⟨l, e, hwalk, hlength, hall⟩ :=
        ih _ hroom' hreturns (hstays.2 _ _ hturn)
      refine ⟨p :: l, e, .step hahead hwalk, Nat.succ_lt_succ hlength, fun x hx => ?_⟩
      by_cases hfirst : x = p
      · rw [hfirst]
        exact ⟨b, hgo, hstays.1⟩
      · exact hall x (by simpa [hfirst] using hx)
    · refine ⟨[], p, .ended hahead, Nat.succ_pos _, fun x hx => ?_⟩
      obtain rfl : x = p := by simpa using hx
      exact ⟨b, hgo, ((stays_loop _ _ _).mp hstays).1⟩

end Prog

end SharedMemory
