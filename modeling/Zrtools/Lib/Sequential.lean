import Zrtools.Lib.SharedMemory

/-!
# Programs that run alone

The calls of one process run one after the other, with nobody between their accesses,
and the process may stop between any two of them. A loop is cut off after a number of
turns, so that a call is one program and can be run to its end.

* `Safe.steps` — what holds wherever a program that keeps a `solo` contract is stopped;
* `Safe.eval` — what holds at its end;
* `Safe.weaken` — to promise less on the way;
* `Safe.loop`, `Safe.call` — a loop that comes nearer to its end with every turn returns.
-/

namespace SharedMemory

variable {V R α β L γ : Type}

namespace Prog

/-- A loop with at most so many turns. -/
def loop (body : L → Prog V R (Flow L α)) : Nat → L → Prog V R (Option α)
  | 0, _ => ret none
  | turns + 1, l => body l >>= fun r => match r with
    | .again l => loop body turns l
    | .done a => ret (some a)

/-- A call: what comes before its loop, and the loop. -/
def call (start : Prog V R (Flow L α)) (body : L → Prog V R (Flow L α)) (turns : Nat) :
    Prog V R (Option α) :=
  start >>= fun r => match r with
    | .again l => loop body turns l
    | .done a => ret (some a)

variable [DecidableEq V] [DecidableEq R]

/-- The program and the memory after at most `n` accesses. -/
def steps : Nat → Prog V R α → Shared V R → Prog V R α × Shared V R
  | 0, p, s => (p, s)
  | _ + 1, ret a, s => (ret a, s)
  | n + 1, access o k, s => steps n (k (o.exec s).1) (o.exec s).2

@[simp] theorem steps_ret (n : Nat) (a : α) (s : Shared V R) :
    (ret a : Prog V R α).steps n s = (ret a, s) := by
  cases n <;> rfl

end Prog

/-- Nobody else is there; `during` holds wherever the program is stopped. -/
def solo (during : Shared V R → Prop) : Contract V R Unit where
  rely w w' := w' = w
  ok _ _ := True
  guar _ _ := True
  during w := during w.1

variable {during : Shared V R → Prop} {post : α → Shared V R × Unit → Prop}

theorem keeps_solo {A : Shared V R × Unit → Prop} (h : ∀ w, A w → during w.1) :
    Keeps (solo during) A where
  rely := by
    rintro w w' hw rfl
    exact hw
  during := h
  guar := fun _ _ => trivial

variable [DecidableEq V] [DecidableEq R]

/-- **Stopped anywhere**: on the way `during` holds, at the end the postcondition. -/
theorem Safe.steps {p : Prog V R α} {s : Shared V R} (h : Safe (solo during) post p (s, ()))
    (n : Nat) :
    ((p.steps n s).1.result = none → during (p.steps n s).2) ∧
      ∀ a, (p.steps n s).1.result = some a → post a ((p.steps n s).2, ()) := by
  induction n generalizing p s with
  | zero =>
    cases p with
    | ret a =>
      refine ⟨fun hnone => (by cases hnone), ?_⟩
      intro b hb
      obtain rfl : a = b := Option.some.inj hb
      exact h
    | access o k => exact ⟨fun _ => h.1, fun a ha => (by cases ha)⟩
  | succ n ih =>
    cases p with
    | ret a =>
      refine ⟨fun hnone => (by cases hnone), ?_⟩
      intro b hb
      obtain rfl : a = b := Option.some.inj hb
      exact h
    | access o k =>
      obtain ⟨_, -, hrest⟩ := h.2 (s, ()) rfl trivial
      exact ih hrest

/-- **Run to its end.** -/
theorem Safe.eval {p : Prog V R α} {s : Shared V R} (h : Safe (solo during) post p (s, ())) :
    post (p.eval s).1 ((p.eval s).2, ()) := by
  induction p generalizing s with
  | ret a => exact h
  | access o k ih =>
    obtain ⟨_, -, hrest⟩ := h.2 (s, ()) rfl trivial
    exact ih _ hrest

theorem Safe.weaken {during' : Shared V R → Prop} {p : Prog V R α} {w : Shared V R × Unit}
    (h : Safe (solo during) post p w) (hweak : ∀ s, during s → during' s) :
    Safe (solo during') post p w := by
  induction p generalizing w with
  | ret a => exact h
  | access o k ih =>
    refine ⟨hweak _ h.1, fun w' hrely hok => ?_⟩
    obtain ⟨g, hguar, hrest⟩ := h.2 w' hrely hok
    exact ⟨g, hguar, ih _ hrest⟩

/-- **A loop that comes nearer to its end returns.** `J n` holds where fewer than `n + 1`
turns are left. -/
theorem Safe.loop {c : Contract V R γ} {J : Nat → L → Shared V R × γ → Prop}
    {Q : α → Shared V R × γ → Prop} {body : L → Prog V R (Flow L α)}
    (hbody : ∀ n l w, J n l w → Safe c (loopPost (fun l w => ∃ k < n, J k l w) Q) (body l) w)
    {turns n : Nat} (hturns : n < turns) {l : L} {w : Shared V R × γ} (h : J n l w) :
    Safe c (fun r w => ∃ a, r = some a ∧ Q a w) (Prog.loop body turns l) w := by
  induction turns generalizing n l w with
  | zero => exact absurd hturns (Nat.not_lt_zero n)
  | succ turns ih =>
    refine Safe.bind _ (hbody n l w h) ?_
    rintro (l' | a) w' hend
    · obtain ⟨k, hk, hJ⟩ := hend
      exact ih (by omega) hJ
    · exact ⟨a, rfl, hend⟩

/-- A call returns if its loop comes nearer to its end. -/
theorem Safe.call {c : Contract V R γ} {J : Nat → L → Shared V R × γ → Prop}
    {Q : α → Shared V R × γ → Prop} {start : Prog V R (Flow L α)}
    {body : L → Prog V R (Flow L α)} {turns : Nat} {w : Shared V R × γ}
    (hstart : Safe c (loopPost (fun l w => ∃ k < turns, J k l w) Q) start w)
    (hbody : ∀ n l w, J n l w → Safe c (loopPost (fun l w => ∃ k < n, J k l w) Q) (body l) w) :
    Safe c (fun r w => ∃ a, r = some a ∧ Q a w) (Prog.call start body turns) w := by
  refine Safe.bind _ hstart ?_
  rintro (l | a) w' hend
  · obtain ⟨k, hk, hJ⟩ := hend
    exact Safe.loop hbody hk hJ
  · exact ⟨a, rfl, hend⟩

end SharedMemory
