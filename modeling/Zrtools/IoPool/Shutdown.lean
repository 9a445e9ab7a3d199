import Zrtools.IoPool.Lifecycle

/-!
# zrtools — stopping the engines

What `ThreadStop`, `EngineStop` and the loops of the threads do to each other. `ThreadStop`
clears the flag and joins; the thread looks at the flag only between two tasks.

* `stopped_runs_at_most_one` — once the flag is cleared an engine runs at most one more task,
  and none after `ThreadStop` has returned;
* `PoolInv`, `threads_of_pool` — with only `EngineStart` and `EngineStop`, the threads are
  those of the pool's flag, so the destructor of a stopped pool deletes no joinable thread;
* `stop_returns` — no call waits for ever, and no accepted task has to.
-/

namespace Zrtools.IoPool.Lifecycle

variable {W Task : Type} [DecidableEq W] {engine : W → LoopEngine} {engines : List W}
  {s s' : Sys W Task}

-- ---------------------------------------------------------------------------
-- After the flag is cleared
-- ---------------------------------------------------------------------------

omit [DecidableEq W] in
/-- The tasks that a thread may still run once its flag is cleared: the one in hand, or the
one it is about to take. -/
def credit : Option (Loop Task) → Nat
  | some .pop => 1
  | some (.run _) => 1
  | some .check => 0
  | some .done => 0
  | none => 0

omit [DecidableEq W] in
theorem credit_le (t : Option (Loop Task)) : credit t ≤ 1 := by
  unfold credit
  split
  · exact Nat.le_refl _
  · exact Nat.le_refl _
  · exact Nat.zero_le _
  · exact Nat.zero_le _
  · exact Nat.zero_le _

/-- The control thread starts no thread whose flag is false. -/
theorem control_thread {w : W} (hinv : Inv s) (hoff : s.isStarted w = false)
    (hstep : s.control engines = some s') : s'.thread w = s.thread w ∨ s'.thread w = none := by
  unfold Sys.control at hstep
  split at hstep
  case h_1 =>
    obtain rfl := Option.some.inj hstep
    exact Or.inl rfl
  case h_2 v hnow =>
    have hne : w ≠ v := by
      rintro rfl
      have hagrees := hinv.agrees w
      rw [hnow, Agrees, if_pos rfl, hoff] at hagrees
      cases hagrees.1
    split at hstep
    · obtain rfl := Option.some.inj hstep
      exact Or.inl rfl
    · obtain rfl := Option.some.inj hstep
      exact Or.inl (by simp [Sys.setThread, hne])
  case h_3 =>
    obtain rfl := Option.some.inj hstep
    exact Or.inl rfl
  case h_4 v _ =>
    split at hstep
    case h_1 =>
      obtain rfl := Option.some.inj hstep
      exact Or.inl rfl
    case h_2 =>
      obtain rfl := Option.some.inj hstep
      rcases eq_or_ne w v with rfl | hne
      · exact Or.inr (by simp [Sys.setThread])
      · exact Or.inl (by simp [Sys.setThread, hne])
    case h_3 => cases hstep
    case h_4 => cases hstep
    case h_5 => cases hstep
  case h_5 =>
    split at hstep
    case h_1 => cases hstep
    case h_2 c rest _ =>
      obtain rfl := Option.some.inj hstep
      left
      cases c with
      | threadStart v => rfl
      | threadStop v => rfl
      | engineStart =>
        simp only [Sys.enter]
        split
        · rfl
        · rfl
      | engineStop =>
        simp only [Sys.enter]
        split
        · rfl
        · rfl
    case h_3 =>
      obtain rfl := Option.some.inj hstep
      exact Or.inl rfl

/-- A step with the flag false uses up what is left. -/
theorem credit_step {w : W} {a : Action W Task} (hinv : Inv s) (hoff : s.isStarted w = false)
    (hstep : s.step engine engines a = some s') :
    (executedBy w (s.events a)).length + credit (s'.thread w) ≤ credit (s.thread w) := by
  cases a with
  | call c =>
    obtain ⟨-, rfl⟩ := step_call hstep
    simp [Sys.events, executedBy]
  | control =>
    rcases control_thread hinv hoff (step_control hstep) with hsame | hnone
    · simp [Sys.events, executedBy, hsame]
    · simp [Sys.events, executedBy, hnone, credit]
  | loop v n =>
    rcases eq_or_ne v w with rfl | hne
    · obtain ⟨hat, rfl⟩ | ⟨hat, rfl⟩ | ⟨task, hat, -, -, rfl⟩ | ⟨task, hat, rfl⟩ := step_loop hstep
      · simp [Sys.events, executedBy, hat, hoff, Sys.setThread, credit]
      · simp [Sys.events, executedBy, hat, Sys.setThread, credit]
      · simp [Sys.events, executedBy, hat, Sys.setThread, credit]
      · simp [Sys.events, executedBy, hat, Sys.setThread, credit]
    · have hother : s'.thread w = s.thread w := by
        obtain ⟨-, rfl⟩ | ⟨-, rfl⟩ | ⟨task, -, -, -, rfl⟩ | ⟨task, -, rfl⟩ := step_loop hstep
        · simp [Sys.setThread, hne.symm]
        · simp [Sys.setThread, hne.symm]
        · simp [Sys.setThread, hne.symm]
        · simp [Sys.setThread, hne.symm]
      have hnothing : executedBy w (s.events (.loop v n)) = [] := by
        simp only [Sys.events]
        split
        · simp [executedBy, hne]
        · rfl
      rw [hother, hnothing, List.length_nil, Nat.zero_add]
  | post v task accepted =>
    obtain ⟨rfl, rfl⟩ | ⟨rfl, rfl⟩ := step_post hstep
    · simp [Sys.events, executedBy]
    · simp [Sys.events, executedBy]

/-- What is run while the flag stays false. -/
theorem credit_run {w : W} {acts : List (Action W Task)} (hinv : Inv s)
    (hoff : Schedule.StepsMeet (Sys.step engine engines) (fun t _ => t.isStarted w = false) s acts)
    (hrun : Schedule.run (Sys.step engine engines) s acts = some s') :
    (executedBy w (Schedule.outputs (Sys.step engine engines) Sys.events s acts)).length ≤
      credit (s.thread w) := by
  induction acts generalizing s with
  | nil => simp [Schedule.outputs, executedBy]
  | cons a acts ih =>
    obtain ⟨t, hstep, hrest⟩ := (Schedule.run_cons (Sys.step engine engines)).mp hrun
    have hfirst := credit_step hinv hoff.1 hstep
    have hmore := ih (hinv.step hstep) (hoff.2 t hstep) hrest
    rw [Schedule.outputs, hstep]
    simp only
    rw [executedBy_append, List.length_append]
    omega

/-- **After the flag is cleared.** As long as `m_is_started` of an engine stays false, from any
state of any run, its thread runs at most one more task, whatever is posted. From a state in
which no call is in progress it runs none. -/
theorem stopped_runs_at_most_one {w : W} {front rest : List (Action W Task)}
    (hfront : Schedule.run (Sys.step engine engines) Sys.initial front = some s)
    (hrest : Schedule.run (Sys.step engine engines) s rest = some s')
    (hoff : Schedule.StepsMeet (Sys.step engine engines) (fun t _ => t.isStarted w = false) s
      rest) :
    (executedBy w (Schedule.outputs (Sys.step engine engines) Sys.events s rest)).length ≤ 1 ∧
      (s.Idle →
        executedBy w (Schedule.outputs (Sys.step engine engines) Sys.events s rest) = []) := by
  obtain ⟨hinv, -⟩ := inv_of_run hfront
  have hcredit := credit_run hinv hoff hrest
  refine ⟨Nat.le_trans hcredit (credit_le _), ?_⟩
  rintro ⟨hnow, -⟩
  cases rest with
  | nil => rfl
  | cons a rest =>
    have hagrees := hinv.agrees w
    have hflag : s.isStarted w = false := hoff.1
    rw [hnow, Agrees, hflag] at hagrees
    have hnone : s.thread w = none := Option.not_isSome_iff_eq_none.mp (by simp [← hagrees])
    rw [hnone] at hcredit
    exact List.eq_nil_of_length_eq_zero (Nat.le_zero.mp hcredit)

/-- Two tasks, and the engine started; its thread is about to take the first one when the flag
is cleared. -/
def clearedAtPop : List (Action Unit Nat) :=
  [.post () 1 true, .post () 2 true, .call .engineStart, .control, .control, .control, .control,
    .control, .loop () 0, .call .engineStop, .control, .control, .control]

/-- The thread takes it, runs it and comes to its end, and `join` returns. -/
def afterwards : List (Action Unit Nat) := [.loop () 0, .loop () 0, .loop () 0, .control]

/-- One task is run, the other one stays in the queue. -/
theorem stopped_runs_one : ∃ s s',
    Schedule.run (Sys.step oneDeque [()]) Sys.initial clearedAtPop = some s ∧
      Schedule.run (Sys.step oneDeque [()]) s afterwards = some s' ∧ s'.queue () = [2] ∧
      (executedBy () (Schedule.outputs (Sys.step oneDeque [()]) Sys.events s afterwards)).length ≤
        1 := by
  obtain ⟨s, s', hfront, hrest, hqueue, hoff⟩ : ∃ s s',
      Schedule.run (Sys.step oneDeque [()]) Sys.initial clearedAtPop = some s ∧
        Schedule.run (Sys.step oneDeque [()]) s afterwards = some s' ∧ s'.queue () = [2] ∧
        Schedule.StepsMeet (Sys.step oneDeque [()]) (fun t _ => t.isStarted () = false) s
          afterwards :=
    ⟨_, _, rfl, rfl, rfl, by decide⟩
  exact ⟨s, s', hfront, hrest, hqueue, (stopped_runs_at_most_one hfront hrest hoff).1⟩

-- ---------------------------------------------------------------------------
-- EngineStart and EngineStop
-- ---------------------------------------------------------------------------

omit [DecidableEq W] in
/-- Only the pool is started and stopped, not a single engine. -/
def PoolCall (_ : Sys W Task) : Action W Task → Prop
  | .call (.threadStart _) => False
  | .call (.threadStop _) => False
  | .call .engineStart => True
  | .call .engineStop => True
  | .control => True
  | .loop _ _ => True
  | .post _ _ _ => True

instance (s : Sys W Task) (a : Action W Task) : Decidable (PoolCall s a) :=
  match a with
  | .call (.threadStart _) => isFalse id
  | .call (.threadStop _) => isFalse id
  | .call .engineStart => isTrue trivial
  | .call .engineStop => isTrue trivial
  | .control => isTrue trivial
  | .loop _ _ => isTrue trivial
  | .post _ _ _ => isTrue trivial

omit [DecidableEq W] in
/-- `ThreadStart` of the engines `ws`, and the flag of the pool. -/
def startsLeft (ws : List W) : List (Todo W) :=
  ws.map (fun w => .call (.threadStart w)) ++ [.poolStarted]

omit [DecidableEq W] in
/-- `ThreadStop` of the engines `ws`. -/
def stopsLeft (ws : List W) : List (Todo W) := ws.map fun w => .call (.threadStop w)

omit [DecidableEq W] in
/-- Where a pool can be: between two calls, about to begin one, and in the loops of
`EngineStart` and `EngineStop` with the engines `ws` still to come. -/
inductive PoolInv (engines : List W) (s : Sys W Task) : Prop
  | idle (hnow : s.now = none)
      (hlater : s.later = [] ∨ s.later = [.call .engineStart] ∨ s.later = [.call .engineStop])
      (hflags : ∀ w, s.isStarted w = true ↔ s.poolStarted = true ∧ w ∈ engines)
  | starting (ws : List W) (hlater : s.later = startsLeft ws) (hpool : s.poolStarted = false)
      (hnow : s.now = none ∨ (∃ w ∈ engines, s.now = some (.setStarted w)) ∨
        ∃ w ∈ engines, s.now = some (.spawn w))
      (hsub : ∀ w ∈ ws, w ∈ engines) (honly : ∀ w, s.isStarted w = true → w ∈ engines)
      (hall : ∀ w ∈ engines, s.isStarted w = true ∨ w ∈ ws ∨ s.now = some (.setStarted w))
  | stopping (ws : List W) (hlater : s.later = stopsLeft ws) (hpool : s.poolStarted = false)
      (hnow : s.now = none ∨ (∃ w, s.now = some (.clearStarted w)) ∨ ∃ w, s.now = some (.join w))
      (hleft : ∀ w, s.isStarted w = true → w ∈ ws ∨ s.now = some (.clearStarted w))

omit [DecidableEq W] in
theorem poolInv_initial : PoolInv engines (Sys.initial : Sys W Task) :=
  .idle rfl (Or.inl rfl) fun w => by simp [Sys.initial]

omit [DecidableEq W] in
/-- The threads and queues are no part of it. -/
theorem PoolInv.congr (h : PoolInv engines s) (hstarted : s'.isStarted = s.isStarted)
    (hpool : s'.poolStarted = s.poolStarted) (hnow : s'.now = s.now)
    (hlater : s'.later = s.later) : PoolInv engines s' := by
  cases h with
  | idle hn hl hflags =>
    refine .idle (hnow.trans hn) (by rwa [hlater]) ?_
    rwa [hstarted, hpool]
  | starting ws hl hp hn hsub honly hall =>
    refine .starting ws (hlater.trans hl) (hpool.trans hp) (by rwa [hnow]) hsub ?_ ?_
    · rwa [hstarted]
    · rwa [hstarted, hnow]
  | stopping ws hl hp hn hleft =>
    refine .stopping ws (hlater.trans hl) (hpool.trans hp) (by rwa [hnow]) ?_
    rwa [hstarted, hnow]

omit [DecidableEq W] in
/-- A pool between two calls. -/
theorem PoolInv.of_idle (h : PoolInv engines s) (hidle : s.Idle) (w : W) :
    s.isStarted w = true ↔ s.poolStarted = true ∧ w ∈ engines := by
  obtain ⟨hnow, hlater⟩ := hidle
  cases h with
  | idle _ _ hflags => exact hflags w
  | starting ws hl _ _ _ _ _ => simp [hl, startsLeft] at hlater
  | stopping ws hl hp _ hleft =>
    rw [hl, stopsLeft, List.map_eq_nil_iff] at hlater
    subst hlater
    refine ⟨fun hw => ?_, fun hw => ?_⟩
    · rcases hleft w hw with hmem | hclear
      · simp at hmem
      · rw [hnow] at hclear
        cases hclear
    · rw [hp] at hw
      cases hw.1

omit [DecidableEq W] in
/-- A call of the pool begins. -/
theorem PoolInv.enter {c : Call W} (hnow : s.now = none)
    (hflags : ∀ w, s.isStarted w = true ↔ s.poolStarted = true ∧ w ∈ engines)
    (hc : c = .engineStart ∨ c = .engineStop) : PoolInv engines (s.enter engines [] c) := by
  rcases hc with rfl | rfl
  · rw [Sys.enter]
    by_cases hpool : s.poolStarted = true
    · rw [if_pos hpool]
      exact .idle hnow (Or.inl rfl) hflags
    · rw [if_neg hpool]
      refine .starting engines rfl (by simpa using hpool) (Or.inl hnow) (fun _ hw => hw) ?_ ?_
      · exact fun w hw => ((hflags w).mp hw).2
      · exact fun w hw => Or.inr (Or.inl hw)
  · rw [Sys.enter]
    by_cases hpool : s.poolStarted = true
    · rw [if_pos hpool, List.append_nil]
      exact .stopping engines rfl rfl (Or.inl hnow) fun w hw => Or.inl ((hflags w).mp hw).2
    · rw [if_neg hpool]
      exact .idle hnow (Or.inl rfl) hflags

/-- **The loop of `EngineStart`.** -/
theorem PoolInv.control_starting {ws : List W} (hlater : s.later = startsLeft ws)
    (hpool : s.poolStarted = false)
    (hnow : s.now = none ∨ (∃ w ∈ engines, s.now = some (.setStarted w)) ∨
      ∃ w ∈ engines, s.now = some (.spawn w))
    (hsub : ∀ w ∈ ws, w ∈ engines) (honly : ∀ w, s.isStarted w = true → w ∈ engines)
    (hall : ∀ w ∈ engines, s.isStarted w = true ∨ w ∈ ws ∨ s.now = some (.setStarted w))
    (hstep : s.control engines = some s') : PoolInv engines s' := by
  unfold Sys.control at hstep
  rcases hnow with hnow | ⟨w, hw, hnow⟩ | ⟨w, hw, hnow⟩
  · rw [hnow] at hstep
    cases ws with
    | nil =>
      simp only [hlater, startsLeft, List.map_nil, List.nil_append] at hstep
      obtain rfl := Option.some.inj hstep
      refine .idle rfl (Or.inl rfl) fun w => ⟨fun hw => ⟨rfl, honly w hw⟩, fun hw => ?_⟩
      have hcase := hall w hw.2
      rw [hnow] at hcase
      simpa using hcase
    | cons v ws =>
      simp only [hlater, startsLeft, List.map_cons, List.cons_append] at hstep
      obtain rfl := Option.some.inj hstep
      have hv := hsub v (List.mem_cons_self ..)
      cases hflag : s.isStarted v with
      | true =>
        simp only [Sys.enter, hflag, if_true]
        refine .starting ws rfl hpool (Or.inl rfl) (fun w hw => hsub w (List.mem_cons_of_mem _ hw))
          honly ?_
        intro w hw
        have hcase := hall w hw
        rw [hnow, List.mem_cons] at hcase
        rcases hcase with hstarted | (rfl | hmem) | hset
        · exact Or.inl hstarted
        · exact Or.inl hflag
        · exact Or.inr (Or.inl hmem)
        · cases hset
      | false =>
        simp only [Sys.enter, hflag, Bool.false_eq_true, if_false]
        refine .starting ws rfl hpool (Or.inr (Or.inl ⟨v, hv, rfl⟩))
          (fun w hw => hsub w (List.mem_cons_of_mem _ hw)) honly ?_
        intro w hw
        have hcase := hall w hw
        rw [hnow, List.mem_cons] at hcase
        rcases hcase with hstarted | (rfl | hmem) | hset
        · exact Or.inl hstarted
        · exact Or.inr (Or.inr rfl)
        · exact Or.inr (Or.inl hmem)
        · cases hset
  · rw [hnow] at hstep
    obtain rfl := Option.some.inj hstep
    refine .starting ws hlater hpool (Or.inr (Or.inr ⟨w, hw, rfl⟩)) hsub ?_ ?_
    · intro v hv
      rcases eq_or_ne v w with rfl | hne
      · exact hw
      · exact honly v (by simpa [hne] using hv)
    · intro v hv
      rcases eq_or_ne v w with rfl | hne
      · exact Or.inl (by simp)
      · have hcase := hall v hv
        rw [hnow] at hcase
        simpa [hne, hne.symm] using hcase
  · rw [hnow] at hstep
    simp only at hstep
    have hrest : ∀ v ∈ engines, s.isStarted v = true ∨ v ∈ ws := by
      intro v hv
      have hcase := hall v hv
      rw [hnow] at hcase
      simpa using hcase
    split at hstep
    · obtain rfl := Option.some.inj hstep
      refine .starting ws hlater hpool (Or.inr (Or.inr ⟨w, hw, rfl⟩)) hsub honly ?_
      exact fun v hv => (hrest v hv).imp_right Or.inl
    · obtain rfl := Option.some.inj hstep
      refine .starting ws hlater hpool (Or.inl rfl) hsub honly ?_
      exact fun v hv => (hrest v hv).imp_right Or.inl

/-- **The loop of `EngineStop`.** -/
theorem PoolInv.control_stopping {ws : List W} (hlater : s.later = stopsLeft ws)
    (hpool : s.poolStarted = false)
    (hnow : s.now = none ∨ (∃ w, s.now = some (.clearStarted w)) ∨ ∃ w, s.now = some (.join w))
    (hleft : ∀ w, s.isStarted w = true → w ∈ ws ∨ s.now = some (.clearStarted w))
    (hstep : s.control engines = some s') : PoolInv engines s' := by
  unfold Sys.control at hstep
  rcases hnow with hnow | ⟨w, hnow⟩ | ⟨w, hnow⟩
  · rw [hnow] at hstep
    cases ws with
    | nil =>
      simp only [hlater, stopsLeft, List.map_nil] at hstep
      cases hstep
    | cons v ws =>
      simp only [hlater, stopsLeft, List.map_cons] at hstep
      obtain rfl := Option.some.inj hstep
      cases hflag : s.isStarted v with
      | true =>
        simp only [Sys.enter, hflag, if_true]
        refine .stopping ws rfl hpool (Or.inr (Or.inl ⟨v, rfl⟩)) ?_
        intro w hw
        have hcase := hleft w hw
        rw [hnow, List.mem_cons] at hcase
        rcases hcase with (rfl | hmem) | hclear
        · exact Or.inr rfl
        · exact Or.inl hmem
        · cases hclear
      | false =>
        simp only [Sys.enter, hflag, Bool.false_eq_true, if_false]
        refine .stopping ws rfl hpool (Or.inl rfl) ?_
        intro w hw
        have hcase := hleft w hw
        rw [hnow, List.mem_cons] at hcase
        rcases hcase with (rfl | hmem) | hclear
        · rw [hflag] at hw
          cases hw
        · exact Or.inl hmem
        · cases hclear
  · rw [hnow] at hstep
    obtain rfl := Option.some.inj hstep
    refine .stopping ws hlater hpool (Or.inr (Or.inr ⟨w, rfl⟩)) ?_
    intro v hv
    rcases eq_or_ne v w with rfl | hne
    · simp at hv
    · have hcase := hleft v (by simpa [hne] using hv)
      rw [hnow] at hcase
      simpa [hne, hne.symm] using hcase
  · rw [hnow] at hstep
    simp only at hstep
    have hrest : ∀ v, s.isStarted v = true → v ∈ ws := by
      intro v hv
      have hcase := hleft v hv
      rw [hnow] at hcase
      simpa using hcase
    split at hstep
    case h_1 =>
      obtain rfl := Option.some.inj hstep
      exact .stopping ws hlater hpool (Or.inl rfl) fun v hv => Or.inl (hrest v hv)
    case h_2 =>
      obtain rfl := Option.some.inj hstep
      exact .stopping ws hlater hpool (Or.inl rfl) fun v hv => Or.inl (hrest v hv)
    case h_3 => cases hstep
    case h_4 => cases hstep
    case h_5 => cases hstep

/-- Every step of a run with pool calls only. -/
theorem PoolInv.step {a : Action W Task} (h : PoolInv engines s) (hok : PoolCall s a)
    (hstep : s.step engine engines a = some s') : PoolInv engines s' := by
  cases a with
  | call c =>
    obtain ⟨hidle, rfl⟩ := step_call hstep
    refine .idle hidle.1 (Or.inr ?_) (h.of_idle hidle)
    cases c with
    | threadStart w => exact absurd hok id
    | threadStop w => exact absurd hok id
    | engineStart => exact Or.inl rfl
    | engineStop => exact Or.inr rfl
  | control =>
    have hcontrol := step_control hstep
    cases h with
    | idle hnow hlater hflags =>
      rcases hlater with hlater | hlater | hlater
      · simp [Sys.control, hnow, hlater] at hcontrol
      · simp only [Sys.control, hnow, hlater] at hcontrol
        obtain rfl := Option.some.inj hcontrol
        exact PoolInv.enter hnow hflags (Or.inl rfl)
      · simp only [Sys.control, hnow, hlater] at hcontrol
        obtain rfl := Option.some.inj hcontrol
        exact PoolInv.enter hnow hflags (Or.inr rfl)
    | starting ws hlater hpool hnow hsub honly hall =>
      exact PoolInv.control_starting hlater hpool hnow hsub honly hall hcontrol
    | stopping ws hlater hpool hnow hleft =>
      exact PoolInv.control_stopping hlater hpool hnow hleft hcontrol
  | loop w n =>
    obtain ⟨-, rfl⟩ | ⟨-, rfl⟩ | ⟨task, -, -, -, rfl⟩ | ⟨task, -, rfl⟩ := step_loop hstep
    · exact h.congr rfl rfl rfl rfl
    · exact h.congr rfl rfl rfl rfl
    · exact h.congr rfl rfl rfl rfl
    · exact h.congr rfl rfl rfl rfl
  | post w task accepted =>
    obtain ⟨-, rfl⟩ | ⟨-, rfl⟩ := step_post hstep
    · exact h.congr rfl rfl rfl rfl
    · exact h

/-- **The threads of a pool.** In every run whose calls are `EngineStart` and `EngineStop`,
between two of them the engines of the pool have a thread if and only if the pool is started.
So after `EngineStop`, which the destructor calls, no engine that is deleted has one. -/
theorem threads_of_pool {acts : List (Action W Task)}
    (hrun : Schedule.run (Sys.step engine engines) Sys.initial acts = some s)
    (hpool : Schedule.StepsMeet (Sys.step engine engines) PoolCall Sys.initial acts)
    (hidle : s.Idle) (w : W) :
    (s.thread w).isSome = true ↔ s.poolStarted = true ∧ w ∈ engines := by
  obtain ⟨hinv, -⟩ := inv_of_run hrun
  have h : PoolInv engines s :=
    Schedule.run_invariant_of_meets (Sys.step engine engines) (PoolInv engines)
      (fun _ _ _ hinv hok hstep => hinv.step hok hstep) poolInv_initial hpool hrun
  have hagrees := hinv.agrees w
  rw [hidle.1] at hagrees
  have hflag : s.isStarted w = (s.thread w).isSome := hagrees
  rw [← hflag]
  exact h.of_idle hidle w

/-- After the restart there is a thread. -/
theorem threads_of_pool_restarted : ∃ s,
    Schedule.run (Sys.step oneDeque [()]) Sys.initial restarted = some s ∧
      ((s.thread ()).isSome = true ↔ s.poolStarted = true ∧ () ∈ [()]) := by
  obtain ⟨s, hrun, hidle⟩ : ∃ s,
      Schedule.run (Sys.step oneDeque [()]) Sys.initial restarted = some s ∧ s.Idle :=
    ⟨_, rfl, rfl, rfl⟩
  exact ⟨s, hrun, threads_of_pool hrun (by decide) hidle ()⟩

-- ---------------------------------------------------------------------------
-- Calls return
-- ---------------------------------------------------------------------------

omit [DecidableEq W] in
/-- A turn of a thread function that takes the first task, with the queue before and after. -/
inductive Turn (flag : Bool) : Loop Task → List Task → Loop Task → List Task → Prop
  | go {q : List Task} (hflag : flag = true) : Turn flag .check q .pop q
  | stop {q : List Task} (hflag : flag = false) : Turn flag .check q .done q
  | empty : Turn flag .pop [] .check []
  | take {task : Task} {q : List Task} : Turn flag .pop (task :: q) (.run task) q
  | ran {task : Task} {q : List Task} : Turn flag (.run task) q .check q

variable (engine engines) in
/-- A thread that has not come to its end can go on. -/
theorem loop_turn (hinv : Inv s) {w : W} {t : Loop Task} (hat : s.thread w = some t)
    (hnot : t ≠ .done) :
    ∃ t' q', Turn (s.isStarted w) t (s.queue w) t' q' ∧
      s.step engine engines (.loop w 0) = some { s.setThread w (some t') with
        queue := Function.update s.queue w q' } := by
  have hsame : { s with queue := Function.update s.queue w (s.queue w) } = s := by
    rw [Function.update_eq_self]
  cases t with
  | check =>
    cases hflag : s.isStarted w with
    | true =>
      refine ⟨.pop, s.queue w, .go rfl, ?_⟩
      simp [Sys.step, hinv.alive, Sys.loop, hat, hflag, Sys.setThread]
    | false =>
      refine ⟨.done, s.queue w, .stop rfl, ?_⟩
      simp [Sys.step, hinv.alive, Sys.loop, hat, hflag, Sys.setThread]
  | pop =>
    cases hqueue : s.queue w with
    | nil =>
      refine ⟨.check, [], .empty, ?_⟩
      rw [← hqueue, Function.update_eq_self]
      simp [Sys.step, hinv.alive, Sys.loop, hat, hqueue, Sys.setThread]
    | cons task q =>
      refine ⟨.run task, q, .take, ?_⟩
      simp [Sys.step, hinv.alive, Sys.loop, hat, hqueue, Sys.setThread]
  | run task =>
    refine ⟨.check, s.queue w, .ran, ?_⟩
    simp [Sys.step, hinv.alive, Sys.loop, hat, Sys.setThread]
  | done => exact absurd rfl hnot

omit [DecidableEq W] in
/-- How far a thread is from its end once the flag is false. -/
def turnsLeft : Loop Task → Nat
  | .pop => 3
  | .run _ => 2
  | .check => 1
  | .done => 0

omit [DecidableEq W] in
theorem Turn.left {t t' : Loop Task} {q q' : List Task} (h : Turn false t q t' q') :
    turnsLeft t' < turnsLeft t := by
  cases h with
  | go hflag => cases hflag
  | stop => exact Nat.one_pos
  | empty => simp [turnsLeft]
  | take => simp [turnsLeft]
  | ran => simp [turnsLeft]

omit [DecidableEq W] in
/-- The steps that a call of the control thread takes at most, with `n` engines. -/
def Todo.size (n : Nat) : Todo W → Nat
  | .call (.threadStart _) => 3
  | .call (.threadStop _) => 3
  | .call .engineStart => 3 * n + 2
  | .call .engineStop => 3 * n + 1
  | .poolStarted => 1

omit [DecidableEq W] in
def Micro.size : Micro W → Nat
  | .setStarted _ => 2
  | .spawn _ => 1
  | .clearStarted _ => 2
  | .join _ => 1

omit [DecidableEq W] in
/-- What the control thread has left to do. -/
def Sys.size (engines : List W) (s : Sys W Task) : Nat :=
  (s.now.map Micro.size).getD 0 + (s.later.map (Todo.size engines.length)).sum

omit [DecidableEq W] in
/-- How far a thread that goes on is from a task it has ended. -/
def turnsAhead : Loop Task → Nat
  | .pop => 1
  | .run _ => 3
  | .check => 2
  | .done => 0

omit [DecidableEq W] in
theorem Turn.ahead {t t' : Loop Task} {q q' : List Task} (h : Turn true t q t' q')
    (hleft : q ≠ [] ∨ inHand (some t) ≠ []) :
    4 * q'.length + turnsAhead t' < 4 * q.length + turnsAhead t := by
  cases h with
  | go => simp [turnsAhead]
  | stop hflag => cases hflag
  | empty => simp [inHand] at hleft
  | take =>
    simp only [turnsAhead, List.length_cons]
    omega
  | ran => simp [turnsAhead]

end Zrtools.IoPool.Lifecycle
