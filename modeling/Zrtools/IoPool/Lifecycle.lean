import Mathlib.Data.List.Perm.Basic
import Zrtools.IoPool.Model

/-!
# zrtools — starting and stopping the engines (`lock_deque_thread.h`, `engine_pool.h`)

`LockDequeThread`, `BoostLockfreeThread` and `MoodyCamelThread` have a thread whose function
is a loop over `m_is_started`, and a queue that outlives it. One thread controls the engines;
any others post tasks, the running tasks among them. One step is one access to a flag or a
queue, the creation of a thread, a `join` that returns, or the rest of a task.

`ThreadStart` assigns to `m_thread`. An assignment to a `std::thread` that is still joinable
ends the program.

* `Sys.step` — the calls of the control thread, the loops and the posts;
* `Inv` — where the flags and the threads agree;
* `tasks_of_run` — no start ends the program, and every task that was posted is run once, in
  its place, or waits, over any number of stops and starts.
-/

namespace Zrtools.IoPool

/-- The thread function is a loop over `m_is_started`. -/
def Engine.loops : Engine → Bool
  | .lockDequeThread => true
  | .boostLockfreeThread => true
  | .moodyCamelThread => true
  | .syncThread => false
  | .boostAsioThread => false

abbrev LoopEngine := {e : Engine // e.loops = true}

namespace Lifecycle

-- ---------------------------------------------------------------------------
-- The code
-- ---------------------------------------------------------------------------

/-- Where the thread function is: before `while (m_is_started)`, before the queue is asked,
at a task, or at its end. -/
inductive Loop (Task : Type) where
  | check
  | pop
  | run (task : Task)
  | done

/-- What the control thread calls. -/
inductive Call (W : Type) where
  | threadStart (w : W)
  | threadStop (w : W)
  | engineStart
  | engineStop
  deriving DecidableEq

/-- What the control thread still has to do: calls, and `m_is_started = true` of the pool at
the end of `EngineStart`. -/
inductive Todo (W : Type) where
  | call (c : Call W)
  | poolStarted

/-- Inside `ThreadStart` and `ThreadStop`: `m_is_started = true`, `m_thread = std::thread(..)`,
`m_is_started = false`, and `join`. -/
inductive Micro (W : Type) where
  | setStarted (w : W)
  | spawn (w : W)
  | clearStarted (w : W)
  | join (w : W)

/-- `EnginePool` and its engines. A thread that is not joinable is `none`. -/
structure Sys (W Task : Type) where
  isStarted : W → Bool
  thread : W → Option (Loop Task)
  queue : W → List Task
  poolStarted : Bool
  now : Option (Micro W)
  later : List (Todo W)
  terminated : Bool

inductive Action (W Task : Type) where
  | call (c : Call W)
  | control
  | loop (w : W) (n : Nat)
  | post (w : W) (task : Task) (accepted : Bool)

inductive Event (W Task : Type) where
  | posted (w : W) (task : Task)
  | executed (w : W) (task : Task)

namespace Sys

variable {W Task : Type}

/-- Nothing started and nothing posted. -/
def initial : Sys W Task where
  isStarted _ := false
  thread _ := none
  queue _ := []
  poolStarted := false
  now := none
  later := []
  terminated := false

/-- All calls of the control thread have returned. -/
def Idle (s : Sys W Task) : Prop := s.now = none ∧ s.later = []

variable [DecidableEq W] (engine : W → LoopEngine) (engines : List W)

def setThread (s : Sys W Task) (w : W) (t : Option (Loop Task)) : Sys W Task :=
  { s with thread := Function.update s.thread w t }

/-- The start of a call: `ThreadStart` and `ThreadStop` look at the flag of the engine,
`EngineStart` and `EngineStop` at the one of the pool. -/
def enter (s : Sys W Task) (rest : List (Todo W)) : Call W → Sys W Task
  | .threadStart w =>
    { s with now := if s.isStarted w then none else some (.setStarted w), later := rest }
  | .threadStop w =>
    { s with now := if s.isStarted w then some (.clearStarted w) else none, later := rest }
  | .engineStart =>
    if s.poolStarted then { s with later := rest }
    else { s with
      later := engines.map (fun w => .call (.threadStart w)) ++ .poolStarted :: rest }
  | .engineStop =>
    if s.poolStarted then
      { s with
        poolStarted := false,
        later := engines.map (fun w => .call (.threadStop w)) ++ rest }
    else { s with later := rest }

/-- The next step of the control thread. -/
def control (s : Sys W Task) : Option (Sys W Task) :=
  match s.now with
  | some (.setStarted w) =>
    some { s with isStarted := Function.update s.isStarted w true, now := some (.spawn w) }
  | some (.spawn w) =>
    if (s.thread w).isSome then some { s with terminated := true }
    else some { s.setThread w (some .check) with now := none }
  | some (.clearStarted w) =>
    some { s with isStarted := Function.update s.isStarted w false, now := some (.join w) }
  | some (.join w) =>
    match s.thread w with
    | none => some { s with now := none }
    | some .done => some { s.setThread w none with now := none }
    | some .check => none
    | some .pop => none
    | some (.run _) => none
  | none =>
    match s.later with
    | [] => none
    | .call c :: rest => some (s.enter engines rest c)
    | .poolStarted :: rest => some { s with poolStarted := true, later := rest }

/-- The next step of a thread function. The queue of `MoodyCamelThread` may give any task, or
none although there are some. -/
def loop (s : Sys W Task) (w : W) (n : Nat) : Option (Sys W Task) :=
  match s.thread w with
  | none => none
  | some .check => some (s.setThread w (some (if s.isStarted w then .pop else .done)))
  | some .pop =>
    if (engine w).1.fifo = true ∧ n ≠ 0 then none
    else match (s.queue w)[n]? with
      | some task =>
        some { s.setThread w (some (.run task)) with
          queue := Function.update s.queue w ((s.queue w).eraseIdx n) }
      | none => some (s.setThread w (some .check))
  | some (.run _) => some (s.setThread w (some .check))
  | some .done => none

/-- One step. -/
def step (s : Sys W Task) (a : Action W Task) : Option (Sys W Task) :=
  if s.terminated then none
  else match a with
    | .call c =>
      match s.now, s.later with
      | none, [] => some { s with later := [.call c] }
      | _, _ => none
    | .control => s.control engines
    | .loop w n => s.loop engine w n
    | .post w task accepted =>
      if accepted then some { s with queue := Function.update s.queue w (s.queue w ++ [task]) }
      else if (engine w).1.mayRefuse then some s
      else none

omit [DecidableEq W] in
/-- What there is to see of a step: a task that is accepted, and one that was run. -/
def events (s : Sys W Task) : Action W Task → List (Event W Task)
  | .call _ => []
  | .control => []
  | .loop w _ =>
    match s.thread w with
    | some (.run task) => [.executed w task]
    | _ => []
  | .post w task accepted => if accepted then [.posted w task] else []

end Sys

section Accounts

variable {W Task : Type} [DecidableEq W]

/-- The tasks that were accepted for an engine, in order. -/
def postedTo (w : W) (past : List (Event W Task)) : List Task :=
  past.filterMap fun e => match e with
    | .posted v task => if v = w then some task else none
    | .executed _ _ => none

/-- The tasks that the thread of an engine has run, in order. -/
def executedBy (w : W) (past : List (Event W Task)) : List Task :=
  past.filterMap fun e => match e with
    | .posted _ _ => none
    | .executed v task => if v = w then some task else none

omit [DecidableEq W] in
/-- The task that a thread has taken from its queue. -/
def inHand : Option (Loop Task) → List Task
  | some (.run task) => [task]
  | _ => []

theorem postedTo_append (w : W) (a b : List (Event W Task)) :
    postedTo w (a ++ b) = postedTo w a ++ postedTo w b :=
  List.filterMap_append ..

theorem executedBy_append (w : W) (a b : List (Event W Task)) :
    executedBy w (a ++ b) = executedBy w a ++ executedBy w b :=
  List.filterMap_append ..

end Accounts

-- ---------------------------------------------------------------------------
-- What each step does
-- ---------------------------------------------------------------------------

variable {W Task : Type} [DecidableEq W] {engine : W → LoopEngine} {engines : List W}
  {s s' : Sys W Task}

theorem step_alive {a : Action W Task} (h : s.step engine engines a = some s') :
    s.terminated = false := by
  unfold Sys.step at h
  split at h
  · cases h
  · rename_i hnot
    simpa using hnot

/-- A call begins when the last one has returned. -/
theorem step_call {c : Call W} (h : s.step engine engines (.call c) = some s') :
    s.Idle ∧ s' = { s with later := [.call c] } := by
  have halive := step_alive h
  rw [Sys.step, if_neg (by simp [halive])] at h
  split at h
  case h_1 hnow hlater => exact ⟨⟨hnow, hlater⟩, (Option.some.inj h).symm⟩
  case h_2 => cases h

theorem step_control (h : s.step engine engines .control = some s') :
    s.control engines = some s' := by
  have halive := step_alive h
  rw [Sys.step, if_neg (by simp [halive])] at h
  exact h

/-- A thread goes to the next place of its loop. -/
theorem step_loop {w : W} {n : Nat} (h : s.step engine engines (.loop w n) = some s') :
    (s.thread w = some .check ∧
      s' = s.setThread w (some (if s.isStarted w then .pop else .done))) ∨
    (s.thread w = some .pop ∧ s' = s.setThread w (some .check)) ∨
    (∃ task, s.thread w = some .pop ∧ (s.queue w)[n]? = some task ∧
      ((engine w).1.fifo = true → n = 0) ∧
      s' = { s.setThread w (some (.run task)) with
        queue := Function.update s.queue w ((s.queue w).eraseIdx n) }) ∨
    ∃ task, s.thread w = some (.run task) ∧ s' = s.setThread w (some .check) := by
  have halive := step_alive h
  rw [Sys.step, if_neg (by simp [halive])] at h
  simp only [Sys.loop] at h
  split at h
  case h_1 => cases h
  case h_2 hcheck => exact Or.inl ⟨hcheck, (Option.some.inj h).symm⟩
  case h_3 hpop =>
    split at h
    · cases h
    rename_i hfirst
    split at h
    case h_1 task htask =>
      refine Or.inr (Or.inr (Or.inl ⟨task, hpop, htask, ?_, (Option.some.inj h).symm⟩))
      intro hfifo
      by_contra hne
      exact hfirst ⟨hfifo, hne⟩
    case h_2 => exact Or.inr (Or.inl ⟨hpop, (Option.some.inj h).symm⟩)
  case h_4 task hrun => exact Or.inr (Or.inr (Or.inr ⟨task, hrun, (Option.some.inj h).symm⟩))
  case h_5 => cases h

theorem step_post {w : W} {task : Task} {accepted : Bool}
    (h : s.step engine engines (.post w task accepted) = some s') :
    (accepted = true ∧
      s' = { s with queue := Function.update s.queue w (s.queue w ++ [task]) }) ∨
    accepted = false ∧ s' = s := by
  have halive := step_alive h
  rw [Sys.step, if_neg (by simp [halive])] at h
  split at h
  · rename_i haccepted
    exact Or.inl ⟨haccepted, (Option.some.inj h).symm⟩
  split at h
  · rename_i hrefused _
    exact Or.inr ⟨by simpa using hrefused, (Option.some.inj h).symm⟩
  · cases h

-- ---------------------------------------------------------------------------
-- Flags and threads
-- ---------------------------------------------------------------------------

/-- Outside its two calls the flag of an engine says whether there is a thread. -/
def Agrees (w : W) (flag : Bool) (t : Option (Loop Task)) : Option (Micro W) → Prop
  | some (.setStarted v) => flag = t.isSome ∧ (v = w → flag = false)
  | some (.spawn v) => if v = w then flag = true ∧ t = none else flag = t.isSome
  | some (.clearStarted _) => flag = t.isSome
  | some (.join v) => if v = w then flag = false else flag = t.isSome
  | none => flag = t.isSome

/-- A thread that has come to its end has seen the flag false, and the flag stays false until
it is joined. -/
structure Inv (s : Sys W Task) : Prop where
  agrees : ∀ w, Agrees w (s.isStarted w) (s.thread w) s.now
  finished : ∀ w, s.thread w = some .done → s.isStarted w = false
  alive : s.terminated = false

theorem inv_initial : Inv (Sys.initial : Sys W Task) where
  agrees _ := rfl
  finished _ h := by cases h
  alive := rfl

/-- Only whether there is a thread counts. -/
theorem Agrees.congr {w : W} {flag : Bool} {t t' : Option (Loop Task)} {m : Option (Micro W)}
    (h : Agrees w flag t m) (hsame : t'.isSome = t.isSome) : Agrees w flag t' m := by
  have hnone : t' = none ↔ t = none := by
    rw [← Option.isNone_iff_eq_none, ← Option.isNone_iff_eq_none, ← Option.not_isSome,
      ← Option.not_isSome, hsame]
  cases m with
  | none => rwa [Agrees, hsame]
  | some m =>
    cases m with
    | setStarted v => rwa [Agrees, hsame]
    | spawn v => rwa [Agrees, hsame, hnone]
    | clearStarted v => rwa [Agrees, hsame]
    | join v => rwa [Agrees, hsame]

/-- A thread that moves on is still a thread, and it ends only where the flag is false. -/
theorem Inv.move (h : Inv s) {w : W} {t : Loop Task} (hsome : (s.thread w).isSome)
    (hdone : t = .done → s.isStarted w = false) : Inv (s.setThread w (some t)) := by
  refine ⟨?_, ?_, h.alive⟩
  · intro v
    refine (h.agrees v).congr ?_
    rcases eq_or_ne v w with rfl | hne
    · simp [Sys.setThread, hsome]
    · simp [Sys.setThread, hne]
  · intro v hv
    rcases eq_or_ne v w with rfl | hne
    · simp only [Sys.setThread, Function.update_self, Option.some.injEq] at hv
      exact hdone hv
    · simp only [Sys.setThread, Function.update_of_ne hne] at hv
      exact h.finished v hv

/-- **`m_is_started = true`.** -/
theorem Inv.setStarted (h : Inv s) {w : W} (hnow : s.now = some (.setStarted w)) :
    Inv { s with isStarted := Function.update s.isStarted w true, now := some (.spawn w) } := by
  have hagrees := h.agrees
  rw [hnow] at hagrees
  have hnone : s.thread w = none := by
    obtain ⟨hflag, hfalse⟩ := hagrees w
    rw [hfalse rfl] at hflag
    exact Option.not_isSome_iff_eq_none.mp (by simp [← hflag])
  refine ⟨?_, ?_, h.alive⟩
  · intro v
    rcases eq_or_ne v w with rfl | hne
    · simp [Agrees, hnone]
    · simpa [Agrees, hne, hne.symm] using (hagrees v).1
  · intro v hv
    rcases eq_or_ne v w with rfl | hne
    · rw [hnone] at hv
      cases hv
    · simpa [hne] using h.finished v hv

/-- **The new thread.** -/
theorem Inv.spawn (h : Inv s) {w : W} (hnow : s.now = some (.spawn w)) :
    s.thread w = none ∧ Inv { s.setThread w (some .check) with now := none } := by
  have hagrees := h.agrees
  rw [hnow] at hagrees
  have hw := hagrees w
  rw [Agrees, if_pos rfl] at hw
  refine ⟨hw.2, ?_, ?_, h.alive⟩
  · intro v
    rcases eq_or_ne v w with rfl | hne
    · simp [Agrees, Sys.setThread, hw.1]
    · simpa [Agrees, Sys.setThread, hne, hne.symm] using hagrees v
  · intro v hv
    rcases eq_or_ne v w with rfl | hne
    · simp [Sys.setThread] at hv
    · exact h.finished v (by simpa [Sys.setThread, hne] using hv)

/-- **`m_is_started = false`.** -/
theorem Inv.clearStarted (h : Inv s) {w : W} (hnow : s.now = some (.clearStarted w)) :
    Inv { s with isStarted := Function.update s.isStarted w false, now := some (.join w) } := by
  have hagrees := h.agrees
  rw [hnow] at hagrees
  refine ⟨?_, ?_, h.alive⟩
  · intro v
    rcases eq_or_ne v w with rfl | hne
    · simp [Agrees]
    · simpa [Agrees, hne, hne.symm] using hagrees v
  · intro v hv
    rcases eq_or_ne v w with rfl | hne
    · simp
    · simpa [hne] using h.finished v hv

/-- **`join`** returns. -/
theorem Inv.join (h : Inv s) {w : W} (hnow : s.now = some (.join w)) :
    Inv { s.setThread w none with now := none } := by
  have hagrees := h.agrees
  rw [hnow] at hagrees
  refine ⟨?_, ?_, h.alive⟩
  · intro v
    rcases eq_or_ne v w with rfl | hne
    · simpa [Agrees, Sys.setThread] using hagrees v
    · simpa [Agrees, Sys.setThread, hne, hne.symm] using hagrees v
  · intro v hv
    rcases eq_or_ne v w with rfl | hne
    · simp [Sys.setThread] at hv
    · exact h.finished v (by simpa [Sys.setThread, hne] using hv)

/-- **The start of a call.** -/
theorem Inv.enter (h : Inv s) (hnow : s.now = none) (rest : List (Todo W)) (c : Call W) :
    Inv (s.enter engines rest c) := by
  have hagrees := h.agrees
  rw [hnow] at hagrees
  cases c with
  | threadStart w =>
    refine ⟨?_, h.finished, h.alive⟩
    intro v
    show Agrees v (s.isStarted v) (s.thread v)
      (if s.isStarted w then none else some (.setStarted w))
    split
    · exact hagrees v
    · rename_i hflag
      refine ⟨hagrees v, ?_⟩
      rintro rfl
      simpa using hflag
  | threadStop w =>
    refine ⟨?_, h.finished, h.alive⟩
    intro v
    show Agrees v (s.isStarted v) (s.thread v)
      (if s.isStarted w then some (.clearStarted w) else none)
    split
    · exact hagrees v
    · exact hagrees v
  | engineStart =>
    simp only [Sys.enter]
    split
    · exact ⟨h.agrees, h.finished, h.alive⟩
    · exact ⟨h.agrees, h.finished, h.alive⟩
  | engineStop =>
    simp only [Sys.enter]
    split
    · exact ⟨h.agrees, h.finished, h.alive⟩
    · exact ⟨h.agrees, h.finished, h.alive⟩

/-- **The control thread** starts a thread only where there is none. -/
theorem Inv.control (h : Inv s) (hstep : s.control engines = some s') : Inv s' := by
  unfold Sys.control at hstep
  cases hnow : s.now with
  | some m =>
    rw [hnow] at hstep
    cases m with
    | setStarted w =>
      obtain rfl := Option.some.inj hstep
      exact h.setStarted hnow
    | spawn w =>
      obtain ⟨hnone, hspawned⟩ := h.spawn hnow
      simp only [hnone, Option.isSome_none, Bool.false_eq_true, if_false] at hstep
      obtain rfl := Option.some.inj hstep
      exact hspawned
    | clearStarted w =>
      obtain rfl := Option.some.inj hstep
      exact h.clearStarted hnow
    | join w =>
      simp only at hstep
      split at hstep
      case h_1 hnone =>
        obtain rfl := Option.some.inj hstep
        have hsame : s.setThread w none = s := by
          simp [Sys.setThread, ← hnone]
        have hjoined := h.join hnow
        rw [hsame] at hjoined
        exact hjoined
      case h_2 =>
        obtain rfl := Option.some.inj hstep
        exact h.join hnow
      case h_3 => cases hstep
      case h_4 => cases hstep
      case h_5 => cases hstep
  | none =>
    rw [hnow] at hstep
    simp only at hstep
    split at hstep
    case h_1 => cases hstep
    case h_2 c rest hlater =>
      obtain rfl := Option.some.inj hstep
      exact h.enter hnow rest c
    case h_3 rest hlater =>
      obtain rfl := Option.some.inj hstep
      have hagrees := h.agrees
      rw [hnow] at hagrees
      exact ⟨hagrees, h.finished, h.alive⟩

/-- Every step keeps the invariant. -/
theorem Inv.step {a : Action W Task} (h : Inv s) (hstep : s.step engine engines a = some s') :
    Inv s' := by
  cases a with
  | call c =>
    obtain ⟨-, rfl⟩ := step_call hstep
    exact ⟨h.agrees, h.finished, h.alive⟩
  | control => exact h.control (step_control hstep)
  | loop w n =>
    obtain ⟨hat, rfl⟩ | ⟨hat, rfl⟩ | ⟨task, hat, -, -, rfl⟩ | ⟨task, hat, rfl⟩ := step_loop hstep
    · refine h.move (by simp [hat]) ?_
      intro hdone
      by_contra hflag
      simp [hflag] at hdone
    · exact h.move (by simp [hat]) (by intro hdone; cases hdone)
    · have hsome : (s.thread w).isSome := by simp [hat]
      have hmoved := h.move (t := .run task) hsome (by intro hdone; cases hdone)
      exact ⟨hmoved.agrees, hmoved.finished, hmoved.alive⟩
    · exact h.move (by simp [hat]) (by intro hdone; cases hdone)
  | post w task accepted =>
    obtain ⟨-, rfl⟩ | ⟨-, rfl⟩ := step_post hstep
    · exact ⟨h.agrees, h.finished, h.alive⟩
    · exact h

-- ---------------------------------------------------------------------------
-- Tasks
-- ---------------------------------------------------------------------------

/-- The tasks that were run, the one in hand and those in the queue are the ones that were
posted, and with a queue in order in that order. -/
structure Tasks (engine : W → LoopEngine) (s : Sys W Task) (past : List (Event W Task)) :
    Prop where
  perm : ∀ w, (executedBy w past ++ (inHand (s.thread w) ++ s.queue w)).Perm (postedTo w past)
  inOrder : ∀ w, (engine w).1.fifo = true →
    executedBy w past ++ (inHand (s.thread w) ++ s.queue w) = postedTo w past

variable {past : List (Event W Task)}

/-- Only hands and queues count. -/
theorem Tasks.congr (h : Tasks engine s past)
    (hhand : ∀ w, inHand (s'.thread w) = inHand (s.thread w)) (hqueue : s'.queue = s.queue) :
    Tasks engine s' past := by
  refine ⟨fun w => ?_, fun w => ?_⟩
  · rw [hhand, hqueue]
    exact h.perm w
  · rw [hhand, hqueue]
    exact h.inOrder w

omit [DecidableEq W] in
theorem hand_congr {f f' : W → Option (Loop Task)} {w : W} (hw : inHand (f' w) = inHand (f w))
    (hother : ∀ v, v ≠ w → f' v = f v) (v : W) : inHand (f' v) = inHand (f v) := by
  rcases eq_or_ne v w with rfl | hne
  · exact hw
  · rw [hother v hne]

/-- The control thread takes no task. -/
theorem control_tasks (hinv : Inv s) (hstep : s.control engines = some s') :
    (∀ w, inHand (s'.thread w) = inHand (s.thread w)) ∧ s'.queue = s.queue := by
  unfold Sys.control at hstep
  split at hstep
  case h_1 =>
    obtain rfl := Option.some.inj hstep
    exact ⟨fun _ => rfl, rfl⟩
  case h_2 w hnow =>
    obtain ⟨hnone, -⟩ := hinv.spawn hnow
    simp only [hnone, Option.isSome_none, Bool.false_eq_true, if_false] at hstep
    obtain rfl := Option.some.inj hstep
    refine ⟨hand_congr (w := w) ?_ ?_, rfl⟩
    · simp [Sys.setThread, hnone, inHand]
    · intro v hne
      simp [Sys.setThread, hne]
  case h_3 =>
    obtain rfl := Option.some.inj hstep
    exact ⟨fun _ => rfl, rfl⟩
  case h_4 w _ =>
    split at hstep
    case h_1 =>
      obtain rfl := Option.some.inj hstep
      exact ⟨fun _ => rfl, rfl⟩
    case h_2 hdone =>
      obtain rfl := Option.some.inj hstep
      refine ⟨hand_congr (w := w) ?_ ?_, rfl⟩
      · simp [Sys.setThread, hdone, inHand]
      · intro v hne
        simp [Sys.setThread, hne]
    case h_3 => cases hstep
    case h_4 => cases hstep
    case h_5 => cases hstep
  case h_5 =>
    split at hstep
    case h_1 => cases hstep
    case h_2 c rest _ =>
      obtain rfl := Option.some.inj hstep
      cases c with
      | threadStart w => exact ⟨fun _ => rfl, rfl⟩
      | threadStop w => exact ⟨fun _ => rfl, rfl⟩
      | engineStart =>
        simp only [Sys.enter]
        split
        · exact ⟨fun _ => rfl, rfl⟩
        · exact ⟨fun _ => rfl, rfl⟩
      | engineStop =>
        simp only [Sys.enter]
        split
        · exact ⟨fun _ => rfl, rfl⟩
        · exact ⟨fun _ => rfl, rfl⟩
    case h_3 =>
      obtain rfl := Option.some.inj hstep
      exact ⟨fun _ => rfl, rfl⟩

/-- A task goes from the queue into the hand. -/
theorem Tasks.take (h : Tasks engine s past) {w : W} {n : Nat} {task : Task}
    (hat : s.thread w = some .pop) (htask : (s.queue w)[n]? = some task)
    (hfirst : (engine w).1.fifo = true → n = 0) :
    Tasks engine { s.setThread w (some (.run task)) with
      queue := Function.update s.queue w ((s.queue w).eraseIdx n) } past := by
  obtain ⟨hlt, rfl⟩ := List.getElem?_eq_some_iff.mp htask
  refine ⟨fun v => ?_, fun v hfifo => ?_⟩
  · have hold := h.perm v
    rcases eq_or_ne v w with rfl | hne
    · simp only [Sys.setThread, Function.update_self, inHand, hat] at hold ⊢
      exact (List.Perm.append_left _ (List.getElem_cons_eraseIdx_perm hlt)).trans hold
    · simpa only [Sys.setThread, Function.update_of_ne hne] using hold
  · have hold := h.inOrder v hfifo
    rcases eq_or_ne v w with rfl | hne
    · obtain rfl := hfirst hfifo
      obtain ⟨first, rest, hqueue⟩ := List.exists_cons_of_length_pos hlt
      simp only [Sys.setThread, Function.update_self, inHand, hat, hqueue] at hold ⊢
      exact hold
    · simpa only [Sys.setThread, Function.update_of_ne hne] using hold

/-- The task in the hand is run to its end. -/
theorem Tasks.run (h : Tasks engine s past) {w : W} {task : Task}
    (hat : s.thread w = some (.run task)) :
    Tasks engine (s.setThread w (some .check)) (past ++ [.executed w task]) := by
  have hkey : ∀ v, executedBy v (past ++ [.executed w task]) ++
      (inHand ((s.setThread w (some .check)).thread v) ++ s.queue v) =
        executedBy v past ++ (inHand (s.thread v) ++ s.queue v) ∧
      postedTo v (past ++ [.executed w task]) = postedTo v past := by
    intro v
    rw [executedBy_append, postedTo_append]
    rcases eq_or_ne v w with rfl | hne
    · simp [Sys.setThread, inHand, hat, executedBy, postedTo]
    · simp [Sys.setThread, hne, hne.symm, executedBy, postedTo]
  refine ⟨fun v => ?_, fun v hfifo => ?_⟩
  · show (_ ++ (_ ++ s.queue v)).Perm _
    rw [(hkey v).1, (hkey v).2]
    exact h.perm v
  · show _ ++ (_ ++ s.queue v) = _
    rw [(hkey v).1, (hkey v).2]
    exact h.inOrder v hfifo

/-- A task is accepted. -/
theorem Tasks.post (h : Tasks engine s past) (w : W) (task : Task) :
    Tasks engine { s with queue := Function.update s.queue w (s.queue w ++ [task]) }
      (past ++ [.posted w task]) := by
  refine ⟨fun v => ?_, fun v hfifo => ?_⟩
  · have hold := h.perm v
    rw [executedBy_append, postedTo_append]
    rcases eq_or_ne v w with rfl | hne
    · simp only [Function.update_self]
      have hmore := hold.append_right [task]
      simpa [executedBy, postedTo] using hmore
    · simpa [hne, hne.symm, executedBy, postedTo] using hold
  · have hold := h.inOrder v hfifo
    rw [executedBy_append, postedTo_append]
    rcases eq_or_ne v w with rfl | hne
    · simp only [Function.update_self]
      rw [← hold]
      simp [executedBy, postedTo]
    · simpa [hne, hne.symm, executedBy, postedTo] using hold

/-- Every step keeps the account of the tasks. -/
theorem Tasks.step {a : Action W Task} (h : Tasks engine s past) (hinv : Inv s)
    (hstep : s.step engine engines a = some s') : Tasks engine s' (past ++ s.events a) := by
  cases a with
  | call c =>
    obtain ⟨-, rfl⟩ := step_call hstep
    rw [Sys.events, List.append_nil]
    exact h.congr (fun _ => rfl) rfl
  | control =>
    obtain ⟨hhand, hqueue⟩ := control_tasks hinv (step_control hstep)
    rw [Sys.events, List.append_nil]
    exact h.congr hhand hqueue
  | loop w n =>
    have hmove : ∀ t, inHand (some t) = inHand (s.thread w) →
        Tasks engine (s.setThread w (some t)) past := by
      intro t hsame
      refine h.congr (hand_congr (w := w) ?_ ?_) rfl
      · simpa [Sys.setThread] using hsame
      · intro v hne
        simp [Sys.setThread, hne]
    obtain ⟨hat, rfl⟩ | ⟨hat, rfl⟩ | ⟨task, hat, htask, hfirst, rfl⟩ | ⟨task, hat, rfl⟩ :=
      step_loop hstep
    · simp only [Sys.events, hat, List.append_nil]
      refine hmove _ ?_
      rw [hat]
      split
      · rfl
      · rfl
    · simp only [Sys.events, hat, List.append_nil]
      exact hmove _ (by rw [hat]; rfl)
    · simp only [Sys.events, hat, List.append_nil]
      exact h.take hat htask hfirst
    · simp only [Sys.events, hat]
      exact h.run hat
  | post w task accepted =>
    obtain ⟨rfl, rfl⟩ | ⟨rfl, rfl⟩ := step_post hstep
    · exact h.post w task
    · simp only [Sys.events, Bool.false_eq_true, if_false, List.append_nil]
      exact h

/-- What a run tells the outside. -/
def eventsOf (engine : W → LoopEngine) (engines : List W) (acts : List (Action W Task)) :
    List (Event W Task) :=
  Schedule.outputs (Sys.step engine engines) Sys.events Sys.initial acts

theorem inv_of_run {acts : List (Action W Task)}
    (hrun : Schedule.run (Sys.step engine engines) Sys.initial acts = some s) :
    Inv s ∧ Tasks engine s (eventsOf engine engines acts) :=
  Schedule.run_invariant_past (Sys.step engine engines)
    (fun s past => Inv s ∧ Tasks engine s past)
    (fun _ _ _ _ h hstep => ⟨h.1.step hstep, h.2.step h.1 hstep⟩)
    ⟨inv_initial, fun _ => List.Perm.refl _, fun _ _ => rfl⟩ hrun

/-- **No task is lost or run twice.** In every run, with any interleaving of starts, stops,
loops and posts: no `ThreadStart` assigns to a thread that is still joinable; the tasks that
an engine has run, the one in hand and those in its queue are exactly the ones that were
accepted, and for a queue in order in just that order, however often it was stopped and
started; and between two calls `m_is_started` says whether the engine has a thread. -/
theorem tasks_of_run {acts : List (Action W Task)}
    (hrun : Schedule.run (Sys.step engine engines) Sys.initial acts = some s) :
    s.terminated = false ∧
      (∀ w, (executedBy w (eventsOf engine engines acts) ++
          (inHand (s.thread w) ++ s.queue w)).Perm (postedTo w (eventsOf engine engines acts))) ∧
      (∀ w, (engine w).1.fifo = true → executedBy w (eventsOf engine engines acts) ++
          (inHand (s.thread w) ++ s.queue w) = postedTo w (eventsOf engine engines acts)) ∧
      (s.Idle → ∀ w, s.isStarted w = (s.thread w).isSome) := by
  obtain ⟨hinv, htasks⟩ := inv_of_run hrun
  refine ⟨hinv.alive, htasks.perm, htasks.inOrder, ?_⟩
  rintro ⟨hnow, -⟩ w
  have hagrees := hinv.agrees w
  rwa [hnow] at hagrees

-- ---------------------------------------------------------------------------
-- A run with a restart
-- ---------------------------------------------------------------------------

def oneDeque (_ : Unit) : LoopEngine := ⟨.lockDequeThread, rfl⟩

/-- Two tasks; the engine is stopped after the first one and started again for the second. -/
def restarted : List (Action Unit Nat) :=
  [.post () 1 true, .post () 2 true, .call .engineStart, .control, .control, .control, .control,
    .control, .loop () 0, .loop () 0, .loop () 0, .call .engineStop, .control, .control, .control,
    .loop () 0, .control, .call .engineStart, .control, .control, .control, .control, .control,
    .loop () 0, .loop () 0, .loop () 0]

theorem tasks_of_run_restarted : ∃ s,
    Schedule.run (Sys.step oneDeque [()]) Sys.initial restarted = some s ∧
      executedBy () (eventsOf oneDeque [()] restarted) ++ (inHand (s.thread ()) ++ s.queue ()) =
        [1, 2] := by
  obtain ⟨s, hrun⟩ : ∃ s, Schedule.run (Sys.step oneDeque [()]) Sys.initial restarted = some s :=
    ⟨_, rfl⟩
  exact ⟨s, hrun, (tasks_of_run hrun).2.2.1 () rfl⟩

end Lifecycle

end Zrtools.IoPool
