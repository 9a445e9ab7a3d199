import Zrtools.IoPool.Model
import Mathlib.Data.UInt
import Mathlib.Algebra.Group.Prod

/-!
# zrtools — task accounting

Every message is counted once when it is posted and once when it is handled. Two
paths break the balance: a `Post` that the queue refused is counted all the same,
and a `PostSyncMsg` on the handler's own thread counts its message as handled twice,
once in `OnSyncMessage` and once more after `get()` (or not as posted at all, when
`get()` throws).

* `Pool.Accounted` — the invariant: what the counters are off by is what the pending
  instructions and the queued messages still have to do;
* `balanced_iff` — in a quiescent state the counters balance iff as many posts were
  refused as own-thread calls were made.
-/

namespace Zrtools.IoPool

open Weights

-- ---------------------------------------------------------------------------
-- What is still due
-- ---------------------------------------------------------------------------

/-- What a pending instruction will do to `m_post_cnt - m_handle_cnt` and to
`m_unhandled_cnt`; a `post` stands for the handling it leads to. -/
def due {W : Type} : Instr W → UInt64 × UInt64
  | .body => 0
  | .post _ _ => (-1, -1)
  | .incPost => (1, 0)
  | .incUnhandled _ => (0, 1)
  | .incHandle => (-1, 0)
  | .decUnhandled _ => (0, -1)
  | .get _ => 0
  | .getOwn _ => 0

/-- A queued message will be handled. -/
def dueMsg (_ : Nat) : UInt64 × UInt64 := (-1, -1)

/-- What puts the counters off for good. -/
def drift : Event → UInt64 × UInt64
  | .refused => (1, 1)
  | .ownSync => (-1, -1)
  | .counted _ => 0
  | .finished _ => 0

section Balance

variable {C W : Type} [DecidableEq C] [DecidableEq W] {engine : W → Engine}

/-- The two counters that ought to be zero. -/
def Pool.balance (s : Pool C W) : UInt64 × UInt64 := (s.postCnt - s.handleCnt, s.unhandledCnt)

def Effect.balance (e : Effect W) : UInt64 × UInt64 := (e.post - e.handle, e.unhandled)

/-- **One instruction**: what it does and what it leaves due is what was due, and the
drift of a refused post or an own-thread call. -/
theorem exec_balance {s : Pool C W} {t : Thread C W} {i : Instr W} {choice : Choice W}
    {e : Effect W} (h : s.exec engine t i choice = some e) :
    e.balance + e.weight due dueMsg = due i + listWeight drift (i.events engine t choice) := by
  unfold Pool.exec at h
  split at h
  case h_1 =>
    obtain rfl := Option.some.inj h
    simp [Effect.balance, Effect.weight, due, Instr.events]
  case h_2 w =>
    -- `PostMsg`: the posting and the handling to come cancel
    obtain rfl := Option.some.inj h
    simp [Effect.balance, Effect.weight, due, Instr.events, postMsg, addPostCnt]
  case h_3 w =>
    split at h
    · rename_i hown
      obtain rfl := Option.some.inj h
      simp [Effect.balance, Effect.weight, due, drift, Instr.events, ownSyncMsg, onMessage,
        addHandleCnt, hown]
    · rename_i hother
      obtain rfl := Option.some.inj h
      simp [Effect.balance, Effect.weight, due, Instr.events, otherSyncMsg, addPostCnt, hother]
  case h_4 w m accepted =>
    split at h
    · rename_i hinline
      obtain rfl := Option.some.inj h
      simp [Effect.balance, Effect.weight, due, Instr.events, onMessage, addHandleCnt, hinline]
    · rename_i hqueue
      split at h
      · rename_i haccepted
        obtain rfl := Option.some.inj h
        simp [Effect.balance, Effect.weight, due, dueMsg, Instr.events, haccepted]
      · rename_i hrefused
        split at h
        · obtain rfl := Option.some.inj h
          simp [Effect.balance, Effect.weight, due, drift, Instr.events, hqueue, hrefused]
        · simp at h
  case h_5 =>
    obtain rfl := Option.some.inj h
    simp [Effect.balance, Effect.weight, due, Instr.events]
  case h_6 =>
    obtain rfl := Option.some.inj h
    simp [Effect.balance, Effect.weight, due, drift, Instr.events]
  case h_7 =>
    obtain rfl := Option.some.inj h
    simp [Effect.balance, Effect.weight, due, Instr.events]
  case h_8 =>
    obtain rfl := Option.some.inj h
    simp [Effect.balance, Effect.weight, due, drift, Instr.events]
  case h_9 =>
    split at h
    · obtain rfl := Option.some.inj h
      simp [Effect.balance, Effect.weight, due, Instr.events]
    · simp at h
  case h_10 =>
    -- whether `get()` throws or not, the rest of an own-thread call is balanced
    split at h
    · obtain rfl := Option.some.inj h
      simp [Effect.balance, Effect.weight, due, Instr.events, ownSyncCount, addPostCnt,
        addHandleCnt]
    · obtain rfl := Option.some.inj h
      simp [Effect.balance, Effect.weight, due, Instr.events]
    · simp at h
  case h_11 => simp at h

theorem Pool.balance_apply (s : Pool C W) (t : Thread C W) (rest : List (Instr W)) (e : Effect W) :
    (s.apply t rest e).balance = s.balance + e.balance := by
  unfold Pool.balance Effect.balance Pool.apply
  rw [Prod.mk_add_mk]
  congr 1
  grind

variable [Fintype C] [Fintype W]

/-- The invariant of the accounting. -/
def Pool.Accounted (s : Pool C W) (past : List Event) : Prop :=
  s.balance + s.weight due dueMsg = listWeight drift past

omit [DecidableEq C] [DecidableEq W] in
theorem Pool.accounted_initial : (Pool.initial : Pool C W).Accounted [] := by
  unfold Pool.Accounted Pool.weight
  have hstacks : total due (Pool.initial : Pool C W).stack = 0 := by
    apply total_eq_zero
    rintro (c | w) i hi
    · rw [List.mem_singleton.mp hi]
      rfl
    · cases hi
  have hqueues : total dueMsg (Pool.initial : Pool C W).queue = 0 := by
    apply total_eq_zero
    intro w m hm
    cases hm
  rw [hstacks, hqueues]
  simp [Pool.balance, Pool.initial]

/-- **One step** keeps the accounts. -/
theorem Pool.Accounted.step {s s' : Pool C W} {a : Action C W} {past : List Event}
    (h : s.Accounted past) (hstep : s.step engine a = some s') :
    s'.Accounted (past ++ s.events engine a) := by
  unfold Pool.Accounted at h ⊢
  cases a with
  | exec t choice =>
    obtain ⟨i, rest, e, hstack, hexec, rfl⟩ := Pool.step_exec hstep
    have hevents : s.events engine (.exec t choice) = i.events engine t choice := by
      rw [Pool.events, hstack]
    have hweight := Pool.weight_apply due dueMsg hstack e
    have hlocal := exec_balance hexec
    rw [hevents, listWeight_append, ← h, Pool.balance_apply]
    apply add_right_cancel (b := due i)
    calc s.balance + e.balance + (s.apply t rest e).weight due dueMsg + due i
        = s.balance + e.balance + ((s.apply t rest e).weight due dueMsg + due i) := by abel
      _ = s.balance + s.weight due dueMsg + (e.balance + e.weight due dueMsg) := by
          rw [hweight]
          abel
      _ = s.balance + s.weight due dueMsg + listWeight drift (i.events engine t choice) +
            due i := by
          rw [hlocal]
          abel
  | take w n =>
    have hdue : ∀ m, listWeight due (onMessage m : List (Instr W)) = dueMsg m := by
      intro m
      simp [onMessage, addHandleCnt, due, dueMsg]
    have hweight := Pool.weight_take hdue hstep
    have hbalance : s'.balance = s.balance := by
      obtain ⟨m, -, -, rfl⟩ := Pool.step_take hstep
      rfl
    rw [hbalance, hweight, h, Pool.events, List.append_nil]
  | setPromise m value =>
    obtain rfl := Pool.step_setPromise hstep
    rw [Pool.events, List.append_nil]
    exact h

omit [DecidableEq C] [DecidableEq W] in
/-- In a quiescent state nothing is due. -/
theorem Pool.Quiescent.weight_eq_zero {s : Pool C W} (h : s.Quiescent) :
    s.weight due dueMsg = 0 := by
  have hstacks : total due s.stack = 0 := by
    apply total_eq_zero
    rintro (c | w) i hi
    · rcases h.clients c with hbody | hnil
      · rw [hbody] at hi
        rw [List.mem_singleton.mp hi]
        rfl
      · rw [hnil] at hi
        simp at hi
    · rw [h.workers w] at hi
      simp at hi
  have hqueues : total dueMsg s.queue = 0 := by
    apply total_eq_zero
    intro w m hm
    rw [h.queues w] at hm
    simp at hm
  rw [Pool.weight, hstacks, hqueues, add_zero]

/-- The drift of a run, by the number of its refused posts and own-thread calls. -/
theorem drift_eq (past : List Event) :
    listWeight drift past =
      (UInt64.ofNat (past.count .refused) - UInt64.ofNat (past.count .ownSync),
        UInt64.ofNat (past.count .refused) - UInt64.ofNat (past.count .ownSync)) := by
  induction past with
  | nil => rfl
  | cons ev past ih =>
    rw [listWeight_cons, ih]
    cases ev with
    | refused =>
      rw [List.count_cons_self, List.count_cons_of_ne (by simp), UInt64.ofNat_add, drift,
        Prod.mk_add_mk]
      congr 1 <;> grind
    | ownSync =>
      rw [List.count_cons_self, List.count_cons_of_ne (by simp), UInt64.ofNat_add, drift,
        Prod.mk_add_mk]
      congr 1 <;> grind
    | counted m =>
      rw [List.count_cons_of_ne (by simp), List.count_cons_of_ne (by simp), drift, zero_add]
    | finished m =>
      rw [List.count_cons_of_ne (by simp), List.count_cons_of_ne (by simp), drift, zero_add]

/-- **Balance.** When all calls have returned and nothing is queued or running, the
counters balance iff as many posts were refused as `PostSyncMsg` calls were made on
the handler's own thread (modulo the size of the counters). -/
theorem balanced_iff {acts : List (Action C W)} {s : Pool C W}
    (hrun : Schedule.run (Pool.step engine) Pool.initial acts = some s) (hquiet : s.Quiescent) :
    (s.postCnt = s.handleCnt ∧ s.unhandledCnt = 0) ↔
      (Schedule.outputs (Pool.step engine) (Pool.events engine) Pool.initial acts).count .refused
          % 2 ^ 64 =
        (Schedule.outputs (Pool.step engine) (Pool.events engine) Pool.initial acts).count .ownSync
          % 2 ^ 64 := by
  set past := Schedule.outputs (Pool.step engine) (Pool.events engine) Pool.initial acts with hpast
  have haccounted : s.Accounted past := by
    refine Schedule.run_invariant_past (Pool.step engine) Pool.Accounted ?_
      Pool.accounted_initial hrun
    exact fun _ _ _ _ h hstep => h.step hstep
  rw [Pool.Accounted, hquiet.weight_eq_zero, add_zero, drift_eq, Pool.balance,
    Prod.mk.injEq] at haccounted
  obtain ⟨hposts, hunhandled⟩ := haccounted
  have hcounts : UInt64.ofNat (past.count .refused) = UInt64.ofNat (past.count .ownSync) ↔
      past.count .refused % 2 ^ 64 = past.count .ownSync % 2 ^ 64 := by
    rw [← UInt64.toNat_inj, UInt64.toNat_ofNat', UInt64.toNat_ofNat']
  rw [← hcounts, hunhandled]
  refine ⟨?_, ?_⟩
  · rintro ⟨-, hzero⟩
    exact sub_eq_zero.mp hzero
  · intro heq
    refine ⟨sub_eq_zero.mp ?_, sub_eq_zero.mpr heq⟩
    rw [hposts]
    exact sub_eq_zero.mpr heq

end Balance

/-- One client, one worker with a locked deque. -/
def oneWorker (_ : Unit) : Engine := .lockDequeThread

/-- The client's `PostMsg`. -/
def clientPost : List (Action Unit Unit) :=
  [.exec (.inl ()) (.callPostMsg ()), .exec (.inl ()) (.posted true), .exec (.inl ()) .go,
    .exec (.inl ()) .go, .exec (.inl ()) .finish, .take () 0]

/-- The end of the handler's `OnMessage`. -/
def handlerEnd : List (Action Unit Unit) :=
  [.exec (.inr ()) .finish, .exec (.inr ()) .go, .exec (.inr ()) .go]

/-- A posted and handled message leaves the counters balanced. -/
theorem balanced_clientPost : ∃ s,
    Schedule.run (Pool.step oneWorker) Pool.initial (clientPost ++ handlerEnd) = some s ∧
      ((s.postCnt = s.handleCnt ∧ s.unhandledCnt = 0) ↔
        (Schedule.outputs (Pool.step oneWorker) (Pool.events oneWorker) Pool.initial
            (clientPost ++ handlerEnd)).count .refused % 2 ^ 64 =
          (Schedule.outputs (Pool.step oneWorker) (Pool.events oneWorker) Pool.initial
            (clientPost ++ handlerEnd)).count .ownSync % 2 ^ 64) :=
  ⟨_, rfl, balanced_iff rfl ⟨fun _ => Or.inr rfl, fun _ => rfl, fun _ => rfl⟩⟩

/-- The handler calls `PostSyncMsg` on itself. -/
def ownSyncRun : List (Action Unit Unit) :=
  clientPost ++ [Action.exec (.inr ()) (.callPostSyncMsg ())] ++ handlerEnd ++
    [Action.setPromise 1 true, .exec (.inr ()) .go, .exec (.inr ()) .go, .exec (.inr ()) .go,
      .exec (.inr ()) .go, .exec (.inr ()) .go] ++ handlerEnd

/-- Two posted messages count as three handled: `m_unhandled_cnt` ends at -1, and
`WaitStop` never ends. -/
theorem unbalanced_ownSyncRun : ∃ s,
    Schedule.run (Pool.step oneWorker) Pool.initial ownSyncRun = some s ∧ s.Quiescent ∧
      s.postCnt = 2 ∧ s.handleCnt = 3 ∧ s.unhandledCnt = -1 ∧ s.allTaskDone = false :=
  ⟨_, rfl, ⟨fun _ => Or.inr rfl, fun _ => rfl, fun _ => rfl⟩, rfl, rfl, rfl, rfl⟩

end Zrtools.IoPool
