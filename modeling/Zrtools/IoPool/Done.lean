import Zrtools.IoPool.Model
import Mathlib.Data.UInt
import Mathlib.Data.List.Nodup

/-!
# zrtools — `AllTaskDone`

`PostMsg` enqueues the task first and counts it afterwards, so a worker can handle a
message, and take it off `m_unhandled_cnt`, before its own increment. The counter is
then one too low, and reads zero while another message is still waiting.

* `Pool.Tracked` — the invariant: every message is on its way to being counted once
  and handled once, and the counter is the difference;
* `allTaskDone_sound_iff` — a true `AllTaskDone()` is right iff no message was handled
  before its `PostMsg` returned.
-/

namespace Zrtools.IoPool

open Weights

-- ---------------------------------------------------------------------------
-- Following one message
-- ---------------------------------------------------------------------------

/-- The messages whose `PostMsg` has made its last increment and returned. -/
def returnedMsgs (past : List Event) : List Nat :=
  past.filterMap fun
    | .counted m => some m
    | _ => none

/-- The messages whose `OnMessage` has finished. -/
def handledMsgs (past : List Event) : List Nat :=
  past.filterMap fun
    | .finished m => some m
    | _ => none

/-- The increment of message `m` that a pending instruction stands for. -/
def countsFor {W : Type} (m : Nat) : Instr W → Nat
  | .incUnhandled k => if k = m then 1 else 0
  | _ => 0

/-- The handling of message `m` that a pending instruction stands for. -/
def handlesFor {W : Type} (m : Nat) : Instr W → Nat
  | .post _ k => if k = m then 1 else 0
  | .decUnhandled k => if k = m then 1 else 0
  | _ => 0

/-- The handling of message `m` that a queued task stands for. -/
def isMsg (m k : Nat) : Nat := if k = m then 1 else 0

/-- Instructions of asynchronous calls only. -/
def Instr.async {W : Type} : Instr W → Prop
  | .get _ => False
  | .getOwn _ => False
  | _ => True

/-- Everything but `PostSyncMsg`. -/
def Action.async {C W : Type} : Action C W → Prop
  | .exec _ (.callPostSyncMsg _) => False
  | _ => True

section Done

variable {C W : Type} [DecidableEq C] [DecidableEq W] {engine : W → Engine}

/-- An effect passes on or does what its instruction had still to count and to handle,
where `next` is the number of the next message and `evs` is what there is to see. -/
structure Effect.Tracks (e : Effect W) (i : Instr W) (evs : List Event) (next : Nat) : Prop where
  push_async : ∀ j ∈ e.push, j.async
  counts : ∀ m, e.weight (countsFor m) (fun _ => 0) + (returnedMsgs evs).count m =
    countsFor m i + if e.newMsg = true ∧ next = m then 1 else 0
  handles : ∀ m, e.weight (handlesFor m) (isMsg m) + (handledMsgs evs).count m =
    handlesFor m i + if e.newMsg = true ∧ next = m then 1 else 0
  unhandled : e.unhandled =
    UInt64.ofNat (returnedMsgs evs).length - UInt64.ofNat (handledMsgs evs).length

/-- **One instruction** of an asynchronous call, on engines that queue every task. -/
theorem exec_tracks (hengine : ∀ w, engine w = .lockDequeThread) {s : Pool C W}
    {t : Thread C W} {i : Instr W} {choice : Choice W} {e : Effect W}
    (hasync : Action.async (.exec t choice)) (hi : i.async)
    (h : s.exec engine t i choice = some e) :
    e.Tracks i (i.events engine t choice) s.nextMsg := by
  unfold Pool.exec at h
  split at h
  case h_1 =>
    obtain rfl := Option.some.inj h
    constructor <;> simp [Effect.weight, countsFor, handlesFor, Instr.events, returnedMsgs,
      handledMsgs]
  case h_2 w =>
    obtain rfl := Option.some.inj h
    constructor <;> simp [Effect.weight, countsFor, handlesFor, Instr.events, returnedMsgs,
      handledMsgs, postMsg, addPostCnt, Instr.async]
  case h_3 w => exact hasync.elim
  case h_4 w k accepted =>
    have hqueue : (engine w).runsInline = false := by rw [hengine w]; rfl
    have hkeep : (engine w).mayRefuse = false := by rw [hengine w]; rfl
    rw [if_neg (by simp [hqueue]), hkeep] at h
    split at h
    · rename_i haccepted
      obtain rfl := Option.some.inj h
      constructor <;> simp [Effect.weight, countsFor, handlesFor, isMsg, Instr.events,
        returnedMsgs, handledMsgs, haccepted]
    · simp at h
  case h_5 =>
    obtain rfl := Option.some.inj h
    constructor <;> simp [Effect.weight, countsFor, handlesFor, Instr.events, returnedMsgs,
      handledMsgs]
  case h_6 k =>
    obtain rfl := Option.some.inj h
    constructor <;> simp [Effect.weight, countsFor, handlesFor, Instr.events, returnedMsgs,
      handledMsgs, List.count_singleton]
  case h_7 =>
    obtain rfl := Option.some.inj h
    constructor <;> simp [Effect.weight, countsFor, handlesFor, Instr.events, returnedMsgs,
      handledMsgs]
  case h_8 k =>
    obtain rfl := Option.some.inj h
    constructor <;> simp [Effect.weight, countsFor, handlesFor, Instr.events, returnedMsgs,
      handledMsgs, List.count_singleton]
  case h_9 => exact hi.elim
  case h_10 => exact hi.elim
  case h_11 => simp at h

-- ---------------------------------------------------------------------------
-- Following all messages through a run
-- ---------------------------------------------------------------------------

variable [Fintype C] [Fintype W]

/-- The invariant of asynchronous runs. -/
structure Pool.Tracked (s : Pool C W) (past : List Event) : Prop where
  async : ∀ t, ∀ i ∈ s.stack t, i.async
  counts : ∀ m, s.weight (countsFor m) (fun _ => 0) + (returnedMsgs past).count m =
    if m < s.nextMsg then 1 else 0
  handles : ∀ m, s.weight (handlesFor m) (isMsg m) + (handledMsgs past).count m =
    if m < s.nextMsg then 1 else 0
  unhandled : s.unhandledCnt =
    UInt64.ofNat (returnedMsgs past).length - UInt64.ofNat (handledMsgs past).length

omit [DecidableEq C] [DecidableEq W] in
theorem Pool.tracked_initial : (Pool.initial : Pool C W).Tracked [] := by
  have hstacks : ∀ w : Instr W → Nat, w .body = 0 →
      total w (Pool.initial : Pool C W).stack = 0 := by
    intro w hw
    apply total_eq_zero
    rintro (c | v) i hi
    · rw [List.mem_singleton.mp hi]
      exact hw
    · cases hi
  have hqueues : ∀ w : Nat → Nat, total w (Pool.initial : Pool C W).queue = 0 := by
    intro w
    apply total_eq_zero
    intro v m hm
    cases hm
  refine ⟨?_, ?_, ?_, rfl⟩
  · rintro (c | v) i hi
    · rw [List.mem_singleton.mp hi]
      trivial
    · cases hi
  · intro m
    rw [Pool.weight, hstacks _ rfl, hqueues]
    rfl
  · intro m
    rw [Pool.weight, hstacks _ rfl, hqueues]
    rfl

theorem returnedMsgs_append (a b : List Event) :
    returnedMsgs (a ++ b) = returnedMsgs a ++ returnedMsgs b := List.filterMap_append

theorem handledMsgs_append (a b : List Event) :
    handledMsgs (a ++ b) = handledMsgs a ++ handledMsgs b := List.filterMap_append

/-- Whether message `m` exists after a step. -/
theorem exists_after (m next : Nat) (new : Bool) :
    (if m < next then 1 else 0) + (if new = true ∧ next = m then 1 else 0) =
      if m < (if new then next + 1 else next) then 1 else 0 := by
  cases new with
  | false => simp
  | true =>
    simp only [true_and, if_true]
    split <;> split <;> split <;> omega

/-- A step of a thread. -/
theorem Pool.Tracked.exec (hengine : ∀ w, engine w = .lockDequeThread) {s s' : Pool C W}
    {t : Thread C W} {choice : Choice W} {past : List Event} (h : s.Tracked past)
    (hasync : Action.async (.exec t choice)) (hstep : s.step engine (.exec t choice) = some s') :
    s'.Tracked (past ++ s.events engine (.exec t choice)) := by
  obtain ⟨i, rest, e, hstack, hexec, rfl⟩ := Pool.step_exec hstep
  have hi : i.async := h.async t i (by simp [hstack])
  have htracks := exec_tracks hengine hasync hi hexec
  have hevents : s.events engine (.exec t choice) = i.events engine t choice := by
    rw [Pool.events, hstack]
  rw [hevents]
  constructor
  case async =>
    intro u j hj
    rcases eq_or_ne u t with rfl | hne
    · have hj' : j ∈ e.push ++ rest := by
        simpa [Pool.apply] using hj
      rcases List.mem_append.mp hj' with hpush | hrest
      · exact htracks.push_async j hpush
      · exact h.async u j (by simp [hstack, hrest])
    · have hj' : j ∈ s.stack u := by
        simpa [Pool.apply, hne] using hj
      exact h.async u j hj'
  case counts =>
    intro m
    have hweight := Pool.weight_apply (countsFor m) (fun _ => 0) hstack e
    have hlocal := htracks.counts m
    have hbefore := h.counts m
    have hafter := exists_after m s.nextMsg e.newMsg
    rw [returnedMsgs_append, List.count_append]
    show _ = if m < (if e.newMsg then s.nextMsg + 1 else s.nextMsg) then 1 else 0
    omega
  case handles =>
    intro m
    have hweight := Pool.weight_apply (handlesFor m) (isMsg m) hstack e
    have hlocal := htracks.handles m
    have hbefore := h.handles m
    have hafter := exists_after m s.nextMsg e.newMsg
    rw [handledMsgs_append, List.count_append]
    show _ = if m < (if e.newMsg then s.nextMsg + 1 else s.nextMsg) then 1 else 0
    omega
  case unhandled =>
    show s.unhandledCnt + e.unhandled = _
    rw [h.unhandled, htracks.unhandled, returnedMsgs_append, handledMsgs_append,
      List.length_append, List.length_append, UInt64.ofNat_add, UInt64.ofNat_add]
    grind

/-- A worker takes a task. -/
theorem Pool.Tracked.take {s s' : Pool C W} {w : W} {n : Nat} {past : List Event}
    (h : s.Tracked past) (hstep : s.step engine (.take w n) = some s') :
    s'.Tracked (past ++ s.events engine (.take w n)) := by
  have hcounts : ∀ m, s'.weight (countsFor m) (fun _ => 0) =
      s.weight (countsFor m) (fun _ => 0) := fun m =>
    Pool.weight_take (fun k => by simp [onMessage, addHandleCnt, countsFor]) hstep
  have hhandles : ∀ m, s'.weight (handlesFor m) (isMsg m) = s.weight (handlesFor m) (isMsg m) :=
    fun m => Pool.weight_take
      (fun k => by simp [onMessage, addHandleCnt, handlesFor, isMsg]) hstep
  rw [Pool.events, List.append_nil]
  obtain ⟨k, -, -, rfl⟩ := Pool.step_take hstep
  refine ⟨?_, ?_, ?_, h.unhandled⟩
  · intro u j hj
    rcases eq_or_ne u (.inr w) with rfl | hne
    · have hj' : j ∈ (onMessage k : List (Instr W)) := by simpa using hj
      simp only [onMessage, addHandleCnt, List.mem_cons, List.not_mem_nil, or_false] at hj'
      rcases hj' with rfl | rfl | rfl <;> trivial
    · have hj' : j ∈ s.stack u := by simpa [hne] using hj
      exact h.async u j hj'
  · intro m
    rw [hcounts m]
    exact h.counts m
  · intro m
    rw [hhandles m]
    exact h.handles m

/-- **One step** of an asynchronous run. -/
theorem Pool.Tracked.step (hengine : ∀ w, engine w = .lockDequeThread) {s s' : Pool C W}
    {a : Action C W} {past : List Event} (h : s.Tracked past) (hasync : a.async)
    (hstep : s.step engine a = some s') : s'.Tracked (past ++ s.events engine a) := by
  cases a with
  | exec t choice => exact h.exec hengine hasync hstep
  | take w n => exact h.take hstep
  | setPromise m value =>
    rw [Pool.events, List.append_nil]
    obtain rfl := Pool.step_setPromise hstep
    exact ⟨h.async, h.counts, h.handles, h.unhandled⟩

omit [DecidableEq C] [DecidableEq W] in
/-- No message returns twice, and none is handled twice. -/
theorem Pool.Tracked.nodup {s : Pool C W} {past : List Event} (h : s.Tracked past) :
    (returnedMsgs past).Nodup ∧ (handledMsgs past).Nodup := by
  rw [List.nodup_iff_count_le_one, List.nodup_iff_count_le_one]
  refine ⟨?_, ?_⟩
  · intro m
    have := h.counts m
    split at this <;> omega
  · intro m
    have := h.handles m
    split at this <;> omega

/-- Two lists of one length without repetitions: each contains the other or neither does. -/
theorem subset_comm_of_nodup {l l' : List Nat} (hl : l.Nodup) (hl' : l'.Nodup)
    (hlen : l.length = l'.length) : l ⊆ l' ↔ l' ⊆ l := by
  refine ⟨?_, ?_⟩
  · intro hsub
    exact (((List.subperm_of_subset hl hsub).perm_of_length_le hlen.ge).symm).subset
  · intro hsub
    exact (((List.subperm_of_subset hl' hsub).perm_of_length_le hlen.le).symm).subset

/-- **`AllTaskDone`.** For any number of threads posting to workers with locked deques,
whenever `AllTaskDone()` reads zero: every message whose `PostMsg` has returned has been
handled, iff no message was handled whose `PostMsg` has not returned yet. -/
theorem allTaskDone_sound_iff (hengine : ∀ w, engine w = .lockDequeThread)
    {acts : List (Action C W)} (hasync : ∀ a ∈ acts, a.async) (hlen : acts.length < 2 ^ 64)
    {s : Pool C W} (hrun : Schedule.run (Pool.step engine) Pool.initial acts = some s)
    (hdone : s.allTaskDone = true) :
    returnedMsgs (Schedule.outputs (Pool.step engine) (Pool.events engine) Pool.initial acts) ⊆
        handledMsgs (Schedule.outputs (Pool.step engine) (Pool.events engine) Pool.initial acts) ↔
      handledMsgs (Schedule.outputs (Pool.step engine) (Pool.events engine) Pool.initial acts) ⊆
        returnedMsgs
          (Schedule.outputs (Pool.step engine) (Pool.events engine) Pool.initial acts) := by
  set past := Schedule.outputs (Pool.step engine) (Pool.events engine) Pool.initial acts with hpast
  have htracked : s.Tracked ([] ++ past) := by
    refine Schedule.run_invariant_outputs (Pool.step engine) Pool.Tracked ?_ Pool.tracked_initial
      (Schedule.stepsMeet_of_forall _ (fun a ha _ => hasync a ha) _) hrun
    exact fun _ _ _ _ h hok hstep => h.step hengine hok hstep
  rw [List.nil_append] at htracked
  obtain ⟨hreturned, hhandled⟩ := htracked.nodup
  refine subset_comm_of_nodup hreturned hhandled ?_
  -- the counter reads zero, and there are too few events for it to have gone around
  have hone : ∀ (u : Pool C W) (a : Action C W), (u.events engine a).length ≤ 1 := by
    intro u a
    unfold Pool.events Instr.events
    repeat' split
    all_goals simp
  have hshort : past.length < 2 ^ 64 :=
    lt_of_le_of_lt (Schedule.length_outputs_le (Pool.step engine) hone _ acts) hlen
  have hreturnedLen : (returnedMsgs past).length ≤ past.length := List.length_filterMap_le ..
  have hhandledLen : (handledMsgs past).length ≤ past.length := List.length_filterMap_le ..
  have hzero : s.unhandledCnt = 0 := by
    simpa [Pool.allTaskDone] using hdone
  have heq : UInt64.ofNat (returnedMsgs past).length = UInt64.ofNat (handledMsgs past).length := by
    have hunhandled := htracked.unhandled
    rw [hzero] at hunhandled
    exact sub_eq_zero.mp hunhandled.symm
  rw [← UInt64.toNat_inj, UInt64.toNat_ofNat', UInt64.toNat_ofNat',
    Nat.mod_eq_of_lt (lt_of_le_of_lt hreturnedLen hshort),
    Nat.mod_eq_of_lt (lt_of_le_of_lt hhandledLen hshort)] at heq
  exact heq

end Done

/-- All workers have a locked deque. -/
def dequeWorker (_ : Unit) : Engine := .lockDequeThread

/-- A client's whole `PostMsg`. -/
def wholePost (c : Bool) : List (Action Bool Unit) :=
  [.exec (.inl c) (.callPostMsg ()), .exec (.inl c) (.posted true), .exec (.inl c) .go,
    .exec (.inl c) .go]

/-- The worker takes the oldest task and handles it. -/
def handleNext : List (Action Bool Unit) :=
  [.take () 0, .exec (.inr ()) .finish, .exec (.inr ()) .go, .exec (.inr ()) .go]

/-- A message posted, counted and then handled. -/
theorem allTaskDone_sound_wholePost : ∃ s,
    Schedule.run (Pool.step dequeWorker) Pool.initial (wholePost false ++ handleNext) = some s ∧
      s.allTaskDone = true ∧
      (returnedMsgs (Schedule.outputs (Pool.step dequeWorker) (Pool.events dequeWorker)
          Pool.initial (wholePost false ++ handleNext)) ⊆
        handledMsgs (Schedule.outputs (Pool.step dequeWorker) (Pool.events dequeWorker)
          Pool.initial (wholePost false ++ handleNext)) ↔
        handledMsgs (Schedule.outputs (Pool.step dequeWorker) (Pool.events dequeWorker)
          Pool.initial (wholePost false ++ handleNext)) ⊆
        returnedMsgs (Schedule.outputs (Pool.step dequeWorker) (Pool.events dequeWorker)
          Pool.initial (wholePost false ++ handleNext))) :=
  ⟨_, rfl, rfl, allTaskDone_sound_iff (fun _ => rfl)
    (by simp [wholePost, handleNext, Action.async]) (by decide) rfl rfl⟩

/-- One client has enqueued message 0 and not yet counted it when the worker handles
it; another client's message 1 brings the counter back to zero. -/
def earlyHandling : List (Action Bool Unit) :=
  [.exec (.inl false) (.callPostMsg ()), .exec (.inl false) (.posted true)] ++ handleNext ++
    wholePost true

/-- `AllTaskDone()` is true while message 1, whose `PostMsg` has returned, is queued. -/
theorem allTaskDone_earlyHandling : ∃ s,
    Schedule.run (Pool.step dequeWorker) Pool.initial earlyHandling = some s ∧
      s.allTaskDone = true ∧ s.queue () = [1] ∧
      returnedMsgs (Schedule.outputs (Pool.step dequeWorker) (Pool.events dequeWorker)
        Pool.initial earlyHandling) = [1] ∧
      handledMsgs (Schedule.outputs (Pool.step dequeWorker) (Pool.events dequeWorker)
        Pool.initial earlyHandling) = [0] :=
  ⟨_, rfl, rfl, rfl, rfl, rfl⟩

end Zrtools.IoPool
