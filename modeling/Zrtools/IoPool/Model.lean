import Zrtools.Lib.Schedule
import Zrtools.Lib.Weights
import Mathlib.Data.Fintype.Sum

/-!
# zrtools — the engine pool (`io_pool_v2`)

Threads that post messages to handlers, and the workers that handle them. A
thread holds the list of steps it still has to take; the code of a client or of a
handler is a step `body` that may call `PostMsg` and `PostSyncMsg` any number of
times before it ends. One step is one access to shared memory: an enqueue, a
dequeue, or an increment or decrement of one of the three counters.

What a message says and which callback it is dispatched to does not matter to the
accounting: `OnMessage` and `OnSyncMessage` count the message in every case. A
message is the number of the call that sent it.
-/

namespace Zrtools.IoPool

open Weights

/-- The `IThread` implementations. -/
inductive Engine where
  | syncThread
  | lockDequeThread
  | boostAsioThread
  | boostLockfreeThread
  | moodyCamelThread
  deriving DecidableEq

namespace Engine

/-- `Post` runs the task on the spot. -/
def runsInline : Engine → Bool
  | syncThread => true
  | _ => false

/-- `Post` may return false: the ring of `boost::lockfree::queue` is full, or
`ConcurrentQueue::enqueue` found no memory. -/
def mayRefuse : Engine → Bool
  | boostLockfreeThread => true
  | moodyCamelThread => true
  | _ => false

/-- Tasks leave the queue in the order they came; a `ConcurrentQueue` keeps that
order only for each producer. -/
def fifo : Engine → Bool
  | moodyCamelThread => false
  | _ => true

end Engine

/-- A thread is a client or the thread of a worker. -/
abbrev Thread (C W : Type) := C ⊕ W

/-- The steps of `i_handler.h` and `engine_pool.h`; the `m` of the two middle ones
only says for which message they count. -/
inductive Instr (W : Type) where
  | body
  | post (w : W) (m : Nat)
  | incPost
  | incUnhandled (m : Nat)
  | incHandle
  | decUnhandled (m : Nat)
  | get (m : Nat)
  | getOwn (m : Nat)
  deriving DecidableEq

section Code

variable {W : Type}

/-- `AddPostCnt()`. -/
def addPostCnt (m : Nat) : List (Instr W) := [.incPost, .incUnhandled m]

/-- `AddHandleCnt()`. -/
def addHandleCnt (m : Nat) : List (Instr W) := [.incHandle, .decUnhandled m]

/-- `OnMessage` and `OnSyncMessage`: the callback, if any, and the count. -/
def onMessage (m : Nat) : List (Instr W) := .body :: addHandleCnt m

/-- `PostMsg` to a handler on worker `w`. -/
def postMsg (w : W) (m : Nat) : List (Instr W) := .post w m :: addPostCnt m

/-- `PostSyncMsg` where `IsInThread()` holds, up to `get()`. -/
def ownSyncMsg (m : Nat) : List (Instr W) := onMessage m ++ [.getOwn m]

/-- What follows `get()` there, when it returned a value. -/
def ownSyncCount (m : Nat) : List (Instr W) := addPostCnt m ++ addHandleCnt m

/-- `PostSyncMsg` from another thread. -/
def otherSyncMsg (w : W) (m : Nat) : List (Instr W) := .post w m :: (addPostCnt m ++ [.get m])

end Code

/-- What a thread does next, where that is open: a body ends or makes a call, and a
`Post` is accepted or refused. -/
inductive Choice (W : Type) where
  | finish
  | callPostMsg (w : W)
  | callPostSyncMsg (w : W)
  | posted (accepted : Bool)
  | go
  deriving DecidableEq

/-- `EnginePool` and its threads. A promise holds whether it was set to a value
(`true`) or to an exception (`false`). -/
structure Pool (C W : Type) where
  stack : Thread C W → List (Instr W)
  queue : W → List Nat
  nextMsg : Nat
  lent : Nat → Bool
  promise : Nat → Option Bool
  postCnt : UInt64
  handleCnt : UInt64
  unhandledCnt : UInt64

/-- What one step changes besides taking itself off its thread's list. -/
structure Effect (W : Type) where
  push : List (Instr W) := []
  enqueue : Option (W × Nat) := none
  newMsg : Bool := false
  lend : Option Nat := none
  post : UInt64 := 0
  handle : UInt64 := 0
  unhandled : UInt64 := 0

/-- One step of the system. -/
inductive Action (C W : Type) where
  | exec (t : Thread C W) (choice : Choice W)
  | take (w : W) (n : Nat)
  | setPromise (m : Nat) (value : Bool)

/-- What a run is observed by. -/
inductive Event where
  | refused
  | ownSync
  | counted (m : Nat)
  | finished (m : Nat)
  deriving DecidableEq

section Machine

variable {C W : Type} [DecidableEq C] [DecidableEq W] (engine : W → Engine)

/-- `IsInThread()` of worker `w`, asked on thread `t`. -/
def isInThread (t : Thread C W) (w : W) : Bool :=
  (engine w).runsInline || decide (t = .inr w)

/-- `EnginePool::AllTaskDone()`. -/
def Pool.allTaskDone (s : Pool C W) : Bool := s.unhandledCnt == 0

/-- One step of a thread, by the instruction it is at. -/
def Pool.exec (s : Pool C W) (t : Thread C W) : Instr W → Choice W → Option (Effect W)
  | .body, .finish => some {}
  | .body, .callPostMsg w => some { push := postMsg w s.nextMsg ++ [.body], newMsg := true }
  | .body, .callPostSyncMsg w =>
    if isInThread engine t w then
      some { push := ownSyncMsg s.nextMsg ++ [.body], newMsg := true, lend := some s.nextMsg }
    else some { push := otherSyncMsg w s.nextMsg ++ [.body], newMsg := true }
  | .post w m, .posted accepted =>
    if (engine w).runsInline then some { push := onMessage m, lend := some m }
    else if accepted then some { enqueue := some (w, m) }
    else if (engine w).mayRefuse then some {}
    else none
  | .incPost, .go => some { post := 1 }
  | .incUnhandled _, .go => some { unhandled := 1 }
  | .incHandle, .go => some { handle := 1 }
  | .decUnhandled _, .go => some { unhandled := -1 }
  | .get m, .go => if (s.promise m).isSome then some {} else none
  | .getOwn m, .go =>
    match s.promise m with
    | some true => some { push := ownSyncCount m }
    -- `get()` rethrows: the call ends before it counts
    | some false => some {}
    | none => none
  | _, _ => none

/-- The state after a step whose thread has `rest` left. -/
def Pool.apply (s : Pool C W) (t : Thread C W) (rest : List (Instr W)) (e : Effect W) :
    Pool C W where
  stack := Function.update s.stack t (e.push ++ rest)
  queue :=
    match e.enqueue with
    | some (w, m) => Function.update s.queue w (s.queue w ++ [m])
    | none => s.queue
  nextMsg := if e.newMsg then s.nextMsg + 1 else s.nextMsg
  lent :=
    match e.lend with
    | some m => Function.update s.lent m true
    | none => s.lent
  promise := s.promise
  postCnt := s.postCnt + e.post
  handleCnt := s.handleCnt + e.handle
  unhandledCnt := s.unhandledCnt + e.unhandled

/-- One step: a thread goes on, the loop of a worker takes a task, or someone sets a
promise that a handler was given. -/
def Pool.step (s : Pool C W) : Action C W → Option (Pool C W)
  | .exec t choice =>
    match s.stack t with
    | [] => none
    | i :: rest => (s.exec engine t i choice).map (s.apply t rest)
  | .take w n =>
    if s.stack (.inr w) = [] ∧ ((engine w).fifo = true → n = 0) then
      match (s.queue w)[n]? with
      | some m =>
        some { s with
          stack := Function.update s.stack (.inr w) (onMessage m),
          queue := Function.update s.queue w ((s.queue w).eraseIdx n),
          lent := Function.update s.lent m true }
      | none => none
    else none
  | .setPromise m value =>
    if s.lent m = true ∧ s.promise m = none then
      some { s with promise := Function.update s.promise m (some value) }
    else none

/-- What there is to see of a step of a thread. -/
def Instr.events (t : Thread C W) : Instr W → Choice W → List Event
  | .body, .callPostSyncMsg w => if isInThread engine t w then [.ownSync] else []
  | .post w _, .posted accepted =>
    if (engine w).runsInline = false ∧ accepted = false then [.refused] else []
  | .incUnhandled m, .go => [.counted m]
  | .decUnhandled m, .go => [.finished m]
  | _, _ => []

/-- What there is to see of a step. -/
def Pool.events (s : Pool C W) : Action C W → List Event
  | .exec t choice =>
    match s.stack t with
    | i :: _ => i.events engine t choice
    | [] => []
  | .take _ _ => []
  | .setPromise _ _ => []

/-- Every client about to run, every worker waiting, nothing posted. -/
def Pool.initial : Pool C W where
  stack
    | .inl _ => [.body]
    | .inr _ => []
  queue _ := []
  nextMsg := 0
  lent _ := false
  promise _ := none
  postCnt := 0
  handleCnt := 0
  unhandledCnt := 0

/-- All calls have returned, no task is queued and none is running. -/
structure Pool.Quiescent (s : Pool C W) : Prop where
  clients : ∀ c, s.stack (.inl c) = [.body] ∨ s.stack (.inl c) = []
  workers : ∀ w, s.stack (.inr w) = []
  queues : ∀ w, s.queue w = []

-- ---------------------------------------------------------------------------
-- Steps and weights
-- ---------------------------------------------------------------------------

variable {engine}

/-- What a step of a thread is made of. -/
theorem Pool.step_exec {s s' : Pool C W} {t : Thread C W} {choice : Choice W}
    (hstep : s.step engine (.exec t choice) = some s') :
    ∃ i rest e, s.stack t = i :: rest ∧ s.exec engine t i choice = some e ∧
      s' = s.apply t rest e := by
  rw [Pool.step] at hstep
  split at hstep
  case h_1 => simp at hstep
  case h_2 i rest hstack =>
    rw [Option.map_eq_some_iff] at hstep
    obtain ⟨e, he, rfl⟩ := hstep
    exact ⟨i, rest, e, hstack, he, rfl⟩

/-- The loop of an idle worker takes a task. -/
theorem Pool.step_take {s s' : Pool C W} {w : W} {n : Nat}
    (hstep : s.step engine (.take w n) = some s') :
    ∃ m, s.stack (.inr w) = [] ∧ (s.queue w)[n]? = some m ∧
      s' = { s with
        stack := Function.update s.stack (.inr w) (onMessage m),
        queue := Function.update s.queue w ((s.queue w).eraseIdx n),
        lent := Function.update s.lent m true } := by
  rw [Pool.step] at hstep
  split at hstep
  case isFalse => simp at hstep
  case isTrue hidle =>
    split at hstep
    case h_1 m hm => exact ⟨m, hidle.1, hm, (Option.some.inj hstep).symm⟩
    case h_2 => simp at hstep

theorem Pool.step_setPromise {s s' : Pool C W} {m : Nat} {value : Bool}
    (hstep : s.step engine (.setPromise m value) = some s') :
    s' = { s with promise := Function.update s.promise m (some value) } := by
  rw [Pool.step] at hstep
  split at hstep
  · exact (Option.some.inj hstep).symm
  · simp at hstep

variable {A : Type} [AddCancelCommMonoid A] [Fintype C] [Fintype W]

/-- What all pending instructions and all queued messages weigh. -/
def Pool.weight (wInstr : Instr W → A) (wMsg : Nat → A) (s : Pool C W) : A :=
  total wInstr s.stack + total wMsg s.queue

/-- What an effect adds to the pending work. -/
def Effect.weight (wInstr : Instr W → A) (wMsg : Nat → A) (e : Effect W) : A :=
  listWeight wInstr e.push +
    match e.enqueue with
    | some (_, m) => wMsg m
    | none => 0

/-- A step of a thread trades one instruction for its effect. -/
theorem Pool.weight_apply (wInstr : Instr W → A) (wMsg : Nat → A) {s : Pool C W}
    {t : Thread C W} {i : Instr W} {rest : List (Instr W)} (hstack : s.stack t = i :: rest)
    (e : Effect W) :
    (s.apply t rest e).weight wInstr wMsg + wInstr i =
      s.weight wInstr wMsg + e.weight wInstr wMsg := by
  obtain ⟨push, enqueue, newMsg, lend, post, handle, unhandled⟩ := e
  have hstacks := total_update wInstr s.stack t (push ++ rest)
  rw [hstack, listWeight_cons, listWeight_append] at hstacks
  apply add_right_cancel (b := listWeight wInstr rest)
  rcases enqueue with _ | ⟨w, m⟩
  · calc total wInstr (Function.update s.stack t (push ++ rest)) + total wMsg s.queue +
          wInstr i + listWeight wInstr rest
        = total wInstr (Function.update s.stack t (push ++ rest)) +
            (wInstr i + listWeight wInstr rest) + total wMsg s.queue := by abel
      _ = total wInstr s.stack + (listWeight wInstr push + listWeight wInstr rest) +
            total wMsg s.queue := by rw [hstacks]
      _ = total wInstr s.stack + total wMsg s.queue + (listWeight wInstr push + 0) +
            listWeight wInstr rest := by abel
  · -- the message is now in the queue
    have hqueues := total_update wMsg s.queue w (s.queue w ++ [m])
    rw [listWeight_append, listWeight_cons, listWeight_nil, add_zero] at hqueues
    have hqueue : total wMsg (Function.update s.queue w (s.queue w ++ [m])) =
        total wMsg s.queue + wMsg m := by
      apply add_right_cancel (b := listWeight wMsg (s.queue w))
      rw [hqueues]
      abel
    calc total wInstr (Function.update s.stack t (push ++ rest)) +
            total wMsg (Function.update s.queue w (s.queue w ++ [m])) +
          wInstr i + listWeight wInstr rest
        = total wInstr (Function.update s.stack t (push ++ rest)) +
            (wInstr i + listWeight wInstr rest) + (total wMsg s.queue + wMsg m) := by
          rw [hqueue]
          abel
      _ = total wInstr s.stack + (listWeight wInstr push + listWeight wInstr rest) +
            (total wMsg s.queue + wMsg m) := by rw [hstacks]
      _ = total wInstr s.stack + total wMsg s.queue + (listWeight wInstr push + wMsg m) +
            listWeight wInstr rest := by abel

/-- Taking a task trades the queued message for its `OnMessage`. -/
theorem Pool.weight_take {wInstr : Instr W → A} {wMsg : Nat → A}
    (honMessage : ∀ m, listWeight wInstr (onMessage m) = wMsg m) {s s' : Pool C W} {w : W}
    {n : Nat} (hstep : s.step engine (.take w n) = some s') :
    s'.weight wInstr wMsg = s.weight wInstr wMsg := by
  obtain ⟨m, hidle, hm, rfl⟩ := Pool.step_take hstep
  have hstacks := total_update wInstr s.stack (.inr w) (onMessage m)
  have hqueues := total_update wMsg s.queue w ((s.queue w).eraseIdx n)
  rw [hidle, listWeight_nil, add_zero, honMessage] at hstacks
  rw [← listWeight_eraseIdx wMsg hm] at hqueues
  show total wInstr (Function.update s.stack (.inr w) (onMessage m)) +
      total wMsg (Function.update s.queue w ((s.queue w).eraseIdx n)) =
    total wInstr s.stack + total wMsg s.queue
  apply add_right_cancel (b := listWeight wMsg ((s.queue w).eraseIdx n))
  rw [hstacks, add_assoc (total wInstr s.stack) (total wMsg s.queue), ← hqueues]
  abel

end Machine

end Zrtools.IoPool
