import Mathlib.Data.List.Induction
import Mathlib.Logic.Function.Basic
import Zrtools.Lib.Schedule

/-!
# zrtools — dispatch and synchronous messages (`i_handler.h`)

Callbacks are installed for message types, those of synchronous messages in a table of their own,
and the ids of both in one set. A synchronous message brings a promise along, whose future its
sender waits for, whether or not the engine took the task. The calls that count messages are those
of the model of the pool.

* `msgIdSet_iff` — what the set of ids says about the tables;
* `onSyncMessage_isSome_iff` — when a dispatch gives the promise something;
* `call_stage` — the states of a `PostSyncMsg` call;
* `stage_returns`, `reaches_stuck` — when it returns, and when it waits for good;
* `postSyncMsg_answered_iff` — when it gets an answer.
-/

namespace Zrtools.IoPool.Dispatch

open Schedule

-- ---------------------------------------------------------------------------
-- Handlers
-- ---------------------------------------------------------------------------

/-- What a promise is given: a value or an exception. -/
inductive Answer (Buffer : Type) where
  | value (buffer : Buffer)
  | error

/-- A promise, and what it was given. -/
abbrev Promise (Buffer : Type) := Option (Answer Buffer)

/-- A callback for synchronous messages, which fulfils the promise it is handed. -/
structure SyncCallback (Buffer : Type) where
  call : Int → Buffer → Promise Buffer → Promise Buffer
  fulfils : ∀ msgType buffer, (call msgType buffer none).isSome

/-- The errors that are logged: "msg_type({}) has been overwritten" and "no handler for message
type: {}". -/
inductive LogLine where
  | overwritten (msgType : Int)
  | noHandler (msgType : Int)
  deriving DecidableEq

/-- The members of `IHandler`. The default callbacks may be empty functions. -/
structure Handler (Callback Buffer : Type) where
  msgIdSet : Int → Bool := fun _ => false
  msgHandlerMap : Int → Option Callback := fun _ => none
  msgSyncHandlerMap : Int → Option (SyncCallback Buffer) := fun _ => none
  defaultHandler : Option Callback := none
  defaultSyncHandler : Option (SyncCallback Buffer) := none

/-- The calls that install a callback. -/
inductive Install (Callback Buffer : Type) where
  | handler (msgType : Int) (callback : Callback)
  | syncHandler (msgType : Int) (callback : SyncCallback Buffer)
  | defaultHandler (callback : Option Callback)
  | defaultSyncHandler (callback : Option (SyncCallback Buffer))

variable {Callback Buffer : Type}

namespace Handler

/-- The part of `InstallHandler` and `InstallSyncHandler` that sees to the ids. -/
def addId (h : Handler Callback Buffer) (msgType : Int) : Handler Callback Buffer × List LogLine :=
  if h.msgIdSet msgType then (h, [.overwritten msgType])
  else ({ h with msgIdSet := Function.update h.msgIdSet msgType true }, [])

/-- `InstallHandler`, `InstallSyncHandler`, `InstallDefaultHandler` and
`InstallDefaultSyncHandler`. -/
def install (h : Handler Callback Buffer) :
    Install Callback Buffer → Handler Callback Buffer × List LogLine
  | .handler msgType callback =>
    addId { h with
      msgHandlerMap := Function.update h.msgHandlerMap msgType (some callback) } msgType
  | .syncHandler msgType callback =>
    addId { h with
      msgSyncHandlerMap := Function.update h.msgSyncHandlerMap msgType (some callback) } msgType
  | .defaultHandler callback => ({ h with defaultHandler := callback }, [])
  | .defaultSyncHandler callback => ({ h with defaultSyncHandler := callback }, [])

/-- The handler after a history of installations. -/
def installed (history : List (Install Callback Buffer)) : Handler Callback Buffer :=
  history.foldl (fun h i => (h.install i).1) {}

/-- `OnSyncMessage`: the promise afterwards. -/
def onSyncMessage (h : Handler Callback Buffer) (msgType : Int) (buffer : Buffer)
    (promise : Promise Buffer) : Promise Buffer × List LogLine :=
  match h.msgSyncHandlerMap msgType, h.defaultSyncHandler with
  | some callback, _ => (callback.call msgType buffer promise, [])
  | none, some callback => (callback.call msgType buffer promise, [])
  | none, none => (promise, [.noHandler msgType])

end Handler

-- ---------------------------------------------------------------------------
-- `PostSyncMsg`
-- ---------------------------------------------------------------------------

/-- Where the caller is: before the call, at `get()`, or back from it. -/
inductive Position (Buffer : Type) where
  | start
  | waiting
  | returned (answer : Answer Buffer)

/-- A call to `PostSyncMsg`: its promise, and whether its task is still in the queue. -/
structure Call (Buffer : Type) where
  caller : Position Buffer := .start
  queued : Bool := false
  promise : Promise Buffer := none

/-- A step of the caller, or of the thread that handles the messages. -/
inductive Turn where
  | caller
  | worker

/-- What the call meets: what `IsInThread()` says of its thread, what `Post` answers, which is
false where the queue of the engine is full or gets no memory, and whether the thread of the engine
gets as far as a task it has taken, which it does not after a stop. -/
structure Engine where
  inThread : Bool
  accepts : Bool
  serves : Bool

/-- One step. -/
def Call.step (h : Handler Callback Buffer) (msgType : Int) (buffer : Buffer) (engine : Engine)
    (s : Call Buffer) : Turn → Option (Call Buffer)
  | .caller =>
    match s.caller with
    | .start =>
      if engine.inThread then
        some { s with caller := .waiting, promise := (h.onSyncMessage msgType buffer s.promise).1 }
      -- the answer of `Post` is not looked at
      else some { s with caller := .waiting, queued := engine.accepts }
    -- `get()` waits until the promise was given something
    | .waiting => s.promise.map fun answer => { s with caller := .returned answer }
    | .returned _ => none
  | .worker =>
    if s.queued && engine.serves then
      some { s with queued := false, promise := (h.onSyncMessage msgType buffer s.promise).1 }
    else none

/-- The call has returned. -/
def Call.Returned (s : Call Buffer) : Prop := ∃ answer, s.caller = .returned answer

-- ---------------------------------------------------------------------------
-- The tables
-- ---------------------------------------------------------------------------

namespace Handler

theorem installed_concat (history : List (Install Callback Buffer)) (i : Install Callback Buffer) :
    installed (history ++ [i]) = ((installed history).install i).1 := by
  rw [installed, installed, List.foldl_append]
  rfl

@[simp] theorem addId_msgSyncHandlerMap (h : Handler Callback Buffer) (msgType : Int) :
    (h.addId msgType).1.msgSyncHandlerMap = h.msgSyncHandlerMap := by
  unfold addId
  split <;> rfl

@[simp] theorem addId_msgHandlerMap (h : Handler Callback Buffer) (msgType : Int) :
    (h.addId msgType).1.msgHandlerMap = h.msgHandlerMap := by
  unfold addId
  split <;> rfl

@[simp] theorem addId_defaultSyncHandler (h : Handler Callback Buffer) (msgType : Int) :
    (h.addId msgType).1.defaultSyncHandler = h.defaultSyncHandler := by
  unfold addId
  split <;> rfl

theorem addId_msgIdSet (h : Handler Callback Buffer) (msgType m : Int) :
    (h.addId msgType).1.msgIdSet m = true ↔ m = msgType ∨ h.msgIdSet m = true := by
  unfold addId
  split
  · rename_i hmem
    refine ⟨?_, ?_⟩
    · exact Or.inr
    · rintro (rfl | hm)
      · exact hmem
      · exact hm
  · by_cases hm : m = msgType
    · simp [hm]
    · simp [hm, Function.update_of_ne]

/-- The ids are those of both tables. -/
theorem msgIdSet_iff (history : List (Install Callback Buffer)) (m : Int) :
    (installed history).msgIdSet m = true ↔
      ((installed history).msgHandlerMap m).isSome ∨
        ((installed history).msgSyncHandlerMap m).isSome := by
  induction history using List.reverseRecOn with
  | nil => simp [installed]
  | append_singleton history i ih =>
    rw [installed_concat]
    cases i with
    | handler msgType callback =>
      rw [install, addId_msgIdSet, addId_msgHandlerMap, addId_msgSyncHandlerMap]
      by_cases hm : m = msgType
      · simp [hm]
      · simp [hm, ih]
    | syncHandler msgType callback =>
      rw [install, addId_msgIdSet, addId_msgHandlerMap, addId_msgSyncHandlerMap]
      by_cases hm : m = msgType
      · simp [hm]
      · simp [hm, ih]
    | defaultHandler callback => exact ih
    | defaultSyncHandler callback => exact ih

theorem msgSyncHandlerMap_isSome_iff (history : List (Install Callback Buffer)) (m : Int) :
    ((installed history).msgSyncHandlerMap m).isSome ↔ ∃ callback, .syncHandler m callback ∈ history
    := by
  induction history using List.reverseRecOn with
  | nil => simp [installed]
  | append_singleton history i ih =>
    rw [installed_concat]
    cases i with
    | handler msgType callback => simp [install, ih]
    | syncHandler msgType callback =>
      by_cases hm : m = msgType
      · simp [install, hm]
      · simp [install, hm, ih]
    | defaultHandler callback => simp [install, ih]
    | defaultSyncHandler callback => simp [install, ih]

end Handler

/-- Of the default callbacks for synchronous messages, the last one is not empty. -/
def LastDefault (history : List (Install Callback Buffer)) : Prop :=
  ∃ front callback back, history = front ++ .defaultSyncHandler (some callback) :: back ∧
    ∀ c, .defaultSyncHandler c ∉ back

theorem lastDefault_concat {history : List (Install Callback Buffer)} {i : Install Callback Buffer}
    (h : ∀ c, i ≠ .defaultSyncHandler c) : LastDefault (history ++ [i]) ↔ LastDefault history := by
  refine ⟨?_, ?_⟩
  · rintro ⟨front, callback, back, heq, hback⟩
    rcases List.eq_nil_or_concat back with rfl | ⟨back, j, rfl⟩
    · exact absurd (List.append_inj_right' heq rfl) (by simpa using h (some callback))
    · rw [List.concat_eq_append, ← List.cons_append, ← List.append_assoc] at heq
      refine ⟨front, callback, back, List.append_inj_left' heq rfl, fun c hc => ?_⟩
      exact hback c (by simp [hc])
  · rintro ⟨front, callback, back, rfl, hback⟩
    refine ⟨front, callback, back ++ [i], by simp, fun c hc => ?_⟩
    rcases List.mem_append.mp hc with hc | hc
    · exact hback c hc
    · exact h c (List.mem_singleton.mp hc).symm

theorem lastDefault_concat_default {history : List (Install Callback Buffer)}
    {callback : Option (SyncCallback Buffer)} :
    LastDefault (history ++ [.defaultSyncHandler callback]) ↔ callback.isSome := by
  refine ⟨?_, ?_⟩
  · rintro ⟨front, c, back, heq, hback⟩
    rcases List.eq_nil_or_concat back with rfl | ⟨back, j, rfl⟩
    · have hlast := List.append_inj_right' heq rfl
      simp only [List.cons.injEq, Install.defaultSyncHandler.injEq, and_true] at hlast
      rw [hlast]
      rfl
    · rw [List.concat_eq_append, ← List.cons_append, ← List.append_assoc] at heq
      have hlast := List.append_inj_right' heq rfl
      exact absurd (by simp [← hlast]) (hback callback)
  · intro h
    obtain ⟨c, rfl⟩ := Option.isSome_iff_exists.mp h
    exact ⟨history, c, [], rfl, fun _ => List.not_mem_nil⟩

theorem Handler.defaultSyncHandler_isSome_iff (history : List (Install Callback Buffer)) :
    (installed history).defaultSyncHandler.isSome ↔ LastDefault history := by
  induction history using List.reverseRecOn with
  | nil => simp [installed, LastDefault]
  | append_singleton history i ih =>
    rw [installed_concat]
    cases i with
    | handler msgType callback =>
      rw [lastDefault_concat (by simp), ← ih, install, addId_defaultSyncHandler]
    | syncHandler msgType callback =>
      rw [lastDefault_concat (by simp), ← ih, install, addId_defaultSyncHandler]
    | defaultHandler callback => rw [lastDefault_concat (by simp), ← ih, install]
    | defaultSyncHandler callback => rw [lastDefault_concat_default, install]

-- ---------------------------------------------------------------------------
-- The call
-- ---------------------------------------------------------------------------

/-- A callback for a synchronous message of this type. -/
def HasSyncHandler (history : List (Install Callback Buffer)) (msgType : Int) : Prop :=
  (∃ callback, .syncHandler msgType callback ∈ history) ∨ LastDefault history

theorem Handler.onSyncMessage_isSome_iff (h : Handler Callback Buffer) (msgType : Int)
    (buffer : Buffer) : (h.onSyncMessage msgType buffer none).1.isSome ↔
      (h.msgSyncHandlerMap msgType).isSome ∨ h.defaultSyncHandler.isSome := by
  unfold onSyncMessage
  cases h.msgSyncHandlerMap msgType with
  | some callback => exact iff_of_true (callback.fulfils ..) (Or.inl rfl)
  | none =>
    cases h.defaultSyncHandler with
    | some callback => exact iff_of_true (callback.fulfils ..) (Or.inr rfl)
    | none => simp

section Run

variable (h : Handler Callback Buffer) (msgType : Int) (buffer : Buffer) (engine : Engine)

/-- What `OnSyncMessage` makes of the promise of the call. -/
def outcome : Promise Buffer := (h.onSyncMessage msgType buffer none).1

/-- The states of a call: not begun, posted or refused, handled, and returned. -/
inductive Stage : Call Buffer → Prop where
  | start : Stage {}
  | posted : engine.inThread = false → Stage { caller := .waiting, queued := engine.accepts }
  | handled : Stage { caller := .waiting, promise := outcome h msgType buffer }
  | returned (answer : Answer Buffer) : outcome h msgType buffer = some answer →
    Stage { caller := .returned answer, promise := outcome h msgType buffer }

variable {h msgType buffer engine}

theorem stage_step {s s' : Call Buffer} {turn : Turn} (hs : Stage h msgType buffer engine s)
    (hstep : s.step h msgType buffer engine turn = some s') :
    Stage h msgType buffer engine s' := by
  cases hs with
  | start =>
    cases turn with
    | worker => simp [Call.step] at hstep
    | caller =>
      cases hthread : engine.inThread with
      | true =>
        simp only [Call.step, hthread, if_true] at hstep
        cases hstep
        exact .handled
      | false =>
        simp only [Call.step, hthread, Bool.false_eq_true, if_false] at hstep
        cases hstep
        exact .posted hthread
  | posted hthread =>
    cases turn with
    | caller => simp [Call.step] at hstep
    | worker =>
      obtain ⟨-, heq⟩ := Option.ite_none_right_eq_some.mp hstep
      obtain rfl := Option.some.inj heq
      exact .handled
  | handled =>
    cases turn with
    | worker => simp [Call.step] at hstep
    | caller =>
      obtain ⟨answer, hanswer, rfl⟩ := Option.map_eq_some_iff.mp hstep
      exact .returned answer hanswer
  | returned answer hanswer => cases turn <;> simp [Call.step] at hstep

/-- Every state of a call is one of these. -/
theorem call_stage {turns : List Turn} {s : Call Buffer}
    (hrun : run (Call.step h msgType buffer engine) {} turns = some s) :
    Stage h msgType buffer engine s :=
  run_invariant _ _ (fun _ _ _ => stage_step) .start hrun

/-- A promise that was given something lets the caller go. -/
theorem get_returns (engine : Engine) {answer : Answer Buffer}
    (hanswer : outcome h msgType buffer = some answer) :
    ∃ t, run (Call.step h msgType buffer engine)
        { caller := .waiting, promise := outcome h msgType buffer } [.caller] = some t ∧
      t.Returned := by
  refine ⟨{ caller := .returned answer, promise := some answer }, ?_, answer, rfl⟩
  rw [hanswer]
  rfl

/-- A task that was taken is handled. -/
theorem worker_handles (haccepts : engine.accepts = true) (hserves : engine.serves = true) :
    Call.step h msgType buffer engine { caller := .waiting, queued := engine.accepts } .worker =
      some { caller := .waiting, promise := outcome h msgType buffer } := by
  simp [Call.step, haccepts, hserves, outcome]

/-- Where the promise is given something and the task gets to the handler, the call returns in a
few more turns. -/
theorem stage_returns {answer : Answer Buffer} (hanswer : outcome h msgType buffer = some answer)
    (htaken : engine.inThread = true ∨ engine.accepts = true ∧ engine.serves = true)
    {s : Call Buffer} (hs : Stage h msgType buffer engine s) :
    ∃ more t, run (Call.step h msgType buffer engine) s more = some t ∧ t.Returned := by
  obtain ⟨t, hget, hreturned⟩ := get_returns engine hanswer
  cases hs with
  | start =>
    cases hthread : engine.inThread with
    | true =>
      refine ⟨.caller :: [.caller], t, (run_cons _).mpr ⟨_, ?_, hget⟩, hreturned⟩
      simp [Call.step, hthread, outcome]
    | false =>
      obtain ⟨haccepts, hserves⟩ := htaken.resolve_left (by simp [hthread])
      refine ⟨.caller :: .worker :: [.caller], t, (run_cons _).mpr ⟨_, ?_,
        (run_cons _).mpr ⟨_, worker_handles haccepts hserves, hget⟩⟩, hreturned⟩
      simp [Call.step, hthread]
  | posted hthread =>
    obtain ⟨haccepts, hserves⟩ := htaken.resolve_left (by simp [hthread])
    exact ⟨.worker :: [.caller], t,
      (run_cons _).mpr ⟨_, worker_handles haccepts hserves, hget⟩, hreturned⟩
  | handled => exact ⟨[.caller], t, hget, hreturned⟩
  | returned answer' => exact ⟨[], _, rfl, answer', rfl⟩

/-- The caller waits, with nothing in the promise and no task that anybody will come to. -/
def Stuck (engine : Engine) (s : Call Buffer) : Prop :=
  s.caller = .waiting ∧ s.promise = none ∧ (s.queued && engine.serves) = false

/-- Where the promise is left alone, or the task is refused or left in the queue, the call comes to
such a state. -/
theorem reaches_stuck (hlost : outcome h msgType buffer = none ∨
      engine.inThread = false ∧ (engine.accepts && engine.serves) = false) :
    ∃ turns s, run (Call.step h msgType buffer engine) {} turns = some s ∧ Stuck engine s := by
  cases hthread : engine.inThread with
  | true =>
    have hnone := hlost.resolve_right (by simp [hthread])
    refine ⟨[.caller], { caller := .waiting, promise := outcome h msgType buffer }, ?_, rfl, hnone,
      rfl⟩
    simp [run, Call.step, hthread, outcome]
  | false =>
    have hpost : Call.step h msgType buffer engine {} .caller =
        some { caller := .waiting, queued := engine.accepts } := by simp [Call.step, hthread]
    cases hserved : engine.accepts && engine.serves with
    | true =>
      have hnone := hlost.resolve_right (by simp [hserved])
      obtain ⟨haccepts, hserves⟩ := Bool.and_eq_true_iff.mp hserved
      exact ⟨.caller :: .worker :: [], _, (run_cons _).mpr ⟨_, hpost,
        (run_cons _).mpr ⟨_, worker_handles haccepts hserves, rfl⟩⟩, rfl, hnone, rfl⟩
    | false => exact ⟨.caller :: [], _, (run_cons _).mpr ⟨_, hpost, rfl⟩, rfl, rfl, hserved⟩

/-- From there it does not return. -/
theorem Stuck.not_returns {s t : Call Buffer} (hs : Stuck engine s) {more : List Turn}
    (hrun : run (Call.step h msgType buffer engine) s more = some t) : ¬t.Returned := by
  obtain ⟨hcaller, hpromise, hqueued⟩ := hs
  cases more with
  | nil =>
    cases hrun
    rintro ⟨answer, hanswer⟩
    rw [hcaller] at hanswer
    cases hanswer
  | cons turn more =>
    obtain ⟨u, hu, -⟩ := (run_cons _).mp hrun
    cases turn <;> simp [Call.step, hcaller, hpromise, hqueued] at hu

end Run

/-- **When a synchronous message is answered.** `OnSyncMessage` fulfils the promise exactly where
there is a callback. The call returns in whatever state it is, exactly where the message also gets
to it: in the handling thread, or because the engine takes the task and serves it. -/
theorem postSyncMsg_answered_iff (history : List (Install Callback Buffer)) (msgType : Int)
    (buffer : Buffer) (engine : Engine) :
    (((Handler.installed history).onSyncMessage msgType buffer none).1.isSome ↔
      HasSyncHandler history msgType) ∧
    ((∀ turns s,
        run (Call.step (Handler.installed history) msgType buffer engine) {} turns = some s →
        ∃ more t, run (Call.step (Handler.installed history) msgType buffer engine) s more =
          some t ∧ t.Returned) ↔
      HasSyncHandler history msgType ∧
        (engine.inThread = true ∨ engine.accepts = true ∧ engine.serves = true)) := by
  have hhas : ((Handler.installed history).onSyncMessage msgType buffer none).1.isSome ↔
      HasSyncHandler history msgType := by
    rw [Handler.onSyncMessage_isSome_iff, Handler.msgSyncHandlerMap_isSome_iff,
      Handler.defaultSyncHandler_isSome_iff, HasSyncHandler]
  refine ⟨hhas, ?_⟩
  rw [← hhas]
  constructor
  · intro hreturns
    by_contra hnot
    have hlost : outcome (Handler.installed history) msgType buffer = none ∨
        engine.inThread = false ∧ (engine.accepts && engine.serves) = false := by
      rcases not_and_or.mp hnot with hnone | htaken
      · exact Or.inl (Option.not_isSome_iff_eq_none.mp hnone)
      · rw [← Bool.and_eq_true_iff, not_or] at htaken
        exact Or.inr (htaken.imp (Bool.not_eq_true _).mp (Bool.not_eq_true _).mp)
    obtain ⟨turns, s, hrun, hstuck⟩ := reaches_stuck hlost
    obtain ⟨more, t, hmore, hreturned⟩ := hreturns turns s hrun
    exact hstuck.not_returns hmore hreturned
  · rintro ⟨hsome, htaken⟩
    obtain ⟨answer, hanswer⟩ := Option.isSome_iff_exists.mp hsome
    exact fun turns s hrun => stage_returns hanswer htaken (call_stage hrun)

/-- A callback for asynchronous messages is installed, and a synchronous one is posted to an engine
that takes and serves it. -/
theorem postSyncMsg_unanswered :
    ¬∀ (history : List (Install Unit Unit)) (msgType : Int) (buffer : Unit) (inThread : Bool),
      ((Handler.installed history).onSyncMessage msgType buffer none).1.isSome ∧
      ∀ turns s,
        run (Call.step (Handler.installed history) msgType buffer ⟨inThread, true, true⟩) {} turns =
          some s →
        ∃ more t, run (Call.step (Handler.installed history) msgType buffer
          ⟨inThread, true, true⟩) s more = some t ∧ t.Returned := by
  intro hall
  have hfulfilled := (hall [.handler 1 ()] 1 () false).1
  exact Bool.false_ne_true hfulfilled

end Zrtools.IoPool.Dispatch
