import Zrtools.IoPool.Done

/-!
# zrtools — callers that wait for good

`PostSyncMsg` to another thread waits for the answer in `future_obj.get()`. The promise
is set by whoever was given it, and nobody is given it before the task was run. A task
that was never queued, or that only lies in the queues of threads that wait
themselves, will not be run.

* `Pool.Numbered` — the invariant: a message is in one place at most, a pending `Post`, a
  queue or the hands of a handler;
* `Pool.Blocked.run` — threads that wait for such tasks wait in every continuation;
* `refused_sync_blocks` — the caller of a `PostSyncMsg` that was refused is one of them: the
  result of `Post` is not looked at.
-/

namespace Zrtools.IoPool

open Weights

-- ---------------------------------------------------------------------------
-- Where a message is
-- ---------------------------------------------------------------------------

/-- The message that a pending instruction has still to hand over. -/
def carries {W : Type} (m : Nat) : Instr W → Nat
  | .post _ k => if k = m then 1 else 0
  | _ => 0

/-- What an effect hands to a handler. -/
def Effect.lends {W : Type} (m : Nat) (e : Effect W) : Nat := if e.lend = some m then 1 else 0

/-- The increments that stand between `Post` and `get()`. -/
def Instr.counts {W : Type} : Instr W → Prop
  | .incPost => True
  | .incUnhandled _ => True
  | _ => False

section Blocked

variable {C W : Type} [DecidableEq C] [DecidableEq W] {engine : W → Engine}

/-- Where the messages of an effect come from: they are new, or were pending. -/
structure Effect.Passes (e : Effect W) (i : Instr W) (next : Nat) : Prop where
  carries : ∀ m, e.weight (carries m) (isMsg m) + e.lends m ≤
    carries m i + if e.newMsg = true ∧ next = m then 1 else 0
  lend : ∀ m, e.lend = some m → m = next ∨ ∃ w, i = .post w m
  enqueue : ∀ w m, e.enqueue = some (w, m) → i = .post w m
  posts : ∀ w m, .post w m ∈ e.push → m = next

theorem exec_passes {s : Pool C W} {t : Thread C W} {i : Instr W} {choice : Choice W}
    {e : Effect W} (h : s.exec engine t i choice = some e) : e.Passes i s.nextMsg := by
  unfold Pool.exec at h
  split at h
  case h_1 =>
    obtain rfl := Option.some.inj h
    constructor <;> simp [Effect.weight, Effect.lends, IoPool.carries]
  case h_2 w =>
    obtain rfl := Option.some.inj h
    constructor <;> simp [Effect.weight, Effect.lends, IoPool.carries, postMsg, addPostCnt]
  case h_3 w =>
    split at h
    all_goals
      obtain rfl := Option.some.inj h
      constructor <;> simp [Effect.weight, Effect.lends, IoPool.carries, ownSyncMsg, otherSyncMsg,
        onMessage, addPostCnt, addHandleCnt]
  case h_4 w k accepted =>
    split at h
    · obtain rfl := Option.some.inj h
      constructor <;> simp [Effect.weight, Effect.lends, IoPool.carries, onMessage, addHandleCnt]
    · split at h
      · obtain rfl := Option.some.inj h
        constructor <;> simp [Effect.weight, Effect.lends, IoPool.carries, isMsg]
      · split at h
        · obtain rfl := Option.some.inj h
          constructor <;> simp [Effect.weight, Effect.lends, IoPool.carries]
        · simp at h
  case h_9 k =>
    split at h
    · obtain rfl := Option.some.inj h
      constructor <;> simp [Effect.weight, Effect.lends, IoPool.carries]
    · simp at h
  case h_10 k =>
    split at h
    all_goals first
      | (obtain rfl := Option.some.inj h
         constructor <;> simp [Effect.weight, Effect.lends, IoPool.carries, ownSyncCount,
           addPostCnt, addHandleCnt])
      | simp at h
  case h_11 => simp at h
  all_goals
    obtain rfl := Option.some.inj h
    constructor <;> simp [Effect.weight, Effect.lends, IoPool.carries]

variable [Fintype C] [Fintype W]

/-- Every message is in one place at most, and a promise was lent before it was set. -/
structure Pool.Numbered (s : Pool C W) : Prop where
  once : ∀ m, s.weight (carries m) (isMsg m) + (s.lent m).toNat ≤ if m < s.nextMsg then 1 else 0
  lent : ∀ m, s.promise m ≠ none → s.lent m = true

omit [DecidableEq C] [DecidableEq W] in
theorem Pool.numbered_initial : (Pool.initial : Pool C W).Numbered := by
  refine ⟨?_, fun m hm => absurd rfl hm⟩
  intro m
  have hstacks : total (carries m) (Pool.initial : Pool C W).stack = 0 := by
    apply total_eq_zero
    rintro (c | v) i hi
    · rw [List.mem_singleton.mp hi]
      rfl
    · cases hi
  have hqueues : total (isMsg m) (Pool.initial : Pool C W).queue = 0 := by
    apply total_eq_zero
    intro v k hk
    cases hk
  rw [Pool.weight, hstacks, hqueues]
  exact Nat.zero_le _

/-- Taking a task, for weights that differ between a queued message and its `OnMessage`. -/
theorem Pool.weight_taken (wInstr : Instr W → Nat) (wMsg : Nat → Nat)
    {s s' : Pool C W} {w : W} {n : Nat} (hstep : s.step engine (.take w n) = some s') :
    ∃ m, (s.queue w)[n]? = some m ∧
      s'.weight wInstr wMsg + wMsg m = s.weight wInstr wMsg + listWeight wInstr (onMessage m) := by
  obtain ⟨m, hidle, hm, rfl⟩ := Pool.step_take hstep
  have hstacks := total_update wInstr s.stack (.inr w) (onMessage m)
  have hqueues := total_update wMsg s.queue w ((s.queue w).eraseIdx n)
  rw [hidle, listWeight_nil, add_zero] at hstacks
  rw [← listWeight_eraseIdx wMsg hm] at hqueues
  refine ⟨m, hm, ?_⟩
  show total wInstr (Function.update s.stack (.inr w) (onMessage m)) +
      total wMsg (Function.update s.queue w ((s.queue w).eraseIdx n)) + wMsg m =
    total wInstr s.stack + total wMsg s.queue + listWeight wInstr (onMessage m)
  omega

omit [Fintype C] [Fintype W] in
theorem Pool.lent_apply {s : Pool C W} (t : Thread C W) (rest : List (Instr W)) (e : Effect W)
    {m : Nat} (h : s.lent m = true) : (s.apply t rest e).lent m = true := by
  cases hlend : e.lend with
  | none => simpa [Pool.apply, hlend] using h
  | some k =>
    rcases eq_or_ne m k with rfl | hne
    · simp [Pool.apply, hlend]
    · simpa [Pool.apply, hlend, hne] using h

theorem Pool.Numbered.exec {s s' : Pool C W} {t : Thread C W} {choice : Choice W}
    (h : s.Numbered) (hstep : s.step engine (.exec t choice) = some s') : s'.Numbered := by
  obtain ⟨i, rest, e, hstack, hexec, rfl⟩ := Pool.step_exec hstep
  have hpasses := exec_passes hexec
  have hlent : ∀ m, ((s.apply t rest e).lent m).toNat ≤ (s.lent m).toNat + e.lends m := by
    intro m
    cases hlend : e.lend with
    | none =>
      simp [Pool.apply, hlend]
    | some k =>
      rcases eq_or_ne m k with rfl | hne
      · simp [Pool.apply, hlend, Effect.lends]
      · simp [Pool.apply, hlend, hne]
  refine ⟨?_, ?_⟩
  · intro m
    have hweight := Pool.weight_apply (carries m) (isMsg m) hstack e
    have hcarries := hpasses.carries m
    have hbefore := h.once m
    have hafter := exists_after m s.nextMsg e.newMsg
    have hmore := hlent m
    show _ ≤ if m < (if e.newMsg then s.nextMsg + 1 else s.nextMsg) then 1 else 0
    omega
  · exact fun m hm => Pool.lent_apply t rest e (h.lent m hm)

theorem Pool.Numbered.take {s s' : Pool C W} {w : W} {n : Nat} (h : s.Numbered)
    (hstep : s.step engine (.take w n) = some s') : s'.Numbered := by
  have hweight := fun m => Pool.weight_taken (carries m) (isMsg m) hstep
  obtain ⟨k, -, hk, rfl⟩ := Pool.step_take hstep
  have hlent : ∀ m, Function.update s.lent k true m = true ↔ m = k ∨ s.lent m = true := by
    intro m
    rcases eq_or_ne m k with rfl | hne
    · simp
    · simp [hne]
  refine ⟨?_, ?_⟩
  · intro m
    obtain ⟨k', hk', hweight⟩ := hweight m
    obtain rfl : k = k' := Option.some.inj (hk.symm.trans hk')
    have hcarries : listWeight (carries m) (onMessage k : List (Instr W)) = 0 := by
      simp [onMessage, addHandleCnt, carries]
    have hbefore := h.once m
    rw [hcarries, add_zero] at hweight
    rcases eq_or_ne m k with rfl | hne
    · -- the message leaves the queue and is lent
      simp only [isMsg, if_true] at hweight
      have hle : (Function.update s.lent m true m).toNat ≤ 1 := Bool.toNat_le _
      show _ + (Function.update s.lent m true m).toNat ≤ if m < s.nextMsg then 1 else 0
      omega
    · rw [isMsg, if_neg (Ne.symm hne), add_zero] at hweight
      show _ + (Function.update s.lent k true m).toNat ≤ if m < s.nextMsg then 1 else 0
      rw [hweight, Function.update_of_ne hne]
      exact hbefore
  · intro m hm
    exact (hlent m).mpr (.inr (h.lent m hm))

theorem Pool.Numbered.step {s s' : Pool C W} {a : Action C W} (h : s.Numbered)
    (hstep : s.step engine a = some s') : s'.Numbered := by
  cases a with
  | exec t choice => exact h.exec hstep
  | take w n => exact h.take hstep
  | setPromise m value =>
    rw [Pool.step] at hstep
    split at hstep
    case isFalse => simp at hstep
    case isTrue hlent =>
      obtain rfl := Option.some.inj hstep
      refine ⟨h.once, ?_⟩
      intro k hk
      rcases eq_or_ne k m with rfl | hne
      · exact hlent.1
      · have hbefore : s.promise k ≠ none := by
          simpa [hne] using hk
        exact h.lent k hbefore

theorem Pool.numbered {acts : List (Action C W)} {s : Pool C W}
    (hrun : Schedule.run (Pool.step engine) Pool.initial acts = some s) : s.Numbered :=
  Schedule.run_invariant (Pool.step engine) Pool.Numbered (fun _ _ _ h hstep => h.step hstep)
    Pool.numbered_initial hrun

omit [DecidableEq C] [DecidableEq W] in
/-- A message that is pending or queued is there once, and no handler had it yet. -/
theorem Pool.Numbered.once_pending {s : Pool C W} (h : s.Numbered) {m : Nat}
    (hpending : 1 ≤ s.weight (carries m) (isMsg m)) :
    s.weight (carries m) (isMsg m) = 1 ∧ m < s.nextMsg ∧ s.lent m = false ∧
      s.promise m = none := by
  have honce := h.once m
  have hknown : m < s.nextMsg := by
    by_contra hnot
    rw [if_neg hnot] at honce
    omega
  rw [if_pos hknown] at honce
  have hnotLent : s.lent m = false := by
    cases hlent : s.lent m with
    | false => rfl
    | true =>
      rw [hlent, Bool.toNat_true] at honce
      omega
  refine ⟨by omega, hknown, hnotLent, ?_⟩
  by_contra hset
  rw [h.lent m hset] at hnotLent
  cases hnotLent

-- ---------------------------------------------------------------------------
-- Waiting for a task that is not run
-- ---------------------------------------------------------------------------

/-- Message `m` was not given to a handler, and lies in queues of the threads `B` only. -/
structure Pool.Buried (B : Thread C W → Prop) (s : Pool C W) (m : Nat) : Prop where
  known : m < s.nextMsg
  notLent : s.lent m = false
  unset : s.promise m = none
  posts : ∀ t w, .post w m ∉ s.stack t
  queues : ∀ w, m ∈ s.queue w → B (.inr w)

/-- Where `waits t m rest`, thread `t` waits or is about to wait for message `m`, has `rest` left
after that, and `m` lies in queues of such threads only. -/
def Pool.Blocked (waits : Thread C W → Nat → List (Instr W) → Prop) (s : Pool C W) : Prop :=
  ∀ t m rest, waits t m rest →
    (∃ pre, s.stack t = pre ++ .get m :: rest ∧ ∀ i ∈ pre, i.counts) ∧
      s.Buried (fun u => ∃ k more, waits u k more) m

omit [Fintype C] [Fintype W] in
/-- What a blocked thread can still do: count. -/
theorem exec_counts {s : Pool C W} {t : Thread C W} {i : Instr W} {choice : Choice W}
    {e : Effect W} (hi : i.counts) (h : s.exec engine t i choice = some e) :
    e.push = [] ∧ e.enqueue = none ∧ e.newMsg = false ∧ e.lend = none := by
  cases i with
  | incPost =>
    cases choice <;> simp [Pool.exec] at h
    subst h
    exact ⟨rfl, rfl, rfl, rfl⟩
  | incUnhandled k =>
    cases choice <;> simp [Pool.exec] at h
    subst h
    exact ⟨rfl, rfl, rfl, rfl⟩
  | _ => exact hi.elim

omit [Fintype C] [Fintype W] in
theorem Pool.Buried.exec {B : Thread C W → Prop} {s s' : Pool C W} {t : Thread C W}
    {choice : Choice W} {m : Nat} (h : s.Buried B m)
    (hstep : s.step engine (.exec t choice) = some s') : s'.Buried B m := by
  obtain ⟨i, rest, e, hstack, hexec, rfl⟩ := Pool.step_exec hstep
  have hpasses := exec_passes hexec
  have hnotPost : ∀ w, i ≠ .post w m := by
    rintro w rfl
    exact h.posts t w (by simp [hstack])
  refine ⟨?_, ?_, h.unset, ?_, ?_⟩
  · have := h.known
    show m < (if e.newMsg then s.nextMsg + 1 else s.nextMsg)
    split <;> omega
  · cases hlend : e.lend with
    | none => simpa [Pool.apply, hlend] using h.notLent
    | some k =>
      have hne : m ≠ k := by
        rintro rfl
        rcases hpasses.lend m hlend with hnew | ⟨w, hpost⟩
        · exact absurd h.known (by omega)
        · exact hnotPost w hpost
      simpa [Pool.apply, hlend, hne] using h.notLent
  · intro u w hmem
    rcases eq_or_ne u t with rfl | hne
    · have hmem' : .post w m ∈ e.push ++ rest := by simpa [Pool.apply] using hmem
      rcases List.mem_append.mp hmem' with hpush | hrest
      · exact absurd h.known (by rw [hpasses.posts w m hpush]; omega)
      · exact h.posts u w (by simp [hstack, hrest])
    · exact h.posts u w (by simpa [Pool.apply, hne] using hmem)
  · intro w hmem
    cases henqueue : e.enqueue with
    | none => exact h.queues w (by simpa [Pool.apply, henqueue] using hmem)
    | some p =>
      obtain ⟨v, k⟩ := p
      have hne : m ≠ k := by
        rintro rfl
        exact hnotPost v (hpasses.enqueue v m henqueue)
      rcases eq_or_ne w v with rfl | hother
      · exact h.queues w (by simpa [Pool.apply, henqueue, hne] using hmem)
      · exact h.queues w (by simpa [Pool.apply, henqueue, hother] using hmem)

variable {waits : Thread C W → Nat → List (Instr W) → Prop}

omit [Fintype C] [Fintype W] in
/-- **One step** of a pool with blocked threads. -/
theorem Pool.Blocked.step {s s' : Pool C W} {a : Action C W} (h : s.Blocked waits)
    (hstep : s.step engine a = some s') : s'.Blocked waits := by
  intro t m rest ht
  obtain ⟨⟨pre, hstack, hcounts⟩, hburied⟩ := h t m rest ht
  cases a with
  | exec u choice =>
    have hburied' := hburied.exec hstep
    obtain ⟨i, more, e, hstackU, hexec, rfl⟩ := Pool.step_exec hstep
    rcases eq_or_ne t u with rfl | hne
    · rw [hstack] at hstackU
      cases pre with
      | nil =>
        -- the promise was not set, so `get()` does not return
        rw [List.nil_append, List.cons.injEq] at hstackU
        obtain ⟨rfl, -⟩ := hstackU
        cases choice <;> simp [Pool.exec, hburied.unset] at hexec
      | cons j pre =>
        rw [List.cons_append, List.cons.injEq] at hstackU
        obtain ⟨rfl, rfl⟩ := hstackU
        obtain ⟨hpush, -⟩ := exec_counts (hcounts j (List.mem_cons_self ..)) hexec
        refine ⟨⟨pre, ?_, fun k hk => hcounts k (List.mem_cons_of_mem _ hk)⟩, hburied'⟩
        simp [Pool.apply, hpush]
    · exact ⟨⟨pre, by simpa [Pool.apply, hne] using hstack, hcounts⟩, hburied'⟩
  | take w n =>
    obtain ⟨k, hidle, hk, rfl⟩ := Pool.step_take hstep
    -- a worker that waits is not in the loop that takes tasks
    have hother : ∀ u j more, waits u j more → u ≠ .inr w := by
      rintro u j more hu rfl
      obtain ⟨⟨pre', hstack', -⟩, -⟩ := h _ _ _ hu
      rw [hidle] at hstack'
      exact absurd hstack'.symm (by simp)
    have hne : m ≠ k := by
      rintro rfl
      obtain ⟨j, more, hw⟩ := hburied.queues w (List.mem_of_getElem? hk)
      exact hother _ _ _ hw rfl
    refine ⟨⟨pre, by simpa [hother t m rest ht] using hstack, hcounts⟩, hburied.known, ?_,
      hburied.unset, ?_, ?_⟩
    · simpa [hne] using hburied.notLent
    · intro u v hmem
      rcases eq_or_ne u (.inr w) with rfl | hu
      · simp [onMessage, addHandleCnt] at hmem
      · exact hburied.posts u v (by simpa [hu] using hmem)
    · intro v hmem
      rcases eq_or_ne v w with rfl | hv
      · exact hburied.queues v (List.mem_of_mem_eraseIdx (by simpa using hmem))
      · exact hburied.queues v (by simpa [hv] using hmem)
  | setPromise k value =>
    rw [Pool.step] at hstep
    split at hstep
    case isFalse => simp at hstep
    case isTrue hlent =>
      obtain rfl := Option.some.inj hstep
      have hne : m ≠ k := by
        rintro rfl
        rw [hburied.notLent] at hlent
        exact absurd hlent.1 (by simp)
      refine ⟨⟨pre, hstack, hcounts⟩, hburied.known, hburied.notLent, ?_, hburied.posts,
        hburied.queues⟩
      simpa [hne] using hburied.unset

omit [Fintype C] [Fintype W] in
/-- **Runs.** Blocked threads stay blocked, whatever anybody does. -/
theorem Pool.Blocked.run {s s' : Pool C W} (h : s.Blocked waits) {acts : List (Action C W)}
    (hrun : Schedule.run (Pool.step engine) s acts = some s') : s'.Blocked waits :=
  Schedule.run_invariant (Pool.step engine) (Pool.Blocked waits)
    (fun _ _ _ h hstep => h.step hstep) h hrun

omit [DecidableEq C] [DecidableEq W] in
/-- A message that is nowhere is in no `Post` and in no queue. -/
theorem Pool.nowhere_of_weight {s : Pool C W} {m : Nat}
    (h : s.weight (carries m) (isMsg m) = 0) :
    (∀ t w, .post w m ∉ s.stack t) ∧ ∀ w, m ∉ s.queue w := by
  unfold Pool.weight at h
  refine ⟨?_, ?_⟩
  · intro t w hmem
    have hone : carries m (.post w m) ≤ total (carries m) s.stack := le_total hmem
    simp only [carries, if_true] at hone
    omega
  · intro w hmem
    have hone : isMsg m m ≤ total (isMsg m) s.queue := le_total hmem
    simp only [isMsg, if_true] at hone
    omega

omit [Fintype C] [Fintype W] in
/-- What a refused `Post` does: nothing. -/
theorem exec_refused {s : Pool C W} {t : Thread C W} {w : W} {m : Nat} {e : Effect W}
    (hrefused : .refused ∈ (Instr.post w m).events engine t (.posted false))
    (h : s.exec engine t (.post w m) (.posted false) = some e) : e = {} := by
  have hqueues : (engine w).runsInline = false := by
    rw [Instr.events] at hrefused
    split at hrefused
    · rename_i hcond
      exact hcond.1
    · simp at hrefused
  rw [Pool.exec, if_neg (by simp [hqueues]), if_neg (by simp)] at h
  split at h
  · exact (Option.some.inj h).symm
  · simp at h

/-- **Refused calls.** When the `Post` of a `PostSyncMsg` to another thread is refused, the caller
waits for an answer in every continuation. -/
theorem refused_sync_blocks {acts later : List (Action C W)} {s s' s'' : Pool C W}
    {t : Thread C W} {w : W} {m : Nat} {rest : List (Instr W)}
    (hrun : Schedule.run (Pool.step engine) Pool.initial acts = some s)
    (hstack : s.stack t = otherSyncMsg w m ++ rest)
    (hrefused : .refused ∈ s.events engine (.exec t (.posted false)))
    (hstep : s.step engine (.exec t (.posted false)) = some s')
    (hlater : Schedule.run (Pool.step engine) s' later = some s'') :
    (∃ pre, s''.stack t = pre ++ .get m :: rest) ∧ s''.lent m = false ∧ s''.promise m = none := by
  have hnumbered := Pool.numbered hrun
  have hstack' : s.stack t = .post w m :: (addPostCnt m ++ .get m :: rest) := hstack
  rw [Pool.events, hstack'] at hrefused
  obtain ⟨i, more, e, hi, hexec, rfl⟩ := Pool.step_exec hstep
  rw [hstack', List.cons.injEq] at hi
  obtain ⟨rfl, rfl⟩ := hi
  obtain rfl := exec_refused hrefused hexec
  -- the message was in the `Post` alone, and is nowhere after it
  have hmem : .post w m ∈ s.stack t := by simp [hstack']
  have hpost : carries m (.post w m) ≤ total (carries m) s.stack := le_total hmem
  simp only [carries, if_true] at hpost
  obtain ⟨hone, hknown, hnotLent, hunset⟩ :=
    hnumbered.once_pending (hpost.trans (Nat.le_add_right _ _))
  have hweight := Pool.weight_apply (carries m) (isMsg m) hstack' {}
  set u := s.apply t (addPostCnt m ++ .get m :: rest) {} with hu
  have hzero : u.weight (carries m) (isMsg m) = 0 := by
    simp only [carries, if_true, Effect.weight, listWeight_nil] at hweight
    omega
  obtain ⟨hposts, hqueues⟩ := Pool.nowhere_of_weight hzero
  have hblocked : u.Blocked (fun t' k more => t' = t ∧ k = m ∧ more = rest) := by
    rintro t' k more ⟨rfl, rfl, rfl⟩
    refine ⟨⟨addPostCnt k, by simp [hu, Pool.apply], ?_⟩, hknown, hnotLent, hunset, hposts, ?_⟩
    · intro i hi
      simp only [addPostCnt, List.mem_cons, List.not_mem_nil, or_false] at hi
      rcases hi with rfl | rfl <;> trivial
    · exact fun v hv => absurd hv (hqueues v)
  obtain ⟨⟨pre, hpre, -⟩, hburied⟩ := hblocked.run hlater t m rest ⟨rfl, rfl, rfl⟩
  exact ⟨⟨pre, hpre⟩, hburied.notLent, hburied.unset⟩

end Blocked

-- ---------------------------------------------------------------------------
-- A full ring
-- ---------------------------------------------------------------------------

/-- One worker with a lock-free ring. -/
def ringWorker (_ : Unit) : Engine := .boostLockfreeThread

/-- A client calls `PostSyncMsg`, the ring is full, the client goes on to `get()`, and the
worker finds nothing to do. -/
theorem refused_sync_blocks_ring : ∃ s s' s'' : Pool Unit Unit,
    Schedule.run (Pool.step ringWorker) Pool.initial
        [.exec (.inl ()) (.callPostSyncMsg ())] = some s ∧
      s.step ringWorker (.exec (.inl ()) (.posted false)) = some s' ∧
      Schedule.run (Pool.step ringWorker) s'
        [.exec (.inl ()) .go, .exec (.inl ()) .go] = some s'' ∧
      (∃ pre, s''.stack (.inl ()) = pre ++ [.get 0, .body]) ∧
      s''.lent 0 = false ∧ s''.promise 0 = none :=
  ⟨_, _, _, rfl, rfl, rfl,
    @refused_sync_blocks Unit Unit _ _ ringWorker _ _ [.exec (.inl ()) (.callPostSyncMsg ())]
      [.exec (.inl ()) .go, .exec (.inl ()) .go] _ _ _ (.inl ()) () 0 [.body]
      rfl rfl (List.mem_singleton.mpr rfl) rfl rfl⟩

end Zrtools.IoPool
