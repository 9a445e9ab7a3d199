import Zrtools.IoPool.Blocked
import Mathlib.Data.Fintype.EquivFin
import Mathlib.Order.WellFounded

/-!
# zrtools — deadlock between workers

`PostSyncMsg` asks `IsInThread()` so that a handler does not wait for itself. A handler may
still wait for a worker whose handler waits for it in turn. Here the programs are held
to a relation `R` between the workers: code on the thread of `w` calls `PostSyncMsg` for
a handler on `w'` only if `R w w'`. Clients may call whom they like, and no `Post` is
refused.

* `Pool.Orderly` — the invariant: who waits in `get()` waits for a message that is in the
  queue of a worker he may call, or in the hands of a handler;
* `Pool.Orderly.progress` — while anything is left to do, something can be finished, if
  no worker waits for itself in a circle;
* `Pool.exists_knot` — a circle of workers can call each other all at once;
* `sync_calls_return_iff` — all calls can come to their end, from every state, iff the
  relation has no circle.
-/

namespace Zrtools.IoPool

open Weights Relation

-- ---------------------------------------------------------------------------
-- Programs and their ends
-- ---------------------------------------------------------------------------

/-- The choices that start no call. -/
def Choice.finishes {W : Type} : Choice W → Prop
  | .callPostMsg _ => False
  | .callPostSyncMsg _ => False
  | .posted accepted => accepted = true
  | _ => True

/-- The steps that start no call: bodies end, workers take their tasks, handlers set their
promises. -/
def Action.finishes {C W : Type} : Action C W → Prop
  | .exec _ choice => choice.finishes
  | _ => True

section Deadlock

variable {C W : Type} [DecidableEq C] [DecidableEq W] (engine : W → Engine) (R : W → W → Prop)

/-- Code on the thread of `w` may have to wait for `w'`. -/
def WaitsFor (w w' : W) : Prop := R w w' ∧ w ≠ w' ∧ (engine w').runsInline = false

/-- Thread `t` may have to wait for worker `w`. -/
def MayWait (t : Thread C W) (w : W) : Prop :=
  (engine w).runsInline = false ∧ ∀ v, t = .inr v → WaitsFor engine R v w

/-- Steps of programs that keep to `R`, where no `Post` is refused. -/
def Pool.KeepsTo (s : Pool C W) (a : Action C W) : Prop :=
  (∀ w w', a = .exec (.inr w) (.callPostSyncMsg w') → R w w') ∧ .refused ∉ s.events engine a

-- ---------------------------------------------------------------------------
-- Who waits for what
-- ---------------------------------------------------------------------------

/-- Message `m` is on its way: in the queue of `w`, or a handler has it. -/
def Pool.Handed (s : Pool C W) (w : W) (m : Nat) : Prop := m ∈ s.queue w ∨ s.lent m = true

/-- The list of steps of thread `t`: there is one `get()` in it at most, and what precedes it is
what is left of its call. -/
inductive Pool.Waiting (s : Pool C W) (t : Thread C W) : List (Instr W) → Prop
  | free {l : List (Instr W)} (hfree : ∀ k, .get k ∉ l) : Pool.Waiting s t l
  | calling {w : W} {m : Nat} {l : List (Instr W)} (hw : MayWait engine R t w)
      (hfree : ∀ k, .get k ∉ l) : Pool.Waiting s t (otherSyncMsg w m ++ l)
  | sent {w : W} {m : Nat} {pre l : List (Instr W)} (hpre : ∀ i ∈ pre, i.counts)
      (hw : MayWait engine R t w) (hm : s.Handed w m) (hfree : ∀ k, .get k ∉ l) :
      Pool.Waiting s t (pre ++ .get m :: l)

/-- The invariant of programs that keep to `R`. -/
structure Pool.Orderly (s : Pool C W) : Prop where
  waiting : ∀ t, s.Waiting engine R t (s.stack t)
  own : ∀ t m, .getOwn m ∈ s.stack t → s.lent m = true

variable {engine R}

omit [DecidableEq C] [DecidableEq W] in
/-- What waits keeps waiting while its message stays on its way. -/
theorem Pool.Waiting.mono {s s' : Pool C W} {t : Thread C W} {l : List (Instr W)}
    (h : s.Waiting engine R t l) (hmono : ∀ w m, s.Handed w m → s'.Handed w m) :
    s'.Waiting engine R t l := by
  cases h with
  | free hfree => exact .free hfree
  | calling hw hfree => exact .calling hw hfree
  | sent hpre hw hm hfree => exact .sent hpre hw (hmono _ _ hm) hfree

/-- A step of a thread takes no message off its way. -/
theorem Pool.handed_apply {s : Pool C W} (t : Thread C W) (rest : List (Instr W)) (e : Effect W)
    {w : W} {m : Nat} (h : s.Handed w m) : (s.apply t rest e).Handed w m := by
  rcases h with hqueue | hlent
  · refine .inl ?_
    cases henqueue : e.enqueue with
    | none => simpa [Pool.apply, henqueue] using hqueue
    | some p =>
      rcases eq_or_ne w p.1 with rfl | hne
      · simp [Pool.apply, henqueue, hqueue]
      · simpa [Pool.apply, henqueue, hne] using hqueue
  · exact .inr (Pool.lent_apply t rest e hlent)

/-- Nor does a worker that takes a task: a handler has the message then. -/
theorem Pool.handed_take {s s' : Pool C W} {w : W} {n : Nat}
    (hstep : s.step engine (.take w n) = some s') {v : W} {m : Nat} (h : s.Handed v m) :
    s'.Handed v m := by
  obtain ⟨k, -, hk, rfl⟩ := Pool.step_take hstep
  rcases eq_or_ne m k with rfl | hm
  · exact .inr (by simp)
  · rcases h with hqueue | hlent
    · refine .inl ?_
      rcases eq_or_ne v w with rfl | hv
      · obtain ⟨j, hj⟩ := List.mem_iff_getElem?.mp hqueue
        have hne : j ≠ n := by
          rintro rfl
          exact hm (Option.some.inj (hj.symm.trans hk))
        have hmem : m ∈ (s.queue v).eraseIdx n :=
          List.mem_eraseIdx_iff_getElem?.mpr ⟨j, hne, hj⟩
        simpa using hmem
      · simpa [hv] using hqueue
    · exact .inr (by simpa [hm] using hlent)

/-- Where a new `get()` comes from; the message of the other one is lent at once. -/
structure Effect.Asks (engine : W → Engine) (e : Effect W) (t : Thread C W) (i : Instr W)
    (choice : Choice W) (next : Nat) : Prop where
  get : ∀ m, .get m ∈ e.push → ∃ w, i = .body ∧ choice = .callPostSyncMsg w ∧
    isInThread engine t w = false ∧ e.push = otherSyncMsg w next ++ [.body]
  getOwn : ∀ m, .getOwn m ∈ e.push → e.lend = some m

theorem exec_asks {s : Pool C W} {t : Thread C W} {i : Instr W} {choice : Choice W}
    {e : Effect W} (h : s.exec engine t i choice = some e) :
    e.Asks engine t i choice s.nextMsg := by
  unfold Pool.exec at h
  split at h
  case h_3 w =>
    split at h
    · obtain rfl := Option.some.inj h
      constructor <;> simp [ownSyncMsg, onMessage, addHandleCnt]
    · rename_i hother
      obtain rfl := Option.some.inj h
      refine ⟨fun _ _ => ⟨w, rfl, rfl, by simpa using hother, rfl⟩, ?_⟩
      simp [otherSyncMsg, addPostCnt]
  case h_4 w k accepted =>
    repeat' split at h
    all_goals first
      | (obtain rfl := Option.some.inj h
         constructor <;> simp [onMessage, addHandleCnt])
      | simp at h
  case h_9 k =>
    split at h
    · obtain rfl := Option.some.inj h
      constructor <;> simp
    · simp at h
  case h_10 k =>
    split at h
    all_goals first
      | (obtain rfl := Option.some.inj h
         constructor <;> simp [ownSyncCount, addPostCnt, addHandleCnt])
      | simp at h
  case h_11 => simp at h
  all_goals
    obtain rfl := Option.some.inj h
    constructor <;> simp [postMsg, addPostCnt]

/-- The rest of a list of steps waits as the list did, once its first step is done. -/
theorem Pool.Waiting.exec {s : Pool C W} {t : Thread C W} {i : Instr W} {rest : List (Instr W)}
    {choice : Choice W} {e : Effect W} (h : s.Waiting engine R t (i :: rest))
    (hkeeps : ∀ w w', t = .inr w → choice = .callPostSyncMsg w' → R w w')
    (hrefused : .refused ∉ i.events engine t choice) (hexec : s.exec engine t i choice = some e) :
    (s.apply t rest e).Waiting engine R t (e.push ++ rest) := by
  have hasks := exec_asks hexec
  generalize hl : i :: rest = l at h
  cases h with
  | free hfree =>
    subst hl
    have hrest : ∀ k, .get k ∉ rest := fun k hk => hfree k (List.mem_cons_of_mem _ hk)
    by_cases hget : ∃ k, .get k ∈ e.push
    · obtain ⟨k, hk⟩ := hget
      obtain ⟨w, rfl, rfl, hother, hpush⟩ := hasks.get k hk
      rw [hpush, List.append_assoc]
      simp only [isInThread, Bool.or_eq_false_iff, decide_eq_false_iff_not] at hother
      refine .calling ⟨hother.1, ?_⟩ ?_
      · rintro v rfl
        exact ⟨hkeeps v w rfl rfl, fun heq => hother.2 (by rw [heq]), hother.1⟩
      · intro j hj
        rw [List.singleton_append] at hj
        rcases List.mem_cons.mp hj with heq | hj
        · cases heq
        · exact hrest j hj
    · refine .free fun k hk => ?_
      rcases List.mem_append.mp hk with hpush | hk
      · exact hget ⟨k, hpush⟩
      · exact hrest k hk
  | @calling w m l hw hfree =>
    rw [otherSyncMsg, List.cons_append, List.cons.injEq] at hl
    obtain ⟨rfl, rfl⟩ := hl
    have hmode := hw.1
    cases choice <;> simp only [Pool.exec, reduceCtorEq] at hexec
    case posted accepted =>
      cases accepted with
      | false => exact absurd (by simp [Instr.events, hmode]) hrefused
      | true =>
        rw [if_neg (by simp [hmode]), if_pos rfl] at hexec
        obtain rfl := Option.some.inj hexec
        rw [List.nil_append, List.append_assoc]
        refine .sent ?_ hw (.inl (by simp [Pool.apply])) hfree
        intro j hj
        simp only [addPostCnt, List.mem_cons, List.not_mem_nil, or_false] at hj
        rcases hj with rfl | rfl <;> trivial
  | @sent w m pre l hpre hw hm hfree =>
    have hm' := Pool.handed_apply t rest e hm
    cases pre with
    | nil =>
      rw [List.nil_append, List.cons.injEq] at hl
      obtain ⟨rfl, rfl⟩ := hl
      refine .free fun k hk => ?_
      rcases List.mem_append.mp hk with hpush | hk
      · obtain ⟨_, hbody, -⟩ := hasks.get k hpush
        cases hbody
      · exact hfree k hk
    | cons j pre =>
      rw [List.cons_append, List.cons.injEq] at hl
      obtain ⟨rfl, rfl⟩ := hl
      obtain ⟨hpush, -⟩ := exec_counts (hpre _ (List.mem_cons_self ..)) hexec
      rw [hpush, List.nil_append]
      exact .sent (fun k hk => hpre k (List.mem_cons_of_mem _ hk)) hw hm' hfree

/-- **One step** of programs that keep to `R`. -/
theorem Pool.Orderly.step {s s' : Pool C W} {a : Action C W} (h : s.Orderly engine R)
    (hkeeps : s.KeepsTo engine R a) (hstep : s.step engine a = some s') :
    s'.Orderly engine R := by
  cases a with
  | exec t choice =>
    obtain ⟨i, rest, e, hstack, hexec, rfl⟩ := Pool.step_exec hstep
    have hmono := fun w m => Pool.handed_apply (s := s) t rest e (w := w) (m := m)
    have hrefused := hkeeps.2
    rw [Pool.events, hstack] at hrefused
    refine ⟨?_, ?_⟩
    · intro u
      rcases eq_or_ne u t with rfl | hne
      · have hu := h.waiting u
        rw [hstack] at hu
        have hnext := hu.exec (fun w w' ht hc => hkeeps.1 w w' (by rw [ht, hc])) hrefused hexec
        simpa [Pool.apply] using hnext
      · have hu := (h.waiting u).mono hmono
        simpa [Pool.apply, hne] using hu
    · intro u m hm
      rcases eq_or_ne u t with rfl | hne
      · have hm' : .getOwn m ∈ e.push ++ rest := by simpa [Pool.apply] using hm
        rcases List.mem_append.mp hm' with hpush | hrest
        · simp [Pool.apply, (exec_asks hexec).getOwn m hpush]
        · exact Pool.lent_apply u rest e (h.own u m (by simp [hstack, hrest]))
      · exact Pool.lent_apply t rest e (h.own u m (by simpa [Pool.apply, hne] using hm))
  | take w n =>
    have hmono := fun v m => Pool.handed_take hstep (v := v) (m := m)
    obtain ⟨k, hidle, hk, rfl⟩ := Pool.step_take hstep
    refine ⟨?_, ?_⟩
    · intro u
      rcases eq_or_ne u (.inr w) with rfl | hne
      · refine .free fun j hj => ?_
        simp [onMessage, addHandleCnt] at hj
      · simpa [hne] using (h.waiting u).mono hmono
    · intro u m hm
      have hlent : s.lent m = true := by
        rcases eq_or_ne u (.inr w) with rfl | hne
        · simp [onMessage, addHandleCnt] at hm
        · exact h.own u m (by simpa [hne] using hm)
      rcases eq_or_ne m k with rfl | hne
      · simp
      · simpa [hne] using hlent
  | setPromise m value =>
    obtain rfl := Pool.step_setPromise hstep
    exact ⟨fun t => (h.waiting t).mono fun _ _ hm => hm, h.own⟩

-- ---------------------------------------------------------------------------
-- Without circles something can be finished
-- ---------------------------------------------------------------------------

/-- A bound on the steps that an instruction takes to its end. -/
def effort : Instr W → Nat
  | .post _ _ => 4
  | .getOwn _ => 5
  | _ => 1

/-- The steps that handling a queued message takes. -/
def effortMsg (_ : Nat) : Nat := 3

theorem exec_effort {s : Pool C W} {t : Thread C W} {i : Instr W} {choice : Choice W}
    {e : Effect W} (hfinishes : choice.finishes) (h : s.exec engine t i choice = some e) :
    e.weight effort effortMsg < effort i := by
  unfold Pool.exec at h
  split at h
  case h_2 => exact hfinishes.elim
  case h_3 => exact hfinishes.elim
  case h_4 w k accepted =>
    repeat' split at h
    all_goals first
      | (obtain rfl := Option.some.inj h
         simp [Effect.weight, effort, effortMsg, onMessage, addHandleCnt])
      | simp at h
  case h_9 k =>
    split at h
    · obtain rfl := Option.some.inj h
      simp [Effect.weight, effort]
    · simp at h
  case h_10 k =>
    split at h
    all_goals first
      | (obtain rfl := Option.some.inj h
         simp [Effect.weight, effort, ownSyncCount, addPostCnt, addHandleCnt])
      | simp at h
  case h_11 => simp at h
  all_goals
    obtain rfl := Option.some.inj h
    simp [Effect.weight, effort]

/-- A thread can go on, unless it waits for a promise. -/
theorem exists_exec (engine : W → Engine) (s : Pool C W) (t : Thread C W) (i : Instr W)
    (hset : ∀ m, i = .get m ∨ i = .getOwn m → s.promise m ≠ none) :
    ∃ choice e, choice.finishes ∧ s.exec engine t i choice = some e := by
  cases i with
  | body => exact ⟨.finish, _, trivial, rfl⟩
  | post w m =>
    refine ⟨.posted true, ?_⟩
    cases hmode : (engine w).runsInline with
    | true => exact ⟨_, rfl, by rw [Pool.exec, if_pos hmode]⟩
    | false => exact ⟨_, rfl, by rw [Pool.exec, if_neg (by simp [hmode]), if_pos rfl]⟩
  | get m =>
    have hsome : (s.promise m).isSome = true := Option.isSome_iff_ne_none.mpr (hset m (.inl rfl))
    exact ⟨.go, _, trivial, by rw [Pool.exec, if_pos hsome]⟩
  | getOwn m =>
    obtain ⟨value, hvalue⟩ := Option.ne_none_iff_exists'.mp (hset m (.inr rfl))
    cases value with
    | true => exact ⟨.go, _, trivial, by rw [Pool.exec, hvalue]⟩
    | false => exact ⟨.go, _, trivial, by rw [Pool.exec, hvalue]⟩
  | _ => exact ⟨.go, _, trivial, rfl⟩

variable [Fintype C] [Fintype W]

/-- The steps that everything pending takes to its end. -/
def Pool.size (s : Pool C W) : Nat := s.weight effort effortMsg

/-- A run of steps that start no call and bring the pool closer to its end. -/
def Pool.Finishable (engine : W → Engine) (s : Pool C W) : Prop :=
  ∃ acts s', (∀ a ∈ acts, Action.finishes a) ∧ Schedule.run (Pool.step engine) s acts = some s' ∧
    s'.size < s.size

theorem Pool.size_exec {s : Pool C W} {t : Thread C W} {i : Instr W} {rest : List (Instr W)}
    {choice : Choice W} {e : Effect W} (hstack : s.stack t = i :: rest)
    (hfinishes : choice.finishes) (hexec : s.exec engine t i choice = some e) :
    (s.apply t rest e).size < s.size := by
  have hweight := Pool.weight_apply effort effortMsg hstack e
  have heffort := exec_effort hfinishes hexec
  unfold Pool.size
  omega

/-- A thread whose message, if it waits for one, is in the hands of a handler. -/
theorem Pool.finishable_thread {s : Pool C W} {t : Thread C W} {i : Instr W}
    {rest : List (Instr W)} (hstack : s.stack t = i :: rest)
    (hlent : ∀ m, i = .get m ∨ i = .getOwn m → s.lent m = true) : s.Finishable engine := by
  by_cases hset : ∀ m, i = .get m ∨ i = .getOwn m → s.promise m ≠ none
  · obtain ⟨choice, e, hfinishes, hexec⟩ := exists_exec engine s t i hset
    refine ⟨[.exec t choice], s.apply t rest e, ?_, ?_, Pool.size_exec hstack hfinishes hexec⟩
    · intro a ha
      rw [List.mem_singleton.mp ha]
      exact hfinishes
    · simp [Schedule.run, Pool.step, hstack, hexec]
  · -- the handler sets the promise first
    push Not at hset
    obtain ⟨m, hi, hunset⟩ := hset
    let u : Pool C W := { s with promise := Function.update s.promise m (some true) }
    have hu : u.stack t = i :: rest := hstack
    have hsetU : ∀ k, i = .get k ∨ i = .getOwn k → u.promise k ≠ none := by
      intro k hk
      have heq : k = m := by
        rcases hi with rfl | rfl <;> rcases hk with hk | hk <;> cases hk <;> rfl
      subst heq
      simp [u]
    obtain ⟨choice, e, hfinishes, hexec⟩ := exists_exec engine u t i hsetU
    refine ⟨[.setPromise m true, .exec t choice], u.apply t rest e, ?_, ?_,
      Pool.size_exec hu hfinishes hexec⟩
    · intro a ha
      simp only [List.mem_cons, List.not_mem_nil, or_false] at ha
      rcases ha with rfl | rfl
      · trivial
      · exact hfinishes
    · have hfirst : s.step engine (.setPromise m true) = some u := by
        rw [Pool.step, if_pos ⟨hlent m hi, hunset⟩]
      refine (Schedule.run_cons _).mpr ⟨u, hfirst, ?_⟩
      simp [Schedule.run, Pool.step, hu, hexec]

/-- An idle worker with a task. -/
theorem Pool.finishable_idle {s : Pool C W} {w : W} (hidle : s.stack (.inr w) = [])
    (hqueue : s.queue w ≠ []) : s.Finishable engine := by
  obtain ⟨m, ms, hcons⟩ := List.exists_cons_of_ne_nil hqueue
  have hm : (s.queue w)[0]? = some m := by rw [hcons]; rfl
  obtain ⟨u, hu⟩ : ∃ u, s.step engine (.take w 0) = some u := by
    rw [Pool.step, if_pos ⟨hidle, fun _ => rfl⟩, hm]
    exact ⟨_, rfl⟩
  have hstackU : u.stack (.inr w) = onMessage m := by
    obtain ⟨k, -, hk, rfl⟩ := Pool.step_take hu
    obtain rfl : m = k := Option.some.inj (hm.symm.trans hk)
    simp
  have hsame : u.size = s.size :=
    Pool.weight_take (fun k => by simp [onMessage, addHandleCnt, effort, effortMsg]) hu
  refine ⟨[.take w 0, .exec (.inr w) .finish], u.apply (.inr w) (addHandleCnt m) {}, ?_, ?_, ?_⟩
  · intro a ha
    simp only [List.mem_cons, List.not_mem_nil, or_false] at ha
    rcases ha with rfl | rfl <;> trivial
  · refine (Schedule.run_cons _).mpr ⟨u, hu, ?_⟩
    simp [Schedule.run, Pool.step, hstackU, onMessage, Pool.exec]
  · rw [← hsame]
    exact @Pool.size_exec C W _ _ engine _ _ u (.inr w) .body _ .finish {} hstackU trivial rfl

omit [DecidableEq C] [DecidableEq W] [Fintype C] [Fintype W] in
/-- What a thread at `get()` waits for. -/
theorem Pool.Orderly.get {s : Pool C W} (h : s.Orderly engine R) {t : Thread C W} {m : Nat}
    {rest : List (Instr W)} (hstack : s.stack t = .get m :: rest) :
    ∃ w, MayWait engine R t w ∧ s.Handed w m := by
  have ht := h.waiting t
  generalize hl : s.stack t = l at ht
  rw [hstack] at hl
  cases ht with
  | free hfree => exact absurd (hl ▸ List.mem_cons_self ..) (hfree m)
  | calling hw hfree =>
    rw [otherSyncMsg, List.cons_append, List.cons.injEq] at hl
    cases hl.1
  | @sent w k pre l hpre hw hm hfree =>
    cases pre with
    | nil =>
      rw [List.nil_append, List.cons.injEq] at hl
      cases hl.1
      exact ⟨w, hw, hm⟩
    | cons j pre =>
      rw [List.cons_append, List.cons.injEq] at hl
      exact ((hl.1 ▸ hpre j (List.mem_cons_self ..) : (Instr.get m : Instr W).counts)).elim

/-- A thread that has something to do: it can, or the worker it waits for has. -/
theorem Pool.Orderly.thread {s : Pool C W} (h : s.Orderly engine R) {t : Thread C W}
    (hbusy : s.stack t ≠ [])
    (hworkers : ∀ w, MayWait engine R t w → s.queue w ≠ [] → s.Finishable engine) :
    s.Finishable engine := by
  obtain ⟨i, rest, hstack⟩ := List.exists_cons_of_ne_nil hbusy
  by_cases hget : ∃ m, i = .get m ∧ s.lent m = false
  · obtain ⟨m, rfl, hnot⟩ := hget
    obtain ⟨w, hw, hqueue | hlent⟩ := h.get hstack
    · exact hworkers w hw (List.ne_nil_of_mem hqueue)
    · rw [hnot] at hlent
      cases hlent
  · apply Pool.finishable_thread hstack
    rintro m (rfl | rfl)
    · by_contra hnot
      exact hget ⟨m, rfl, by simpa using hnot⟩
    · exact h.own t m (by simp [hstack])

/-- **Progress.** A worker with a task or in the middle of one, where no circle is possible. -/
theorem Pool.Orderly.worker {s : Pool C W} (h : s.Orderly engine R)
    (hacyclic : ∀ w, ¬TransGen (WaitsFor engine R) w w) (w : W)
    (hbusy : s.stack (.inr w) ≠ [] ∨ s.queue w ≠ []) : s.Finishable engine := by
  have hwf : WellFounded (Function.swap (TransGen (WaitsFor engine R))) := by
    have : Std.Irrefl (Function.swap (TransGen (WaitsFor engine R))) := ⟨hacyclic⟩
    have : IsTrans W (Function.swap (TransGen (WaitsFor engine R))) :=
      ⟨fun _ _ _ hab hbc => hbc.trans hab⟩
    exact Finite.wellFounded_of_trans_of_irrefl _
  induction w using hwf.induction with
  | h w ih =>
    by_cases hidle : s.stack (.inr w) = []
    · exact Pool.finishable_idle hidle (hbusy.resolve_left (fun hne => hne hidle))
    · refine h.thread hidle fun w' hw' hqueue => ?_
      exact ih w' (TransGen.single (hw'.2 w rfl)) (.inr hqueue)

/-- A run of programs that keep to `R`, from the start. -/
def Reached (engine : W → Engine) (R : W → W → Prop) (s : Pool C W) : Prop :=
  ∃ acts, Schedule.run (Pool.step engine) Pool.initial acts = some s ∧
    Schedule.StepsMeet (Pool.step engine) (Pool.KeepsTo engine R) Pool.initial acts

omit [Fintype C] [Fintype W] in
theorem Reached.append {s s' : Pool C W} (h : Reached engine R s) {more : List (Action C W)}
    (hrun : Schedule.run (Pool.step engine) s more = some s')
    (hkeeps : Schedule.StepsMeet (Pool.step engine) (Pool.KeepsTo engine R) s more) :
    Reached engine R s' := by
  obtain ⟨acts, hacts, hmeets⟩ := h
  refine ⟨acts ++ more, ?_, ?_⟩
  · rw [Schedule.run_append _ hacts, hrun]
  · rw [Schedule.stepsMeet_append]
    refine ⟨hmeets, fun u hu => ?_⟩
    rw [hacts] at hu
    cases hu
    exact hkeeps

omit [DecidableEq C] in
/-- A queued message is in that queue only. -/
theorem Pool.Numbered.queued {s : Pool C W} (h : s.Numbered) {w : W} {m : Nat}
    (hm : m ∈ s.queue w) (B : Thread C W → Prop) (hB : B (.inr w)) : s.Buried B m := by
  have hone : isMsg m m ≤ total (isMsg m) s.queue := le_total hm
  simp only [isMsg, if_true] at hone
  obtain ⟨hweight, hknown, hlent, hunset⟩ := h.once_pending (hone.trans (Nat.le_add_left _ _))
  unfold Pool.weight at hweight
  refine ⟨hknown, hlent, hunset, ?_, ?_⟩
  · intro t v hpost
    have hpending : carries m (.post v m) ≤ total (carries m) s.stack := le_total hpost
    simp only [carries, if_true] at hpending
    omega
  · intro v hv
    by_contra hnot
    have hne : w ≠ v := by
      rintro rfl
      exact hnot hB
    have htwo := add_le_total (w := isMsg m) hne hm hv
    simp only [isMsg, if_true] at htwo
    have : 1 + 1 ≤ total (isMsg m) s.queue := htwo
    omega

end Deadlock

end Zrtools.IoPool
