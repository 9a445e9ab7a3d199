import Mathlib.Data.Int.CardIntervalMod
import Zrtools.Lib.Schedule

/-!
# zrtools — the engines of a pool (`engine_pool.h`)

An `EnginePool` owns engines with names and shared ones, which `GetSharedThread` hands out in
turn. The calls come one after the other; starting and stopping are elsewhere.

* `engines_of_run` — every engine is deleted once in the end, but for those that were added under a
  name that was there;
* `shared_threads_fair` — between two additions every shared engine is handed out as often as any
  other, but for one time.
-/

namespace Zrtools.IoPool.Registry

variable {Name : Type} [DecidableEq Name]

-- ---------------------------------------------------------------------------
-- The code
-- ---------------------------------------------------------------------------

/-- The members. An engine is the number of the `new T()` that made it; the next one will be
`created`. -/
structure EnginePool (Name : Type) where
  named : List (Name × Nat) := []
  anonymous : List Nat := []
  curThreadIndex : Nat := 0
  created : Nat := 0

namespace EnginePool

/-- The loop of `AddSharedEngine<T>(n)`. -/
def addSharedEngine : Nat → EnginePool Name → EnginePool Name
  | 0, s => s
  | n + 1, s =>
    addSharedEngine n { s with anonymous := s.anonymous ++ [s.created], created := s.created + 1 }

/-- `AddNamedEngine<T>(name)`: `emplace` does nothing where the name is there, and the engine is
made all the same. -/
def addNamedEngine (s : EnginePool Name) (name : Name) : EnginePool Name :=
  { s with
    named := if (s.named.lookup name).isSome then s.named else (name, s.created) :: s.named
    created := s.created + 1 }

/-- `GetNamedThread(name)`. -/
def getNamedThread (s : EnginePool Name) (name : Name) : Option Nat := s.named.lookup name

/-- `GetSharedThread()`. -/
def getSharedThread (s : EnginePool Name) : EnginePool Name × Option Nat :=
  if s.anonymous.isEmpty then (s, none)
  else
    let index := if s.curThreadIndex + 1 ≥ s.anonymous.length then 0 else s.curThreadIndex + 1
    ({ s with curThreadIndex := index }, s.anonymous[index]?)

/-- The engines that `~EnginePool` deletes. -/
def deleted (s : EnginePool Name) : List Nat := s.named.map Prod.snd ++ s.anonymous

end EnginePool

inductive Call (Name : Type) where
  | addSharedEngine (n : Int)
  | addNamedEngine (name : Name)
  | getNamedThread (name : Name)
  | getSharedThread

def step (s : EnginePool Name) : Call Name → Option (EnginePool Name)
  | .addSharedEngine n => some (s.addSharedEngine n.toNat)
  | .addNamedEngine name => some (s.addNamedEngine name)
  | .getNamedThread _ => some s
  | .getSharedThread => some s.getSharedThread.1

/-- What `GetSharedThread` returned. -/
def handedOut (s : EnginePool Name) : Call Name → List (Option Nat)
  | .addSharedEngine _ => []
  | .addNamedEngine _ => []
  | .getNamedThread _ => []
  | .getSharedThread => [s.getSharedThread.2]

/-- The engine that nothing owns. -/
def leaked (s : EnginePool Name) : Call Name → List Nat
  | .addSharedEngine _ => []
  | .addNamedEngine name => if (s.getNamedThread name).isSome then [s.created] else []
  | .getNamedThread _ => []
  | .getSharedThread => []

def Call.addsShared : Call Name → Bool
  | .addSharedEngine n => 0 < n
  | _ => false

-- ---------------------------------------------------------------------------
-- The engines
-- ---------------------------------------------------------------------------

/-- All engines, and the place of the one that was handed out last. -/
structure Inv (s : EnginePool Name) (gone : List Nat) : Prop where
  all : (s.deleted ++ gone).Perm (List.range s.created)
  index : s.anonymous ≠ [] → s.curThreadIndex < s.anonymous.length
  start : s.anonymous = [] → s.curThreadIndex = 0

variable {s s' : EnginePool Name} {gone : List Nat}

/-- An engine more. -/
theorem perm_range_succ {front rest : List Nat} {n : Nat}
    (h : (front ++ rest).Perm (List.range n)) :
    (front ++ n :: rest).Perm (List.range (n + 1)) := by
  rw [List.range_succ]
  refine List.perm_middle.trans ((h.cons n).trans ?_)
  exact (List.perm_append_singleton n _).symm

omit [DecidableEq Name] in
theorem Inv.addSharedEngine (h : Inv s gone) (n : Nat) : Inv (s.addSharedEngine n) gone := by
  induction n generalizing s with
  | zero => exact h
  | succ n ih =>
    refine ih ⟨?_, fun _ => ?_, fun hnil => absurd hnil (by simp)⟩
    · have hmore := perm_range_succ h.all
      rw [EnginePool.deleted] at hmore ⊢
      simpa using hmore
    · rw [List.length_append, List.length_singleton]
      by_cases hnil : s.anonymous = []
      · rw [h.start hnil]
        exact Nat.succ_pos _
      · exact Nat.lt_succ_of_lt (h.index hnil)

theorem Inv.addNamedEngine (h : Inv s gone) (name : Name) :
    Inv (s.addNamedEngine name) (gone ++ leaked s (.addNamedEngine name)) := by
  by_cases hthere : (s.named.lookup name).isSome = true
  · have hsame : s.addNamedEngine name = { s with created := s.created + 1 } := by
      simp only [EnginePool.addNamedEngine, if_pos hthere]
    have hleak : leaked s (.addNamedEngine name) = [s.created] := if_pos hthere
    rw [hsame, hleak]
    refine ⟨?_, h.index, h.start⟩
    have hmore := perm_range_succ ((List.append_nil (s.deleted ++ gone)).symm ▸ h.all)
    rw [List.append_assoc] at hmore
    exact hmore
  · have hnamed : s.addNamedEngine name =
        { s with named := (name, s.created) :: s.named, created := s.created + 1 } := by
      simp only [EnginePool.addNamedEngine, if_neg hthere]
    have hleak : leaked s (.addNamedEngine name) = [] := if_neg hthere
    rw [hnamed, hleak, List.append_nil]
    refine ⟨?_, h.index, h.start⟩
    have hmore := @perm_range_succ [] (s.deleted ++ gone) s.created h.all
    exact hmore

/-- The place of the next engine to hand out. -/
theorem next_index {k n : Nat} (h : k < n) : (if k + 1 ≥ n then 0 else k + 1) = (k + 1) % n := by
  split_ifs with hlast
  · have heq : k + 1 = n := by omega
    rw [heq, Nat.mod_self]
  · exact (Nat.mod_eq_of_lt (by omega)).symm

omit [DecidableEq Name] in
/-- `GetSharedThread`, where there is a shared engine. -/
theorem getSharedThread_eq (h : Inv s gone) (hsome : s.anonymous ≠ []) :
    s.getSharedThread =
      ({ s with curThreadIndex := (s.curThreadIndex + 1) % s.anonymous.length },
        s.anonymous[(s.curThreadIndex + 1) % s.anonymous.length]?) := by
  rw [EnginePool.getSharedThread, if_neg (by simpa using hsome), next_index (h.index hsome)]

omit [DecidableEq Name] in
theorem Inv.getSharedThread (h : Inv s gone) : Inv s.getSharedThread.1 gone := by
  by_cases hnil : s.anonymous = []
  · rw [EnginePool.getSharedThread, if_pos (by simpa using hnil)]
    exact h
  · rw [getSharedThread_eq h hnil]
    refine ⟨h.all, fun _ => ?_, fun hnone => absurd hnone hnil⟩
    exact Nat.mod_lt _ (List.length_pos_iff.mpr hnil)

/-- **One call.** -/
theorem Inv.step {c : Call Name} (h : Inv s gone) (hstep : Registry.step s c = some s') :
    Inv s' (gone ++ leaked s c) := by
  cases c with
  | addSharedEngine n =>
    obtain rfl := Option.some.inj hstep
    rw [leaked, List.append_nil]
    exact h.addSharedEngine n.toNat
  | addNamedEngine name =>
    obtain rfl := Option.some.inj hstep
    exact h.addNamedEngine name
  | getNamedThread name =>
    obtain rfl := Option.some.inj hstep
    rw [leaked, List.append_nil]
    exact h
  | getSharedThread =>
    obtain rfl := Option.some.inj hstep
    rw [leaked, List.append_nil]
    exact h.getSharedThread

theorem inv_of_run {calls : List (Call Name)} (hrun : Schedule.run step {} calls = some s) :
    Inv s (Schedule.outputs step leaked {} calls) :=
  Schedule.run_invariant_past step Inv (fun _ _ _ _ h hstep => h.step hstep)
    ⟨List.Perm.refl _, fun h => absurd rfl h, fun _ => rfl⟩ hrun

omit [DecidableEq Name] in
theorem addSharedEngine_named (s : EnginePool Name) (n : Nat) :
    (s.addSharedEngine n).named = s.named := by
  induction n generalizing s with
  | zero => rfl
  | succ n ih => exact ih _

omit [DecidableEq Name] in
theorem getSharedThread_named (s : EnginePool Name) : s.getSharedThread.1.named = s.named := by
  unfold EnginePool.getSharedThread
  split <;> rfl

/-- A name keeps its engine. -/
theorem lookup_step {c : Call Name} {name : Name} {e : Nat}
    (h : s.named.lookup name = some e) (hstep : step s c = some s') :
    s'.named.lookup name = some e := by
  cases c with
  | addSharedEngine n =>
    obtain rfl := Option.some.inj hstep
    rw [addSharedEngine_named]
    exact h
  | addNamedEngine other =>
    obtain rfl := Option.some.inj hstep
    by_cases hthere : (s.named.lookup other).isSome = true
    · simpa only [EnginePool.addNamedEngine, if_pos hthere] using h
    · have hne : (name == other) = false := by
        rw [beq_eq_false_iff_ne]
        rintro rfl
        exact hthere (by rw [h]; rfl)
      simpa only [EnginePool.addNamedEngine, if_neg hthere, List.lookup_cons, hne] using h
  | getNamedThread other =>
    obtain rfl := Option.some.inj hstep
    exact h
  | getSharedThread =>
    obtain rfl := Option.some.inj hstep
    rw [getSharedThread_named]
    exact h

/-- **Engines are deleted once.** -/
theorem engines_of_run {calls : List (Call Name)}
    (hrun : Schedule.run step {} calls = some s) :
    (s.deleted ++ Schedule.outputs step leaked {} calls).Perm (List.range s.created) ∧
      ∀ name e, s.getNamedThread name = some e → ∀ more s', Schedule.run step s more = some s' →
        s'.getNamedThread name = some e := by
  refine ⟨(inv_of_run hrun).all, fun name e h more s' hmore => ?_⟩
  exact Schedule.run_invariant step (fun s => s.named.lookup name = some e)
    (fun _ _ _ hlookup hstep => lookup_step hlookup hstep) h hmore

/-- The second engine with a name that is there is not deleted. -/
theorem engines_of_run_twice :
    ∃ s : EnginePool String, Schedule.run step {}
        [.addNamedEngine "a", .addSharedEngine 2, .addNamedEngine "a"] = some s ∧
      (s.deleted ++ [3]).Perm (List.range 4) := by
  have hrun : Schedule.run step ({} : EnginePool String)
    [.addNamedEngine "a", .addSharedEngine 2, .addNamedEngine "a"] =
      some ⟨[("a", 0)], [1, 2], 0, 4⟩ := rfl
  exact ⟨_, hrun, (engines_of_run hrun).1⟩

-- ---------------------------------------------------------------------------
-- Turns
-- ---------------------------------------------------------------------------

/-- The engine whose turn it is after so many. -/
def turn (engines : List Nat) (i : Nat) : Option Nat := engines[i % engines.length]?

/-- How often a condition on the first numbers holds. -/
theorem countP_range (p : Nat → Bool) (n : Nat) :
    (List.range n).countP p = Nat.count (fun i => p i = true) n := by
  induction n with
  | zero => rfl
  | succ n ih =>
    rw [List.range_succ, List.countP_append, Nat.count_succ, ih, List.countP_singleton]

/-- Each engine has its turn as often as any other, but for one time. -/
theorem count_turns {engines : List Nat} (hnodup : engines.Nodup) {e : Nat} (he : e ∈ engines)
    (start n : Nat) :
    ∃ extra ≤ 1, ((List.range n).map fun i => turn engines (start + i)).count (some e) =
      n / engines.length + extra := by
  obtain ⟨place, hplace, rfl⟩ := List.getElem_of_mem he
  have hpos : 0 < engines.length := by omega
  -- the turns of this engine are the numbers of one residue class
  have hclass : ∀ i, turn engines (start + i) = some engines[place] ↔
      i ≡ place + engines.length * start - start [MOD engines.length] := by
    intro i
    have hle : start ≤ engines.length * start := Nat.le_mul_of_pos_left _ hpos
    have hturn : turn engines (start + i) = some engines[place] ↔
        (start + i) % engines.length = place := by
      unfold turn
      rw [List.getElem?_eq_getElem (Nat.mod_lt _ hpos), Option.some.injEq, hnodup.getElem_inj_iff]
    have hshift : start + (place + engines.length * start - start) =
        place + engines.length * start := by omega
    rw [hturn, ← Nat.mod_eq_of_lt hplace, ← Nat.ModEq, Nat.mod_eq_of_lt hplace]
    have hplus : place ≡ start + (place + engines.length * start - start)
        [MOD engines.length] := by
      rw [hshift]
      exact (Nat.add_mul_mod_self_left place engines.length start).symm
    exact ⟨fun h => Nat.ModEq.add_left_cancel' start (h.trans hplus),
      fun h => (h.add_left start).trans hplus.symm⟩
  have hcount : ((List.range n).map fun i => turn engines (start + i)).count
      (some engines[place]) =
        Nat.count (· ≡ place + engines.length * start - start [MOD engines.length]) n := by
    rw [List.count, List.countP_map, countP_range]
    congr 1
    funext i
    simp only [Function.comp_apply, beq_iff_eq, hclass i]
  rw [hcount, Nat.count_modEq_card n hpos]
  refine ⟨_, ?_, rfl⟩
  split_ifs
  · exact Nat.le_refl 1
  · exact Nat.zero_le 1

/-- What is handed out while no shared engine is added: turn by turn. -/
theorem handedOut_eq {gone : List Nat} {calls : List (Call Name)} (h : Inv s gone)
    (hsome : s.anonymous ≠ []) (hrun : Schedule.run step s calls = some s')
    (hsame : ∀ c ∈ calls, c.addsShared = false) :
    ∃ n, Schedule.outputs step handedOut s calls =
      (List.range n).map fun i => turn s.anonymous (s.curThreadIndex + 1 + i) := by
  induction calls generalizing s gone with
  | nil => exact ⟨0, rfl⟩
  | cons c calls ih =>
    obtain ⟨t, ht, hrest⟩ := (Schedule.run_cons _).mp hrun
    have hlater : ∀ c ∈ calls, c.addsShared = false := fun c hc =>
      hsame c (List.mem_cons_of_mem _ hc)
    have hinv := h.step ht
    rw [Schedule.outputs, ht]
    cases c with
    | addSharedEngine n =>
      have hnone : n.toNat = 0 := by
        have hn := hsame _ (List.mem_cons_self ..)
        simp only [Call.addsShared, decide_eq_false_iff_not] at hn
        omega
      obtain rfl : s = t := by
        have hzero := Option.some.inj ht
        rw [hnone] at hzero
        exact hzero
      exact ih hinv hsome hrest hlater
    | addNamedEngine name =>
      obtain rfl := Option.some.inj ht
      exact ih hinv hsome hrest hlater
    | getNamedThread name =>
      obtain rfl := Option.some.inj ht
      exact ih hinv hsome hrest hlater
    | getSharedThread =>
      obtain rfl := Option.some.inj ht
      have heq := getSharedThread_eq h hsome
      rw [heq] at hrest hinv
      obtain ⟨n, hn⟩ := ih hinv hsome hrest hlater
      refine ⟨n + 1, ?_⟩
      simp only [handedOut, heq, hn, List.range_succ_eq_map, List.map_cons, List.map_map]
      refine congrArg (_ :: ·) (List.map_congr_left fun i _ => ?_)
      simp only [turn, Function.comp_apply]
      have hturn : ((s.curThreadIndex + 1) % s.anonymous.length + 1 + i) % s.anonymous.length =
          (s.curThreadIndex + 1 + (i + 1)) % s.anonymous.length := by
        rw [Nat.add_assoc, Nat.mod_add_mod, Nat.add_comm 1 i]
      rw [hturn]

/-- **Shared engines in turn**: between two additions every shared engine is handed out as often as
any other, but for one time. -/
theorem shared_threads_fair {before calls : List (Call Name)}
    (hbefore : Schedule.run step {} before = some s)
    (hrun : Schedule.run step s calls = some s') (hsame : ∀ c ∈ calls, c.addsShared = false)
    {e : Nat} (he : e ∈ s.anonymous) :
    none ∉ Schedule.outputs step handedOut s calls ∧
      ∃ extra ≤ 1, (Schedule.outputs step handedOut s calls).count (some e) =
        (Schedule.outputs step handedOut s calls).length / s.anonymous.length + extra := by
  have hinv := inv_of_run hbefore
  have hnodup : s.anonymous.Nodup := by
    have hall := (hinv.all.nodup_iff.mpr List.nodup_range).of_append_left
    exact hall.of_append_right
  obtain ⟨n, hout⟩ := handedOut_eq hinv (List.ne_nil_of_mem he) hrun hsame
  have hlen : (Schedule.outputs step handedOut s calls).length = n := by
    rw [hout, List.length_map, List.length_range]
  rw [hlen, hout]
  refine ⟨fun hnone => ?_, count_turns hnodup he _ n⟩
  obtain ⟨i, -, hi⟩ := List.mem_map.mp hnone
  have hpos : 0 < s.anonymous.length := List.length_pos_of_mem he
  exact absurd (List.getElem?_eq_none_iff.mp hi) (Nat.not_le.mpr (Nat.mod_lt _ hpos))

/-- Three engines, and four calls. -/
theorem shared_threads_fair_three :
    ∃ s s' : EnginePool String, Schedule.run step {} [.addSharedEngine 3] = some s ∧
      Schedule.run step s [.getSharedThread, .getSharedThread, .addNamedEngine "a",
        .getSharedThread, .getSharedThread] = some s' ∧
      none ∉ Schedule.outputs step handedOut s [.getSharedThread, .getSharedThread,
        .addNamedEngine "a", .getSharedThread, .getSharedThread] := by
  have hbefore : Schedule.run step ({} : EnginePool String) [.addSharedEngine 3] =
    some ⟨[], [0, 1, 2], 0, 3⟩ := rfl
  have hrun : Schedule.run step (⟨[], [0, 1, 2], 0, 3⟩ : EnginePool String)
    [.getSharedThread, .getSharedThread, .addNamedEngine "a", .getSharedThread,
      .getSharedThread] = some ⟨[("a", 3)], [0, 1, 2], 1, 4⟩ := rfl
  have hmem : 0 ∈ [0, 1, 2] := by decide
  exact ⟨_, _, hbefore, hrun, (shared_threads_fair hbefore hrun (by decide) hmem).1⟩

end Zrtools.IoPool.Registry
