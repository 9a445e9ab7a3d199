import Zrtools.Snowflake.Layout

/-!
# zrtools — Whole calls of `nextId` (`zrt_snowflake.h`)

One call that nobody interferes with, from its first clock reading to what it returns or throws.
The readings are a list that the two loops take from, and the compare-and-swap, being the weak
one, may fail a number of times for no reason.

* `nextId_run` — such a call is a run of one thread of the system;
* `nextId_decided` — all that a call does is decided by the last reading it takes;
* `nextId_throws_harmless_iff` — when an exception leaves the generator as it was;
* `nextId_policy_iff` — when the three grades of clock drift hold for all readings of a call.
-/

namespace Zrtools.Snowflake

open PackedWord

variable {p : Params}

-- ---------------------------------------------------------------------------
-- The call
-- ---------------------------------------------------------------------------

/-- How a call ends: with an ID, or with one of its two exceptions. -/
inductive Outcome where
  | returned (id : UInt64)
  | movedBack
  | overflow
  deriving DecidableEq

def Outcome.Throws : Outcome → Prop
  | .returned _ => False
  | .movedBack => True
  | .overflow => True

/-- How one turn of the loop in `nextId` ends that does not go back to its top. -/
inductive Attempt where
  | threw
  | cas (timestamp newSequence : UInt64)

/-- `waitNextMillis(last_timestamp)`, with the readings that are left. -/
def waitNextMillis (lastTimestamp : UInt64) : List UInt64 → Option (UInt64 × List UInt64)
  | [] => none
  | timestamp :: clock =>
    if timestamp ≤ lastTimestamp then waitNextMillis lastTimestamp clock
    else some (timestamp, clock)

variable (p) in
/-- `nextId` from the top of its loop to the compare-and-swap. -/
def attempt (oldState : UInt64) : List UInt64 → Option (Attempt × List UInt64)
  | [] => none
  | now :: clock =>
    match afterLoad p now oldState with
    | .retry => attempt oldState clock
    | .fail => some (.threw, clock)
    | .waitNext timestamp =>
      match waitNextMillis timestamp clock with
      | some (timestamp, rest) => some (.cas timestamp 0, rest)
      | none => none
    | .update timestamp newSequence => some (.cas timestamp newSequence, clock)

/-- After a successful compare-and-swap. -/
def afterCas (gen : Generator p) (timestamp newSequence : UInt64) : Outcome :=
  match makeId gen timestamp newSequence with
  | some id => .returned id
  | none => .overflow

/-- `nextId()`, whose compare-and-swap fails so many times: how it ends, the packed word after
it and the readings that are left; `none` while it waits for another reading. -/
def nextId (gen : Generator p) (fails : Nat) (state : UInt64) (clock : List UInt64) :
    Option (Outcome × UInt64 × List UInt64) :=
  match attempt p state clock with
  | none => none
  | some (.threw, rest) => some (.movedBack, state, rest)
  | some (.cas timestamp newSequence, rest) =>
    match fails with
    | fails + 1 => nextId gen fails state rest
    | 0 => some (afterCas gen timestamp newSequence, newState p timestamp newSequence, rest)

/-- A call by its turns: the last one throws or stores, and each one before it ends with a
compare-and-swap that fails. -/
inductive Called (gen : Generator p) (state : UInt64) :
    List UInt64 → Outcome → UInt64 → List UInt64 → Prop where
  | threw {clock rest : List UInt64} (turn : attempt p state clock = some (.threw, rest)) :
      Called gen state clock .movedBack state rest
  | stored {clock rest : List UInt64} {timestamp newSequence : UInt64}
      (turn : attempt p state clock = some (.cas timestamp newSequence, rest)) :
      Called gen state clock (afterCas gen timestamp newSequence)
        (newState p timestamp newSequence) rest
  | failed {clock later rest : List UInt64} {timestamp newSequence state' : UInt64}
      {outcome : Outcome}
      (turn : attempt p state clock = some (.cas timestamp newSequence, later))
      (again : Called gen state later outcome state' rest) :
      Called gen state clock outcome state' rest

theorem nextId_called {gen : Generator p} {fails : Nat} {state state' : UInt64}
    {clock rest : List UInt64} {outcome : Outcome}
    (h : nextId gen fails state clock = some (outcome, state', rest)) :
    Called gen state clock outcome state' rest := by
  induction fails generalizing clock with
  | zero =>
    rw [nextId] at h
    split at h
    next => cases h
    next hturn =>
      cases h
      exact .threw hturn
    next timestamp newSequence _ hturn =>
      cases h
      exact .stored hturn
  | succ fails ih =>
    rw [nextId] at h
    split at h
    next => cases h
    next hturn =>
      cases h
      exact .threw hturn
    next timestamp newSequence later hturn => exact .failed hturn (ih h)

-- ---------------------------------------------------------------------------
-- The call as a run of one thread
-- ---------------------------------------------------------------------------

/-- The clock reading a step takes. -/
def Action.reading {G T : Type} : Action G T → Option UInt64
  | .clock _ now => some now
  | .call _ _ => none
  | .load _ => none
  | .cas _ _ => none

section Runs

variable {G T : Type} [DecidableEq T]

theorem Sys.setPc_setPc (s : Sys G T) (t : T) (pc pc' : Pc G) :
    (s.setPc t pc).setPc t pc' = s.setPc t pc' := by
  simp [Sys.setPc]

@[simp] theorem Sys.setPc_pc_self (s : Sys G T) (t : T) (pc : Pc G) : (s.setPc t pc).pc t = pc := by
  simp [Sys.setPc]

@[simp] theorem Sys.setPc_state (s : Sys G T) (t : T) (pc : Pc G) :
    (s.setPc t pc).state = s.state := rfl

variable [DecidableEq G] {gens : G → Generator p} {s s' u : Sys G T} {t : T} {g : G}

/-- The system gets from one state to another, taking these readings and returning these IDs. -/
def Goes (gens : G → Generator p) (s s' : Sys G T) (taken : List UInt64)
    (out : List (G × UInt64)) : Prop :=
  ∃ acts, Schedule.run (Sys.step p) s acts = some s' ∧ acts.filterMap Action.reading = taken ∧
    Schedule.outputs (Sys.step p) (Sys.returned gens) s acts = out

theorem Goes.trans {taken taken' : List UInt64} {out out' : List (G × UInt64)}
    (h : Goes gens s u taken out) (h' : Goes gens u s' taken' out') :
    Goes gens s s' (taken ++ taken') (out ++ out') := by
  obtain ⟨acts, hrun, rfl, rfl⟩ := h
  obtain ⟨acts', hrun', rfl, rfl⟩ := h'
  refine ⟨acts ++ acts', ?_, List.filterMap_append, Schedule.outputs_append _ hrun acts'⟩
  rw [Schedule.run_append _ hrun, hrun']

theorem Goes.of_step {a : Action G T} (h : Sys.step p s a = some s') :
    Goes gens s s' a.reading.toList (Sys.returned gens s a) := by
  refine ⟨[a], (Schedule.run_cons _).mpr ⟨s', h, rfl⟩, ?_, ?_⟩
  · cases hreading : a.reading with
    | none => simp [hreading]
    | some now => simp [hreading]
  · simp [Schedule.outputs, h]

variable (gens) in
theorem waitNextMillis_goes {oldState last timestamp : UInt64} {clock rest : List UInt64}
    (hpc : s.pc t = .waiting g oldState last)
    (h : waitNextMillis last clock = some (timestamp, rest)) :
    ∃ taken, taken ++ rest = clock ∧
      Goes gens s (s.setPc t (.ready g oldState timestamp 0)) taken [] := by
  induction clock with
  | nil => cases h
  | cons now clock ih =>
    have hread : Sys.step p s (.clock t now) =
        some (if now ≤ last then s else s.setPc t (.ready g oldState now 0)) := by
      rw [Sys.step, hpc]
    have hgoes : Goes gens s _ _ _ := Goes.of_step hread
    rw [waitNextMillis] at h
    by_cases hle : now ≤ last
    · rw [if_pos hle] at h hgoes
      obtain ⟨taken, rfl, hlater⟩ := ih h
      exact ⟨now :: taken, rfl, hgoes.trans hlater⟩
    · rw [if_neg hle] at h hgoes
      cases h
      exact ⟨[timestamp], rfl, hgoes⟩

/-- Where a thread is after a turn of the loop. -/
def Attempt.pc (g : G) (oldState : UInt64) : Attempt → Pc G
  | .threw => .idle
  | .cas timestamp newSequence => .ready g oldState timestamp newSequence

variable (gens) in
theorem attempt_goes {a : Attempt} {clock rest : List UInt64} (hpc : s.pc t = .top g)
    (h : attempt p (s.state g) clock = some (a, rest)) :
    ∃ taken, taken ++ rest = clock ∧ Goes gens s (s.setPc t (a.pc g (s.state g))) taken [] := by
  induction clock generalizing s with
  | nil => cases h
  | cons now clock ih =>
    have hclock : Sys.step p s (.clock t now) = some (s.setPc t (.clocked g now)) := by
      rw [Sys.step, hpc]
    -- from the reading to where the load leads
    have hstart : ∀ pc, Sys.step p (s.setPc t (.clocked g now)) (.load t) =
        some ((s.setPc t (.clocked g now)).setPc t pc) → Goes gens s (s.setPc t pc) [now] [] := by
      intro pc hload
      rw [Sys.setPc_setPc] at hload
      exact (Goes.of_step hclock).trans (Goes.of_step hload)
    rw [attempt] at h
    cases hverdict : afterLoad p now (s.state g) with
    | retry =>
      rw [hverdict] at h
      have htop := hstart (.top g) (by simp [Sys.step, hverdict])
      obtain ⟨taken, rfl, hlater⟩ := ih (Sys.setPc_pc_self s t (.top g)) h
      rw [Sys.setPc_setPc] at hlater
      exact ⟨now :: taken, rfl, htop.trans hlater⟩
    | fail =>
      rw [hverdict] at h
      cases h
      exact ⟨[now], rfl, hstart .idle (by simp [Sys.step, hverdict])⟩
    | waitNext timestamp =>
      rw [hverdict] at h
      dsimp only at h
      split at h
      next later rest' hwait =>
        cases h
        have hwaiting := hstart (.waiting g (s.state g) timestamp) (by simp [Sys.step, hverdict])
        obtain ⟨taken, rfl, hlater⟩ := waitNextMillis_goes gens
          (Sys.setPc_pc_self s t (.waiting g (s.state g) timestamp)) hwait
        rw [Sys.setPc_setPc] at hlater
        exact ⟨now :: taken, rfl, hwaiting.trans hlater⟩
      next => cases h
    | update timestamp newSequence =>
      rw [hverdict] at h
      cases h
      exact ⟨[now], rfl, hstart (.ready g (s.state g) timestamp newSequence)
        (by simp [Sys.step, hverdict])⟩

/-- The IDs a call returns. -/
def Outcome.ids (g : G) : Outcome → List (G × UInt64)
  | .returned id => [(g, id)]
  | .movedBack => []
  | .overflow => []

/-- **A call is a run of one thread**: from the top of the loop the thread gets to its end,
with the same readings, the same packed word and the same ID. -/
theorem nextId_run {fails : Nat} {state' : UInt64} {clock rest : List UInt64} {outcome : Outcome}
    (hpc : s.pc t = .top g)
    (h : nextId (gens g) fails (s.state g) clock = some (outcome, state', rest)) :
    ∃ taken, taken ++ rest = clock ∧
      Goes gens s ⟨Function.update s.state g state', Function.update s.pc t .idle⟩ taken
        (outcome.ids g) := by
  generalize hstate : s.state g = state at h
  replace h := nextId_called h
  induction h generalizing s with
  | threw hturn =>
    subst hstate
    obtain ⟨taken, rfl, hgoes⟩ := attempt_goes gens hpc hturn
    refine ⟨taken, rfl, ?_⟩
    rw [Function.update_eq_self]
    exact hgoes
  | @stored _ _ timestamp newSequence hturn =>
    subst hstate
    obtain ⟨taken, rfl, hgoes⟩ := attempt_goes gens hpc hturn
    rw [Attempt.pc] at hgoes
    have hcas : Sys.step p (s.setPc t (.ready g (s.state g) timestamp newSequence))
        (.cas t false) = some ⟨Function.update s.state g (newState p timestamp newSequence),
          Function.update s.pc t .idle⟩ := by
      simp [Sys.step, Sys.setPc]
    have hreturned : Sys.returned gens (s.setPc t (.ready g (s.state g) timestamp newSequence))
        (.cas t false) = (afterCas (gens g) timestamp newSequence).ids g := by
      simp only [Sys.returned, Sys.setPc_pc_self, Sys.setPc_state, and_self, if_true, afterCas]
      cases makeId (gens g) timestamp newSequence <;> rfl
    have hend := hgoes.trans (Goes.of_step hcas)
    rw [hreturned, List.nil_append] at hend
    exact ⟨taken ++ [], by rw [List.append_nil], hend⟩
  | @failed _ _ _ timestamp newSequence _ _ hturn _ ih =>
    subst hstate
    obtain ⟨taken, rfl, hgoes⟩ := attempt_goes gens hpc hturn
    rw [Attempt.pc] at hgoes
    have hcas : Sys.step p (s.setPc t (.ready g (s.state g) timestamp newSequence))
        (.cas t true) = some (s.setPc t (.top g)) := by
      simp [Sys.step, Sys.setPc]
    have hreturned : Sys.returned gens (s.setPc t (.ready g (s.state g) timestamp newSequence))
        (.cas t true) = [] := by
      simp [Sys.returned]
    obtain ⟨taken', rfl, hend⟩ := ih (Sys.setPc_pc_self s t (.top g)) rfl
    have htop := hgoes.trans (Goes.of_step hcas)
    rw [hreturned] at htop
    have hwhole := htop.trans hend
    simp only [Action.reading, Option.toList_none, List.append_nil, List.nil_append, Sys.setPc,
      Function.update_idem] at hwhole
    exact ⟨taken ++ taken', List.append_assoc .., hwhole⟩

end Runs

-- ---------------------------------------------------------------------------
-- The last reading
-- ---------------------------------------------------------------------------

variable (p) in
/-- The last issued timestamp. -/
def lastTimestamp (state : UInt64) : UInt64 := high p.sequenceBits state

variable (p) in
/-- A reading at least `ErrorThresholdMs` behind the last issued timestamp. -/
def FarBehind (state reading : UInt64) : Prop :=
  reading < lastTimestamp p state ∧ p.errorThresholdMs ≤ lastTimestamp p state - reading

instance (state reading : UInt64) : Decidable (FarBehind p state reading) :=
  inferInstanceAs (Decidable (_ ∧ _))

variable (p) in
/-- A reading equal to the last issued timestamp or less than `ToleranceMs` behind it. -/
def Tolerated (state reading : UInt64) : Prop :=
  reading = lastTimestamp p state ∨
    (reading < lastTimestamp p state ∧ lastTimestamp p state - reading < p.toleranceMs)

variable (p) in
/-- The sequence numbers of the last millisecond are used up. -/
def UsedUp (state : UInt64) : Prop := low p.sequenceBits state = p.maxSequence

variable (p) in
/-- What a reading makes the call do, if it is the last one before the compare-and-swap. -/
def Decides (state reading : UInt64) : Attempt → Prop
  | .threw => FarBehind p state reading
  | .cas timestamp newSequence =>
    (lastTimestamp p state < reading ∧ timestamp = reading ∧ newSequence = 0) ∨
      (Tolerated p state reading ∧ ¬UsedUp p state ∧ timestamp = lastTimestamp p state ∧
        newSequence = low p.sequenceBits state + 1)

theorem FarBehind.not_tolerated {state reading : UInt64} (h : FarBehind p state reading) :
    ¬Tolerated p state reading := by
  rintro (rfl | ⟨-, hnear⟩)
  · exact UInt64.lt_irrefl _ h.1
  · have hgrades := UInt64.le_trans p.tolerance_le_wait p.wait_le_error
    exact UInt64.lt_irrefl _ (UInt64.lt_of_lt_of_le hnear (UInt64.le_trans hgrades h.2))

theorem FarBehind.not_ahead {state reading : UInt64} (h : FarBehind p state reading) :
    ¬lastTimestamp p state < reading :=
  fun hahead => UInt64.lt_irrefl _ (UInt64.lt_trans h.1 hahead)

theorem not_farBehind_of_decides {state reading timestamp newSequence : UInt64}
    (h : Decides p state reading (.cas timestamp newSequence)) : ¬FarBehind p state reading := by
  intro hfar
  obtain ⟨hahead, -⟩ | ⟨htol, -⟩ := h
  · exact hfar.not_ahead hahead
  · exact hfar.not_tolerated htol

variable (p) in
/-- What a grade tells about a reading. -/
def Drift.Tells (state reading : UInt64) : Drift → Prop
  | .proceed timestamp =>
    (Tolerated p state reading ∧ timestamp = lastTimestamp p state) ∨
      (lastTimestamp p state < reading ∧ timestamp = reading)
  | .again => ¬FarBehind p state reading
  | .refuse => FarBehind p state reading

variable (p) in
/-- What the step after the load tells about a reading. -/
def Verdict.Tells (state reading : UInt64) : Verdict → Prop
  | .retry => ¬FarBehind p state reading
  | .fail => FarBehind p state reading
  | .waitNext timestamp => timestamp = lastTimestamp p state ∧ UsedUp p state
  | .update timestamp newSequence => Decides p state reading (.cas timestamp newSequence)

theorem checkDrift_tells (state reading : UInt64) :
    (checkDrift p reading (lastTimestamp p state)).Tells p state reading := by
  unfold checkDrift
  dsimp only
  split_ifs with hbehind htol hwait herror
  · exact Or.inl ⟨Or.inr ⟨hbehind, htol⟩, rfl⟩
  · intro hfar
    have hnear := UInt64.lt_of_lt_of_le hwait (UInt64.le_trans p.wait_le_error hfar.2)
    exact UInt64.lt_irrefl _ hnear
  · exact fun hfar => UInt64.lt_irrefl _ (UInt64.lt_of_lt_of_le herror hfar.2)
  · exact ⟨hbehind, UInt64.not_lt.mp herror⟩
  · by_cases hsame : reading = lastTimestamp p state
    · exact Or.inl ⟨Or.inl hsame, hsame⟩
    · exact Or.inr ⟨UInt64.lt_of_le_of_ne (UInt64.not_lt.mp hbehind) (Ne.symm hsame), rfl⟩

theorem afterLoad_tells (state reading : UInt64) :
    (afterLoad p reading state).Tells p state reading := by
  have hdrift := checkDrift_tells (p := p) state reading
  have hk := p.sequenceBits_lt
  have hlow := low_lt hk state
  unfold afterLoad
  dsimp only
  change Drift.Tells p state reading
    (checkDrift p reading (state >>> UInt64.ofNat p.sequenceBits)) at hdrift
  split
  next hcheck =>
    rw [hcheck] at hdrift
    exact hdrift
  next hcheck =>
    rw [hcheck] at hdrift
    exact hdrift
  next timestamp hcheck =>
    rw [hcheck] at hdrift
    split_ifs with hsame hwrap
    · exact ⟨hsame, (low_succ_eq_zero_iff hk hlow).mp hwrap⟩
    · have hroom : ¬UsedUp p state := fun hused => hwrap ((low_succ_eq_zero_iff hk hlow).mpr hused)
      have hcount : low p.sequenceBits (low p.sequenceBits state + 1) =
          low p.sequenceBits state + 1 := low_succ hk hlow hroom
      obtain ⟨htol, -⟩ | ⟨hahead, hnow⟩ := hdrift
      · exact Or.inr ⟨htol, hroom, hsame, hcount⟩
      · -- a reading ahead is no timestamp of the last millisecond
        refine absurd hahead ?_
        rw [← hnow, hsame]
        exact UInt64.lt_irrefl _
    · obtain ⟨-, hlast⟩ | ⟨hahead, hnow⟩ := hdrift
      · exact absurd hlast hsame
      · exact Or.inl ⟨hahead, hnow, rfl⟩

/-- The inner loop takes readings until one is ahead. -/
theorem waitNextMillis_eq_some {last timestamp : UInt64} {clock rest : List UInt64}
    (h : waitNextMillis last clock = some (timestamp, rest)) :
    ∃ passed, clock = passed ++ timestamp :: rest ∧ last < timestamp := by
  induction clock with
  | nil => cases h
  | cons now clock ih =>
    rw [waitNextMillis] at h
    split_ifs at h with hle
    · obtain ⟨passed, rfl, hlt⟩ := ih h
      exact ⟨now :: passed, rfl, hlt⟩
    · cases h
      exact ⟨[], rfl, UInt64.not_le.mp hle⟩

/-- **One turn of the loop**: the last reading decides, and while there are sequence numbers
none before it was far behind. -/
theorem attempt_decided {state : UInt64} {clock rest : List UInt64} {a : Attempt}
    (h : attempt p state clock = some (a, rest)) :
    ∃ passed reading, clock = passed ++ reading :: rest ∧ Decides p state reading a ∧
      (¬UsedUp p state → ∀ x ∈ passed, ¬FarBehind p state x) := by
  induction clock with
  | nil => cases h
  | cons now clock ih =>
    have htells := afterLoad_tells (p := p) state now
    rw [attempt] at h
    cases hload : afterLoad p now state with
    | retry =>
      rw [hload] at h htells
      obtain ⟨passed, reading, rfl, hdecides, hpassed⟩ := ih h
      refine ⟨now :: passed, reading, rfl, hdecides, fun hroom => ?_⟩
      exact List.forall_mem_cons.mpr ⟨htells, hpassed hroom⟩
    | fail =>
      rw [hload] at h htells
      cases h
      exact ⟨[], now, rfl, htells, by simp⟩
    | waitNext timestamp =>
      rw [hload] at h htells
      obtain ⟨rfl, hused⟩ := htells
      dsimp only at h
      split at h
      next t rest' hwait =>
        cases h
        obtain ⟨passed, rfl, hlt⟩ := waitNextMillis_eq_some hwait
        exact ⟨now :: passed, t, rfl, Or.inl ⟨hlt, rfl, rfl⟩, fun hroom => absurd hused hroom⟩
      next => cases h
    | update timestamp newSequence =>
      rw [hload] at h htells
      cases h
      exact ⟨[], now, rfl, htells, by simp⟩

/-- How a call ends and what it leaves, by what decided it. -/
def Ends (gen : Generator p) (state reading : UInt64) (outcome : Outcome) (state' : UInt64) :
    Prop :=
  (FarBehind p state reading ∧ outcome = .movedBack ∧ state' = state) ∨
    ∃ timestamp newSequence, Decides p state reading (.cas timestamp newSequence) ∧
      outcome = afterCas gen timestamp newSequence ∧ state' = newState p timestamp newSequence

/-- **The last reading decides a call**, and while there are sequence numbers none before it was
far behind. -/
theorem nextId_decided {gen : Generator p} {fails : Nat} {state state' : UInt64}
    {clock rest : List UInt64} {outcome : Outcome}
    (h : nextId gen fails state clock = some (outcome, state', rest)) :
    ∃ passed reading, clock = passed ++ reading :: rest ∧
      Ends gen state reading outcome state' ∧
      (¬UsedUp p state → ∀ x ∈ passed, ¬FarBehind p state x) := by
  replace h := nextId_called h
  induction h with
  | threw hturn =>
    obtain ⟨passed, reading, rfl, hfar, hpassed⟩ := attempt_decided hturn
    exact ⟨passed, reading, rfl, Or.inl ⟨hfar, rfl, rfl⟩, hpassed⟩
  | stored hturn =>
    obtain ⟨passed, reading, rfl, hdecides, hpassed⟩ := attempt_decided hturn
    exact ⟨passed, reading, rfl, Or.inr ⟨_, _, hdecides, rfl, rfl⟩, hpassed⟩
  | failed hturn _ ih =>
    -- the reading before a compare-and-swap that failed was not far behind either
    obtain ⟨front, before, rfl, hdecides, hfront⟩ := attempt_decided hturn
    obtain ⟨passed, reading, rfl, hends, hpassed⟩ := ih
    refine ⟨front ++ before :: passed, reading, by simp, hends, fun hroom => ?_⟩
    refine List.forall_mem_append.mpr ⟨hfront hroom, ?_⟩
    exact List.forall_mem_cons.mpr ⟨not_farBehind_of_decides hdecides, hpassed hroom⟩

theorem nextId_ends {gen : Generator p} {fails : Nat} {state state' reading : UInt64}
    {clock : List UInt64} {outcome : Outcome}
    (h : nextId gen fails state (clock ++ [reading]) = some (outcome, state', [])) :
    Ends gen state reading outcome state' ∧
      (¬UsedUp p state → ∀ x ∈ clock, ¬FarBehind p state x) := by
  obtain ⟨passed, last, hclock, hends, hpassed⟩ := nextId_decided h
  obtain ⟨rfl, hlast⟩ := List.append_inj' hclock rfl
  cases hlast
  exact ⟨hends, hpassed⟩

variable (p) in
/-- The timestamp of the ID a last reading leads to. -/
def timestampFor (state reading : UInt64) : UInt64 :=
  if lastTimestamp p state < reading then reading else lastTimestamp p state

theorem Tolerated.not_ahead {state reading : UInt64} (h : Tolerated p state reading) :
    ¬lastTimestamp p state < reading := by
  intro hahead
  obtain rfl | ⟨hbehind, -⟩ := h
  · exact UInt64.lt_irrefl _ hahead
  · exact UInt64.lt_irrefl _ (UInt64.lt_trans hahead hbehind)

theorem Decides.timestamp_eq {state reading timestamp newSequence : UInt64}
    (h : Decides p state reading (.cas timestamp newSequence)) :
    timestamp = timestampFor p state reading := by
  obtain ⟨hahead, htime, -⟩ | ⟨htol, -, htime, -⟩ := h
  · rw [timestampFor, if_pos hahead, htime]
  · rw [timestampFor, if_neg htol.not_ahead, htime]

theorem afterCas_throws_iff {gen : Generator p} {timestamp newSequence : UInt64} :
    (afterCas gen timestamp newSequence).Throws ↔ p.maxTimestamp < timestamp - gen.epochMs := by
  unfold afterCas makeId
  dsimp only
  by_cases hover : p.maxTimestamp < timestamp - gen.epochMs
  · rw [if_pos hover]
    exact iff_of_true trivial hover
  · rw [if_neg hover]
    exact iff_of_false id hover

-- ---------------------------------------------------------------------------
-- Exceptions
-- ---------------------------------------------------------------------------

/-- One call after another, each with the number of its failed compare-and-swaps and with its
clock readings. -/
def outcomes (gen : Generator p) : UInt64 → List (Nat × List UInt64) → List Outcome
  | _, [] => []
  | state, (fails, clock) :: calls =>
    match nextId gen fails state clock with
    | none => []
    | some (outcome, state', _) => outcome :: outcomes gen state' calls

/-- A call that goes on with the last timestamp leaves another sequence number. -/
theorem newState_last_ne {state : UInt64} (hroom : ¬UsedUp p state) :
    newState p (lastTimestamp p state) (low p.sequenceBits state + 1) ≠ state := by
  have hk := p.sequenceBits_lt
  have hlow := low_lt hk state
  have hcount : low p.sequenceBits (low p.sequenceBits state + 1) =
      low p.sequenceBits state + 1 := low_succ hk hlow hroom
  have hnz : low p.sequenceBits (low p.sequenceBits state + 1) ≠ 0 :=
    fun hzero => hroom ((low_succ_eq_zero_iff hk hlow).mp hzero)
  have hsucc := toNat_low_succ hk hlow hnz
  have hfits : Fits p (lastTimestamp p state) (low p.sequenceBits state + 1) := by
    refine ⟨high_lt hk state, ?_⟩
    rw [← hcount]
    exact low_lt hk _
  intro heq
  have hnum := state_toNat p state
  rw [← heq, newState_toNat hfits, heq, ← hcount, hsucc] at hnum
  change (high p.sequenceBits state).toNat * _ + _ = _ at hnum
  omega

/-- **When an exception is harmless**: it leaves the generator as it was, so that later calls do
what they would have done, exactly if it comes before the compare-and-swap. The compare-and-swap
may also store what is there already. -/
theorem nextId_throws_harmless_iff {gen : Generator p} {fails : Nat}
    {state state' reading : UInt64} {clock : List UInt64} {outcome : Outcome}
    (h : nextId gen fails state (clock ++ [reading]) = some (outcome, state', [])) :
    (outcome.Throws → state' = state ∧
        ∀ later, outcomes gen state' later = outcomes gen state later) ↔
      FarBehind p state reading ∨
        timestampFor p state reading - gen.epochMs ≤ p.maxTimestamp ∨
        (lastTimestamp p state < reading ∧ newState p reading 0 = state) := by
  obtain ⟨⟨hfar, rfl, rfl⟩ | ⟨timestamp, newSequence, hdecides, rfl, rfl⟩, -⟩ := nextId_ends h
  · exact iff_of_true (fun _ => ⟨rfl, fun _ => rfl⟩) (Or.inl hfar)
  rw [afterCas_throws_iff, ← hdecides.timestamp_eq]
  by_cases hover : p.maxTimestamp < timestamp - gen.epochMs
  · refine ⟨?_, ?_⟩
    · intro hkept
      obtain ⟨hsame, -⟩ := hkept hover
      obtain ⟨hahead, htime, hseq⟩ | ⟨-, hroom, htime, hseq⟩ := hdecides
      · rw [htime, hseq] at hsame
        exact Or.inr (Or.inr ⟨hahead, hsame⟩)
      · rw [htime, hseq] at hsame
        exact absurd hsame (newState_last_ne hroom)
    · rintro (hfar | hle | ⟨hahead, hsame⟩) -
      · exact absurd hfar (not_farBehind_of_decides hdecides)
      · exact absurd hover (UInt64.not_lt.mpr hle)
      · obtain ⟨-, htime, hseq⟩ | ⟨htol, -⟩ := hdecides
        · rw [htime, hseq, hsame]
          exact ⟨rfl, fun _ => rfl⟩
        · exact absurd hahead htol.not_ahead
  · exact iff_of_true (fun h => absurd h hover) (Or.inr (Or.inl (UInt64.not_lt.mp hover)))

/-- A wrong reading far in the future costs more than its call: the right reading after it is
refused, where a generator without that call would have returned an ID. -/
theorem nextId_overflow_not_harmless :
    ∃ state', nextId (twoServers false) 0 0 [3903090455552] = some (.overflow, state', []) ∧
      state' ≠ 0 ∧ outcomes (twoServers false) state' [(0, [1704067200007])] = [.movedBack] ∧
      outcomes (twoServers false) 0 [(0, [1704067200007])] = [.returned 29360128] :=
  ⟨newState defaultParams 3903090455552 0, by decide +kernel, by decide +kernel,
    by decide +kernel, by decide +kernel⟩

/-- A reading ten seconds behind is refused and changes nothing. -/
theorem nextId_throws_harmless_far :
    nextId (twoServers true) 0 (newState defaultParams 1704067210007 3) ([] ++ [1704067200007]) =
        some (.movedBack, newState defaultParams 1704067210007 3, []) ∧
      (Outcome.movedBack.Throws → newState defaultParams 1704067210007 3 =
          newState defaultParams 1704067210007 3 ∧
        ∀ later, outcomes (twoServers true) (newState defaultParams 1704067210007 3) later =
          outcomes (twoServers true) (newState defaultParams 1704067210007 3) later) :=
  have hcall : nextId (twoServers true) 0 (newState defaultParams 1704067210007 3)
      ([] ++ [1704067200007]) =
        some (.movedBack, newState defaultParams 1704067210007 3, []) := by decide +kernel
  ⟨hcall, (nextId_throws_harmless_iff hcall).mpr (Or.inl (by decide +kernel))⟩

-- ---------------------------------------------------------------------------
-- The drift policy
-- ---------------------------------------------------------------------------

/-- The policy for a call that took these readings, `reading` the last of them: one far behind
makes it throw, and an ID carries the last timestamp, if the last reading allowed that, or
the last reading, if that is greater. -/
structure FollowsPolicy (gen : Generator p) (state : UInt64) (clock : List UInt64)
    (reading : UInt64) (outcome : Outcome) : Prop where
  refuses : (∃ x ∈ clock ++ [reading], FarBehind p state x) → outcome.Throws
  carries : ∀ id, outcome = .returned id →
    ((parseId gen id).timestampMs = lastTimestamp p state ∧ Tolerated p state reading) ∨
      ((parseId gen id).timestampMs = reading ∧ lastTimestamp p state < reading)

/-- The sequence number a reading leads to fits its field. -/
theorem Decides.sequence_lt {state reading timestamp newSequence : UInt64}
    (h : Decides p state reading (.cas timestamp newSequence)) :
    newSequence.toNat < 2 ^ p.sequenceBits := by
  have hk := p.sequenceBits_lt
  obtain ⟨-, -, rfl⟩ | ⟨-, hroom, -, rfl⟩ := h
  · exact Nat.two_pow_pos _
  · have hcount : low p.sequenceBits (low p.sequenceBits state + 1) =
        low p.sequenceBits state + 1 := low_succ hk (low_lt hk state) hroom
    rw [← hcount]
    exact low_lt hk _

theorem afterCas_returned {gen : Generator p} {timestamp newSequence id : UInt64}
    (h : afterCas gen timestamp newSequence = .returned id) :
    makeId gen timestamp newSequence = some id := by
  unfold afterCas at h
  split at h
  next hid =>
    cases h
    exact hid
  next => cases h

/-- What a call returns always carries a timestamp the policy allows. -/
theorem Ends.carries {gen : Generator p} {state state' reading id : UInt64} {outcome : Outcome}
    (h : Ends gen state reading outcome state') (hid : outcome = .returned id) :
    ((parseId gen id).timestampMs = lastTimestamp p state ∧ Tolerated p state reading) ∨
      ((parseId gen id).timestampMs = reading ∧ lastTimestamp p state < reading) := by
  subst hid
  obtain ⟨-, hthrew, -⟩ | ⟨timestamp, newSequence, hdecides, hcas, -⟩ := h
  · cases hthrew
  have hparse := parseId_makeId hdecides.sequence_lt (afterCas_returned hcas.symm)
  rw [hparse]
  obtain ⟨hahead, htime, -⟩ | ⟨htol, -, htime, -⟩ := hdecides
  · exact Or.inr ⟨htime, hahead⟩
  · exact Or.inl ⟨htime, htol⟩

/-- **When the drift policy holds.** The wait for the next millisecond takes readings without
looking how far behind they are. So one far behind goes unnoticed there, and the call returns an
ID if the reading that ends the wait is in range. -/
theorem nextId_policy_iff {gen : Generator p} {fails : Nat} {state state' reading : UInt64}
    {clock : List UInt64} {outcome : Outcome}
    (h : nextId gen fails state (clock ++ [reading]) = some (outcome, state', [])) :
    FollowsPolicy gen state clock reading outcome ↔
      ¬UsedUp p state ∨ (∀ x ∈ clock, ¬FarBehind p state x) ∨
        reading ≤ lastTimestamp p state ∨ p.maxTimestamp < reading - gen.epochMs := by
  obtain ⟨hends, hpassed⟩ := nextId_ends h
  refine ⟨?_, ?_⟩
  · intro hpolicy
    by_contra hnot
    simp only [not_or, not_not, not_forall, UInt64.not_le] at hnot
    obtain ⟨-, ⟨x, hx, hfar⟩, hahead, hrange⟩ := hnot
    have hthrows := hpolicy.refuses ⟨x, List.mem_append_left _ hx, hfar⟩
    obtain ⟨hbehind, -⟩ | ⟨timestamp, newSequence, hdecides, rfl, -⟩ := hends
    · exact hbehind.not_ahead hahead
    · rw [afterCas_throws_iff, hdecides.timestamp_eq, timestampFor, if_pos hahead] at hthrows
      exact hrange hthrows
  · intro hcond
    refine ⟨?_, fun id hid => hends.carries hid⟩
    rintro ⟨x, hx, hfar⟩
    obtain ⟨-, rfl, -⟩ | ⟨timestamp, newSequence, hdecides, rfl, -⟩ := hends
    · trivial
    -- the call got to its compare-and-swap, so the far reading was not its last one
    have hpast : x ∈ clock := by
      rcases List.mem_append.mp hx with hx | hx
      · exact hx
      · obtain rfl := List.mem_singleton.mp hx
        exact absurd hfar (not_farBehind_of_decides hdecides)
    obtain hroom | hnone | hle | hover := hcond
    · exact absurd hfar (hpassed hroom x hpast)
    · exact absurd hfar (hnone x hpast)
    · obtain ⟨hahead, -⟩ | ⟨-, hroom, -⟩ := hdecides
      · exact absurd hahead (UInt64.not_lt.mpr hle)
      · exact absurd hfar (hpassed hroom x hpast)
    · obtain ⟨hahead, htime, -⟩ | ⟨-, hroom, -⟩ := hdecides
      · rw [afterCas_throws_iff, htime]
        exact hover
      · exact absurd hfar (hpassed hroom x hpast)

/-- With all sequence numbers of a millisecond used up, a clock that goes back by an hour while
the call waits goes unnoticed. -/
theorem nextId_policy_broken :
    nextId (twoServers false) 0 (newState defaultParams 1704067200007 16383)
        [1704067200007, 1704063600007, 1704067200008] =
      some (.returned 33554432, newState defaultParams 1704067200008 0, []) ∧
    FarBehind defaultParams (newState defaultParams 1704067200007 16383) 1704063600007 := by
  decide +kernel

/-- Without that reading the policy holds. -/
theorem nextId_policy_kept :
    FollowsPolicy (twoServers false) (newState defaultParams 1704067200007 16383) [1704067200006]
      1704067200008 (.returned 33554432) :=
  have hcall : nextId (twoServers false) 0 (newState defaultParams 1704067200007 16383)
      ([1704067200006] ++ [1704067200008]) =
        some (.returned 33554432, newState defaultParams 1704067200008 0, []) := by decide +kernel
  (nextId_policy_iff hcall).mpr
    (Or.inr (Or.inl (List.forall_mem_singleton.mpr (by decide +kernel))))

end Zrtools.Snowflake
