import Zrtools.Lib.PackedWord
import Zrtools.Lib.Schedule
import Mathlib.Logic.Function.Basic

/-!
# zrtools — Snowflake IDs (`zrt_snowflake.h`)

Any number of threads call `nextId` on any number of generators. A call reads the
clock, loads the packed word of its generator, works out the next word and tries
a compare-and-swap, which may also fail for no reason; a call that ran out of
sequence numbers first reads the clock until it has moved on. Every clock reading
is an argument of the step that takes it. The statistics counters and the log are
left out: nothing reads them back.

* `afterLoad_update` — every word a call goes on to store is above the one it read;
* `parseId_makeId` — an ID determines its timestamp, server and sequence number;
* `makeId_lt_makeId` — IDs of one generator are ordered like the packed words;
* `nextId_unique_increasing` — all IDs ever returned are different, below 2^63,
  and increasing for each generator.
-/

namespace Zrtools.Snowflake

open PackedWord

-- ---------------------------------------------------------------------------
-- Parameters and generators
-- ---------------------------------------------------------------------------

/-- The template parameters, with what the static asserts demand of them. -/
structure Params where
  serverIdBits : Nat
  sequenceBits : Nat
  timestampBits : Nat
  toleranceMs : UInt64
  waitThresholdMs : UInt64
  errorThresholdMs : UInt64
  total_bits : serverIdBits + sequenceBits + timestampBits = 63
  serverIdBits_range : 0 < serverIdBits ∧ serverIdBits ≤ 16
  sequenceBits_range : 0 < sequenceBits ∧ sequenceBits ≤ 22
  timestampBits_range : 0 < timestampBits ∧ timestampBits ≤ 50
  tolerance_le_wait : toleranceMs ≤ waitThresholdMs
  wait_le_error : waitThresholdMs ≤ errorThresholdMs

namespace Params

variable (p : Params)

abbrev serverIdShift : Nat := p.sequenceBits
abbrev timestampShift : Nat := p.serverIdShift + p.serverIdBits
def maxServerId : UInt64 := mask p.serverIdBits
def maxSequence : UInt64 := mask p.sequenceBits
def maxTimestamp : UInt64 := mask p.timestampBits

theorem sequenceBits_lt : p.sequenceBits < 64 := by
  have := p.sequenceBits_range
  omega

theorem serverIdBits_lt : p.serverIdBits < 64 := by
  have := p.serverIdBits_range
  omega

theorem timestampShift_lt : p.timestampShift < 64 := by
  have := p.sequenceBits_range
  have := p.serverIdBits_range
  show p.sequenceBits + p.serverIdBits < 64
  omega

end Params

/-- `Snowflake<..>` after a constructor that did not throw. -/
structure Generator (p : Params) where
  serverId : UInt64
  epochMs : UInt64
  serverId_le : serverId ≤ p.maxServerId

-- ---------------------------------------------------------------------------
-- The local part of `nextId`
-- ---------------------------------------------------------------------------

/-- How the clock stands to the last timestamp: go on with a timestamp, try again
later, or give up with an exception. -/
inductive Drift where
  | proceed (timestamp : UInt64)
  | again
  | refuse
  deriving DecidableEq

/-- What a call does after its load. -/
inductive Verdict where
  | retry
  | fail
  | waitNext (timestamp : UInt64)
  | update (timestamp newSequence : UInt64)
  deriving DecidableEq

variable (p : Params)

/-- The three grades of clock drift. -/
def checkDrift (timestamp lastTimestamp : UInt64) : Drift :=
  if timestamp < lastTimestamp then
    let drift := lastTimestamp - timestamp
    if drift < p.toleranceMs then .proceed lastTimestamp
    else if drift < p.waitThresholdMs then .again
    else if drift < p.errorThresholdMs then .again
    else .refuse
  else .proceed timestamp

/-- `nextId` from the load to the compare-and-swap. -/
def afterLoad (now oldState : UInt64) : Verdict :=
  let lastTimestamp := oldState >>> UInt64.ofNat p.sequenceBits
  let sequence := oldState &&& p.maxSequence
  match checkDrift p now lastTimestamp with
  | .again => .retry
  | .refuse => .fail
  | .proceed timestamp =>
    if timestamp = lastTimestamp then
      let newSequence := (sequence + 1) &&& p.maxSequence
      if newSequence = 0 then .waitNext timestamp else .update timestamp newSequence
    else .update timestamp 0

/-- `(timestamp << SEQUENCE_BITS) | new_sequence`. -/
def newState (timestamp newSequence : UInt64) : UInt64 :=
  (timestamp <<< UInt64.ofNat p.sequenceBits) ||| newSequence

variable {p}

/-- What a call returns after a successful compare-and-swap; `none` is the
exception for a timestamp overflow. -/
def makeId (gen : Generator p) (timestamp newSequence : UInt64) : Option UInt64 :=
  let timeDiff := timestamp - gen.epochMs
  if p.maxTimestamp < timeDiff then none
  else
    some ((timeDiff <<< UInt64.ofNat p.timestampShift) |||
      (gen.serverId <<< UInt64.ofNat p.serverIdShift) ||| newSequence)

/-- `ParsedId`. -/
structure ParsedId where
  timestampMs : UInt64
  serverId : UInt64
  sequence : UInt64
  deriving DecidableEq

/-- `parseId(id)`. -/
def parseId (gen : Generator p) (id : UInt64) : ParsedId where
  sequence := id &&& p.maxSequence
  serverId := (id >>> UInt64.ofNat p.serverIdShift) &&& p.maxServerId
  timestampMs := (id >>> UInt64.ofNat p.timestampShift) + gen.epochMs

-- ---------------------------------------------------------------------------
-- Threads
-- ---------------------------------------------------------------------------

/-- Where a thread stands in a call on a generator. -/
inductive Pc (G : Type) where
  | idle
  | top (g : G)
  | clocked (g : G) (now : UInt64)
  | waiting (g : G) (oldState timestamp : UInt64)
  | ready (g : G) (oldState timestamp newSequence : UInt64)

/-- The packed words and the threads. -/
structure Sys (G T : Type) where
  state : G → UInt64
  pc : T → Pc G

/-- One step of one thread. -/
inductive Action (G T : Type) where
  | call (t : T) (g : G)
  | clock (t : T) (now : UInt64)
  | load (t : T)
  | cas (t : T) (spurious : Bool)

/-- Every clock reading is below `2 ^ (64 - SequenceBits)`. -/
def Action.InRange {G T : Type} (p : Params) : Action G T → Prop
  | .clock _ now => now.toNat < 2 ^ (64 - p.sequenceBits)
  | _ => True

section System

variable {G T : Type} [DecidableEq G] [DecidableEq T]

/-- All generators new, no call in progress. -/
def Sys.initial : Sys G T := { state := fun _ => 0, pc := fun _ => .idle }

def Sys.setPc (s : Sys G T) (t : T) (pc : Pc G) : Sys G T :=
  { s with pc := Function.update s.pc t pc }

variable (p) in
/-- One step, where the thread is at that point of its call. -/
def Sys.step (s : Sys G T) : Action G T → Option (Sys G T)
  | .call t g =>
    match s.pc t with
    | .idle => some (s.setPc t (.top g))
    | _ => none
  | .clock t now =>
    match s.pc t with
    | .top g => some (s.setPc t (.clocked g now))
    -- the loop of `waitNextMillis`
    | .waiting g oldState timestamp =>
      some (if now ≤ timestamp then s else s.setPc t (.ready g oldState now 0))
    | _ => none
  | .load t =>
    match s.pc t with
    | .clocked g now =>
      match afterLoad p now (s.state g) with
      | .retry => some (s.setPc t (.top g))
      | .fail => some (s.setPc t .idle)
      | .waitNext timestamp => some (s.setPc t (.waiting g (s.state g) timestamp))
      | .update timestamp newSequence =>
        some (s.setPc t (.ready g (s.state g) timestamp newSequence))
    | _ => none
  | .cas t spurious =>
    match s.pc t with
    | .ready g oldState timestamp newSequence =>
      if s.state g = oldState ∧ spurious = false then
        some { state := Function.update s.state g (newState p timestamp newSequence),
               pc := Function.update s.pc t .idle }
      else some (s.setPc t (.top g))
    | _ => none

/-- The ID a step returns, with its generator. -/
def Sys.returned (gens : G → Generator p) (s : Sys G T) : Action G T → List (G × UInt64)
  | .cas t spurious =>
    match s.pc t with
    | .ready g oldState timestamp newSequence =>
      if s.state g = oldState ∧ spurious = false then
        match makeId (gens g) timestamp newSequence with
        | some id => [(g, id)]
        | none => []
      else []
    | _ => []
  | .call _ _ => []
  | .clock _ _ => []
  | .load _ => []

end System

-- ---------------------------------------------------------------------------
-- One call moves the packed word up
-- ---------------------------------------------------------------------------

/-- A timestamp and a sequence number that fit the packed word. -/
def Fits (p : Params) (timestamp sequence : UInt64) : Prop :=
  timestamp.toNat < 2 ^ (64 - p.sequenceBits) ∧ sequence.toNat < 2 ^ p.sequenceBits

theorem newState_toNat {timestamp sequence : UInt64} (h : Fits p timestamp sequence) :
    (newState p timestamp sequence).toNat =
      timestamp.toNat * 2 ^ p.sequenceBits + sequence.toNat :=
  toNat_pack p.sequenceBits_lt h.1 h.2

/-- A word is the one made of its timestamp and its sequence number. -/
theorem state_toNat (p : Params) (state : UInt64) : state.toNat =
    (high p.sequenceBits state).toNat * 2 ^ p.sequenceBits + (low p.sequenceBits state).toNat := by
  have h := toNat_pack p.sequenceBits_lt (high_lt p.sequenceBits_lt state)
    (low_lt p.sequenceBits_lt state)
  rwa [pack_high_low p.sequenceBits_lt] at h

/-- A later timestamp gives a larger word, whatever the sequence numbers are. -/
theorem lt_newState_of_timestamp_lt {state timestamp sequence : UInt64}
    (h : Fits p timestamp sequence) (hlt : high p.sequenceBits state < timestamp) :
    state < newState p timestamp sequence := by
  rw [UInt64.lt_iff_toNat_lt, newState_toNat h, state_toNat p state]
  exact digits_lt_of_lt (UInt64.lt_iff_toNat_lt.mp hlt) (low_lt p.sequenceBits_lt state)

/-- The timestamp a call goes on with is in range and not before the last one. -/
theorem checkDrift_proceed {now lastTimestamp timestamp : UInt64}
    (h : checkDrift p now lastTimestamp = .proceed timestamp) :
    (timestamp = lastTimestamp ∨ timestamp = now) ∧ lastTimestamp ≤ timestamp := by
  unfold checkDrift at h
  split at h
  · dsimp only at h
    -- only the smallest grade goes on, with the last timestamp
    split at h
    · cases h
      exact ⟨Or.inl rfl, UInt64.le_refl _⟩
    · split at h
      · cases h
      · split at h <;> cases h
  · rename_i hge
    cases h
    exact ⟨Or.inr rfl, UInt64.not_lt.mp hge⟩

theorem afterLoad_waitNext {now oldState timestamp : UInt64}
    (h : afterLoad p now oldState = .waitNext timestamp) :
    timestamp = high p.sequenceBits oldState := by
  unfold afterLoad at h
  dsimp only at h
  split at h
  · cases h
  · cases h
  · split at h
    · rename_i hsame
      split at h
      · cases h
        exact hsame
      · cases h
    · cases h

/-- **Every word a call goes on to store is above the one it read.** -/
theorem afterLoad_update {now oldState timestamp newSequence : UInt64}
    (hnow : now.toNat < 2 ^ (64 - p.sequenceBits))
    (h : afterLoad p now oldState = .update timestamp newSequence) :
    Fits p timestamp newSequence ∧ oldState < newState p timestamp newSequence := by
  have hk := p.sequenceBits_lt
  unfold afterLoad at h
  dsimp only at h
  split at h
  · cases h
  · cases h
  · rename_i t hdrift
    obtain ⟨hwhich, hle⟩ := checkDrift_proceed hdrift
    split at h
    · -- the same millisecond: the next sequence number
      rename_i hsame
      split at h
      · cases h
      · rename_i hne
        cases h
        have hfits : Fits p timestamp (low p.sequenceBits (low p.sequenceBits oldState + 1)) := by
          refine ⟨?_, low_lt hk _⟩
          rw [hsame]
          exact high_lt hk oldState
        refine ⟨hfits, ?_⟩
        have hseq := toNat_low_succ hk (low_lt hk oldState) hne
        have hts : timestamp.toNat = (high p.sequenceBits oldState).toNat := by
          rw [hsame]
          rfl
        show oldState < newState p timestamp (low p.sequenceBits (low p.sequenceBits oldState + 1))
        rw [UInt64.lt_iff_toNat_lt, newState_toNat hfits, hseq, hts]
        have := state_toNat p oldState
        omega
    · -- a new millisecond
      rename_i hnew
      cases h
      have hfits : Fits p timestamp 0 := by
        refine ⟨?_, Nat.two_pow_pos _⟩
        rcases hwhich with hold | hclock
        · exact absurd hold hnew
        · rw [hclock]
          exact hnow
      refine ⟨hfits, lt_newState_of_timestamp_lt hfits ?_⟩
      rw [UInt64.lt_iff_toNat_lt]
      have hne : timestamp.toNat ≠ (high p.sequenceBits oldState).toNat :=
        fun heq => hnew (UInt64.toNat_inj.mp heq)
      have hle' : (high p.sequenceBits oldState).toNat ≤ timestamp.toNat :=
        UInt64.le_iff_toNat_le.mp hle
      omega

-- ---------------------------------------------------------------------------
-- IDs
-- ---------------------------------------------------------------------------

/-- An ID put together from fields that fit. -/
structure IsId (gen : Generator p) (timestamp sequence id : UInt64) : Prop where
  time_lt : (timestamp - gen.epochMs).toNat < 2 ^ p.timestampBits
  packed : id = pack p.timestampShift (timestamp - gen.epochMs)
    (pack p.sequenceBits gen.serverId sequence)
  low_toNat : (pack p.sequenceBits gen.serverId sequence).toNat =
    gen.serverId.toNat * 2 ^ p.sequenceBits + sequence.toNat
  low_lt : (pack p.sequenceBits gen.serverId sequence).toNat < 2 ^ p.timestampShift

theorem Generator.serverId_lt (gen : Generator p) : gen.serverId.toNat < 2 ^ p.serverIdBits := by
  have hle := UInt64.le_iff_toNat_le.mp gen.serverId_le
  rw [Params.maxServerId, toNat_mask p.serverIdBits_lt] at hle
  have := Nat.two_pow_pos p.serverIdBits
  omega

theorem makeId_isId {gen : Generator p} {timestamp sequence id : UInt64}
    (hseq : sequence.toNat < 2 ^ p.sequenceBits) (h : makeId gen timestamp sequence = some id) :
    IsId gen timestamp sequence id := by
  have hts : p.timestampBits < 64 := by
    have := p.timestampBits_range
    omega
  unfold makeId at h
  dsimp only at h
  split at h
  · simp at h
  · rename_i hover
    have htime : (timestamp - gen.epochMs).toNat < 2 ^ p.timestampBits := by
      have hle := UInt64.le_iff_toNat_le.mp (UInt64.not_lt.mp hover)
      rw [Params.maxTimestamp, toNat_mask hts] at hle
      have := Nat.two_pow_pos p.timestampBits
      omega
    have hroom : gen.serverId.toNat < 2 ^ (64 - p.sequenceBits) := by
      refine lt_of_lt_of_le gen.serverId_lt (Nat.pow_le_pow_right (by decide) ?_)
      have := p.total_bits
      omega
    have hlow := toNat_pack p.sequenceBits_lt hroom hseq
    have hlowLt : (pack p.sequenceBits gen.serverId sequence).toNat < 2 ^ p.timestampShift := by
      show _ < 2 ^ (p.sequenceBits + p.serverIdBits)
      rw [hlow, Nat.pow_add, Nat.mul_comm (2 ^ p.sequenceBits)]
      have hzero := digits_lt_of_lt (d := 0) gen.serverId_lt hseq
      omega
    refine ⟨htime, ?_, hlow, hlowLt⟩
    obtain rfl := Option.some.inj h
    exact UInt64.or_assoc ..

theorem IsId.high_lt {gen : Generator p} {timestamp sequence id : UInt64}
    (h : IsId gen timestamp sequence id) :
    (timestamp - gen.epochMs).toNat < 2 ^ (64 - p.timestampShift) := by
  refine lt_of_lt_of_le h.time_lt (Nat.pow_le_pow_right (by decide) ?_)
  have := p.total_bits
  show _ ≤ 64 - (p.sequenceBits + p.serverIdBits)
  omega

theorem IsId.toNat_eq {gen : Generator p} {timestamp sequence id : UInt64}
    (h : IsId gen timestamp sequence id) :
    id.toNat = (timestamp - gen.epochMs).toNat * 2 ^ p.timestampShift +
      (gen.serverId.toNat * 2 ^ p.sequenceBits + sequence.toNat) := by
  rw [h.packed, toNat_pack p.timestampShift_lt h.high_lt h.low_lt, h.low_toNat]

/-- IDs leave the sign bit clear. -/
theorem IsId.lt {gen : Generator p} {timestamp sequence id : UInt64}
    (h : IsId gen timestamp sequence id) : id.toNat < 2 ^ 63 := by
  have hpow : 2 ^ p.timestampBits * 2 ^ p.timestampShift = 2 ^ 63 := by
    rw [← Nat.pow_add]
    congr 1
    have := p.total_bits
    show p.timestampBits + (p.sequenceBits + p.serverIdBits) = 63
    omega
  have hlt := digits_lt_of_lt (d := 0) h.time_lt h.low_lt
  rw [h.toNat_eq, ← h.low_toNat, ← hpow]
  exact hlt

/-- **An ID parses back** into the fields it was made of. -/
theorem parseId_makeId {gen : Generator p} {timestamp sequence id : UInt64}
    (hseq : sequence.toNat < 2 ^ p.sequenceBits) (h : makeId gen timestamp sequence = some id) :
    parseId gen id =
      { timestampMs := timestamp, serverId := gen.serverId, sequence := sequence } := by
  have hid := makeId_isId hseq h
  have hk := p.sequenceBits_lt
  have hm := p.serverIdBits_lt
  have htime : high p.timestampShift id = timestamp - gen.epochMs := by
    rw [hid.packed]
    exact high_pack p.timestampShift_lt hid.high_lt hid.low_lt
  have hmod : id.toNat % 2 ^ p.timestampShift =
      gen.serverId.toNat * 2 ^ p.sequenceBits + sequence.toNat := by
    rw [hid.toNat_eq, ← hid.low_toNat, Nat.mul_comm, Nat.mul_add_mod, Nat.mod_eq_of_lt hid.low_lt]
  have hsplit : 2 ^ p.timestampShift = 2 ^ p.sequenceBits * 2 ^ p.serverIdBits :=
    Nat.pow_add 2 p.sequenceBits p.serverIdBits
  have hsequence : low p.sequenceBits id = sequence := by
    apply UInt64.toNat_inj.mp
    have hdvd : 2 ^ p.sequenceBits ∣ 2 ^ p.timestampShift := ⟨_, hsplit⟩
    rw [toNat_low hk, ← Nat.mod_mod_of_dvd _ hdvd, hmod, Nat.mul_comm, Nat.mul_add_mod,
      Nat.mod_eq_of_lt hseq]
  have hserver : low p.serverIdBits (high p.sequenceBits id) = gen.serverId := by
    apply UInt64.toNat_inj.mp
    rw [toNat_low hm, toNat_high hk, ← Nat.mod_mul_right_div_self, ← hsplit, hmod, Nat.mul_comm,
      Nat.mul_add_div (Nat.two_pow_pos _), Nat.div_eq_of_lt hseq, Nat.add_zero]
  have hback : timestamp - gen.epochMs + gen.epochMs = timestamp := UInt64.sub_add_cancel _ _
  unfold parseId
  rw [ParsedId.mk.injEq]
  refine ⟨?_, hserver, hsequence⟩
  show high p.timestampShift id + gen.epochMs = timestamp
  rw [htime, hback]

/-- Time differences that were let through are ordered like the timestamps: where
the subtraction wraps below the epoch, it ends far above `MAX_TIMESTAMP`. -/
theorem timeDiff_lt {gen : Generator p} {t t' : UInt64}
    (ht' : t'.toNat < 2 ^ (64 - p.sequenceBits)) (hlt : t.toNat < t'.toNat)
    (hdiff : (t - gen.epochMs).toNat < 2 ^ p.timestampBits)
    (hdiff' : (t' - gen.epochMs).toNat < 2 ^ p.timestampBits) :
    (t - gen.epochMs).toNat < (t' - gen.epochMs).toNat := by
  have hbits : 2 ^ p.timestampBits ≤ 2 ^ 50 :=
    Nat.pow_le_pow_right (by decide) p.timestampBits_range.2
  have hsmall : 2 ^ (64 - p.sequenceBits) ≤ 2 ^ 63 := by
    apply Nat.pow_le_pow_right (by decide)
    have := p.sequenceBits_range
    omega
  have hepoch := gen.epochMs.toNat_lt
  have hword := t.toNat_lt
  rw [UInt64.toNat_sub] at hdiff hdiff'
  rw [UInt64.toNat_sub, UInt64.toNat_sub]
  rcases Nat.lt_or_ge t.toNat gen.epochMs.toNat with hbefore | hafter
  · rcases Nat.lt_or_ge t'.toNat gen.epochMs.toNat with hbefore' | hafter'
    · omega
    · -- the earlier one wrapped, the later one did not
      omega
  · omega

/-- **IDs of one generator are ordered like the packed words.** -/
theorem makeId_lt_makeId {gen : Generator p} {t q t' q' id id' : UInt64} (hfits : Fits p t q)
    (hfits' : Fits p t' q') (hid : makeId gen t q = some id) (hid' : makeId gen t' q' = some id')
    (hlt : newState p t q < newState p t' q') : id < id' := by
  have h := makeId_isId hfits.2 hid
  have h' := makeId_isId hfits'.2 hid'
  rw [UInt64.lt_iff_toNat_lt, newState_toNat hfits, newState_toNat hfits'] at hlt
  rw [UInt64.lt_iff_toNat_lt, h.toNat_eq, h'.toNat_eq]
  rcases Nat.lt_trichotomy t.toNat t'.toNat with htime | htime | htime
  · rw [← h.low_toNat]
    exact digits_lt_of_lt (timeDiff_lt hfits'.1 htime h.time_lt h'.time_lt) h.low_lt
  · -- the same millisecond: the sequence numbers decide
    obtain rfl := UInt64.toNat_inj.mp htime
    omega
  · have := digits_lt_of_lt (d := q.toNat) htime hfits'.2
    omega

-- ---------------------------------------------------------------------------
-- All threads together
-- ---------------------------------------------------------------------------

section Runs

variable {G T : Type} [DecidableEq G] [DecidableEq T] (gens : G → Generator p)

/-- What a thread knows at each point of a call. -/
def PcOk (p : Params) : Pc G → Prop
  | .clocked _ now => now.toNat < 2 ^ (64 - p.sequenceBits)
  | .waiting _ oldState timestamp => timestamp = high p.sequenceBits oldState
  | .ready _ oldState timestamp newSequence =>
    Fits p timestamp newSequence ∧ oldState < newState p timestamp newSequence
  | _ => True

/-- An ID was made from a packed word that its generator has reached. -/
def Issued (s : Sys G T) (x : G × UInt64) : Prop :=
  ∃ t q, Fits p t q ∧ makeId (gens x.1) t q = some x.2 ∧ newState p t q ≤ s.state x.1

/-- The invariant: threads store only larger words, and the IDs so far are made from
smaller ones and in order. -/
structure Sys.Inv (s : Sys G T) (past : List (G × UInt64)) : Prop where
  pcs : ∀ t, PcOk p (s.pc t)
  issued : ∀ x ∈ past, Issued gens s x
  increasing : past.Pairwise fun x y => x.1 = y.1 → x.2 < y.2

variable {gens}

omit [DecidableEq G] in
theorem PcOk.update {s : Sys G T} (h : ∀ t, PcOk p (s.pc t)) {t : T} {pc : Pc G}
    (hpc : PcOk p pc) (u : T) : PcOk p ((Function.update s.pc t pc) u) := by
  rcases eq_or_ne u t with rfl | hne
  · rwa [Function.update_self]
  · rw [Function.update_of_ne hne]
    exact h u

omit [DecidableEq G] in
/-- Moving one thread leaves the words and the IDs alone. -/
theorem Sys.Inv.setPc {s : Sys G T} {past : List (G × UInt64)} (h : s.Inv gens past) {t : T}
    {pc : Pc G} (hpc : PcOk p pc) : (s.setPc t pc).Inv gens past where
  pcs := PcOk.update h.pcs hpc
  issued := h.issued
  increasing := h.increasing

/-- A successful compare-and-swap. -/
theorem Sys.Inv.store {s : Sys G T} {past : List (G × UInt64)} (h : s.Inv gens past) {t : T}
    {g : G} {timestamp newSequence : UInt64} (hfits : Fits p timestamp newSequence)
    (hlt : s.state g < newState p timestamp newSequence) :
    (Sys.mk (Function.update s.state g (newState p timestamp newSequence))
      (Function.update s.pc t .idle)).Inv gens
        (past ++ match makeId (gens g) timestamp newSequence with
          | some id => [(g, id)]
          | none => []) := by
  -- what was issued stays issued, since words only grow
  have hkeep : ∀ x ∈ past, Issued gens (Sys.mk
      (Function.update s.state g (newState p timestamp newSequence))
      (Function.update s.pc t .idle)) x := by
    intro x hx
    obtain ⟨t', q', hfits', hid', hle⟩ := h.issued x hx
    refine ⟨t', q', hfits', hid', ?_⟩
    show newState p t' q' ≤ Function.update s.state g (newState p timestamp newSequence) x.1
    rcases eq_or_ne x.1 g with heq | hne
    · rw [heq] at hle ⊢
      rw [Function.update_self]
      exact UInt64.le_trans hle (UInt64.le_of_lt hlt)
    · rwa [Function.update_of_ne hne]
  cases hid : makeId (gens g) timestamp newSequence with
  | none =>
    refine ⟨PcOk.update h.pcs trivial, ?_, ?_⟩
    · simpa using hkeep
    · simpa using h.increasing
  | some id =>
    refine ⟨PcOk.update h.pcs trivial, ?_, ?_⟩
    · intro x hx
      rcases List.mem_append.mp hx with hx | hx
      · exact hkeep x hx
      · obtain rfl := List.mem_singleton.mp hx
        refine ⟨timestamp, newSequence, hfits, hid, ?_⟩
        show _ ≤ Function.update s.state g _ g
        rw [Function.update_self]
        exact UInt64.le_refl _
    · rw [List.pairwise_append]
      refine ⟨h.increasing, List.pairwise_singleton _ _, ?_⟩
      intro x hx y hy hsame
      obtain rfl := List.mem_singleton.mp hy
      obtain ⟨t', q', hfits', hid', hle⟩ := h.issued x hx
      obtain rfl : x.1 = g := hsame
      exact makeId_lt_makeId hfits' hfits hid' hid (UInt64.lt_of_le_of_lt hle hlt)

/-- **One step** of any thread keeps the invariant. -/
theorem Sys.Inv.step {s s' : Sys G T} {a : Action G T} {past : List (G × UInt64)}
    (h : s.Inv gens past) (hclock : a.InRange p) (hstep : Sys.step p s a = some s') :
    s'.Inv gens (past ++ s.returned gens a) := by
  cases a with
  | call t g =>
    rw [Sys.returned, List.append_nil]
    rw [Sys.step] at hstep
    split at hstep
    · obtain rfl := Option.some.inj hstep
      exact h.setPc trivial
    · simp at hstep
  | clock t now =>
    rw [Sys.returned, List.append_nil]
    have hpc := h.pcs t
    rw [Sys.step] at hstep
    split at hstep
    · obtain rfl := Option.some.inj hstep
      exact h.setPc hclock
    · rename_i g oldState timestamp heq
      rw [heq] at hpc
      split at hstep
      · obtain rfl := Option.some.inj hstep
        exact h
      · -- the clock has moved past the last timestamp
        rename_i hpast
        obtain rfl := Option.some.inj hstep
        have hfits : Fits p now 0 := ⟨hclock, Nat.two_pow_pos _⟩
        refine h.setPc ⟨hfits, lt_newState_of_timestamp_lt hfits ?_⟩
        rw [← show timestamp = high p.sequenceBits oldState from hpc]
        exact UInt64.not_le.mp hpast
    · simp at hstep
  | load t =>
    rw [Sys.returned, List.append_nil]
    have hpc := h.pcs t
    rw [Sys.step] at hstep
    split at hstep
    · rename_i g now heq
      rw [heq] at hpc
      split at hstep
      · obtain rfl := Option.some.inj hstep
        exact h.setPc trivial
      · obtain rfl := Option.some.inj hstep
        exact h.setPc trivial
      · rename_i hverdict
        obtain rfl := Option.some.inj hstep
        exact h.setPc (afterLoad_waitNext hverdict)
      · rename_i hverdict
        obtain rfl := Option.some.inj hstep
        exact h.setPc (afterLoad_update hpc hverdict)
    · simp at hstep
  | cas t spurious =>
    have hpc := h.pcs t
    rw [Sys.step] at hstep
    rw [Sys.returned]
    split at hstep
    · rename_i g oldState timestamp newSequence heq
      rw [heq] at hpc
      obtain ⟨hfits, hlt⟩ : Fits p timestamp newSequence ∧
          oldState < newState p timestamp newSequence := hpc
      split at hstep
      · rename_i hswap
        obtain rfl := Option.some.inj hstep
        rw [if_pos hswap]
        exact h.store hfits (hswap.1 ▸ hlt)
      · rename_i hfail
        obtain rfl := Option.some.inj hstep
        rw [if_neg hfail, List.append_nil]
        exact h.setPc trivial
    · simp at hstep

variable (gens)

/-- All IDs a run returns, in the order of their compare-and-swaps. -/
def ids (acts : List (Action G T)) : List (G × UInt64) :=
  Schedule.outputs (Sys.step p) (Sys.returned gens) Sys.initial acts

variable {gens}

/-- **Uniqueness.** Whatever the threads and the clock do, no two IDs are equal, each
is below 2^63, and those of one generator increase. -/
theorem nextId_unique_increasing {acts : List (Action G T)} {s : Sys G T}
    (hservers : ∀ g g', (gens g).serverId = (gens g').serverId → g = g')
    (hepoch : ∀ g g', (gens g).epochMs = (gens g').epochMs)
    (hclock : ∀ a ∈ acts, a.InRange p)
    (hrun : Schedule.run (Sys.step p) Sys.initial acts = some s) :
    ((ids gens acts).map Prod.snd).Nodup ∧ (∀ x ∈ ids gens acts, x.2.toNat < 2 ^ 63) ∧
      (ids gens acts).Pairwise fun x y => x.1 = y.1 → x.2 < y.2 := by
  have hinv : s.Inv gens ([] ++ ids gens acts) := by
    refine Schedule.run_invariant_outputs (Sys.step p) (Sys.Inv gens) ?_ ?_
      (Schedule.stepsMeet_of_forall _ (fun a ha _ => hclock a ha) _) hrun
    · exact fun _ _ _ _ h hok hstep => h.step hok hstep
    · exact ⟨fun _ => trivial, by simp, List.Pairwise.nil⟩
  rw [List.nil_append] at hinv
  refine ⟨?_, ?_, hinv.increasing⟩
  · rw [List.Nodup, List.pairwise_map]
    refine List.Pairwise.imp_of_mem ?_ hinv.increasing
    intro x y hx hy hlt heq
    obtain ⟨t, q, hfits, hid, -⟩ := hinv.issued x hx
    obtain ⟨t', q', hfits', hid', -⟩ := hinv.issued y hy
    -- equal IDs parse to equal server numbers, so they are of one generator
    have hparse := parseId_makeId hfits.2 hid
    have hparse' := parseId_makeId hfits'.2 hid'
    have hsame : parseId (gens x.1) x.2 = parseId (gens y.1) y.2 := by
      rw [heq, parseId, parseId, hepoch x.1 y.1]
    rw [hparse, hparse', ParsedId.mk.injEq] at hsame
    have := hlt (hservers _ _ hsame.2.1)
    rw [heq] at this
    exact UInt64.lt_irrefl _ this
  · intro x hx
    obtain ⟨t, q, hfits, hid, -⟩ := hinv.issued x hx
    exact (makeId_isId hfits.2 hid).lt

end Runs

/-- The default template arguments. -/
def defaultParams : Params where
  serverIdBits := 8
  sequenceBits := 14
  timestampBits := 41
  toleranceMs := 5
  waitThresholdMs := 10000
  errorThresholdMs := 10000
  total_bits := by decide
  serverIdBits_range := by decide
  sequenceBits_range := by decide
  timestampBits_range := by decide
  tolerance_le_wait := by decide
  wait_le_error := by decide

/-- Servers 0 and 1 with the default epoch. -/
def twoServers (server : Bool) : Generator defaultParams where
  serverId := if server then 1 else 0
  epochMs := 1704067200000
  serverId_le := by cases server <;> decide

/-- Two threads race on server 0 while the clock steps back by a millisecond; the
one that loses the race tries again on server 1. -/
def racingCalls : List (Action Bool Bool) :=
  [.call false false, .call true false, .clock false 1704067200007, .clock true 1704067200006,
    .load false, .load true, .cas false false, .cas true false, .clock true 1704067200006,
    .load true, .cas true false, .call false true, .clock false 1704067200006, .load false,
    .cas false false]

/-- That run, with its three IDs. -/
theorem nextId_racingCalls : (ids twoServers racingCalls).length = 3 ∧
    ((ids twoServers racingCalls).map Prod.snd).Nodup ∧
      (∀ x ∈ ids twoServers racingCalls, x.2.toNat < 2 ^ 63) ∧
      (ids twoServers racingCalls).Pairwise fun x y => x.1 = y.1 → x.2 < y.2 := by
  have hservers : ∀ g g', (twoServers g).serverId = (twoServers g').serverId → g = g' := by
    decide
  have hclock : ∀ a ∈ racingCalls, a.InRange defaultParams := by
    simp [racingCalls, Action.InRange, defaultParams]
  exact ⟨by decide +kernel, nextId_unique_increasing hservers (fun _ _ => rfl) hclock rfl⟩

end Zrtools.Snowflake
