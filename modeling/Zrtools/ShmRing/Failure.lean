import Zrtools.ShmRing.Recovery
import Zrtools.ShmRing.Statistics

/-!
# zrtools — a failed `Append` (`zrt_shm_ring.h`)

`Append` returns 0 where it fails. Where it fails at once it has changed nothing. Where it
fails in the nested call, the rest of the lap is already skipped and a number is lost.

* `Atomic` — a call that returns 0 has changed nothing;
* `Lands` — where an entry that passes the tests gets a place and a number;
* `refused_behind_two` — the third attempt is always refused;
* `Ends`, `eval_appendCall` — the five ways in which a call ends;
* `atomic_iff` — exactly then `Append` is atomic.
-/

namespace Zrtools.ShmRing

open ByteMemory LittleEndian SharedMemory Wal

-- ---------------------------------------------------------------------------
-- Atomicity
-- ---------------------------------------------------------------------------

/-- The words of the header and the bytes of the unconfirmed entries are as before. -/
structure Unchanged (cfg : Sizes) (s s' : FullMemory) : Prop where
  words : ∀ v, s'.word v = s.word v
  bytes : ∀ pos, (s.word (.atomic .confirmedPos)).toNat ≤ pos →
    pos < (s.word (.atomic .writePos)).toNat →
    s'.byte () (pos % cfg.bufferSize) = s.byte () (pos % cfg.bufferSize)

theorem Unchanged.refl (cfg : Sizes) (s : FullMemory) : Unchanged cfg s s :=
  ⟨fun _ => rfl, fun _ _ _ => rfl⟩

/-- If `Append` returns 0 it has changed nothing. -/
def Atomic (cfg : Sizes) (type : UInt16) (data : Source) (s : FullMemory) : Prop :=
  ∀ s', (Full.appendCall cfg type data).eval s = (some 0, s') → Unchanged cfg s s'

/-- Where the nested call begins. -/
def behindLap (cfg : Sizes) (s : Memory) : Memory :=
  s.setWord .writePos (s.word .writePos + UInt64.ofNat (lapRest cfg s))

/-- The entry fits into the lap, or there is room behind the lap, and its number is not 0. -/
def Lands (cfg : Sizes) (size : Nat) (s : Memory) : Prop :=
  if Wraps cfg size s then
    Accepts cfg size (behindLap cfg s) ∧ ¬ Wraps cfg size (behindLap cfg s) ∧
      s.word .nextSeq + 1 ≠ 0
  else s.word .nextSeq ≠ 0

-- ---------------------------------------------------------------------------
-- The attempts
-- ---------------------------------------------------------------------------

section Attempts

variable {cfg : Sizes} {size : Nat} {s t u : Memory}

/-- The rest of the lap was skipped between the two. -/
structure Skipped (cfg : Sizes) (s t : Memory) : Prop where
  writePos : t.word .writePos = s.word .writePos + UInt64.ofNat (lapRest cfg s)
  confirmedPos : t.word .confirmedPos = s.word .confirmedPos

/-- The space in use grows by what is skipped. -/
theorem Skipped.used (h : Skipped cfg s t) :
    (t.word .writePos - t.word .confirmedPos).toNat =
      ((s.word .writePos - s.word .confirmedPos).toNat + lapRest cfg s) % 2 ^ 64 := by
  have hwriteLt := (s.word .writePos).toNat_lt
  have hconfirmedLt := (s.word .confirmedPos).toNat_lt
  rw [h.writePos, h.confirmedPos, UInt64.toNat_sub, UInt64.toNat_add, UInt64.toNat_ofNat',
    UInt64.toNat_sub]
  omega

/-- The next lap begins at the front of the buffer, or the position has passed `2^64`. -/
theorem Skipped.mod_lt (h : Skipped cfg s t) (hpos : 0 < cfg.bufferSize) :
    (t.word .writePos).toNat % cfg.bufferSize < lapRest cfg s := by
  have hrest : lapRest cfg s = cfg.bufferSize - (s.word .writePos).toNat % cfg.bufferSize := rfl
  have hmod := Nat.mod_lt (s.word .writePos).toNat hpos
  have hlt := (s.word .writePos).toNat_lt
  have hcfg := cfg.lt
  have hwrite : (t.word .writePos).toNat =
      ((s.word .writePos).toNat + lapRest cfg s) % 2 ^ 64 := by
    rw [h.writePos, UInt64.toNat_add, UInt64.toNat_ofNat']
    omega
  rw [hwrite]
  by_cases hbelow : (s.word .writePos).toNat + lapRest cfg s < 2 ^ 64
  · have hdiv := Nat.div_add_mod (s.word .writePos).toNat cfg.bufferSize
    have hlap : (s.word .writePos).toNat + lapRest cfg s =
        cfg.bufferSize * ((s.word .writePos).toNat / cfg.bufferSize + 1) := by
      rw [Nat.mul_add, Nat.mul_one]
      omega
    rw [Nat.mod_eq_of_lt hbelow, hlap, Nat.mul_mod_right]
    omega
  · refine Nat.lt_of_le_of_lt (Nat.mod_le _ _) ?_
    omega

/-- **The third attempt is refused**: two ends of laps and an entry are more than a lap. -/
theorem refused_behind_two (hfirst : Skipped cfg s t) (hsecond : Skipped cfg t u)
    (hpos : 0 < cfg.bufferSize) (hsize : 0 < size) (hsizeLe : size ≤ 2 ^ 16 + walEntryHeaderSize)
    (haccepts : Accepts cfg size s) (hwraps : Wraps cfg size s) (haccepts' : Accepts cfg size t)
    (hwraps' : Wraps cfg size t) : ¬ Accepts cfg size u := by
  intro haccepts''
  have hrest := hwraps.lapRest_lt hsize
  have hrest' := hwraps'.lapRest_lt hsize
  have hmod := hfirst.mod_lt hpos
  have hlap : lapRest cfg t = cfg.bufferSize - (t.word .writePos).toNat % cfg.bufferSize := rfl
  have hheader : walEntryHeaderSize = 24 := rfl
  have hcfg := cfg.lt
  have hroom := haccepts.2
  have hroom' := haccepts'.2
  have hroom'' := haccepts''.2
  rw [hsecond.used, hfirst.used] at hroom''
  rw [hfirst.used] at hroom'
  -- what the tests compare with the size of the buffer grows by both ends of laps
  have hsum : ((s.word .writePos - s.word .confirmedPos).toNat + size) % 2 ^ 64 +
      lapRest cfg s ≤ cfg.bufferSize := by omega
  omega

end Attempts

-- ---------------------------------------------------------------------------
-- The ends of a call
-- ---------------------------------------------------------------------------

section Ends

/-- What a call returns and leaves behind: it may go to the next lap once, or twice if the
position passes `2^64`. -/
inductive Ends (cfg : Sizes) (type : UInt16) (data : Source) (s : FullMemory) :
    UInt64 → FullMemory → Prop
  | refused (hnot : ¬ Accepts cfg (entrySize data.len) (atomics s)) : Ends cfg type data s 0 s
  | put (haccepts : Accepts cfg (entrySize data.len) (atomics s))
      (hfits : ¬ Wraps cfg (entrySize data.len) (atomics s)) :
      Ends cfg type data s (s.word (.atomic .nextSeq)) (putEntry cfg type data s)
  | refusedBehind (haccepts : Accepts cfg (entrySize data.len) (atomics s))
      (hwraps : Wraps cfg (entrySize data.len) (atomics s))
      (hnot : ¬ Accepts cfg (entrySize data.len) (atomics (endLap cfg s))) :
      Ends cfg type data s 0 (endLap cfg s)
  | putBehind (haccepts : Accepts cfg (entrySize data.len) (atomics s))
      (hwraps : Wraps cfg (entrySize data.len) (atomics s))
      (haccepts' : Accepts cfg (entrySize data.len) (atomics (endLap cfg s)))
      (hfits : ¬ Wraps cfg (entrySize data.len) (atomics (endLap cfg s))) :
      Ends cfg type data s (s.word (.atomic .nextSeq) + 1)
        (putEntry cfg type data (endLap cfg s))
  | refusedBehindTwo (haccepts : Accepts cfg (entrySize data.len) (atomics s))
      (hwraps : Wraps cfg (entrySize data.len) (atomics s))
      (hwraps' : Wraps cfg (entrySize data.len) (atomics (endLap cfg s))) :
      Ends cfg type data s 0 (endLap cfg (endLap cfg s))

variable {cfg : Sizes}

theorem skipped_endLap (s : FullMemory) : Skipped cfg (atomics s) (atomics (endLap cfg s)) :=
  ⟨rfl, rfl⟩

/-- **A call returns** in one of these ways. -/
theorem eval_appendCall (hpos : 0 < cfg.bufferSize) (type : UInt16) (data : Source)
    (s : FullMemory) :
    ∃ seq s', (Full.appendCall cfg type data).eval s = (some seq, s') ∧
      Ends cfg type data s seq s' := by
  obtain ⟨n, hturns⟩ : ∃ n, maxTurns = n + 2 := ⟨2 ^ 64 - 2, rfl⟩
  rw [Full.appendCall, hturns]
  by_cases haccepts : Accepts cfg (entrySize data.len) (atomics s)
  · by_cases hwraps : Wraps cfg (entrySize data.len) (atomics s)
    · rw [eval_appendWithin_wraps haccepts hwraps]
      by_cases haccepts' : Accepts cfg (entrySize data.len) (atomics (endLap cfg s))
      · by_cases hwraps' : Wraps cfg (entrySize data.len) (atomics (endLap cfg s))
        · -- the third attempt
          have hnot : ¬ Accepts cfg (entrySize data.len)
              (atomics (endLap cfg (endLap cfg s))) :=
            refused_behind_two (skipped_endLap s) (skipped_endLap _) hpos (entrySize_pos _)
              (entrySize_le _) haccepts hwraps haccepts' hwraps'
          rw [eval_appendWithin_wraps haccepts' hwraps', eval_appendWithin_refused hnot]
          exact ⟨_, _, rfl, .refusedBehindTwo haccepts hwraps hwraps'⟩
        · rw [eval_appendWithin_puts haccepts' hwraps']
          exact ⟨_, _, rfl, .putBehind haccepts hwraps haccepts' hwraps'⟩
      · rw [eval_appendWithin_refused haccepts']
        exact ⟨_, _, rfl, .refusedBehind haccepts hwraps haccepts'⟩
    · rw [eval_appendWithin_puts haccepts hwraps]
      exact ⟨_, _, rfl, .put haccepts hwraps⟩
  · rw [eval_appendWithin_refused haccepts]
    exact ⟨_, _, rfl, .refused haccepts⟩

end Ends

-- ---------------------------------------------------------------------------
-- Exactly when a failure changes nothing
-- ---------------------------------------------------------------------------

section Failure

variable {cfg : Sizes} {type : UInt16} {data : Source} {s : FullMemory}

/-- The tests of the nested call. -/
theorem accepts_endLap (size : Nat) :
    Accepts cfg size (atomics (endLap cfg s)) ↔ Accepts cfg size (behindLap cfg (atomics s)) :=
  Iff.rfl

theorem wraps_endLap (size : Nat) :
    Wraps cfg size (atomics (endLap cfg s)) ↔ Wraps cfg size (behindLap cfg (atomics s)) :=
  Iff.rfl

/-- A failure that has taken a number. -/
theorem not_atomic {s' : FullMemory} {n : UInt64}
    (hend : (Full.appendCall cfg type data).eval s = (some 0, s'))
    (htaken : s'.word (.atomic .nextSeq) = s.word (.atomic .nextSeq) + n) (hn : n ≠ 0) :
    ¬ Atomic cfg type data s := by
  intro hatomic
  have hsame := (hatomic s' hend).words (.atomic .nextSeq)
  rw [htaken] at hsame
  exact hn (by simpa using hsame)

/-- No failure at all. -/
theorem atomic_of_returned {s' : FullMemory} {seq : UInt64}
    (hend : (Full.appendCall cfg type data).eval s = (some seq, s')) (hseq : seq ≠ 0) :
    Atomic cfg type data s := by
  intro t hzero
  rw [hend] at hzero
  exact absurd (Option.some.inj (congrArg Prod.fst hzero)) hseq

/-- An entry that gets a place has a number other than 0, unless the numbers are used up. -/
theorem atomic_iff_seq {s' : FullMemory} {seq n : UInt64}
    (hend : (Full.appendCall cfg type data).eval s = (some seq, s'))
    (htaken : s'.word (.atomic .nextSeq) = s.word (.atomic .nextSeq) + n) (hn : n ≠ 0) :
    Atomic cfg type data s ↔ seq ≠ 0 := by
  by_cases hseq : seq = 0
  · rw [hseq] at hend
    exact iff_of_false (not_atomic hend htaken hn) fun h => h hseq
  · exact iff_of_true (atomic_of_returned hend hseq) hseq

/-- The words of the next call. -/
theorem nextSeq_endLap : (endLap cfg s).word (.atomic .nextSeq) =
    s.word (.atomic .nextSeq) + 1 := rfl

theorem nextSeq_putEntry : (putEntry cfg type data s).word (.atomic .nextSeq) =
    s.word (.atomic .nextSeq) + 1 := rfl

/-- **`Append` is atomic** iff an entry that passes the tests gets a place and a number. -/
theorem atomic_iff (hpos : 0 < cfg.bufferSize) :
    Atomic cfg type data s ↔
      (Accepts cfg (entrySize data.len) (atomics s) →
        Lands cfg (entrySize data.len) (atomics s)) := by
  obtain ⟨seq, s', hend, hends⟩ := eval_appendCall hpos type data s
  cases hends with
  | refused hnot =>
    refine iff_of_true ?_ fun h => absurd h hnot
    intro t ht
    obtain rfl : s = t := congrArg Prod.snd (hend.symm.trans ht)
    exact Unchanged.refl cfg s
  | put haccepts hfits =>
    rw [forall_prop_of_true haccepts, Lands, if_neg hfits]
    exact atomic_iff_seq hend nextSeq_putEntry (by decide)
  | refusedBehind haccepts hwraps hnot =>
    rw [forall_prop_of_true haccepts, Lands, if_pos hwraps, ← accepts_endLap]
    exact iff_of_false (not_atomic hend nextSeq_endLap (by decide)) fun h => hnot h.1
  | putBehind haccepts hwraps haccepts' hfits =>
    have htaken : (putEntry cfg type data (endLap cfg s)).word (.atomic .nextSeq) =
        s.word (.atomic .nextSeq) + 2 := by
      rw [nextSeq_putEntry, nextSeq_endLap, UInt64.add_assoc]
      rfl
    rw [forall_prop_of_true haccepts, Lands, if_pos hwraps, ← accepts_endLap, ← wraps_endLap,
      atomic_iff_seq hend htaken (by decide)]
    exact ⟨fun hseq => ⟨haccepts', hfits, hseq⟩, fun h => h.2.2⟩
  | refusedBehindTwo haccepts hwraps hwraps' =>
    have htaken : (endLap cfg (endLap cfg s)).word (.atomic .nextSeq) =
        s.word (.atomic .nextSeq) + 2 := by
      rw [nextSeq_endLap, nextSeq_endLap, UInt64.add_assoc]
      rfl
    rw [forall_prop_of_true haccepts, Lands, if_pos hwraps, ← wraps_endLap]
    exact iff_of_false (not_atomic hend htaken (by decide)) fun h => h.2.1 hwraps'

end Failure

-- ---------------------------------------------------------------------------
-- Rings that a process can get into
-- ---------------------------------------------------------------------------

namespace Full

/-- A ring after `Reset()`. -/
def fresh : FullMemory where
  word := fun v => if v = .atomic .nextSeq then 1 else 0
  byte := fun _ _ => 0

/-- What a call leaves in the memory. -/
def after (cfg : Sizes) (s : FullMemory) : Call → FullMemory
  | .append type data now =>
    ((appendCall cfg type (.bytes data)).eval (s.setWord (.atomic .clock) now)).2
  | .stopAppend type data now accesses =>
    ((appendCall cfg type (.bytes data)).steps accesses (s.setWord (.atomic .clock) now)).2
  | .readNext maxLen => (((readNextCall cfg maxLen).rename .atomic).eval s).2
  | .readUnconfirmed maxCount => (((readUnconfirmedCall cfg maxCount).rename .atomic).eval s).2
  | .confirm seq => (((confirmCall cfg seq).rename .atomic).eval s).2
  | .confirmBatch count => (((confirmBatchCall cfg count).rename .atomic).eval s).2

/-- The ring after a number of calls. -/
def reached (cfg : Sizes) (calls : List Call) : FullMemory := calls.foldl (after cfg) fresh

end Full

theorem atomic_iff_tightSizes :
    0 < tightSizes.bufferSize ∧
      (Atomic tightSizes 1 (.null 8) Full.fresh ↔
        (Accepts tightSizes (entrySize (Source.null 8).len) (atomics Full.fresh) →
          Lands tightSizes (entrySize (Source.null 8).len) (atomics Full.fresh))) :=
  ⟨by decide, atomic_iff (by decide)⟩

/-- Two entries of 24 bytes, of which one is confirmed: there is room for 32 bytes, but not
for the 24 bytes to the end of the lap as well. -/
theorem not_atomic_reached :
    ¬ ∀ (calls : List Call) (type : UInt16) (data : Source),
      Atomic tightSizes type data (Full.reached tightSizes calls) := by
  intro h
  have hatomic := h [.append 1 .empty 0, .append 1 .empty 0, .confirm 1] 1 (.null 8)
  have hzero : ((Full.appendCall tightSizes 1 (.null 8)).eval (Full.reached tightSizes
      [.append 1 .empty 0, .append 1 .empty 0, .confirm 1])).1 = some 0 := by
    decide +kernel
  have hsame := (hatomic _ (Prod.ext hzero rfl)).words .wrapCount
  revert hsame
  decide +kernel

end Zrtools.ShmRing
