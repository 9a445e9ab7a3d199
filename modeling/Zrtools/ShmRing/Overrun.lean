import Zrtools.ShmRing.Process

/-!
# zrtools — positions beyond `2^64`

Positions are 64-bit numbers. When `write_pos` goes round, `confirmed_pos` has not yet, and
from then on it seems to be far ahead: the readers find nothing any more, and `Append` fills
up what is left of the buffer.

* `Overrun` — `write_pos` has gone round;
* `Appends.overrun` — how it comes to that;
* `Overrun.appends` — it stays so;
* `Overrun.call_append` — what `Append` does then;
* `call_readUnconfirmed_of_le`, `call_confirm_of_le`, `call_confirmBatch_of_le`,
  `call_readNext_of_le` — what the others do where `write_pos` is not ahead.
-/

namespace Zrtools.ShmRing

open ByteMemory SharedMemory Wal

variable {cfg : Sizes}

/-- `write_pos` has gone round, and is no more than a lap ahead of `confirmed_pos`. -/
def Overrun (cfg : Sizes) (s : Memory) : Prop :=
  (s.word .writePos).toNat + 2 ^ 64 ≤ (s.word .confirmedPos).toNat + cfg.bufferSize

section Overrun

variable {s s' : Memory} {size : Nat}

theorem Overrun.used (h : Overrun cfg s) :
    (s.word .writePos - s.word .confirmedPos).toNat =
      (s.word .writePos).toNat + 2 ^ 64 - (s.word .confirmedPos).toNat := by
  have hlt := (s.word .confirmedPos).toNat_lt
  have hcfg := cfg.lt
  unfold Overrun at h
  rw [UInt64.toNat_sub]
  omega

theorem Overrun.used_le (h : Overrun cfg s) :
    (s.word .writePos - s.word .confirmedPos).toNat ≤ cfg.bufferSize := by
  have hused := h.used
  unfold Overrun at h
  omega

theorem Overrun.le (h : Overrun cfg s) : s.word .writePos ≤ s.word .confirmedPos := by
  have hcfg := cfg.lt
  unfold Overrun at h
  rw [UInt64.le_iff_toNat_le]
  omega

/-- Less than a lap is left, and all of it is in one piece. -/
theorem Overrun.not_wraps (h : Overrun cfg s) (hsize : size ≤ 2 ^ 16 + walEntryHeaderSize)
    (haccepts : Accepts cfg size s) : ¬ Wraps cfg size s := by
  obtain ⟨-, hroom⟩ := haccepts
  have hlt := (s.word .confirmedPos).toNat_lt
  have hle := Nat.mod_le (s.word .writePos).toNat cfg.bufferSize
  have hcfg := cfg.lt
  have hheader : walEntryHeaderSize = 24 := rfl
  rw [h.used] at hroom
  unfold Overrun at h
  unfold Wraps
  omega

theorem Overrun.wrapsClean (h : Overrun cfg s) (hsize : size ≤ 2 ^ 16 + walEntryHeaderSize) :
    WrapsClean cfg size s := fun haccepts hwraps =>
  absurd hwraps (h.not_wraps hsize haccepts)

/-- `Append` writes the two words only. -/
theorem Appends.keeps {type : UInt16} {data : Payload} {seq : UInt64}
    (h : Appends cfg type data s seq s') {v : Var} (hwrite : v ≠ .writePos)
    (hnext : v ≠ .nextSeq) : s'.word v = s.word v := by
  induction h with
  | refused hnot => rfl
  | put haccepts hfits hlays => exact hlays.keeps v hwrite hnext
  | wrapped haccepts hwraps hlays hrest ih => rw [ih, hlays.keeps v hwrite hnext]

/-- It stays so. -/
theorem Overrun.appends {type : UInt16} {data : Payload} {seq : UInt64} (h : Overrun cfg s)
    (happends : Appends cfg type data s seq s') : Overrun cfg s' := by
  have hsize := entrySize_le data.len
  cases happends with
  | refused hnot => exact h
  | wrapped haccepts hwraps => exact absurd hwraps (h.not_wraps hsize haccepts)
  | put haccepts hfits hlays =>
    obtain ⟨-, hroom⟩ := haccepts
    have hcfg := cfg.lt
    have hlt := (s.word .confirmedPos).toNat_lt
    have hheader : walEntryHeaderSize = 24 := rfl
    have hmove : (s'.word .writePos).toNat =
        (s.word .writePos).toNat + entrySize data.len := by
      rw [hlays.writePos]
      refine toNat_add_ofNat ?_
      show (s.word .writePos).toNat + entrySize data.len < 2 ^ 64
      unfold Overrun at h
      omega
    rw [h.used] at hroom
    unfold Overrun at h ⊢
    rw [hlays.keeps .confirmedPos (by decide) (by decide), hmove]
    omega

/-- How it comes to that. -/
theorem Appends.overrun {type : UInt16} {data : Payload} {seq : UInt64}
    (h : Appends cfg type data s seq s') (hclean : WrapsClean cfg (entrySize data.len) s)
    (hused : (s.word .writePos - s.word .confirmedPos).toNat ≤ cfg.bufferSize)
    (hover : 2 ^ 64 ≤ (s.word .writePos).toNat + takes cfg (entrySize data.len) s) :
    Overrun cfg s' := by
  have hsize := entrySize_le data.len
  have hpos := entrySize_pos data.len
  have hcfg := cfg.lt
  have hheader : walEntryHeaderSize = 24 := rfl
  induction h with
  | @refused s hnot =>
    have hlt := (s.word .writePos).toNat_lt
    rw [takes, if_neg hnot] at hover
    omega
  | @put s s' haccepts hfits hlays =>
    obtain ⟨hmax, hroom⟩ := haccepts
    have hlt := (s.word .confirmedPos).toNat_lt
    have hwrite := (s.word .writePos).toNat_lt
    have hmove : (s'.word .writePos).toNat =
        ((s.word .writePos).toNat + entrySize data.len) % 2 ^ 64 := by
      rw [hlays.writePos, UInt64.toNat_add, UInt64.toNat_ofNat']
      show ((s.word .writePos).toNat + entrySize data.len % 2 ^ 64) % 2 ^ 64 = _
      rw [Nat.add_mod_mod]
    rw [takes, if_pos ⟨hmax, hroom⟩, if_neg fun h => hfits h.1, stride, if_neg hfits] at hover
    rw [UInt64.toNat_sub] at hused hroom
    unfold Overrun
    rw [hlays.keeps .confirmedPos (by decide) (by decide), hmove]
    omega
  | @wrapped s t s' seq haccepts hwraps hlays hrest ih =>
    have hmove := hlays.writePos_skip hclean hpos hsize haccepts hwraps
    have htakes := hlays.takes_skip hclean hpos hsize haccepts hwraps hused
    have hnext := hlays.wrapsClean_skip hclean hpos hsize haccepts hwraps hused
    have hlt := hwraps.lapRest_lt hpos
    have hconfirmed := hlays.keeps .confirmedPos (by decide) (by decide)
    have hbelow := (s.word .confirmedPos).toNat_lt
    have hwrite := (s.word .writePos).toNat_lt
    obtain ⟨-, hroom⟩ := haccepts
    rw [UInt64.toNat_sub] at hused hroom
    by_cases hskip : (s.word .writePos).toNat + lapRest cfg s < 2 ^ 64
    · rw [Nat.mod_eq_of_lt hskip] at hmove
      refine ih hnext ?_ ?_
      · rw [UInt64.toNat_sub, hconfirmed, hmove]
        omega
      · rw [hmove]
        omega
    · -- the skip record ends beyond `2^64`
      have hround : Overrun cfg t := by
        unfold Overrun
        rw [hconfirmed, hmove]
        omega
      exact hround.appends hrest

end Overrun

-- ---------------------------------------------------------------------------
-- Calls
-- ---------------------------------------------------------------------------

section Calls

variable {p : Process}

theorem Overrun.call_append (h : Overrun cfg p.mapping.memory) (type : UInt16) (data : Payload)
    (now : UInt64) :
    ∃ seq memory, p.call cfg (.append type data now) =
        some (p.after memory (appendedRecord seq now type data)) ∧
      Appends cfg type data (p.atClock now) seq memory ∧ Overrun cfg memory := by
  obtain ⟨seq, memory, hcall, happends⟩ :=
    ShmRing.call_append type now h.used_le (h.wrapsClean (entrySize_le data.len))
  have hclock : Overrun cfg (p.atClock now) := h
  exact ⟨seq, memory, hcall, happends, hclock.appends happends⟩

theorem call_readUnconfirmed_of_le
    (h : p.mapping.memory.word .writePos ≤ p.mapping.memory.word .confirmedPos) (maxCount : Nat) :
    p.call cfg (.readUnconfirmed maxCount) =
      some (p.after p.mapping.memory [.listed maxCount []]) := by
  rw [Process.call, eval_readUnconfirmedCall_of_le cfg h]
  rfl

theorem call_confirm_of_le
    (h : p.mapping.memory.word .writePos ≤ p.mapping.memory.word .confirmedPos) (seq : UInt64) :
    p.call cfg (.confirm seq) = some (p.after p.mapping.memory [.confirmed seq]) := by
  rw [Process.call, eval_confirmCall_of_le cfg h]
  rfl

theorem call_confirmBatch_of_le
    (h : p.mapping.memory.word .writePos ≤ p.mapping.memory.word .confirmedPos) (count : Nat) :
    p.call cfg (.confirmBatch count) =
      some (p.after p.mapping.memory [.batchConfirmed count]) := by
  rw [Process.call, eval_confirmBatchCall_of_le cfg h]
  rfl

theorem call_readNext_of_le (h : p.mapping.memory.word .writePos ≤ p.mapping.memory.word .readPos)
    (maxLen : Nat) :
    p.call cfg (.readNext maxLen) = some (p.after p.mapping.memory [.nothing]) := by
  rw [Process.call, eval_readNextCall_of_le cfg h]
  rfl

end Calls

end Zrtools.ShmRing
