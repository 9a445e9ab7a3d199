import Zrtools.ShmRing.Scan

/-!
# zrtools — the readers on corrupted memory (`zrt_shm_ring.h`)

The checksum does not cover `data_len`, and a skip record has no checksum that is looked at.
A wrong length sends a reader to a place where no record begins, behind the buffer or past
`write_pos`.

* `Survives` — every call of a reader returns, stays inside the buffer and leaves the positions
  at or before `write_pos`;
* `Sound` — the lengths lead from `confirmed_pos` and from `read_pos` to `write_pos`, and no
  record reaches over the end of the buffer;
* `survives_iff` — exactly then the readers survive.
-/

namespace Zrtools.ShmRing

open ByteMemory LittleEndian SharedMemory Wal

variable {cfg : Sizes}

-- ---------------------------------------------------------------------------
-- What is asked
-- ---------------------------------------------------------------------------

/-- A call returns, touches no byte outside the buffer and leaves `read_pos` and
`confirmed_pos` at or before `write_pos`. -/
structure Harmless (cfg : Sizes) {α : Type} (call : Code (Option α)) (s : Memory) : Prop where
  returns : (call.eval s).1.isSome
  within : Prog.Stays (Prog.Within (bufferOnly cfg)) call s
  readPos_le : (call.eval s).2.word .readPos ≤ (call.eval s).2.word .writePos
  confirmedPos_le : (call.eval s).2.word .confirmedPos ≤ (call.eval s).2.word .writePos

/-- The readers, whatever their arguments. -/
structure Survives (cfg : Sizes) (s : Memory) : Prop where
  readNext : ∀ maxLen, Harmless cfg (readNextCall cfg maxLen) s
  readUnconfirmed : ∀ maxCount, Harmless cfg (readUnconfirmedCall cfg maxCount) s
  confirm : ∀ seq, Harmless cfg (confirmCall cfg seq) s
  confirmBatch : ∀ count, Harmless cfg (confirmBatchCall cfg count) s

/-- The bytes of a record that a reader looks at are in the buffer. -/
def InsideAt (cfg : Sizes) (m : Mem) (pos : UInt64) : Prop :=
  offsetOf cfg pos + 20 ≤ cfg.bufferSize ∧
    (¬ SkipAt m (offsetOf cfg pos) →
      offsetOf cfg pos + walEntryHeaderSize + (headerAt m (offsetOf cfg pos)).dataLen.toNat ≤
        cfg.bufferSize)

/-- The lengths lead to `write_pos`. -/
structure Sound (cfg : Sizes) (s : Memory) : Prop where
  unconfirmed : ∃ l, Scan cfg s (s.word .confirmedPos) l (s.word .writePos) ∧
    ∀ pos ∈ l, InsideAt cfg (s.byte ()) pos
  unread : ∃ l e, ReadScan cfg s (s.word .readPos) l e ∧
    (∀ pos ∈ l, InsideAt cfg (s.byte ()) pos) ∧
    if e < s.word .writePos then
      InsideAt cfg (s.byte ()) e ∧ nextPos cfg (s.byte ()) e ≤ s.word .writePos
    else e = s.word .writePos

-- ---------------------------------------------------------------------------
-- One turn
-- ---------------------------------------------------------------------------

section Turns

variable (s : Memory) (pos writePos : UInt64)

/-- The test for a skip record looks at bytes before the end of `data_len`. -/
theorem skip_fields {off : Nat} {c : Prop} (h : off + 20 ≤ cfg.bufferSize) :
    off + 8 ≤ cfg.bufferSize ∧ (c → off + 18 ≤ cfg.bufferSize) :=
  ⟨by omega, fun _ => by omega⟩

theorem within_readUnconfirmedAt {maxCount : Nat} {entries : List Copy}
    (h : pos < writePos ∧ entries.length < maxCount) :
    Prog.Stays (Prog.Within (bufferOnly cfg)) (readUnconfirmedAt cfg maxCount
      (pos, writePos, entries)) s ↔ InsideAt cfg (s.byte ()) pos := by
  set off := offsetOf cfg pos with hoff
  unfold InsideAt
  rw [readUnconfirmedAt, if_pos h, Prog.stays_bind, within_loadDataLen, eval_loadDataLen]
  dsimp only
  rw [Prog.stays_bind, within_isSkip, eval_isSkip]
  dsimp only
  refine and_congr_right fun hlen => ?_
  rw [and_iff_right (skip_fields hlen)]
  by_cases hskip : SkipAt (s.byte ()) (offsetOf cfg pos)
  · rw [if_pos (decide_eq_true hskip)]
    exact iff_of_true (Prog.stays_pure _ _) fun hnot => absurd hskip hnot
  · rw [if_neg (by simpa using hskip), Prog.stays_bind, within_validateCrcAt,
      eval_validateCrcAt, forall_prop_of_true hskip]
    refine ⟨fun h => h.1, fun hbody => ⟨hbody, ?_⟩⟩
    split
    · rw [Prog.stays_bind, within_copyEntry]
      exact ⟨hbody, Prog.stays_pure _ _⟩
    · exact Prog.stays_pure _ _

/-- A turn that only leaves the loop. -/
theorem within_readUnconfirmedAt_done {maxCount : Nat} {entries : List Copy}
    (h : ¬ (pos < writePos ∧ entries.length < maxCount)) :
    Prog.Stays (Prog.Within (bufferOnly cfg)) (readUnconfirmedAt cfg maxCount
      (pos, writePos, entries)) s := by
  rw [readUnconfirmedAt, if_neg h]
  exact Prog.stays_pure _ _

theorem within_confirmAt {seq : UInt64}
    (h : pos < writePos → offsetOf cfg pos + 20 ≤ cfg.bufferSize) :
    Prog.Stays (Prog.Within (bufferOnly cfg)) (confirmAt cfg seq (pos, writePos)) s := by
  set off := offsetOf cfg pos with hoff
  rw [confirmAt]
  split
  · rename_i hlt
    have hlen := h hlt
    have hseq : ∀ t : Memory, Prog.Stays (Prog.Within (bufferOnly cfg)) (loadSeq off) t :=
      fun t => within_loadSeq.mpr (by omega)
    rw [Prog.stays_bind, within_loadDataLen]
    refine ⟨hlen, ?_⟩
    rw [Prog.stays_bind]
    refine ⟨hseq _, ?_⟩
    split
    · rw [Prog.stays_bind]
      exact ⟨Prog.within_store _ _ _, Prog.stays_pure _ _⟩
    · rw [Prog.stays_bind]
      refine ⟨hseq _, ?_⟩
      split <;> exact Prog.stays_pure _ _
  · exact Prog.stays_pure _ _

theorem within_confirmBatchAt {count confirmed : Nat}
    (h : pos < writePos → offsetOf cfg pos + 20 ≤ cfg.bufferSize) :
    Prog.Stays (Prog.Within (bufferOnly cfg)) (confirmBatchAt cfg count
      (pos, writePos, confirmed)) s := by
  set off := offsetOf cfg pos with hoff
  rw [confirmBatchAt]
  split
  · rename_i hlt
    have hlen := h hlt.1
    rw [Prog.stays_bind, within_loadDataLen]
    refine ⟨hlen, ?_⟩
    rw [Prog.stays_bind, within_isSkip]
    exact ⟨skip_fields hlen, Prog.stays_pure _ _⟩
  · rw [Prog.stays_bind]
    exact ⟨Prog.within_store _ _ _, Prog.stays_pure _ _⟩

theorem within_passOver {α : Type} {off : Nat} {readPos : UInt64} :
    Prog.Stays (Prog.Within (bufferOnly cfg))
      (passOver readPos off : Code (Flow Unit α)) s ↔ off + 20 ≤ cfg.bufferSize := by
  rw [passOver, Prog.stays_bind, within_loadDataLen, Prog.stays_bind]
  exact and_iff_left ⟨Prog.within_store _ _ _, Prog.stays_pure _ _⟩

theorem within_takeEntry {off maxLen : Nat} {readPos : UInt64}
    (h : off + walEntryHeaderSize + (headerAt (s.byte ()) off).dataLen.toNat ≤ cfg.bufferSize) :
    Prog.Stays (Prog.Within (bufferOnly cfg)) (takeEntry maxLen readPos off) s := by
  have hheader : walEntryHeaderSize = 24 := rfl
  rw [takeEntry, Prog.stays_bind, Prog.within_loadBytes, Prog.eval_loadBytes]
  dsimp only
  rw [← headerAt, Prog.stays_bind]
  refine ⟨Or.inr (show off + 24 ≤ cfg.bufferSize by omega), ?_⟩
  refine ⟨?_, ?_⟩
  · unfold copyData
    split
    · refine Prog.within_loadBytes.mpr (Or.inr ?_)
      show off + 24 + min _ _ ≤ cfg.bufferSize
      omega
    · exact Prog.stays_pure _ _
  · rw [Prog.stays_bind]
    exact ⟨Prog.within_store _ _ _, Prog.stays_pure _ _⟩

theorem within_readNext {maxLen : Nat} (h : s.word .readPos < s.word .writePos) :
    Prog.Stays (Prog.Within (bufferOnly cfg)) (readNext cfg maxLen) s ↔
      InsideAt cfg (s.byte ()) (s.word .readPos) := by
  have hheader : walEntryHeaderSize = 24 := rfl
  set off := offsetOf cfg (s.word .readPos) with hoff
  unfold InsideAt
  rw [readNext, Prog.within_load_bind, Prog.within_load_bind, if_neg (UInt64.not_le.mpr h),
    Prog.stays_bind, within_isSkip, eval_isSkip]
  dsimp only
  by_cases hskip : SkipAt (s.byte ()) (offsetOf cfg (s.word .readPos))
  · rw [if_pos (decide_eq_true hskip), within_passOver]
    exact ⟨fun h => ⟨h.2, fun hnot => absurd hskip hnot⟩, fun h => ⟨skip_fields h.1, h.1⟩⟩
  · rw [if_neg (by simpa using hskip), Prog.stays_bind, within_validateCrcAt,
      eval_validateCrcAt, forall_prop_of_true hskip]
    refine ⟨?_, ?_⟩
    · rintro ⟨-, hbody, -⟩
      have hroom : off + walEntryHeaderSize + (headerAt (s.byte ()) off).dataLen.toNat ≤
        cfg.bufferSize := hbody
      exact ⟨show off + 20 ≤ cfg.bufferSize by omega, hroom⟩
    · rintro ⟨hlen, hbody⟩
      refine ⟨skip_fields hlen, hbody, ?_⟩
      split
      · exact within_takeEntry s hbody
      · exact (within_passOver s).mpr hlen

theorem within_readNext_done {maxLen : Nat} (h : ¬ s.word .readPos < s.word .writePos) :
    Prog.Stays (Prog.Within (bufferOnly cfg)) (readNext cfg maxLen) s := by
  rw [readNext, Prog.within_load_bind, Prog.within_load_bind, if_pos (UInt64.not_lt.mp h)]
  exact Prog.stays_pure _ _

/-- At a position that `ReadNext` has come to. -/
theorem within_readNext_at {maxLen : Nat} :
    Prog.Stays (Prog.Within (bufferOnly cfg)) (readNext cfg maxLen) (s.setWord .readPos pos) ↔
      (pos < s.word .writePos → InsideAt cfg (s.byte ()) pos) := by
  have hpos : (s.setWord .readPos pos).word .readPos = pos := Shared.word_setWord_self ..
  have hahead := readPos_lt_setReadPos_iff s pos
  by_cases hlt : pos < s.word .writePos
  · rw [within_readNext _ (hahead.mpr hlt), hpos, Shared.byte_setWord, forall_prop_of_true hlt]
  · exact iff_of_true (within_readNext_done _ fun h => hlt (hahead.mp h)) fun h => absurd h hlt

end Turns

-- ---------------------------------------------------------------------------
-- Sound memory
-- ---------------------------------------------------------------------------

section Sound

variable {s : Memory} {l : List UInt64} {e : UInt64}

/-- The end of a walk that begins before `write_pos` and the positions on it. -/
theorem le_of_suffix (h : Scan cfg s (s.word .confirmedPos) l (s.word .writePos))
    {rest : List UInt64} (hrest : rest <:+ l) :
    rest.headD (s.word .writePos) ≤ s.word .writePos := by
  cases rest with
  | nil => exact UInt64.le_refl _
  | cons pos rest => exact UInt64.le_of_lt (h.ahead pos (hrest.subset (List.mem_cons_self ..)))

variable (hs : Sound cfg s)

include hs

theorem Sound.confirmedPos_le : s.word .confirmedPos ≤ s.word .writePos := by
  obtain ⟨l, hscan, -⟩ := hs.unconfirmed
  have hle := le_of_suffix hscan (List.suffix_refl l)
  rwa [hscan.headD] at hle

theorem Sound.readPos_le : s.word .readPos ≤ s.word .writePos := by
  obtain ⟨l, e, hscan, -, hend⟩ := hs.unread
  by_cases hlt : s.word .readPos < s.word .writePos
  · exact UInt64.le_of_lt hlt
  · have hwalk : ReadScan cfg s (s.word .readPos) [] (s.word .readPos) :=
      .ended fun h => hlt h.1
    obtain ⟨-, rfl⟩ := hwalk.unique hscan
    rw [if_neg hlt] at hend
    rw [hend]
    exact UInt64.le_refl _

/-- A call that only stores to `confirmed_pos`, and nothing that is too far. -/
theorem Sound.harmless {α : Type} {call : Code (Option α)} {a : α} {pos : UInt64}
    (hcall : call.eval s = (some a, s.setWord .confirmedPos pos))
    (hle : pos ≤ s.word .writePos)
    (hwithin : Prog.Stays (Prog.Within (bufferOnly cfg)) call s) : Harmless cfg call s where
  returns := by
    rw [hcall]
    rfl
  within := hwithin
  readPos_le := by
    rw [hcall]
    exact hs.readPos_le
  confirmedPos_le := by
    rw [hcall, Shared.word_setWord_self]
    exact hle

/-- **`ReadUnconfirmed`** leaves the memory alone. -/
theorem Sound.harmless_readUnconfirmed (maxCount : Nat) :
    Harmless cfg (readUnconfirmedCall cfg maxCount) s := by
  obtain ⟨l, hscan, hinside⟩ := hs.unconfirmed
  have hcall : (readUnconfirmedCall cfg maxCount).eval s =
      (some ((copies cfg (s.byte ()) l).take maxCount),
        s.setWord .confirmedPos (s.word .confirmedPos)) := by
    rw [Shared.setWord_word]
    exact eval_readUnconfirmedCall hscan maxCount
  refine hs.harmless hcall hs.confirmedPos_le ?_
  rw [readUnconfirmedCall, Prog.stays_call]
  refine ⟨?_, fun l' t hstart => ?_⟩
  · rw [ShmRing.readUnconfirmed, Prog.within_load_bind, Prog.within_load_bind]
    exact Prog.stays_pure _ _
  · cases hstart
    refine Prog.stays_loop_walk (walks_readUnconfirmedAt cfg s maxCount) hscan ?_ _ []
    intro x hx entries
    by_cases hgo : x < s.word .writePos ∧ entries.length < maxCount
    · have hmem : x ∈ l := hx.resolve_right fun heq => hscan.not_ahead (heq ▸ hgo.1)
      exact (within_readUnconfirmedAt s x _ hgo).mpr (hinside x hmem)
    · exact within_readUnconfirmedAt_done s x _ hgo

/-- **`Confirm`** moves `confirmed_pos` to a position on the walk. -/
theorem Sound.harmless_confirm (seq : UInt64) : Harmless cfg (confirmCall cfg seq) s := by
  obtain ⟨l, hscan, hinside⟩ := hs.unconfirmed
  have hend : ∃ pos ≤ s.word .writePos,
      (confirmCall cfg seq).eval s = (some (), s.setWord .confirmedPos pos) := by
    have hstay : (some (), s) = (some (), s.setWord .confirmedPos (s.word .confirmedPos)) := by
      rw [Shared.setWord_word]
    rw [eval_confirmCall hscan]
    cases hrest : l.dropWhile fun pos => seqAt cfg (s.byte ()) pos < seq with
    | nil => exact ⟨_, hs.confirmedPos_le, hstay⟩
    | cons pos rest =>
      dsimp only
      split
      · obtain ⟨a, ha⟩ : pos :: rest <:+ l := hrest ▸ List.dropWhile_suffix _
        have hnext : nextPos cfg (s.byte ()) pos = rest.headD (s.word .writePos) :=
          Walk.next_eq (by rwa [ha])
        refine ⟨_, ?_, rfl⟩
        rw [hnext]
        exact le_of_suffix hscan ⟨a ++ [pos], by rw [← ha]; simp⟩
      · exact ⟨_, hs.confirmedPos_le, hstay⟩
  obtain ⟨pos, hle, hcall⟩ := hend
  refine hs.harmless hcall hle ?_
  rw [confirmCall, Prog.stays_call]
  refine ⟨?_, fun l' t hstart => ?_⟩
  · rw [ShmRing.confirm, Prog.within_load_bind, Prog.within_load_bind]
    exact Prog.stays_pure _ _
  · cases hstart
    refine Prog.stays_loop_walk (walks_confirmAt cfg s seq) hscan (fun x hx _ => ?_) _ ()
    refine within_confirmAt s x _ fun hlt => ?_
    exact (hinside x (hx.resolve_right fun heq => hscan.not_ahead (heq ▸ hlt))).1

/-- **`ConfirmBatch`** as well. -/
theorem Sound.harmless_confirmBatch (count : Nat) :
    Harmless cfg (confirmBatchCall cfg count) s := by
  obtain ⟨l, hscan, hinside⟩ := hs.unconfirmed
  refine hs.harmless (eval_confirmBatchCall hscan count)
    (le_of_suffix hscan (dropCounted_suffix ..)) ?_
  rw [confirmBatchCall, Prog.stays_call]
  by_cases hzero : count = 0
  · rw [ShmRing.confirmBatch, if_pos hzero]
    refine ⟨Prog.stays_pure _ _, fun l' t hstart => ?_⟩
    cases hstart
  · rw [ShmRing.confirmBatch, if_neg hzero]
    refine ⟨?_, fun l' t hstart => ?_⟩
    · rw [Prog.within_load_bind, Prog.within_load_bind]
      exact Prog.stays_pure _ _
    · cases hstart
      refine Prog.stays_loop_walk (walks_confirmBatchAt cfg s count) hscan
        (fun x hx confirmed => ?_) _ 0
      refine within_confirmBatchAt s x _ fun hlt => ?_
      exact (hinside x (hx.resolve_right fun heq => hscan.not_ahead (heq ▸ hlt))).1

/-- **`ReadNext`** moves `read_pos` to the end of its walk, or behind the entry there. -/
theorem Sound.harmless_readNext (maxLen : Nat) : Harmless cfg (readNextCall cfg maxLen) s := by
  obtain ⟨l, e, hscan, hinside, hend⟩ := hs.unread
  have hcall := eval_readNextCall hscan maxLen
  have hread : ((readNextCall cfg maxLen).eval s).2 = s.setWord .readPos
      (if e < s.word .writePos then nextPos cfg (s.byte ()) e else e) := by
    rw [hcall]
    split <;> rfl
  have hle : (if e < s.word .writePos then nextPos cfg (s.byte ()) e else e) ≤
      s.word .writePos := by
    by_cases hlt : e < s.word .writePos
    · rw [if_pos hlt] at hend ⊢
      exact hend.2
    · rw [if_neg hlt] at hend ⊢
      rw [hend]
      exact UInt64.le_refl _
  refine ⟨?_, ?_, ?_, ?_⟩
  · rw [hcall]
    split <;> rfl
  · rw [readNextCall_eq, ← Shared.setWord_word s .readPos]
    refine Prog.stays_loop_walk (walks_readNext cfg s maxLen) hscan (fun x hx _ => ?_) _ ()
    rw [within_readNext_at]
    intro hlt
    rcases hx with hmem | rfl
    · exact hinside x hmem
    · rw [if_pos hlt] at hend
      exact hend.1
  · rw [hread, Shared.word_setWord_self]
    exact hle
  · rw [hread]
    exact hs.confirmedPos_le

theorem Sound.survives : Survives cfg s :=
  ⟨hs.harmless_readNext, hs.harmless_readUnconfirmed, hs.harmless_confirm,
    hs.harmless_confirmBatch⟩

end Sound

-- ---------------------------------------------------------------------------
-- Nothing less
-- ---------------------------------------------------------------------------

section Survives

variable {s : Memory} (hs : Survives cfg s)

include hs

/-- `ReadUnconfirmed` with no limit has seen all records, and `ConfirmBatch` has stored where
they end. -/
theorem Survives.unconfirmed :
    ∃ l, Scan cfg s (s.word .confirmedPos) l (s.word .writePos) ∧
      ∀ pos ∈ l, InsideAt cfg (s.byte ()) pos := by
  have hstart : ShmRing.readUnconfirmed.eval s =
      (.again (s.word .confirmedPos, s.word .writePos, []), s) := rfl
  have hread := hs.readUnconfirmed maxTurns
  have hreturns := hread.returns
  have hwithin := hread.within
  rw [readUnconfirmedCall, Prog.eval_call, hstart] at hreturns
  rw [readUnconfirmedCall, Prog.stays_call] at hwithin
  have hroom : ∀ k (pos : UInt64) (entries : List Copy), entries.length + (k + 1) ≤ maxTurns →
      entries.length < maxTurns ∧ (if GoodAt (s.byte ()) (offsetOf cfg pos) then
        entries ++ [copyAt (s.byte ()) (offsetOf cfg pos)] else entries).length + k ≤
          maxTurns := by
    intro k pos entries hle
    refine ⟨by omega, ?_⟩
    split
    · rw [List.length_append, List.length_singleton]
      omega
    · omega
  obtain ⟨l, e, hscan, hlength, hall⟩ := Prog.exists_walk_of_returns
    (fun k entries => entries.length + k ≤ maxTurns) (walks_readUnconfirmedAt cfg s maxTurns)
    hroom [] (by simp) hreturns (hwithin.2 _ _ hstart)
  have hbatch := (hs.confirmBatch maxTurns).confirmedPos_le
  rw [eval_confirmBatchCall hscan, dropCounted_of_length_le (Nat.le_of_lt hlength),
    List.headD_nil, Shared.word_setWord_self] at hbatch
  have hend : e = s.word .writePos :=
    UInt64.le_antisymm hbatch (UInt64.not_lt.mp hscan.not_ahead)
  rw [hend] at hscan
  refine ⟨l, hscan, fun pos hpos => ?_⟩
  obtain ⟨entries, hroom, hstays⟩ := hall pos (Or.inl hpos)
  exact (within_readUnconfirmedAt s pos _ ⟨hscan.ahead pos hpos, hroom⟩).mp hstays

/-- `ReadNext` has passed over records up to an entry or to `write_pos`. -/
theorem Survives.unread :
    ∃ l e, ReadScan cfg s (s.word .readPos) l e ∧
      (∀ pos ∈ l, InsideAt cfg (s.byte ()) pos) ∧
      if e < s.word .writePos then
        InsideAt cfg (s.byte ()) e ∧ nextPos cfg (s.byte ()) e ≤ s.word .writePos
      else e = s.word .writePos := by
  have hread := hs.readNext 0
  have hreturns := hread.returns
  have hwithin := hread.within
  rw [readNextCall_eq, ← Shared.setWord_word s .readPos] at hreturns hwithin
  obtain ⟨l, e, hscan, -, hall⟩ := Prog.exists_walk_of_returns
    (fun _ _ => True) (walks_readNext cfg s 0) (fun _ _ _ _ => ⟨trivial, trivial⟩) ()
    trivial hreturns hwithin
  have hinside : ∀ pos, pos ∈ l ∨ pos = e → pos < s.word .writePos →
      InsideAt cfg (s.byte ()) pos := by
    intro pos hpos
    obtain ⟨-, -, hstays⟩ := hall pos hpos
    exact (within_readNext_at s pos).mp hstays
  refine ⟨l, e, hscan, fun pos hpos => hinside pos (Or.inl hpos) (hscan.ahead pos hpos).1, ?_⟩
  have hle := hread.readPos_le
  rw [eval_readNextCall hscan] at hle
  by_cases hlt : e < s.word .writePos
  · rw [if_pos hlt] at hle ⊢
    exact ⟨hinside e (Or.inr rfl) hlt, hle⟩
  · rw [if_neg hlt] at hle ⊢
    exact UInt64.le_antisymm hle (UInt64.not_lt.mp hlt)

theorem Survives.sound : Sound cfg s := ⟨hs.unconfirmed, hs.unread⟩

end Survives

/-- **The readers survive** iff the lengths in the buffer lead to `write_pos`. -/
theorem survives_iff (s : Memory) : Survives cfg s ↔ Sound cfg s :=
  ⟨Survives.sound, Sound.survives⟩

-- ---------------------------------------------------------------------------
-- A length that leads too far
-- ---------------------------------------------------------------------------

theorem shortSizes_lt : 64 < 2 ^ 63 := by omega

def shortSizes : Sizes := ⟨64, 24, shortSizes_lt⟩

/-- One record up to `write_pos`; all its bytes are zero but those of `data_len`. -/
def longLength : Memory where
  word := fun v => if v = .writePos then 24 else 0
  byte := fun _ i => if i = 18 ∨ i = 19 then 255 else 0

/-- `ReadNext` takes it for a skip record and goes 65560 bytes further. -/
theorem not_survives_longLength :
    ¬ ∀ (cfg : Sizes) (s : Memory), s.word .readPos ≤ s.word .writePos →
      s.word .confirmedPos ≤ s.word .writePos →
      (s.word .writePos).toNat ≤ (s.word .confirmedPos).toNat + cfg.bufferSize →
        Survives cfg s := by
  intro h
  have hread := ((h shortSizes longLength (by decide) (by decide) (by decide)).readNext
    0).readPos_le
  revert hread
  decide +kernel

end Zrtools.ShmRing
