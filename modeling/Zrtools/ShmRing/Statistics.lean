import Zrtools.ShmRing.Appends
import Zrtools.ShmRing.Record

/-!
# zrtools — `Append` with everything it stores (`zrt_shm_ring.h`)

`Append` once more, by a process that is alone: with the statistics in the header, which
nothing reads, and with a data pointer that may be null.

* `Full.append`, `Full.appendCall` — the code;
* `eval_writeSkip`, `eval_storeEntry` — what it leaves in the buffer;
* `eval_append_refused`, `eval_append_wraps`, `eval_append_puts` — the three ends of a turn;
* `appendCall_atomics` — what the header's atomics and the buffer see of it is the `Append`
  of the other modules.
-/

namespace Zrtools.ShmRing

open ByteMemory LittleEndian SharedMemory Wal

-- ---------------------------------------------------------------------------
-- The code
-- ---------------------------------------------------------------------------

/-- The words of `ShmRingHeader` that `Append` uses. -/
inductive HeaderWord where
  | atomic (v : Var)
  | totalEntries
  | totalBytes
  | wrapCount
  deriving DecidableEq

theorem atomic_injective : Function.Injective HeaderWord.atomic := fun _ _ h =>
  HeaderWord.atomic.inj h

abbrev FullMemory := Shared HeaderWord Unit

abbrev FullCode (α : Type) := Prog HeaderWord Unit α

/-- The atomics and the buffer. -/
def atomics (s : FullMemory) : Memory := s.pull .atomic

/-- The arguments `data` and `len`. -/
inductive Source where
  | null (len : UInt16)
  | bytes (data : Payload)

namespace Source

def len : Source → UInt16
  | null len => len
  | bytes data => data.len

/-- The payload of the entry, where `stale` is what lay in its place before. -/
def payload (stale : List UInt8) : Source → List UInt8
  | null _ => stale
  | bytes data => data.bytes

theorem length_payload {stale : List UInt8} {data : Source} (h : stale.length = data.len.toNat) :
    (data.payload stale).length = data.len.toNat := by
  cases data with
  | null len => exact h
  | bytes data => exact data.len_toNat.symm

end Source

/-- The fields of the entry of `Append`; the payload is copied where there is one. -/
def storeFields (off : Nat) (seq timestampNs : UInt64) (type : UInt16) (data : Source) :
    Code Unit := do
  Prog.storeBytes () off (encode 8 seq.toNat)
  Prog.storeBytes () (off + 8) (encode 8 timestampNs.toNat)
  Prog.storeBytes () (off + 16) (encode 2 type.toNat)
  Prog.storeBytes () (off + 18) (encode 2 data.len.toNat)
  match data with
  | .null _ => pure ()
  | .bytes data => Prog.storeBytes () (off + 24) data.bytes

/-- The entry of `Append`. -/
def storeEntry (off : Nat) (seq timestampNs : UInt64) (type : UInt16) (data : Source) :
    Code Unit := do
  storeFields off seq timestampNs type data
  updateCrcAt off

/-- `v += x` on a word that is not atomic. -/
def increment (v : HeaderWord) (x : UInt64) : FullCode Unit := do
  let old ← Prog.load v
  Prog.store v (old + x)

namespace Full

variable (cfg : Sizes)

/-- `Append(type, data, len)`; where it calls itself, the program goes `again`. -/
def append (type : UInt16) (data : Source) : FullCode (Flow Unit UInt64) :=
  let size := entrySize data.len
  if cfg.maxEntrySize < size then pure (.done 0)
  else do
    let writePos ← Prog.load (.atomic .writePos)
    let confirmedPos ← Prog.load (.atomic .confirmedPos)
    let used := writePos - confirmedPos
    if cfg.bufferSize < (used.toNat + size) % 2 ^ 64 then pure (.done 0)
    else do
      let seq ← Prog.fetchAdd (.atomic .nextSeq) 1
      let timestampNs ← Prog.load (.atomic .clock)
      let off := writePos.toNat % cfg.bufferSize
      if cfg.bufferSize < off + size then do
        let remaining := cfg.bufferSize - off
        (writeSkip off remaining).rename .atomic
        Prog.store (.atomic .writePos) (writePos + UInt64.ofNat remaining)
        increment .wrapCount 1
        pure (.again ())
      else do
        (storeEntry off seq timestampNs type data).rename .atomic
        Prog.store (.atomic .writePos) (writePos + UInt64.ofNat size)
        increment .totalEntries 1
        increment .totalBytes (UInt64.ofNat size)
        pure (.done seq)

/-- `Append(type, data, len)` that may call itself so many times; `none` stands for a call
that does not return by then. -/
def appendWithin (type : UInt16) (data : Source) (calls : Nat) : FullCode (Option UInt64) :=
  Prog.call (append cfg type data) (fun () => append cfg type data) calls

/-- `Append(type, data, len)`. -/
def appendCall (type : UInt16) (data : Source) : FullCode (Option UInt64) :=
  appendWithin cfg type data maxTurns

end Full

-- ---------------------------------------------------------------------------
-- What goes into the buffer
-- ---------------------------------------------------------------------------

/-- The header that `Append` gives an entry with this payload. -/
def storedHeader (seq timestampNs : UInt64) (type : UInt16) (data : Source)
    (payload : List UInt8) : WalEntryHeader where
  seq := seq
  timestampNs := timestampNs
  type := type
  dataLen := data.len
  crc32 := updateCrc data.len payload

/-- What was in the place of the payload. -/
def stale (m : Mem) (off : Nat) (data : Source) : List UInt8 :=
  slice m (off + walEntryHeaderSize) data.len.toNat

/-- The bytes of the whole entry. -/
def entryBytes (m : Mem) (off : Nat) (seq timestampNs : UInt64) (type : UInt16)
    (data : Source) : List UInt8 :=
  (storedHeader seq timestampNs type data (data.payload (stale m off data))).toBytes ++
    data.payload (stale m off data)

theorem length_entryBytes (m : Mem) (off : Nat) (seq timestampNs : UInt64) (type : UInt16)
    (data : Source) :
    (entryBytes m off seq timestampNs type data).length =
      walEntryHeaderSize + data.len.toNat := by
  have hlen : (data.payload (stale m off data)).length = data.len.toNat :=
    Source.length_payload (length_slice ..)
  rw [entryBytes, List.length_append, WalEntryHeader.length_toBytes, hlen]

/-- The skip record, where there is room for one. -/
theorem eval_writeSkip (off remaining : Nat) (s : Memory) :
    (writeSkip off remaining).eval s =
      ((), if walEntryHeaderSize ≤ remaining then
        s.setRegion () (write (s.byte ()) off (skipHeader remaining).toBytes) else s) := by
  unfold writeSkip
  split
  · simp only [Prog.eval_bind, Prog.eval_storeBytes, Shared.byte_setRegion_self,
      Shared.setRegion_setRegion, skipHeader, WalEntryHeader.toBytes, write_append,
      length_encode]
    rfl
  · rfl

/-- The checksum is worked out from what was just stored. -/
theorem eval_updateCrcAt {off : Nat} {len : UInt16} {payload : List UInt8} {s : Memory}
    (hlen : slice (s.byte ()) (off + 18) 2 = encode 2 len.toNat)
    (hpayload : slice (s.byte ()) (off + 24) len.toNat = payload) :
    (updateCrcAt off).eval s =
      ((), s.setRegion () (write (s.byte ()) (off + 20)
        (encode 4 (updateCrc len payload).toNat))) := by
  have hfield : (headerAt (s.byte ()) off).dataLen = len := by
    rw [headerAt_dataLen, hlen, decode_encode_of_lt len.toNat_lt, UInt16.ofNat_toNat]
  have hcrc : updateCrc len payload =
      if len = 0 then 0 else WalEntryHeader.calcCrc32 payload := rfl
  rw [updateCrcAt, Prog.eval_bind, eval_loadDataLen, hfield, hcrc]
  dsimp only
  split
  · rw [Prog.eval_storeBytes]
    rfl
  · rw [Prog.eval_bind, Prog.eval_loadBytes, hpayload]
    dsimp only
    rw [Prog.eval_storeBytes]

/-- The fields before the checksum. -/
def leadingBytes (seq timestampNs : UInt64) (type : UInt16) (data : Source) : List UInt8 :=
  encode 8 seq.toNat ++ (encode 8 timestampNs.toNat ++ (encode 2 type.toNat ++
    encode 2 data.len.toNat))

theorem length_leadingBytes (seq timestampNs : UInt64) (type : UInt16) (data : Source) :
    (leadingBytes seq timestampNs type data).length = 20 := by
  simp [leadingBytes]

/-- The buffer before `UpdateCrc()`. -/
def unchecked (m : Mem) (off : Nat) (seq timestampNs : UInt64) (type : UInt16)
    (data : Source) : Mem :=
  write (write m off (leadingBytes seq timestampNs type data)) (off + 24)
    (data.payload (stale m off data))

section StoreEntry

variable (off : Nat) (seq timestampNs : UInt64) (type : UInt16) (data : Source)

theorem eval_storeFields (s : Memory) :
    (storeFields off seq timestampNs type data).eval s =
      ((), s.setRegion () (unchecked (s.byte ()) off seq timestampNs type data)) := by
  have hlength := length_leadingBytes seq timestampNs type data
  have hsame : stale (s.byte ()) off data =
      slice (write (s.byte ()) off (leadingBytes seq timestampNs type data)) (off + 24)
        data.len.toNat := by
    rw [slice_write_of_disjoint (Or.inr (by omega))]
    rfl
  unfold storeFields
  cases data with
  | null len =>
    rw [unchecked, Source.payload, hsame]
    simp only [Source.len, write_slice, leadingBytes, Prog.eval_bind, Prog.eval_storeBytes,
      Shared.byte_setRegion_self, Shared.setRegion_setRegion, write_append, length_encode,
      Nat.add_assoc]
    rfl
  | bytes data =>
    rw [unchecked, Source.payload, leadingBytes]
    simp only [Prog.eval_bind, Prog.eval_storeBytes, Shared.byte_setRegion_self,
      Shared.setRegion_setRegion, write_append, length_encode, Nat.add_assoc]

/-- What `UpdateCrc()` finds in `data_len`. -/
theorem slice_dataLen_unchecked (m : Mem) :
    slice (unchecked m off seq timestampNs type data) (off + 18) 2 =
      encode 2 data.len.toNat := by
  have hlength := length_leadingBytes seq timestampNs type data
  have hself := slice_write_self m off (leadingBytes seq timestampNs type data)
  have hsplit : leadingBytes seq timestampNs type data = (encode 8 seq.toNat ++
      (encode 8 timestampNs.toNat ++ encode 2 type.toNat)) ++
        (encode 2 data.len.toNat ++ []) := by
    simp [leadingBytes]
  have hmiddle := slice_middle (hself.trans hsplit)
  simp only [List.length_append, length_encode] at hmiddle
  rw [unchecked, slice_write_of_disjoint (Or.inl (by omega))]
  exact hmiddle

/-- What it finds behind the header. -/
theorem slice_data_unchecked (m : Mem) :
    slice (unchecked m off seq timestampNs type data) (off + 24) data.len.toNat =
      data.payload (stale m off data) := by
  have hlen : (data.payload (stale m off data)).length = data.len.toNat :=
    Source.length_payload (length_slice ..)
  rw [unchecked, ← hlen, slice_write_self]

/-- The checksum goes between the fields before it and the payload. -/
theorem write_crc_unchecked (m : Mem) :
    write (unchecked m off seq timestampNs type data) (off + 20)
        (encode 4 (updateCrc data.len (data.payload (stale m off data))).toNat) =
      write m off (entryBytes m off seq timestampNs type data) := by
  set payload := data.payload (stale m off data) with hpayload
  set crc := encode 4 (updateCrc data.len payload).toNat with hcrc
  have hcrcLen : crc.length = 4 := length_encode ..
  have hlength := length_leadingBytes seq timestampNs type data
  have hheader : (storedHeader seq timestampNs type data payload).toBytes =
      leadingBytes seq timestampNs type data ++ crc := by
    simp [storedHeader, WalEntryHeader.toBytes, leadingBytes, hcrc]
  rw [unchecked, ← hpayload, entryBytes, ← hpayload, hheader, write_append, write_append,
    List.length_append, hlength, hcrcLen, write_comm]
  right
  omega

/-- **The entry** as one string of bytes. -/
theorem eval_storeEntry (s : Memory) :
    (storeEntry off seq timestampNs type data).eval s =
      ((), s.setRegion () (write (s.byte ()) off
        (entryBytes (s.byte ()) off seq timestampNs type data))) := by
  rw [storeEntry, Prog.eval_bind, eval_storeFields]
  dsimp only
  rw [eval_updateCrcAt (slice_dataLen_unchecked ..) (slice_data_unchecked ..),
    Shared.byte_setRegion_self, Shared.setRegion_setRegion, write_crc_unchecked]

end StoreEntry

-- ---------------------------------------------------------------------------
-- One turn of Append
-- ---------------------------------------------------------------------------

/-- The memory behind a turn that skips the rest of the lap. -/
def endLap (cfg : Sizes) (s : FullMemory) : FullMemory where
  word
    | .atomic .writePos =>
      s.word (.atomic .writePos) + UInt64.ofNat (lapRest cfg (atomics s))
    | .atomic .nextSeq => s.word (.atomic .nextSeq) + 1
    | .wrapCount => s.word .wrapCount + 1
    | v => s.word v
  byte := fun () =>
    if walEntryHeaderSize ≤ lapRest cfg (atomics s) then
      write (s.byte ()) ((s.word (.atomic .writePos)).toNat % cfg.bufferSize)
        (skipHeader (lapRest cfg (atomics s))).toBytes
    else s.byte ()

/-- The memory behind a turn that puts the entry. -/
def putEntry (cfg : Sizes) (type : UInt16) (data : Source) (s : FullMemory) : FullMemory where
  word
    | .atomic .writePos =>
      s.word (.atomic .writePos) + UInt64.ofNat (entrySize data.len)
    | .atomic .nextSeq => s.word (.atomic .nextSeq) + 1
    | .totalEntries => s.word .totalEntries + 1
    | .totalBytes => s.word .totalBytes + UInt64.ofNat (entrySize data.len)
    | v => s.word v
  byte := fun () =>
    write (s.byte ()) ((s.word (.atomic .writePos)).toNat % cfg.bufferSize)
      (entryBytes (s.byte ()) ((s.word (.atomic .writePos)).toNat % cfg.bufferSize)
        (s.word (.atomic .nextSeq)) (s.word (.atomic .clock)) type data)

section Turn

variable {cfg : Sizes} {type : UInt16} {data : Source} {s : FullMemory}

/-- An entry that is too large, or has no room. -/
theorem eval_append_refused (h : ¬ Accepts cfg (entrySize data.len) (atomics s)) :
    (Full.append cfg type data).eval s = (.done 0, s) := by
  rw [Full.append]
  by_cases hlarge : cfg.maxEntrySize < entrySize data.len
  · rw [if_pos hlarge]
    rfl
  · have hfull : cfg.bufferSize < ((s.word (.atomic .writePos) -
        s.word (.atomic .confirmedPos)).toNat + entrySize data.len) % 2 ^ 64 :=
      Nat.lt_of_not_le fun hroom => h ⟨Nat.le_of_not_lt hlarge, hroom⟩
    rw [if_neg hlarge, Prog.eval_load_bind, Prog.eval_load_bind, if_pos hfull]
    rfl

variable (haccepts : Accepts cfg (entrySize data.len) (atomics s))

include haccepts

/-- What comes behind the two tests. -/
theorem eval_append_accepted :
    (Full.append cfg type data).eval s =
      (if Wraps cfg (entrySize data.len) (atomics s) then (do
        (writeSkip ((s.word (.atomic .writePos)).toNat % cfg.bufferSize)
          (lapRest cfg (atomics s))).rename .atomic
        Prog.store (.atomic .writePos)
          (s.word (.atomic .writePos) + UInt64.ofNat (lapRest cfg (atomics s)))
        increment .wrapCount 1
        pure (.again ()) : FullCode (Flow Unit UInt64))
      else do
        (storeEntry ((s.word (.atomic .writePos)).toNat % cfg.bufferSize)
          (s.word (.atomic .nextSeq)) (s.word (.atomic .clock)) type data).rename .atomic
        Prog.store (.atomic .writePos)
          (s.word (.atomic .writePos) + UInt64.ofNat (entrySize data.len))
        increment .totalEntries 1
        increment .totalBytes (UInt64.ofNat (entrySize data.len))
        pure (.done (s.word (.atomic .nextSeq)))).eval
          (s.setWord (.atomic .nextSeq) (s.word (.atomic .nextSeq) + 1)) := by
  have hroom : ¬ cfg.bufferSize < ((s.word (.atomic .writePos) -
      s.word (.atomic .confirmedPos)).toNat + entrySize data.len) % 2 ^ 64 :=
    Nat.not_lt_of_le haccepts.2
  have hclock : (s.setWord (.atomic .nextSeq) (s.word (.atomic .nextSeq) + 1)).word
      (.atomic .clock) = s.word (.atomic .clock) := Shared.word_setWord_of_ne _ (by decide) _
  rw [Full.append, if_neg (Nat.not_lt_of_le haccepts.1), Prog.eval_load_bind,
    Prog.eval_load_bind, if_neg hroom, Prog.eval_fetchAdd_bind, Prog.eval_load_bind, hclock]
  by_cases hwraps : Wraps cfg (entrySize data.len) (atomics s)
  · rw [if_pos hwraps, if_pos (show cfg.bufferSize <
      (s.word (.atomic .writePos)).toNat % cfg.bufferSize + entrySize data.len from hwraps)]
    rfl
  · rw [if_neg hwraps, if_neg (show ¬ cfg.bufferSize <
      (s.word (.atomic .writePos)).toNat % cfg.bufferSize + entrySize data.len from hwraps)]

/-- An entry that does not fit into the lap. -/
theorem eval_append_wraps (hwraps : Wraps cfg (entrySize data.len) (atomics s)) :
    (Full.append cfg type data).eval s = (.again (), endLap cfg s) := by
  rw [eval_append_accepted haccepts, if_pos hwraps]
  have hskip := Prog.eval_rename_of_setRegion (f := HeaderWord.atomic)
    (p := writeSkip ((s.word (.atomic .writePos)).toNat % cfg.bufferSize)
      (lapRest cfg (atomics s)))
    (s := s.setWord (.atomic .nextSeq) (s.word (.atomic .nextSeq) + 1)) (r := ())
    (a := ()) (m := (endLap cfg s).byte ()) atomic_injective (by
      rw [eval_writeSkip, endLap]
      split
      · rfl
      · exact Prod.ext rfl (Shared.setRegion_byte ..).symm)
  rw [Prog.eval_bind, hskip]
  refine Prod.ext rfl ?_
  refine congrArg₂ Shared.mk (funext fun v => ?_) (funext fun _ => rfl)
  rcases v with (_ | _ | _ | _ | _) | _ | _ | _ <;> rfl

/-- An entry that fits. -/
theorem eval_append_puts (hfits : ¬ Wraps cfg (entrySize data.len) (atomics s)) :
    (Full.append cfg type data).eval s =
      (.done (s.word (.atomic .nextSeq)), putEntry cfg type data s) := by
  rw [eval_append_accepted haccepts, if_neg hfits]
  have hentry := Prog.eval_rename_of_setRegion (f := HeaderWord.atomic)
    (p := storeEntry ((s.word (.atomic .writePos)).toNat % cfg.bufferSize)
      (s.word (.atomic .nextSeq)) (s.word (.atomic .clock)) type data)
    (s := s.setWord (.atomic .nextSeq) (s.word (.atomic .nextSeq) + 1)) (r := ())
    (a := ()) (m := (putEntry cfg type data s).byte ()) atomic_injective
    (eval_storeEntry ..)
  rw [Prog.eval_bind, hentry]
  refine Prod.ext rfl ?_
  refine congrArg₂ Shared.mk (funext fun v => ?_) (funext fun _ => rfl)
  rcases v with (_ | _ | _ | _ | _) | _ | _ | _ <;> rfl

end Turn

-- ---------------------------------------------------------------------------
-- The call
-- ---------------------------------------------------------------------------

section Call

variable {cfg : Sizes} {type : UInt16} {data : Source} {s : FullMemory}

theorem eval_appendWithin_refused (h : ¬ Accepts cfg (entrySize data.len) (atomics s))
    (calls : Nat) : (Full.appendWithin cfg type data calls).eval s = (some 0, s) := by
  rw [Full.appendWithin, Prog.eval_call, eval_append_refused h]

theorem eval_appendWithin_puts (haccepts : Accepts cfg (entrySize data.len) (atomics s))
    (hfits : ¬ Wraps cfg (entrySize data.len) (atomics s)) (calls : Nat) :
    (Full.appendWithin cfg type data calls).eval s =
      (some (s.word (.atomic .nextSeq)), putEntry cfg type data s) := by
  rw [Full.appendWithin, Prog.eval_call, eval_append_puts haccepts hfits]

/-- The nested call is a call like the first one, in the next lap. -/
theorem eval_appendWithin_wraps (haccepts : Accepts cfg (entrySize data.len) (atomics s))
    (hwraps : Wraps cfg (entrySize data.len) (atomics s)) (calls : Nat) :
    (Full.appendWithin cfg type data (calls + 1)).eval s =
      (Full.appendWithin cfg type data calls).eval (endLap cfg s) := by
  rw [Full.appendWithin, Prog.eval_call, eval_append_wraps haccepts hwraps]
  rfl

end Call

-- ---------------------------------------------------------------------------
-- What the atomics see of it
-- ---------------------------------------------------------------------------

section Atomics

variable {cfg : Sizes} {type : UInt16} {data : Payload}

/-- The statistics are no atomics. -/
theorem atomics_increment {v : HeaderWord} (hv : ∀ u, .atomic u ≠ v) (s : FullMemory)
    (x : UInt64) : atomics ((increment v x).eval s).2 = atomics s := by
  refine congrArg₂ Shared.mk (funext fun u => ?_) rfl
  exact Shared.word_setWord_of_ne _ (hv u) _

/-- **One turn** of `append` is one of the code without the statistics. -/
theorem append_atomics :
    Prog.Hides HeaderWord.atomic (Full.append cfg type (.bytes data)) (append cfg type data) := by
  unfold Full.append append
  refine .ite (Prog.hides_pure _) (.bind (Prog.hides_rename atomic_injective (Prog.load _)) ?_)
  intro writePos
  refine .bind (Prog.hides_rename atomic_injective (Prog.load _)) fun confirmedPos => ?_
  refine .ite (Prog.hides_pure _) ?_
  refine .bind (Prog.hides_rename atomic_injective (Prog.fetchAdd _ _)) fun seq => ?_
  refine .bind (Prog.hides_rename atomic_injective (Prog.load _)) fun timestampNs => ?_
  refine .ite ?_ ?_
  · refine .bind (Prog.hides_rename atomic_injective _) fun _ => ?_
    refine .bind (Prog.hides_rename atomic_injective (Prog.store _ _)) fun _ => ?_
    exact .after (fun s => atomics_increment (by simp) s 1) fun _ => Prog.hides_pure _
  · refine .bind (Prog.hides_rename atomic_injective (writeEntry _ _ _ _ _)) fun _ => ?_
    refine .bind (Prog.hides_rename atomic_injective (Prog.store _ _)) fun _ => ?_
    refine .after (fun s => atomics_increment (by simp) s _) fun _ => ?_
    exact .after (fun s => atomics_increment (by simp) s _) fun _ => Prog.hides_pure _

/-- **`Append`** returns the same and leaves the same behind. -/
theorem appendCall_atomics (s : FullMemory) :
    (appendCall cfg type data).eval (atomics s) =
      Prod.map id atomics ((Full.appendCall cfg type (.bytes data)).eval s) :=
  (append_atomics.call (fun _ => append_atomics) maxTurns s).symm

end Atomics

end Zrtools.ShmRing
