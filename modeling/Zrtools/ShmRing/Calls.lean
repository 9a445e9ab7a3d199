import Zrtools.ShmRing.Model
import Zrtools.Lib.Sequential

/-!
# zrtools — whole calls of the ring (`zrt_shm_ring.h`)

`ReadUnconfirmed` and `ConfirmBatch`, `Reset` and the opening of a segment, and the calls
of a single process as programs that run from their first access to their last, or are
stopped on the way.
-/

namespace Zrtools.ShmRing

open ByteMemory LittleEndian SharedMemory Wal

-- ---------------------------------------------------------------------------
-- The code
-- ---------------------------------------------------------------------------

/-- What a reader hands out: a copy of the header and the payload. -/
abbrev Copy := WalEntryHeader × List UInt8

section Code

variable (cfg : Sizes)

/-- `ReadUnconfirmed(entries, max_count)` before its loop. -/
def readUnconfirmed : Code (Flow (UInt64 × UInt64 × List Copy) (List Copy)) := do
  let pos ← Prog.load .confirmedPos
  let writePos ← Prog.load .writePos
  pure (.again (pos, writePos, []))

/-- The copy that `ReadUnconfirmed` puts into the vector. -/
def copyEntry (off : Nat) : Code Copy := do
  let dataLen ← loadDataLen off
  let data ← Prog.loadBytes () (off + 24) dataLen.toNat
  let header ← Prog.loadBytes () off walEntryHeaderSize
  pure (WalEntryHeader.ofBytes header, data)

/-- One turn of the loop of `ReadUnconfirmed` at `pos`. -/
def readUnconfirmedAt (maxCount : Nat) : UInt64 × UInt64 × List Copy →
    Code (Flow (UInt64 × UInt64 × List Copy) (List Copy))
  | (pos, writePos, entries) =>
    if pos < writePos ∧ entries.length < maxCount then do
      let off := pos.toNat % cfg.bufferSize
      let dataLen ← loadDataLen off
      let pos := pos + UInt64.ofNat (entrySize dataLen)
      let skip ← isSkip off
      if skip then pure (.again (pos, writePos, entries))
      else do
        let valid ← validateCrcAt off
        if valid then do
          let entry ← copyEntry off
          pure (.again (pos, writePos, entries ++ [entry]))
        else pure (.again (pos, writePos, entries))
    else pure (.done entries)

/-- `ConfirmBatch(count)` before its loop. -/
def confirmBatch (count : Nat) : Code (Flow (UInt64 × UInt64 × Nat) Unit) :=
  if count = 0 then pure (.done ())
  else do
    let pos ← Prog.load .confirmedPos
    let writePos ← Prog.load .writePos
    pure (.again (pos, writePos, 0))

/-- One turn of the loop of `ConfirmBatch` at `pos`, and the store behind the loop. -/
def confirmBatchAt (count : Nat) : UInt64 × UInt64 × Nat →
    Code (Flow (UInt64 × UInt64 × Nat) Unit)
  | (pos, writePos, confirmed) =>
    if pos < writePos ∧ confirmed < count then do
      let off := pos.toNat % cfg.bufferSize
      let dataLen ← loadDataLen off
      let skip ← isSkip off
      pure (.again (pos + UInt64.ofNat (entrySize dataLen), writePos,
        if skip then confirmed else confirmed + 1))
    else do
      Prog.store .confirmedPos pos
      pure (.done ())

end Code

-- ---------------------------------------------------------------------------
-- Whole calls
-- ---------------------------------------------------------------------------

section Calls

variable (cfg : Sizes)

/-- A loop that goes on for more turns than there are positions does not return. -/
def maxTurns : Nat := 2 ^ 64

/-- `Append(type, data, len)`; `none` stands for a call that does not return. -/
def appendCall (type : UInt16) (data : Payload) : Code (Option UInt64) :=
  Prog.call (append cfg type data) (fun () => append cfg type data) maxTurns

/-- `ReadNext(entry, data, max_len)`. -/
def readNextCall (maxLen : Nat) : Code (Option (Option Copy)) :=
  Prog.call (readNext cfg maxLen) (fun () => readNext cfg maxLen) maxTurns

/-- `ReadUnconfirmed(entries, max_count)`. -/
def readUnconfirmedCall (maxCount : Nat) : Code (Option (List Copy)) :=
  Prog.call readUnconfirmed (readUnconfirmedAt cfg maxCount) maxTurns

/-- `Confirm(seq)`. -/
def confirmCall (seq : UInt64) : Code (Option Unit) :=
  Prog.call confirm (confirmAt cfg seq) maxTurns

/-- `ConfirmBatch(count)`. -/
def confirmBatchCall (count : Nat) : Code (Option Unit) :=
  Prog.call (confirmBatch count) (confirmBatchAt cfg count) maxTurns

end Calls

-- ---------------------------------------------------------------------------
-- The segment
-- ---------------------------------------------------------------------------

/-- A mapped segment: the first fields of `ShmRingHeader`, its atomics and `buffer_`. -/
structure Mapping where
  magic : UInt32
  version : UInt32
  bufferSize : UInt64
  memory : Memory

/-- `MAGIC_NUMBER`. -/
def magicNumber : UInt32 := 0x5A525752

namespace Mapping

/-- A segment that was just created; behind the buffer lie the bytes `beyond`. -/
def zeroFilled (cfg : Sizes) (beyond : Mem) (now : UInt64) : Mapping where
  magic := 0
  version := 0
  bufferSize := 0
  memory :=
    { word := fun v => if v = .clock then now else 0
      byte := fun _ i => if i < cfg.bufferSize then 0 else beyond i }

def setWord (m : Mapping) (v : Var) (x : UInt64) : Mapping :=
  { m with memory := m.memory.setWord v x }

/-- The stores of `Reset()`, one after the other. Those to the statistics, between the last one
of the header and the first one of the buffer, are left out. -/
def resetStores (cfg : Sizes) : List (Mapping → Mapping) :=
  [fun m => { m with magic := magicNumber },
    fun m => { m with version := 1 },
    fun m => { m with bufferSize := UInt64.ofNat cfg.bufferSize },
    fun m => m.setWord .writePos 0,
    fun m => m.setWord .readPos 0,
    fun m => m.setWord .confirmedPos 0,
    fun m => m.setWord .nextSeq 1] ++
  (List.range cfg.bufferSize).map fun i m => { m with memory := m.memory.setByte () i 0 }

/-- The first `n` stores of `Reset()`. -/
def resetUpTo (cfg : Sizes) (n : Nat) (m : Mapping) : Mapping :=
  ((resetStores cfg).take n).foldl (fun m store => store m) m

/-- `Reset()`. -/
def reset (cfg : Sizes) (m : Mapping) : Mapping :=
  (resetStores cfg).foldl (fun m store => store m) m

/-- `Initialize()` on a segment that exists. -/
def openSegment (cfg : Sizes) (m : Mapping) : Mapping :=
  if m.magic = magicNumber then m else m.reset cfg

/-- `Initialize()` where there is no segment. -/
def createSegment (cfg : Sizes) (beyond : Mem) (now : UInt64) : Mapping :=
  (zeroFilled cfg beyond now).reset cfg

end Mapping

end Zrtools.ShmRing
