import Zrtools.Lib.Schedule
import Zrtools.Lib.SharedMemory
import Zrtools.Wal.Entry

/-!
# zrtools — the shared-memory ring (`zrt_shm_ring.h`)

`Append`, `ReadNext` and `Confirm` as programs over the words of `ShmRingHeader` and
the bytes of the buffer, and the system of one producer and one consumer. Every load
and store of a word and of a byte is one step. What lies behind the buffer in the
mapping is never written, but may be read. The statistics in the header are left out:
nothing reads them.
-/

namespace Zrtools.ShmRing

open ByteMemory LittleEndian SharedMemory Wal

-- ---------------------------------------------------------------------------
-- The code
-- ---------------------------------------------------------------------------

/-- `BufferSize` and `MaxEntrySize`. The size of a mapping is a signed 64-bit number. -/
structure Sizes where
  bufferSize : Nat
  maxEntrySize : Nat
  lt : bufferSize < 2 ^ 63

/-- Sizes that suit each other, and the longest payload that the clients append. -/
structure Config extends Sizes where
  maxPayload : Nat
  aligned : 8 ∣ bufferSize
  half : 2 * maxEntrySize ≤ bufferSize

instance : Coe Config Sizes := ⟨Config.toSizes⟩

/-- The atomics of `ShmRingHeader`; `clock` is what `DateTimeUTC().Epoch19()` reads. -/
inductive Var where
  | writePos
  | readPos
  | confirmedPos
  | nextSeq
  | clock
  deriving DecidableEq

/-- The one region of bytes is `buffer_`. -/
abbrev Memory := Shared Var Unit

abbrev Code (α : Type) := Prog Var Unit α

/-- `AlignUp(size, alignment)`; the mask of the source is this for a power of two. -/
def alignUp (size alignment : Nat) : Nat := (size + alignment - 1) / alignment * alignment

/-- The space an entry with `dataLen` bytes takes. -/
def entrySize (dataLen : UInt16) : Nat := alignUp (walEntryHeaderSize + dataLen.toNat) 8

/-- `header.seq` of the entry at an offset. -/
def loadSeq (off : Nat) : Code UInt64 := do
  let bytes ← Prog.loadBytes () off 8
  pure (UInt64.ofNat (decode bytes))

/-- `header.type`. -/
def loadType (off : Nat) : Code UInt16 := do
  let bytes ← Prog.loadBytes () (off + 16) 2
  pure (UInt16.ofNat (decode bytes))

/-- `header.data_len`. -/
def loadDataLen (off : Nat) : Code UInt16 := do
  let bytes ← Prog.loadBytes () (off + 18) 2
  pure (UInt16.ofNat (decode bytes))

/-- `header.crc32`. -/
def loadCrc32 (off : Nat) : Code UInt32 := do
  let bytes ← Prog.loadBytes () (off + 20) 4
  pure (UInt32.ofNat (decode bytes))

/-- `UpdateCrc()` on the entry at an offset. -/
def updateCrcAt (off : Nat) : Code Unit := do
  let dataLen ← loadDataLen off
  if dataLen = 0 then Prog.storeBytes () (off + 20) (encode 4 0)
  else
    let data ← Prog.loadBytes () (off + 24) dataLen.toNat
    Prog.storeBytes () (off + 20) (encode 4 (WalEntryHeader.calcCrc32 data).toNat)

/-- `ValidateCrc()`. -/
def validateCrcAt (off : Nat) : Code Bool := do
  let dataLen ← loadDataLen off
  let crc32 ← loadCrc32 off
  if dataLen = 0 then pure (crc32 == 0)
  else
    let data ← Prog.loadBytes () (off + 24) dataLen.toNat
    pure (crc32 == WalEntryHeader.calcCrc32 data)

/-- The skip record of `Append`, where there is room for one. -/
def writeSkip (off remaining : Nat) : Code Unit :=
  if walEntryHeaderSize ≤ remaining then do
    Prog.storeBytes () off (encode 8 0)
    Prog.storeBytes () (off + 8) (encode 8 0)
    Prog.storeBytes () (off + 16) (encode 2 0)
    Prog.storeBytes () (off + 18)
      (encode 2 (UInt16.ofNat (remaining - walEntryHeaderSize)).toNat)
    Prog.storeBytes () (off + 20) (encode 4 0)
  else pure ()

/-- The entry of `Append`. -/
def writeEntry (off : Nat) (seq timestampNs : UInt64) (type : UInt16) (data : Payload) :
    Code Unit := do
  Prog.storeBytes () off (encode 8 seq.toNat)
  Prog.storeBytes () (off + 8) (encode 8 timestampNs.toNat)
  Prog.storeBytes () (off + 16) (encode 2 type.toNat)
  Prog.storeBytes () (off + 18) (encode 2 data.len.toNat)
  Prog.storeBytes () (off + 24) data.bytes
  updateCrcAt off

section Calls

variable (cfg : Sizes)

/-- `Append(type, data, len)`; where it calls itself, the program goes `again`. -/
def append (type : UInt16) (data : Payload) : Code (Flow Unit UInt64) :=
  let size := entrySize data.len
  if cfg.maxEntrySize < size then pure (.done 0)
  else do
    let writePos ← Prog.load .writePos
    let confirmedPos ← Prog.load .confirmedPos
    let used := writePos - confirmedPos
    if cfg.bufferSize < (used.toNat + size) % 2 ^ 64 then pure (.done 0)
    else do
      let seq ← Prog.fetchAdd .nextSeq 1
      let timestampNs ← Prog.load .clock
      let off := writePos.toNat % cfg.bufferSize
      if cfg.bufferSize < off + size then do
        let remaining := cfg.bufferSize - off
        writeSkip off remaining
        Prog.store .writePos (writePos + UInt64.ofNat remaining)
        pure (.again ())
      else do
        writeEntry off seq timestampNs type data
        Prog.store .writePos (writePos + UInt64.ofNat size)
        pure (.done seq)

/-- The test of `ReadNext` for a skip record. -/
def isSkip (off : Nat) : Code Bool := do
  let seq ← loadSeq off
  if seq = 0 then pure true
  else
    let type ← loadType off
    pure (type == 0)

/-- `ReadNext` passes over a record and calls itself. -/
def passOver {α : Type} (readPos : UInt64) (off : Nat) : Code (Flow Unit α) := do
  let dataLen ← loadDataLen off
  Prog.store .readPos (readPos + UInt64.ofNat (entrySize dataLen))
  pure (.again ())

/-- The `memcpy` of `ReadNext`. -/
def copyData (maxLen off : Nat) (dataLen : UInt16) : Code (List UInt8) :=
  if 0 < dataLen then Prog.loadBytes () (off + 24) (min dataLen.toNat maxLen) else pure []

/-- The part of `ReadNext` that gives the entry at an offset to the caller. -/
def takeEntry (maxLen : Nat) (readPos : UInt64) (off : Nat) :
    Code (Flow Unit (Option (WalEntryHeader × List UInt8))) := do
  let header ← Prog.loadBytes () off walEntryHeaderSize
  let entry := WalEntryHeader.ofBytes header
  let data ← copyData maxLen off entry.dataLen
  Prog.store .readPos (readPos + UInt64.ofNat (entrySize entry.dataLen))
  pure (.done (some (entry, data)))

/-- `ReadNext(entry, data, max_len)`. -/
def readNext (maxLen : Nat) : Code (Flow Unit (Option (WalEntryHeader × List UInt8))) := do
  let readPos ← Prog.load .readPos
  let writePos ← Prog.load .writePos
  if writePos ≤ readPos then pure (.done none)
  else do
    let off := readPos.toNat % cfg.bufferSize
    let skip ← isSkip off
    if skip then passOver readPos off
    else do
      let valid ← validateCrcAt off
      if valid then takeEntry maxLen readPos off else passOver readPos off

/-- `Confirm(seq)` before its loop. -/
def confirm : Code (Flow (UInt64 × UInt64) Unit) := do
  let pos ← Prog.load .confirmedPos
  let writePos ← Prog.load .writePos
  pure (.again (pos, writePos))

/-- One turn of the loop of `Confirm(seq)` at `pos`. -/
def confirmAt (seq : UInt64) : UInt64 × UInt64 → Code (Flow (UInt64 × UInt64) Unit)
  | (pos, writePos) =>
    if pos < writePos then do
      let off := pos.toNat % cfg.bufferSize
      let dataLen ← loadDataLen off
      let found ← loadSeq off
      if found = seq then do
        Prog.store .confirmedPos (pos + UInt64.ofNat (entrySize dataLen))
        pure (.done ())
      else do
        let later ← loadSeq off
        if seq < later then pure (.done ())
        else pure (.again (pos + UInt64.ofNat (entrySize dataLen), writePos))
    else pure (.done ())

end Calls

-- ---------------------------------------------------------------------------
-- One producer and one consumer
-- ---------------------------------------------------------------------------

/-- A call of `Append` under way. -/
structure Appending where
  type : UInt16
  data : Payload
  code : Code (Flow Unit UInt64)

/-- The consumer's call under way. -/
inductive Consumer where
  | idle
  | reading (maxLen : Nat) (code : Code (Flow Unit (Option (WalEntryHeader × List UInt8))))
  | confirming (seq : UInt64) (code : Code (Flow (UInt64 × UInt64) Unit))

/-- The ring, its two threads, and the numbers of the headers that were read. -/
structure Sys where
  memory : Memory
  producer : Option Appending
  consumer : Consumer
  read : List UInt64

inductive Action where
  | tick (now : UInt64)
  | append (type : UInt16) (data : Payload)
  | produce
  | readNext (maxLen : Nat)
  | confirm (seq : UInt64)
  | consume

/-- An `Append` that returned a number other than zero, a `ReadNext` that returned an
entry, and a `ReadNext` that returned false. -/
inductive Event where
  | appended (seq : UInt64) (type : UInt16) (payload : List UInt8)
  | delivered (seq : UInt64) (type : UInt16) (payload : List UInt8)
  | nothing
  deriving DecidableEq

/-- `Append` returned; zero means that it failed. -/
def Appending.appended (call : Appending) (seq : UInt64) : List Event :=
  if seq = 0 then [] else [.appended seq call.type call.data.bytes]

/-- `ReadNext` returned. -/
def gaveBack : Option (WalEntryHeader × List UInt8) → List Event
  | some (h, data) => [.delivered h.seq h.type data]
  | none => [.nothing]

namespace Sys

/-- A ring after `Reset()`; behind the buffer lie the bytes `beyond`. -/
def fresh (cfg : Config) (beyond : Mem) (now : UInt64) : Sys where
  memory :=
    { word := fun v => match v with
        | .writePos => 0
        | .readPos => 0
        | .confirmedPos => 0
        | .nextSeq => 1
        | .clock => now
      byte := fun _ i => if i < cfg.bufferSize then 0 else beyond i }
  producer := none
  consumer := .idle
  read := []

variable (cfg : Config)

/-- The next access of `Append`; the call returns with its last one. -/
def produce (s : Sys) (call : Appending) : Option (Sys × Option UInt64) :=
  (call.code.step s.memory).map fun (code, memory) =>
    let code := code.settle fun () => append cfg call.type call.data
    let result := code.returned
    ({ s with
        memory := memory
        producer := if result = none then some { call with code := code } else none },
      result)

/-- The next access of `ReadNext`. -/
def consumeRead (s : Sys) (maxLen : Nat)
    (code : Code (Flow Unit (Option (WalEntryHeader × List UInt8)))) :
    Option (Sys × Option (Option (WalEntryHeader × List UInt8))) :=
  (code.step s.memory).map fun (code, memory) =>
    let code := code.settle fun () => readNext cfg maxLen
    match code.returned with
    | none => ({ s with memory := memory, consumer := .reading maxLen code }, none)
    | some none => ({ s with memory := memory, consumer := .idle }, some none)
    | some (some (h, data)) =>
      ({ s with memory := memory, consumer := .idle, read := s.read ++ [h.seq] },
        some (some (h, data)))

/-- The next access of `Confirm`. -/
def consumeConfirm (s : Sys) (seq : UInt64) (code : Code (Flow (UInt64 × UInt64) Unit)) :
    Option Sys :=
  (code.step s.memory).map fun (code, memory) =>
    let code := code.settle (confirmAt cfg seq)
    { s with
      memory := memory
      consumer := if code.returned = none then .confirming seq code else .idle }

/-- The clients append with a type other than zero, read with room for every payload, and
confirm only numbers that were read. -/
def step (s : Sys) : Action → Option Sys
  | .tick now => some { s with memory := s.memory.setWord .clock now }
  | .append type data =>
    if s.producer.isSome ∨ type = 0 ∨ cfg.maxPayload < data.bytes.length then none
    else
      let code := append cfg type data
      -- an entry that is too large is refused without any access
      some { s with
        producer := if code.returned = none then some { type := type, data := data, code := code }
          else none }
  | .produce =>
    match s.producer with
    | none => none
    | some call => (s.produce cfg call).map Prod.fst
  | .readNext maxLen =>
    match s.consumer with
    | .idle =>
      if cfg.maxPayload ≤ maxLen then
        some { s with consumer := .reading maxLen (readNext cfg maxLen) }
      else none
    | .reading _ _ => none
    | .confirming _ _ => none
  | .confirm seq =>
    match s.consumer with
    | .idle => if seq ∈ s.read then some { s with consumer := .confirming seq confirm } else none
    | .reading _ _ => none
    | .confirming _ _ => none
  | .consume =>
    match s.consumer with
    | .idle => none
    | .reading maxLen code => (s.consumeRead cfg maxLen code).map Prod.fst
    | .confirming seq code => s.consumeConfirm cfg seq code

/-- What the calls return. -/
def events (s : Sys) : Action → List Event
  | .produce =>
    match s.producer with
    | none => []
    | some call => ((s.produce cfg call).bind Prod.snd).elim [] call.appended
  | .consume =>
    match s.consumer with
    | .idle => []
    | .reading maxLen code => ((s.consumeRead cfg maxLen code).bind Prod.snd).elim [] gaveBack
    | .confirming _ _ => []
  | .tick _ => []
  | .append _ _ => []
  | .readNext _ => []
  | .confirm _ => []

end Sys

/-- The triples of the `Append` calls that returned a number other than zero. -/
def appended (past : List Event) : List (UInt64 × UInt16 × List UInt8) :=
  past.filterMap fun e => match e with
    | .appended seq type payload => some (seq, type, payload)
    | .delivered _ _ _ => none
    | .nothing => none

/-- The triples that `ReadNext` returned. -/
def delivered (past : List Event) : List (UInt64 × UInt16 × List UInt8) :=
  past.filterMap fun e => match e with
    | .appended _ _ _ => none
    | .delivered seq type payload => some (seq, type, payload)
    | .nothing => none

end Zrtools.ShmRing
