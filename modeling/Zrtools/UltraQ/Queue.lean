import Zrtools.Lib.ByteMemory
import Zrtools.Lib.Chain
import Zrtools.Lib.LittleEndian

/-!
# zrtools — the block queue (`ultraq.h`)

`UltraQ` keeps messages in a chain of fixed-size blocks, each message behind an
8-byte header with its length. Blocks that were read to the end go to a second chain
and are used again. Addresses are numbers; a new block gets one that was never used,
with whatever bytes are there.

* `Queue` — the members of the queue and the heap, and what `push` and `pull` do to them;
* `BlockHolds` — which messages the bytes of a block are;
* `BlockHolds.push`, `BlockHolds.pop` — a block gets a message and gives one.
-/

namespace Zrtools.UltraQ

open ByteMemory LittleEndian Chain

-- ---------------------------------------------------------------------------
-- The code
-- ---------------------------------------------------------------------------

/-- `ULTRAQ_BLOCK_BUFFER_SIZE`: room for a header, and an index fits `int64_t`. -/
structure Config where
  bufferSize : Nat
  header_le : 8 ≤ bufferSize
  lt : bufferSize < 2 ^ 63

/-- The macro's default. -/
def defaultConfig : Config := { bufferSize := 1024 * 1024, header_le := by decide, lt := by decide }

/-- `sizeof(Header)`. -/
abbrev headerSize : Nat := 8

abbrev Message := List UInt8

structure Block where
  next : Option Nat
  leftIdx : Nat
  rightIdx : Nat
  buf : Mem

/-- `Block()` and `reset()`: both leave the buffer as it is. -/
def Block.reset (b : Block) : Block := { b with next := none, leftIdx := 0, rightIdx := 0 }

/-- `UltraQ<Mutex>` and the heap of its blocks. -/
structure Queue where
  heap : Nat → Block
  fresh : Nat
  head : Option Nat
  tail : Nat
  emptyHead : Option Nat
  maxBlockNo : Nat
  usedBlockCnt : Nat
  emptyBlockCnt : Nat
  contentSize : Nat

namespace Queue

/-- The constructor. -/
def new (maxBlockNo : Nat) (heap : Nat → Block) : Queue where
  heap := Function.update heap 0 (heap 0).reset
  fresh := 1
  head := some 0
  tail := 0
  emptyHead := none
  maxBlockNo := maxBlockNo
  usedBlockCnt := 1
  emptyBlockCnt := 0
  contentSize := 0

variable (cfg : Config)

/-- `is_block_full(incoming_sz)`, in `size_t`. -/
def isBlockFull (q : Queue) (incomingSz : Nat) : Bool :=
  decide (cfg.bufferSize ≤ ((q.heap q.tail).rightIdx + headerSize + incomingSz) % 2 ^ 64)

/-- `is_full(incoming_sz)`. -/
def isFull (q : Queue) (incomingSz : Nat) : Bool :=
  if q.maxBlockNo ≠ 0 then
    q.usedBlockCnt == q.maxBlockNo && q.isBlockFull cfg incomingSz
  else false

/-- `is_empty()`. -/
def isEmpty (q : Queue) : Bool :=
  match q.head with
  | some h => h == q.tail && (q.heap h).leftIdx == (q.heap q.tail).rightIdx
  | none => false

/-- `push_impl(data, size)`. -/
def pushImpl (q : Queue) (data : Message) : Queue :=
  let b := q.heap q.tail
  let buf := write b.buf b.rightIdx (encode headerSize data.length)
  let buf := write buf (b.rightIdx + headerSize) data
  { q with
    heap := Function.update q.heap q.tail
      { b with buf := buf, rightIdx := b.rightIdx + headerSize + data.length }
    contentSize := q.contentSize + data.length }

/-- The branch of `push` that hangs another block on the tail: the first one of the
empty chain, or else a new one. -/
def addBlock (q : Queue) : Queue :=
  match q.emptyHead with
  | some e =>
    let heap := Function.update q.heap q.tail { q.heap q.tail with next := some e }
    { q with
      heap := Function.update heap e (heap e).reset
      tail := e
      emptyHead := (heap e).next
      usedBlockCnt := q.usedBlockCnt + 1
      emptyBlockCnt := q.emptyBlockCnt - 1 }
  | none =>
    let heap := Function.update q.heap q.fresh (q.heap q.fresh).reset
    { q with
      heap := Function.update heap q.tail { heap q.tail with next := some q.fresh }
      fresh := q.fresh + 1
      tail := q.fresh
      usedBlockCnt := q.usedBlockCnt + 1 }

/-- The part of `push` under its lock. -/
def lockedPush (q : Queue) (data : Message) : Queue :=
  if q.isBlockFull cfg data.length then q.addBlock.pushImpl data else q.pushImpl data

/-- One turn of the loop of `pull`: the head block goes to the empty chain. -/
def recycle (q : Queue) (cur : Nat) : Queue where
  heap := Function.update q.heap cur { q.heap cur with next := q.emptyHead }
  fresh := q.fresh
  head := (q.heap cur).next
  tail := q.tail
  emptyHead := some cur
  maxBlockNo := q.maxBlockNo
  usedBlockCnt := q.usedBlockCnt - 1
  emptyBlockCnt := q.emptyBlockCnt + 1
  contentSize := q.contentSize

/-- `while (is_block_empty())` in `pull`; it stops where `m_head` has become null. -/
def skipEmpty : Nat → Queue → Queue
  | 0, q => q
  | fuel + 1, q =>
    match q.head with
    | none => q
    | some h =>
      if (q.heap h).leftIdx = (q.heap h).rightIdx then skipEmpty fuel (q.recycle h) else q

/-- The part of `pull` under its lock, with the message it copies out. Where `m_head`
has become null, the program reads through a null pointer and there is no message. -/
def lockedPull (q : Queue) : Queue × Option Message :=
  let q := skipEmpty (q.usedBlockCnt + 1) q
  match q.head with
  | none => (q, none)
  | some h =>
    let b := q.heap h
    let bodySize := decode (slice b.buf b.leftIdx headerSize)
    ({ q with
        heap := Function.update q.heap h { b with leftIdx := b.leftIdx + headerSize + bodySize }
        contentSize := q.contentSize - bodySize },
      some (slice b.buf (b.leftIdx + headerSize) bodySize))

theorem maxBlockNo_lockedPush (q : Queue) (data : Message) :
    (q.lockedPush cfg data).maxBlockNo = q.maxBlockNo := by
  unfold lockedPush
  split
  · unfold addBlock
    split
    · rfl
    · rfl
  · rfl

/-- What giving back a block keeps, the loop of `pull` keeps. -/
theorem skipEmpty_keeps {P : Queue → Prop} (hrecycle : ∀ q a, P q → P (q.recycle a)) (fuel : Nat)
    {q : Queue} (h : P q) : P (skipEmpty fuel q) := by
  induction fuel generalizing q with
  | zero => exact h
  | succ fuel ih =>
    unfold skipEmpty
    split
    · exact h
    split
    · exact ih (hrecycle _ _ h)
    · exact h

/-- What giving back a block and moving the first index of one keep, `pull` keeps. -/
theorem lockedPull_keeps {P : Queue → Prop} (hrecycle : ∀ q a, P q → P (q.recycle a))
    (hread : ∀ q a n size, P q → P { q with
      heap := Function.update q.heap a { q.heap a with leftIdx := n }
      contentSize := size })
    {q : Queue} (h : P q) : P q.lockedPull.1 := by
  have hskip := skipEmpty_keeps hrecycle (q.usedBlockCnt + 1) h
  unfold lockedPull
  simp only
  split
  · exact hskip
  · exact hread _ _ _ _ hskip

theorem maxBlockNo_lockedPull (q : Queue) : q.lockedPull.1.maxBlockNo = q.maxBlockNo :=
  lockedPull_keeps (P := fun p => p.maxBlockNo = q.maxBlockNo) (fun _ _ h => h)
    (fun _ _ _ _ h => h) rfl

theorem fresh_lockedPull (q : Queue) : q.lockedPull.1.fresh = q.fresh :=
  lockedPull_keeps (P := fun p => p.fresh = q.fresh) (fun _ _ h => h) (fun _ _ _ _ h => h) rfl

end Queue

-- ---------------------------------------------------------------------------
-- The bytes of a block
-- ---------------------------------------------------------------------------

/-- A message as it lies in a block. -/
def frame (m : Message) : List UInt8 := encode headerSize m.length ++ m

def frames (ms : List Message) : List UInt8 := ms.flatMap frame

theorem length_frame (m : Message) : (frame m).length = headerSize + m.length := by
  simp [frame]

/-- The bytes of a block between its two indices are the messages `ms`. -/
structure BlockHolds (cfg : Config) (b : Block) (ms : List Message) : Prop where
  le : b.leftIdx ≤ b.rightIdx
  fits : b.rightIdx ≤ cfg.bufferSize
  bytes : slice b.buf b.leftIdx (b.rightIdx - b.leftIdx) = frames ms

variable {cfg : Config}

theorem BlockHolds.reset (cfg : Config) (b : Block) : BlockHolds cfg b.reset [] where
  le := Nat.le_refl _
  fits := Nat.zero_le _
  bytes := rfl

theorem BlockHolds.length {b : Block} {ms : List Message} (h : BlockHolds cfg b ms) :
    b.rightIdx - b.leftIdx = (frames ms).length := by
  rw [← h.bytes, length_slice]

/-- The indices meet exactly if no message is left. -/
theorem BlockHolds.empty_iff {b : Block} {ms : List Message} (h : BlockHolds cfg b ms) :
    b.leftIdx = b.rightIdx ↔ ms = [] := by
  have hlen := h.length
  have hle := h.le
  refine ⟨?_, ?_⟩
  · intro heq
    cases ms with
    | nil => rfl
    | cons m ms =>
      have hpos : 0 < (frames (m :: ms)).length := by
        have hheader : 0 < headerSize := by decide
        rw [frames, List.flatMap_cons, List.length_append, length_frame]
        omega
      omega
  · rintro rfl
    have hzero : (frames []).length = 0 := rfl
    omega

/-- `push_impl` writes one more message. -/
theorem BlockHolds.push {b : Block} {ms : List Message} (h : BlockHolds cfg b ms) {m : Message}
    (hroom : b.rightIdx + headerSize + m.length ≤ cfg.bufferSize) :
    BlockHolds cfg
      { b with
        buf := write (write b.buf b.rightIdx (encode headerSize m.length))
          (b.rightIdx + headerSize) m
        rightIdx := b.rightIdx + headerSize + m.length } (ms ++ [m]) where
  le := by
    have := h.le
    show b.leftIdx ≤ b.rightIdx + headerSize + m.length
    omega
  fits := hroom
  bytes := by
    have hle := h.le
    have hsplit : b.leftIdx + (b.rightIdx - b.leftIdx) = b.rightIdx := by omega
    have hlen : (encode headerSize m.length).length = headerSize := length_encode ..
    -- first the header behind the old messages, then the body behind the header
    have hheader := slice_write_append b.buf b.leftIdx (b.rightIdx - b.leftIdx)
      (encode headerSize m.length)
    rw [hsplit, hlen, h.bytes] at hheader
    have hbody := slice_write_append (write b.buf b.rightIdx (encode headerSize m.length))
      b.leftIdx (b.rightIdx - b.leftIdx + headerSize) m
    rw [← Nat.add_assoc, hsplit, hheader] at hbody
    have hwidth : b.rightIdx + headerSize + m.length - b.leftIdx =
        b.rightIdx - b.leftIdx + headerSize + m.length := by omega
    show slice _ b.leftIdx (b.rightIdx + headerSize + m.length - b.leftIdx) = _
    rw [hwidth, hbody]
    simp [frames, frame]

/-- Reading the first message of a block. -/
theorem BlockHolds.pop {b : Block} {m : Message} {ms : List Message}
    (h : BlockHolds cfg b (m :: ms)) :
    decode (slice b.buf b.leftIdx headerSize) = m.length ∧
      slice b.buf (b.leftIdx + headerSize) m.length = m ∧
      BlockHolds cfg { b with leftIdx := b.leftIdx + headerSize + m.length } ms := by
  have hlen := h.length
  have hfits := h.fits
  have hle := h.le
  have hlt := cfg.lt
  have hcons : frames (m :: ms) = encode headerSize m.length ++ (m ++ frames ms) := by
    simp [frames, frame]
  rw [hcons, List.length_append, List.length_append, length_encode] at hlen
  have hsmall : m.length < 256 ^ 8 := by omega
  have hbytes := h.bytes
  rw [hcons] at hbytes
  have hheader : slice b.buf b.leftIdx headerSize = encode headerSize m.length := by
    rw [← take_slice b.buf b.leftIdx (show headerSize ≤ b.rightIdx - b.leftIdx by omega), hbytes,
      List.take_left' (length_encode ..)]
  have hrest : slice b.buf (b.leftIdx + headerSize) (b.rightIdx - b.leftIdx - headerSize) =
      m ++ frames ms := by
    rw [← drop_slice b.buf b.leftIdx (by omega), hbytes, List.drop_left' (length_encode ..)]
  refine ⟨?_, ?_, ?_⟩
  · rw [hheader, decode_encode_of_lt hsmall]
  · rw [← take_slice b.buf (b.leftIdx + headerSize)
      (show m.length ≤ b.rightIdx - b.leftIdx - headerSize by omega), hrest, List.take_left]
  · constructor
    case le =>
      show b.leftIdx + headerSize + m.length ≤ b.rightIdx
      omega
    case fits => exact hfits
    case bytes =>
      have hdrop := drop_slice b.buf (b.leftIdx + headerSize)
        (show m.length ≤ b.rightIdx - b.leftIdx - headerSize by omega)
      rw [hrest, List.drop_left] at hdrop
      have hwidth : b.rightIdx - (b.leftIdx + headerSize + m.length) =
          b.rightIdx - b.leftIdx - headerSize - m.length := by omega
      show slice b.buf (b.leftIdx + headerSize + m.length)
        (b.rightIdx - (b.leftIdx + headerSize + m.length)) = frames ms
      rw [hwidth, ← hdrop]

end Zrtools.UltraQ
